import HeaderChain.Draft.Commit
import HeaderChain.Proofs.Records

/-!
# What the steps of a commit write

Each step of a commit changes the records of one table. It is followed by what it leaves under the
keys of that table, and that it leaves all other records alone, also those under keys that stand for
no record. The steps that can fail are followed by what they ask for.
-/

namespace HeaderChain

section Changes

variable {α : Type} [Ord α]

/-- The record that changes leave for a member, when `before` is the one before them. -/
def Changes.record? (c : Changes α) (x : α) (before : Option Bytes) : Option Bytes :=
  if x ∈ c.added then some [] else if x ∈ c.removed then none else before

variable [DecidableEq α] [Std.TransOrd α] [Std.LawfulEqOrd α] {c : Changes α} {x : α}

theorem Changes.isSome_record? {before : Option Bytes} :
    (c.record? x before).isSome = c.holds x before.isSome := by
  rw [Bool.eq_iff_iff, holds_iff, record?]
  by_cases hadd : x ∈ c.added <;> by_cases hrem : x ∈ c.removed <;> simp [hadd, hrem]

/-- Records without bytes stay records without bytes. -/
theorem Changes.record?_of_member {before : Bool} :
    c.record? x (if before = true then some [] else none) =
      if c.holds x before = true then some [] else none := by
  simp only [record?, holds_iff]
  by_cases hadd : x ∈ c.added <;> by_cases hrem : x ∈ c.removed <;> simp [hadd, hrem]

end Changes

namespace Store

variable {s s' s'' : Store} {k l : Key} {v : Bytes} {p q : Key → Prop} {height : Height}

/-- Every stored key is the key of one record. -/
def Keyed (s : Store) : Prop :=
  ∀ bytes, (s.records[bytes]?).isSome → ∃ k : Key, k.Proper ∧ k.bytes = bytes

/-- The second store differs from the first in records that satisfy `p` only. -/
def OnlyAt (p : Key → Prop) (s s' : Store) : Prop :=
  ∀ bytes, (∀ k : Key, k.Proper → k.bytes = bytes → ¬ p k) → s'.records[bytes]? = s.records[bytes]?

namespace OnlyAt

theorem get? (h : OnlyAt p s s') (hk : k.Fits) (hp : ¬ p k) : s'.get? k = s.get? k := by
  refine h k.bytes fun l hl heq => ?_
  rwa [(Key.bytes_inj hl.fits hk).mp heq]

theorem get?_of_not_proper (h : OnlyAt p s s') (hk : k.Fits) (hp : ¬ k.Proper) :
    s'.get? k = s.get? k := by
  refine h k.bytes fun l hl heq => absurd ?_ hp
  rwa [(Key.bytes_inj hl.fits hk).mp heq] at hl

theorem keyed (h : OnlyAt p s s') (hs : s.Keyed) : s'.Keyed := by
  intro bytes hb
  by_contra hnone
  rw [h bytes fun k hk heq => absurd ⟨k, hk, heq⟩ hnone] at hb
  exact hnone (hs bytes hb)

theorem refl (p : Key → Prop) (s : Store) : OnlyAt p s s := fun _ _ => rfl

theorem trans (h : OnlyAt p s s') (h' : OnlyAt p s' s'') : OnlyAt p s s'' :=
  fun bytes hb => (h' bytes hb).trans (h bytes hb)

theorem mono (h : OnlyAt p s s') (hpq : ∀ k, p k → q k) : OnlyAt q s s' :=
  fun bytes hb => h bytes fun k hk heq hp => hb k hk heq (hpq k hp)

end OnlyAt

theorem onlyAt_put (hl : l.Proper) : OnlyAt (· = l) s (s.put l v) := by
  intro bytes hb
  have hne : l.bytes ≠ bytes := fun heq => hb l hl heq rfl
  simp [put, Std.TreeMap.getElem?_insert, hne]

theorem onlyAt_erase (hl : l.Proper) : OnlyAt (· = l) s (s.erase l) := by
  intro bytes hb
  have hne : l.bytes ≠ bytes := fun heq => hb l hl heq rfl
  simp [erase, Std.TreeMap.getElem?_erase, hne]

/-! ## Headers -/

def OfHeader (k : Key) : Prop := ∃ hash, k = .header hash

variable {hs : List Header} {h : Header}

theorem putHeaders_cons : s.putHeaders (h :: hs) =
    (s.put (.header h.hash) h.toRecord).putHeaders hs := rfl

theorem onlyAt_putHeaders (hs : List Header) : OnlyAt OfHeader s (s.putHeaders hs) := by
  induction hs generalizing s with
  | nil => exact .refl _ s
  | cons h hs ih =>
    rw [putHeaders_cons]
    apply OnlyAt.trans _ ih
    apply (onlyAt_put (l := .header h.hash) trivial).mono
    rintro _ rfl
    exact ⟨h.hash, rfl⟩

theorem get?_putHeaders_of_not_mem {k : Hash} (hk : ∀ h ∈ hs, h.hash ≠ k) :
    (s.putHeaders hs).get? (.header k) = s.get? (.header k) := by
  induction hs generalizing s with
  | nil => rfl
  | cons h hs ih =>
    have hne : Key.header h.hash ≠ .header k := by simpa using hk h (by simp)
    rw [putHeaders_cons, ih fun h' hmem => hk h' (List.mem_cons_of_mem h hmem),
      get?_put_eq (l := .header h.hash) (k := .header k) trivial trivial, if_neg hne]

theorem get?_putHeaders_of_mem (hmem : h ∈ hs) (hone : ∀ h' ∈ hs, h'.hash = h.hash → h' = h) :
    (s.putHeaders hs).get? (.header h.hash) = some h.toRecord := by
  induction hs generalizing s with
  | nil => simp at hmem
  | cons h' hs ih =>
    rw [putHeaders_cons]
    by_cases hrest : h ∈ hs
    · exact ih hrest fun a ha => hone a (List.mem_cons_of_mem h' ha)
    · have heq : h = h' := (List.mem_cons.mp hmem).resolve_right hrest
      subst heq
      rw [get?_putHeaders_of_not_mem, get?_put]
      intro a ha hsame
      exact hrest (hone a (List.mem_cons_of_mem h ha) hsame ▸ ha)

theorem mem_values {m : Std.TreeMap Hash Header} : h ∈ m.values ↔ ∃ k : Hash, m[k]? = some h := by
  have hvalues : m.values = m.toList.map Prod.snd := by
    change m.foldr (fun _ v l => v :: l) [] = _
    rw [Std.TreeMap.foldr_eq_foldr_toList]
    induction m.toList with
    | nil => rfl
    | cons entry entries ih => rw [List.foldr_cons, ih, List.map_cons]
  simp [hvalues, Std.TreeMap.mem_toList_iff_getElem?_eq_some]

theorem get?_putHeaders {m : Std.TreeMap Hash Header} {k : Hash}
    (hm : ∀ (k : Hash) (h : Header), m[k]? = some h → h.hash = k) :
    (s.putHeaders m.values).get? (.header k) =
      match m[k]? with
      | some h => some h.toRecord
      | none => s.get? (.header k) := by
  cases hk : m[k]? with
  | some h =>
    have hone : ∀ h' ∈ m.values, h'.hash = h.hash → h' = h := by
      intro h' hmem hsame
      obtain ⟨k', hk'⟩ := mem_values.mp hmem
      rw [← hm k' h' hk', hsame, hm k h hk, hk] at hk'
      cases hk'
      rfl
    rw [← hm k h hk]
    exact get?_putHeaders_of_mem (mem_values.mpr ⟨k, hk⟩) hone
  | none =>
    apply get?_putHeaders_of_not_mem
    intro h hmem hsame
    obtain ⟨k', hk'⟩ := mem_values.mp hmem
    rw [← hm k' h hk', hsame, hk] at hk'
    cases hk'

/-! ## The best chain -/

def OfBest (k : Key) : Prop := ∃ height, k = .best height

theorem onlyAt_eraseBest {first : Height} {count : ℕ} (h₀ : 0 ≤ first)
    (h₁ : first + count ≤ Height.greatest + 1) : OnlyAt OfBest s (s.eraseBest first count) := by
  induction count generalizing s first with
  | zero => exact .refl _ s
  | succ count ih =>
    rw [Nat.cast_succ] at h₁
    rw [eraseBest]
    have hfirst : (Key.best first).Proper := ⟨h₀, by lia⟩
    apply OnlyAt.trans _ (ih (by lia) (by lia))
    apply (onlyAt_erase hfirst).mono
    rintro _ rfl
    exact ⟨first, rfl⟩

theorem get?_eraseBest {first : Height} {count : ℕ} (h₀ : 0 ≤ first)
    (h₁ : first + count ≤ Height.greatest + 1) (hheight : (Key.best height).Proper) :
    (s.eraseBest first count).get? (.best height) =
      if first ≤ height ∧ height < first + count then none else s.get? (.best height) := by
  induction count generalizing s first with
  | zero =>
    rw [eraseBest, if_neg]
    simp
  | succ count ih =>
    rw [Nat.cast_succ] at h₁ ⊢
    have hfirst : (Key.best first).Proper := ⟨h₀, by lia⟩
    rw [eraseBest, ih (by lia) (by lia), get?_erase_eq hfirst hheight]
    simp only [Key.best.injEq]
    split_ifs <;> first | rfl | lia

/-- The first of the blocks at the heights after a tip, in ascending order, is the next one, and the
others are at the heights after it. -/
theorem blocks_cons {blocks : List (Height × Hash)} {tip top : Height} {hash : Hash}
    (hsorted : ((height, hash) :: blocks).Pairwise fun a b => a.1 < b.1)
    (hmem : ∀ a, (∃ hash', (a, hash') ∈ (height, hash) :: blocks) ↔ tip < a ∧ a ≤ top) :
    height = tip + 1 ∧ ∀ a, (∃ hash', (a, hash') ∈ blocks) ↔ height < a ∧ a ≤ top := by
  obtain ⟨hfirst, -⟩ := List.pairwise_cons.mp hsorted
  have hin := (hmem height).mp ⟨hash, by simp⟩
  constructor
  · obtain ⟨hash', hmem'⟩ := (hmem (tip + 1)).mpr ⟨by lia, by lia⟩
    rcases List.mem_cons.mp hmem' with heq | hlater
    · cases heq
      rfl
    · have hlt := hfirst _ hlater
      lia
  · intro a
    constructor
    · rintro ⟨hash', hlater⟩
      have hlt := hfirst _ hlater
      have hup := (hmem a).mp ⟨hash', List.mem_cons_of_mem _ hlater⟩
      exact ⟨hlt, hup.2⟩
    · rintro ⟨hlt, hup⟩
      obtain ⟨hash', hlater⟩ := (hmem a).mpr ⟨by lia, hup⟩
      rcases List.mem_cons.mp hlater with heq | hlater
      · cases heq
        lia
      · exact ⟨hash', hlater⟩

/-- Blocks at the heights after a tip, in ascending order, can be appended. -/
theorem append_spec {blocks : List (Height × Hash)} {tip top : Height} (h₀ : 0 ≤ tip)
    (htop : tip ≤ top) (h₁ : top ≤ Height.greatest)
    (hsorted : blocks.Pairwise fun a b => a.1 < b.1)
    (hmem : ∀ height, (∃ hash, (height, hash) ∈ blocks) ↔ tip < height ∧ height ≤ top) :
    ∃ s', s.append tip blocks = .ok (top, s') ∧ OnlyAt OfBest s s' ∧
      (∀ height hash, (height, hash) ∈ blocks → s'.get? (.best height) = some hash.bytes) ∧
      ∀ height, (Key.best height).Proper → (∀ hash, (height, hash) ∉ blocks) →
        s'.get? (.best height) = s.get? (.best height) := by
  induction blocks generalizing s tip with
  | nil =>
    have heq : tip = top := by
      by_contra hne
      obtain ⟨hash, hnil⟩ := (hmem top).mpr ⟨by lia, le_rfl⟩
      simp at hnil
    subst heq
    exact ⟨s, rfl, .refl _ s, by simp, fun _ _ _ => rfl⟩
  | cons block blocks ih =>
    obtain ⟨height, hash⟩ := block
    obtain ⟨hnext, hrest⟩ := blocks_cons hsorted hmem
    have hin := (hmem height).mp ⟨hash, by simp⟩
    have hproper : (Key.best height).Proper := ⟨by lia, by lia⟩
    obtain ⟨s', happend, honly, hput, hkeep⟩ := ih (s := s.put (.best height) hash.bytes) (by lia)
      hin.2 (List.pairwise_cons.mp hsorted).2 hrest
    refine ⟨s', ?_, ?_, ?_, ?_⟩
    · rw [append, if_pos hnext]
      exact happend
    · apply OnlyAt.trans _ honly
      apply (onlyAt_put hproper).mono
      rintro _ rfl
      exact ⟨height, rfl⟩
    · intro a hash' hmem'
      rcases List.mem_cons.mp hmem' with heq | hlater
      · cases heq
        have hout : ∀ hash, (height, hash) ∉ blocks := by
          intro hash hlater
          exact lt_irrefl _ ((hrest height).mp ⟨hash, hlater⟩).1
        rw [hkeep height hproper hout, get?_put]
      · exact hput a hash' hlater
    · intro a ha hout
      have hne : Key.best height ≠ .best a := by
        rintro heq
        cases heq
        exact hout hash (by simp)
      rw [hkeep a ha fun hash' hlater => hout hash' (List.mem_cons_of_mem _ hlater),
        get?_put_eq hproper ha, if_neg hne]

theorem append_ok {blocks : List (Height × Hash)} {tip top : Height}
    (h : s.append tip blocks = .ok (top, s')) :
    tip ≤ top ∧ ∀ a, (∃ hash, (a, hash) ∈ blocks) ↔ tip < a ∧ a ≤ top := by
  induction blocks generalizing s tip with
  | nil =>
    cases h
    refine ⟨le_rfl, fun a => ?_⟩
    simp
  | cons block blocks ih =>
    obtain ⟨height, hash⟩ := block
    rw [append] at h
    split_ifs at h with hnext
    obtain ⟨hle, hrest⟩ := ih h
    refine ⟨by lia, fun a => ?_⟩
    simp only [List.mem_cons, Prod.mk.injEq, exists_or, hrest, exists_and_left, exists_eq, and_true]
    lia

/-! ## Sets -/

section Sets

variable {α : Type} {key : α → Key} {xs : List α}

def OfMember (key : α → Key) (k : Key) : Prop := ∃ x, k = key x

/-- Writing the same under the keys of a list of members, or nothing. -/
theorem foldl_write {write : Store → α → Store} {v : Option Bytes}
    (honly : ∀ s x, OnlyAt (· = key x) s (write s x))
    (hwrite : ∀ s x, (write s x).get? (key x) = v) :
    OnlyAt (OfMember key) s (xs.foldl write s) ∧
      ∀ k : Key, k.Proper →
        (xs.foldl write s).get? k = if k ∈ xs.map key then v else s.get? k := by
  induction xs generalizing s with
  | nil => exact ⟨.refl _ s, fun k _ => by simp⟩
  | cons x xs ih =>
    obtain ⟨hrest, hget⟩ := ih (s := write s x)
    constructor
    · apply OnlyAt.trans _ hrest
      apply (honly s x).mono
      rintro _ rfl
      exact ⟨x, rfl⟩
    · intro k hk
      rw [List.foldl_cons, hget k hk, List.map_cons]
      by_cases hx : k = key x
      · simp [hx, hwrite]
      · simp [hx, (honly s x).get? hk.fits hx]

theorem foldl_put (hkey : ∀ x, (key x).Proper) :
    OnlyAt (OfMember key) s (xs.foldl (fun s x => s.put (key x) []) s) ∧
      ∀ k : Key, k.Proper → (xs.foldl (fun s x => s.put (key x) []) s).get? k =
        if k ∈ xs.map key then some [] else s.get? k :=
  foldl_write (fun _ x => onlyAt_put (hkey x)) (fun _ _ => get?_put _ _ _)

theorem foldl_erase (hkey : ∀ x, (key x).Proper) :
    OnlyAt (OfMember key) s (xs.foldl (fun s x => s.erase (key x)) s) ∧
      ∀ k : Key, k.Proper → (xs.foldl (fun s x => s.erase (key x)) s).get? k =
        if k ∈ xs.map key then none else s.get? k :=
  foldl_write (fun _ x => onlyAt_erase (hkey x)) (fun _ _ => get?_erase _ _)

variable [Ord α] {c : Changes α}

theorem onlyAt_change (hkey : ∀ x, (key x).Proper) : OnlyAt (OfMember key) s (s.change key c) :=
  (foldl_erase hkey).1.trans (foldl_put hkey).1

theorem get?_change [DecidableEq α] [Std.TransOrd α] [Std.LawfulEqOrd α]
    (hkey : ∀ x, (key x).Proper) (hinj : Function.Injective key) (x : α) :
    (s.change key c).get? (key x) = c.record? x (s.get? (key x)) := by
  have hmem (set : Std.TreeSet α) : key x ∈ set.toList.map key ↔ x ∈ set := by
    rw [List.mem_map_of_injective hinj, Std.TreeSet.mem_toList]
  rw [change, (foldl_put hkey).2 _ (hkey x), (foldl_erase hkey).2 _ (hkey x)]
  simp only [hmem, Changes.record?]

end Sets

/-! ## The checkpoint -/

theorem onlyAt_changeCheckpoint {c : CheckpointChange} :
    OnlyAt (· = .checkpoint) s (s.changeCheckpoint c) := by
  cases c with
  | keep => exact .refl _ s
  | set p => exact onlyAt_put (l := .checkpoint) trivial
  | clear => exact onlyAt_erase (l := .checkpoint) trivial

end Store

end HeaderChain
