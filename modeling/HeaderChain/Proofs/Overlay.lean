import HeaderChain.Proofs.BestIndex
import HeaderChain.Proofs.Writing

/-!
# What a commit leaves

A draft can be committed when it goes on from the best chain that is stored: it cuts that chain at
one of its blocks, if at all, and the heights that it stages follow on what is left. A commit asks
for no more. Under every key it leaves the record that the draft says, and it leaves alone what lies
under keys that stand for no record.
-/

namespace HeaderChain

open Store

variable {s s' : Store} {d : Draft} {c : Committed} {height : Height} {p : Position}

theorem bind_eq_ok {ε α β : Type} {x : Except ε α} {f : α → Except ε β} {b : β} :
    (x >>= f) = .ok b ↔ ∃ a, x = .ok a ∧ f a = .ok b := by
  cases x with
  | error cause => simp [bind, Except.bind]
  | ok a => simp [bind, Except.bind]

namespace Store

/-- The best chain has entries at the heights from zero to the tip and nowhere else, whether they
can be read or not. -/
def Indexed (s : Store) : Prop :=
  ∀ height : Height, height.Fits →
    (s.contains (.best height) = true ↔ 0 ≤ height ∧ height ≤ s.tipHeight)

theorem Indexed.isSome_get? (hs : s.Indexed) (hf : height.Fits) :
    (s.get? (.best height)).isSome ↔ 0 ≤ height ∧ height ≤ s.tipHeight := by
  rw [← hs height hf, contains_eq]

theorem Indexed.get?_of_lt (hs : s.Indexed) (hf : height.Fits) (h : s.tipHeight < height) :
    s.get? (.best height) = none := by
  rw [← Option.not_isSome_iff_eq_none, hs.isSome_get? hf]
  lia

theorem Indexed.bestAt?_of_lt (hs : s.Indexed) (h : s.tipHeight < height) :
    s.bestAt? height = none := by
  unfold bestAt?
  split_ifs with hout
  · rfl
  · rw [not_or, not_lt, not_lt] at hout
    rw [hs.get?_of_lt (.of_nonneg hout.1 hout.2) h]
    rfl

/-- The best chain has its entries from zero to the tip, and headers have records under their own
hashes. -/
structure Regular (s : Store) : Prop where
  indexed : s.Indexed
  named : ∀ hash h, s.header? hash = some h → h.hash = hash

theorem tipHeight_of_storedTip (h : s.storedTip = .ok height) : s.tipHeight = height := by
  unfold storedTip at h
  unfold tipHeight
  cases hrecord : s.get? .tip with
  | none => simp [hrecord] at h
  | some record => cases hread : heightOfRecord? record <;> simp_all

theorem storedBest_eq_ok : s.storedBest height = .ok p ↔
    p.height = height ∧ s.get? (.best height) = some p.hash.bytes := by
  unfold storedBest
  cases s.get? (.best height) with
  | none => simp
  | some record =>
    cases hread : Hash.ofBytes? record with
    | none =>
      have hne : record ≠ p.hash.bytes := by
        rintro rfl
        simp at hread
      simp [hread, hne]
    | some hash =>
      obtain rfl := Hash.ofBytes?_eq_some.mp hread
      have hbytes : hash.bytes = p.hash.bytes ↔ hash = p.hash := ⟨Hash.ext, congrArg Hash.bytes⟩
      obtain ⟨top, name⟩ := p
      simp [hbytes, eq_comm]

theorem storedBest_congr (h : s'.get? (.best height) = s.get? (.best height)) :
    s'.storedBest height = s.storedBest height := by
  rw [storedBest, h, storedBest]

theorem storedTip_congr (h : s'.get? .tip = s.get? .tip) : s'.storedTip = s.storedTip := by
  rw [storedTip, h, storedTip]

theorem tipHeight_congr (h : s'.get? .tip = s.get? .tip) : s'.tipHeight = s.tipHeight := by
  rw [tipHeight, h, tipHeight]

/-- Only records that a key stands for matter. -/
theorem Regular.congr (hs : s.Regular) (hget : ∀ k : Key, k.Fits → s'.get? k = s.get? k) :
    s'.Regular := by
  have htip := tipHeight_congr (hget .tip trivial)
  constructor
  · intro height hf
    rw [contains_eq, hget (.best height) hf, htip, hs.indexed.isSome_get? hf]
  · intro hash h hh
    rw [header?_congr (hget (.header hash) trivial)] at hh
    exact hs.named hash h hh

theorem rewind_ok {ancestor : Option Position} {tip left : Height}
    (h : s.rewind tip ancestor = .ok (left, s')) :
    left = (ancestor.map Position.height).getD tip ∧
      ∀ p, ancestor = some p → s.storedBest p.height = .ok p := by
  cases ancestor with
  | none =>
    cases h
    simp
  | some p =>
    obtain ⟨q, hq, hrest⟩ := bind_eq_ok.mp h
    split_ifs at hrest with heq
    cases hrest
    subst heq
    refine ⟨rfl, ?_⟩
    rintro _ ⟨⟩
    exact hq

end Store

namespace Draft

/-- The record that a commit leaves under a key. -/
def written? (d : Draft) : Key → Option Bytes
  | .header k =>
    match d.headers[k]? with
    | some h => some h.toRecord
    | none => d.base.get? (.header k)
  | .best height =>
    match d.best[height]? with
    | some hash => some hash.bytes
    | none => if height ≤ d.keptHeight then d.base.get? (.best height) else none
  | .edge e => d.edges.record? e (d.base.get? (.edge e))
  | .sibling k => d.siblings.record? k (d.base.get? (.sibling k))
  | .tip => some (heightRecord d.tipHeight)
  | .checkpoint =>
    match d.checkpoint with
    | .keep => d.base.get? .checkpoint
    | .set p => some p.toRecord
    | .clear => none
  | .network => d.base.get? .network

/-- Under the keys of all tables but that of headers lies what the draft says. The staged headers
are written one after the other. -/
structure Writes (d : Draft) (s : Store) : Prop where
  header : ∀ k : Hash,
    s.get? (.header k) = (d.base.putHeaders d.headers.values).get? (.header k)
  get? : ∀ k : Key, k.Proper → ¬ OfHeader k → s.get? k = d.written? k
  others : OnlyAt (fun _ => True) d.base s

structure Leaves (d : Draft) (s : Store) : Prop where
  get? : ∀ k : Key, k.Proper → s.get? k = d.written? k
  others : OnlyAt (fun _ => True) d.base s

/-- The draft goes on from the best chain that is stored. -/
structure Joins (d : Draft) : Prop where
  tip : d.base.storedTip = .ok d.base.tipHeight
  best : ∃ p, d.base.storedBest d.base.tipHeight = .ok p
  ancestor : ∀ p, d.ancestor = some p →
    0 ≤ p.height ∧ p.height ≤ d.base.tipHeight ∧ d.base.storedBest p.height = .ok p
  staged : ∀ height, height ∈ d.best ↔ d.keptHeight < height ∧ height ≤ d.tipHeight

theorem bestAt?_of_indexed (hs : d.base.Indexed) : d.bestAt? height =
    match d.best[height]? with
    | some hash => some hash
    | none => if height ≤ d.keptHeight then d.base.bestAt? height else none :=
  bestAt?_of_base fun _ => hs.bestAt?_of_lt

theorem mem_best_toList (d : Draft) (height : Height) (hash : Hash) :
    (height, hash) ∈ d.best.toList ↔ d.best[height]? = some hash :=
  Std.TreeMap.mem_toList_iff_getElem?_eq_some

theorem exists_mem_best_toList (d : Draft) (height : Height) :
    (∃ hash, (height, hash) ∈ d.best.toList) ↔ height ∈ d.best := by
  rw [Std.TreeMap.mem_iff_isSome_getElem?, Option.isSome_iff_exists]
  simp only [mem_best_toList]

theorem joins_mk (htip : s.storedTip = .ok s.tipHeight)
    (hbest : s.storedBest s.tipHeight = .ok p) : ({ base := s } : Draft).Joins := by
  constructor
  case tip => exact htip
  case best => exact ⟨p, hbest⟩
  case ancestor => exact fun _ ha => nomatch ha
  case staged => exact contiguous_mk s

namespace Joins

theorem contiguous (hj : d.Joins) : d.Contiguous := hj.staged

theorem keptHeight_le (hj : d.Joins) (hs : d.base.Indexed) : 0 ≤ d.keptHeight ∧
    d.keptHeight ≤ d.base.tipHeight ∧ d.keptHeight ≤ d.tipHeight := by
  obtain ⟨p, hp⟩ := hj.best
  have htip : (d.base.get? (.best d.base.tipHeight)).isSome :=
    Option.isSome_of_eq_some (storedBest_eq_ok.mp hp).2
  refine ⟨?_, ?_, ?_⟩
  · exact keptHeight_nonneg ((hs.isSome_get? d.base.fits_tipHeight).mp htip).1
      fun p hp => (hj.ancestor p hp).1
  · exact keptHeight_le_base fun p hp => (hj.ancestor p hp).2.1
  · exact hj.contiguous.keptHeight_le

theorem rewind (hj : d.Joins) (hs : d.base.Indexed)
    (heq : ∀ height : Height, height.Fits → s.get? (.best height) = d.base.get? (.best height)) :
    ∃ s', s.rewind d.base.tipHeight d.ancestor = .ok (d.keptHeight, s') ∧ OnlyAt OfBest s s' ∧
      ∀ height, (Key.best height).Proper → s'.get? (.best height) =
        if height ≤ d.keptHeight then d.base.get? (.best height) else none := by
  have htop := d.base.fits_tipHeight.2
  cases ha : d.ancestor with
  | none =>
    have hkept : d.keptHeight = d.base.tipHeight := by simp [keptHeight, ha]
    refine ⟨s, by rw [hkept]; rfl, .refl _ s, ?_⟩
    intro height hheight
    rw [heq height hheight.fits, hkept]
    split_ifs with hle
    · rfl
    · exact hs.get?_of_lt hheight.fits (not_le.mp hle)
  | some p =>
    have hkept : d.keptHeight = p.height := by simp [keptHeight, ha]
    obtain ⟨h₀, hle, hat⟩ := hj.ancestor p ha
    have hstored : s.storedBest p.height = .ok p := by
      rw [storedBest_congr (heq p.height (.of_nonneg h₀ (by lia))), hat]
    have hcount : p.height + 1 + (d.base.tipHeight - p.height).toNat = d.base.tipHeight + 1 := by
      lia
    refine ⟨s.eraseBest (p.height + 1) (d.base.tipHeight - p.height).toNat, ?_,
      onlyAt_eraseBest (by lia) (by lia), ?_⟩
    · rw [Store.rewind, hstored, hkept]
      simp [bind, Except.bind]
      rfl
    · intro height hheight
      rw [get?_eraseBest (by lia) (by lia) hheight, heq height hheight.fits, hkept, hcount]
      split_ifs with h h'
      · lia
      · rfl
      · rfl
      · exact hs.get?_of_lt hheight.fits (by lia)

theorem append (hj : d.Joins) (hs : d.base.Indexed) (hfit : d.tipHeight ≤ Height.greatest)
    (heq : ∀ height, (Key.best height).Proper → s.get? (.best height) =
      if height ≤ d.keptHeight then d.base.get? (.best height) else none) :
    ∃ s', s.append d.keptHeight d.best.toList = .ok (d.tipHeight, s') ∧ OnlyAt OfBest s s' ∧
      ∀ height, (Key.best height).Proper →
        s'.get? (.best height) = d.written? (.best height) := by
  obtain ⟨h₀, -, h₁⟩ := hj.keptHeight_le hs
  have hsorted : d.best.toList.Pairwise fun a b => a.1 < b.1 :=
    d.best.ordered_keys_toList.imp fun h => compare_lt_iff_lt.mp h
  have hheights (height : Height) : (∃ hash, (height, hash) ∈ d.best.toList) ↔
      d.keptHeight < height ∧ height ≤ d.tipHeight :=
    (exists_mem_best_toList d height).trans (hj.staged height)
  obtain ⟨s', happend, honly, hput, hkeep⟩ := append_spec (s := s) h₀ h₁ hfit hsorted hheights
  refine ⟨s', happend, honly, ?_⟩
  intro height hheight
  rw [written?]
  cases hstaged : d.best[height]? with
  | some hash => exact hput height hash ((mem_best_toList d height hash).mpr hstaged)
  | none =>
    rw [hkeep height hheight fun hash => by simp [hstaged], heq height hheight]

/-- The entry that a commit leaves at the tip can be read. -/
theorem written?_tip (hj : d.Joins) (hs : d.base.Indexed) :
    ∃ hash, d.written? (.best d.tipHeight) = some (Hash.bytes hash) := by
  rw [written?]
  cases hstaged : d.best[d.tipHeight]? with
  | some hash => exact ⟨hash, rfl⟩
  | none =>
    have htip : d.tipHeight = d.keptHeight := by
      by_contra hne
      obtain ⟨-, -, hle⟩ := hj.keptHeight_le hs
      have hmem := (hj.staged d.tipHeight).mpr ⟨lt_of_le_of_ne hle (Ne.symm hne), le_rfl⟩
      rw [Std.TreeMap.mem_iff_isSome_getElem?, hstaged] at hmem
      cases hmem
    rw [htip]
    dsimp only
    rw [if_pos le_rfl]
    unfold keptHeight
    cases ha : d.ancestor with
    | none =>
      obtain ⟨p, hp⟩ := hj.best
      exact ⟨p.hash, (storedBest_eq_ok.mp hp).2⟩
    | some p => exact ⟨p.hash, (storedBest_eq_ok.mp (hj.ancestor p ha).2.2).2⟩

end Joins

/-! ## The last steps -/

/-- The last steps of a commit, after the headers and the best chain are written. -/
def finish (d : Draft) (s : Store) : Store :=
  (((s.put .tip (heightRecord d.tipHeight)).change .edge d.edges).change .sibling
    d.siblings).changeCheckpoint d.checkpoint

theorem onlyAt_finish :
    OnlyAt (fun k => ¬ (OfHeader k ∨ OfBest k ∨ k = .network)) s (d.finish s) := by
  have htip := onlyAt_put (s := s) (l := .tip) (v := heightRecord d.tipHeight) trivial
  have hedges (s : Store) : OnlyAt (OfMember .edge) s (s.change .edge d.edges) :=
    onlyAt_change fun _ => trivial
  have hsiblings (s : Store) : OnlyAt (OfMember .sibling) s (s.change .sibling d.siblings) :=
    onlyAt_change fun _ => trivial
  refine (((htip.mono ?_).trans ((hedges _).mono ?_)).trans ((hsiblings _).mono ?_)).trans
    (onlyAt_changeCheckpoint.mono ?_)
  · rintro _ rfl
    simp [OfHeader, OfBest]
  · rintro _ ⟨e, rfl⟩
    simp [OfHeader, OfBest]
  · rintro _ ⟨k, rfl⟩
    simp [OfHeader, OfBest]
  · rintro _ rfl
    simp [OfHeader, OfBest]

theorem get?_finish {k : Key} (hk : k.Proper) (hheader : ¬ OfHeader k) (hbest : ¬ OfBest k)
    (hs : s.get? k = d.base.get? k) : (d.finish s).get? k = d.written? k := by
  have hedge : ∀ e, (Key.edge e).Proper := fun _ => trivial
  have hsibling : ∀ k, (Key.sibling k).Proper := fun _ => trivial
  unfold finish
  set s₁ := s.put .tip (heightRecord d.tipHeight)
  set s₂ := s₁.change .edge d.edges
  set s₃ := s₂.change .sibling d.siblings
  have htips : OnlyAt (· = .tip) s s₁ := onlyAt_put (l := .tip) trivial
  have hedges : OnlyAt (OfMember .edge) s₁ s₂ := onlyAt_change hedge
  have hsiblings : OnlyAt (OfMember .sibling) s₂ s₃ := onlyAt_change hsibling
  have hcheckpoint : OnlyAt (· = .checkpoint) s₃ (s₃.changeCheckpoint d.checkpoint) :=
    onlyAt_changeCheckpoint
  cases k with
  | header k => exact absurd ⟨k, rfl⟩ hheader
  | best height => exact absurd ⟨height, rfl⟩ hbest
  | edge e =>
    rw [hcheckpoint.get? hk.fits (by simp), hsiblings.get? hk.fits (by simp [OfMember]),
      get?_change hedge (fun _ _ h => Key.edge.inj h), htips.get? hk.fits (by simp), hs]
    rfl
  | sibling k =>
    rw [hcheckpoint.get? hk.fits (by simp), get?_change hsibling (fun _ _ h => Key.sibling.inj h),
      hedges.get? hk.fits (by simp [OfMember]), htips.get? hk.fits (by simp), hs]
    rfl
  | tip =>
    rw [hcheckpoint.get? hk.fits (by simp), hsiblings.get? hk.fits (by simp [OfMember]),
      hedges.get? hk.fits (by simp [OfMember])]
    exact get?_put s .tip _
  | checkpoint =>
    have hbefore : s₃.get? .checkpoint = d.base.get? .checkpoint := by
      rw [hsiblings.get? hk.fits (by simp [OfMember]), hedges.get? hk.fits (by simp [OfMember]),
        htips.get? hk.fits (by simp), hs]
    cases hchange : d.checkpoint <;> simp [changeCheckpoint, written?, hchange, hbefore]
  | network =>
    rw [hcheckpoint.get? hk.fits (by simp), hsiblings.get? hk.fits (by simp [OfMember]),
      hedges.get? hk.fits (by simp [OfMember]), htips.get? hk.fits (by simp), hs]
    rfl

/-! ## The whole commit -/

/-- When headers are staged under their own hashes, the draft says what lies under their keys. -/
theorem Writes.leaves (h : d.Writes s)
    (hnamed : ∀ (k : Hash) (h : Header), d.headers[k]? = some h → h.hash = k) : d.Leaves s := by
  refine ⟨fun k hk => ?_, h.others⟩
  by_cases hheader : OfHeader k
  · obtain ⟨k, rfl⟩ := hheader
    rw [h.header, get?_putHeaders hnamed]
    rfl
  · exact h.get? k hk hheader

/-- A draft that goes on from the stored best chain can be committed. -/
theorem Joins.write (hj : d.Joins) (hs : d.base.Indexed) (hfit : d.tipHeight ≤ Height.greatest) :
    ∃ c, d.write = .ok c ∧ d.Writes c.store := by
  have hheaders := onlyAt_putHeaders (s := d.base) d.headers.values
  obtain ⟨s₁, hrewind, hcut, hleft⟩ := hj.rewind (s := d.base.putHeaders d.headers.values) hs
    fun height hheight => hheaders.get? hheight (by simp [OfHeader])
  obtain ⟨s₂, happend, hgrown, hchain⟩ := hj.append hs hfit hleft
  have hfinish : OnlyAt _ s₂ (d.finish s₂) := onlyAt_finish
  have hwrites : d.Writes (d.finish s₂) := by
    constructor
    case header =>
      intro k
      have hfits : (Key.header k).Fits := trivial
      rw [hfinish.get? hfits (by simp [OfHeader]), hgrown.get? hfits (by simp [OfBest]),
        hcut.get? hfits (by simp [OfBest])]
    case get? =>
      intro k hk hheader
      by_cases hof : OfBest k
      · obtain ⟨height, rfl⟩ := hof
        rw [hfinish.get? hk.fits (by simp [OfBest]), hchain height hk]
      · apply get?_finish hk hheader hof
        rw [hgrown.get? hk.fits hof, hcut.get? hk.fits hof, hheaders.get? hk.fits hheader]
    case others =>
      have hanywhere {p : Key → Prop} : ∀ k, p k → True := fun _ _ => trivial
      exact (((hheaders.mono hanywhere).trans (hcut.mono hanywhere)).trans
        (hgrown.mono hanywhere)).trans (hfinish.mono hanywhere)
  obtain ⟨before, hbefore⟩ := hj.best
  obtain ⟨hash, hhash⟩ := hj.written?_tip hs
  have hafter : (d.finish s₂).storedBest d.tipHeight = .ok ⟨d.tipHeight, hash⟩ := by
    obtain ⟨h₀, -, h₁⟩ := hj.keptHeight_le hs
    rw [storedBest_eq_ok, hwrites.get? (.best d.tipHeight) ⟨h₀.trans h₁, hfit⟩ (by simp [OfHeader])]
    exact ⟨rfl, hhash⟩
  refine ⟨⟨d.finish s₂, before, ⟨d.tipHeight, hash⟩⟩, ?_, hwrites⟩
  simp only [Draft.write, hj.tip, hbefore, hrewind, happend, bind, Except.bind]
  unfold finish at hafter
  rw [hafter]
  rfl

/-- The heights that a draft stages, and the one that it cuts at, have 64 bits. -/
structure Bounded (d : Draft) : Prop where
  best : ∀ height ∈ d.best, Height.Fits height
  ancestor : ∀ p, d.ancestor = some p → p.height.Fits

theorem Bounded.fits_tipHeight (hd : d.Bounded) : d.tipHeight.Fits := by
  rw [tipHeight_eq]
  cases hm : d.best.maxKey? with
  | none =>
    unfold keptHeight
    cases ha : d.ancestor with
    | none => exact d.base.fits_tipHeight
    | some p => exact hd.ancestor p ha
  | some height => exact hd.best height (Std.TreeMap.maxKey?_eq_some_iff_mem_and_forall.mp hm).1

/-- What every draft has, whatever is staged: headers are staged under their own hashes and fit into
records, heights have 64 bits, and the stored best chain is only cut below its tip. -/
structure WellFormed (d : Draft) : Prop where
  named : ∀ (k : Hash) (h : Header), d.headers[k]? = some h → h.hash = k
  storable : ∀ (k : Hash) (h : Header), d.headers[k]? = some h → h.Storable
  best : ∀ height ∈ d.best, Height.Fits height
  ancestor : ∀ p, d.ancestor = some p → p.height.Fits ∧ p.height < d.base.tipHeight
  checkpoint : ∀ p, d.checkpoint = .set p → p.height.Fits

theorem WellFormed.bounded (hd : d.WellFormed) : d.Bounded :=
  ⟨hd.best, fun p hp => (hd.ancestor p hp).1⟩

theorem WellFormed.fits_tipHeight (hd : d.WellFormed) : d.tipHeight.Fits :=
  hd.bounded.fits_tipHeight

/-- What has been read and checked when a commit succeeds. The tips before and after are those of
the store and the draft. -/
structure Checked (d : Draft) (c : Committed) : Prop where
  tip : d.base.storedTip = .ok d.base.tipHeight
  before : d.base.storedBest d.base.tipHeight = .ok c.before
  ancestor : ∀ p, d.ancestor = some p →
    (d.base.putHeaders d.headers.values).storedBest p.height = .ok p
  staged : ∀ height, height ∈ d.best ↔ d.keptHeight < height ∧ height ≤ d.tipHeight
  after : c.store.storedBest d.tipHeight = .ok c.after

theorem checked_of_write (h : d.write = .ok c) : d.Checked c := by
  simp only [Draft.write, bind_eq_ok] at h
  obtain ⟨stored, hstored, before, hbefore, ⟨left, s₁⟩, hrewind, ⟨tip, s₂⟩, happend, after, hafter,
    hc⟩ := h
  cases hc
  obtain rfl := tipHeight_of_storedTip hstored
  obtain ⟨hleft, hcut⟩ := rewind_ok hrewind
  obtain ⟨hle, hblocks⟩ := append_ok happend
  have hmem (height : Height) : height ∈ d.best ↔ left < height ∧ height ≤ tip :=
    (exists_mem_best_toList d height).symm.trans (hblocks height)
  have hkept : d.keptHeight = left := hleft.symm
  have htip : d.tipHeight = tip := by
    rw [tipHeight_eq, hkept, maxKey?_of_interval hmem, max_eq_right hle]
  subst htip hkept
  exact ⟨hstored, hbefore, hcut, hmem, hafter⟩

/-- Only drafts that go on from the stored best chain can be committed. -/
theorem Bounded.joins (hd : d.Bounded) (hs : d.base.Indexed) (h : d.write = .ok c) : d.Joins := by
  have hchecked := checked_of_write h
  constructor
  case tip => exact hchecked.tip
  case best => exact ⟨c.before, hchecked.before⟩
  case ancestor =>
    intro p hp
    have hfits := hd.ancestor p hp
    have hat : d.base.storedBest p.height = .ok p := by
      rw [← hchecked.ancestor p hp]
      apply (storedBest_congr _).symm
      exact (onlyAt_putHeaders d.headers.values).get? hfits (by simp [OfHeader])
    have hentry := Option.isSome_of_eq_some (storedBest_eq_ok.mp hat).2
    obtain ⟨h₀, hle⟩ := (hs.isSome_get? hfits).mp hentry
    exact ⟨h₀, hle, hat⟩
  case staged => exact hchecked.staged

theorem WellFormed.joins (hd : d.WellFormed) (hs : d.base.Indexed) (h : d.write = .ok c) :
    d.Joins :=
  hd.bounded.joins hs h

theorem WellFormed.write (hd : d.WellFormed) (hs : d.base.Indexed) (hj : d.Joins) :
    ∃ c, d.write = .ok c ∧ d.Leaves c.store := by
  obtain ⟨c, hwrite, hwrites⟩ := hj.write hs hd.fits_tipHeight.2
  exact ⟨c, hwrite, hwrites.leaves hd.named⟩

theorem WellFormed.leaves (hd : d.WellFormed) (hs : d.base.Indexed) (h : d.write = .ok c) :
    d.Leaves c.store := by
  obtain ⟨c', hwrite, hleaves⟩ := hd.write hs (hd.joins hs h)
  rw [h] at hwrite
  cases hwrite
  exact hleaves

end Draft

end HeaderChain
