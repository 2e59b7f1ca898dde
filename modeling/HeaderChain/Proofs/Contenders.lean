import HeaderChain.Proofs.Staging
import HeaderChain.Selection

/-!
# What candidates compete with

A candidate branches off the best chain: it consists of the positions above a part of that chain,
up to some header. It competes with the links before the first that the checkpoint rules out;
since bans go on to all descendants, its flag decides whether there is such a link. The heaviest of
several is one that no other exceeds.
-/

namespace HeaderChain

/-! ## Links before the first conflict -/

/-- The links on top of `base` before the first that the checkpoint rules out. -/
def clearing (c : Position) : (base up : List Link) → List Link
  | _, [] => []
  | base, x :: up => if conflicts c (x :: base) then [] else x :: clearing c (x :: base) up

variable {c : Position} {base up r s : List Link} {x : Link}

theorem conflicts_of_suffix (h : s <:+ r) (hs : conflicts c s = true) : conflicts c r = true := by
  obtain ⟨t, rfl⟩ := h
  induction t with
  | nil => exact hs
  | cons x t ih => simp [conflicts, ih]

theorem clear_of_suffix (h : s <:+ r) (hr : conflicts c r = false) : conflicts c s = false := by
  by_contra hs
  rw [Bool.not_eq_false] at hs
  simp [conflicts_of_suffix h hs] at hr

theorem clearing_isPrefix : clearing c base up <+: up := by
  induction up generalizing base with
  | nil => exact List.prefix_refl _
  | cons x up ih =>
    rw [clearing]
    split_ifs
    · exact List.nil_prefix
    · exact (List.prefix_cons_inj x).mpr ih

theorem clearing_suffix : (clearing c base up).reverse ++ base <:+ up.reverse ++ base := by
  obtain ⟨t, ht⟩ := (clearing_isPrefix : clearing c base up <+: up)
  exact ⟨t.reverse, by rw [← List.append_assoc, ← List.reverse_append, ht]⟩

theorem conflicts_clearing (h : conflicts c base = false) :
    conflicts c ((clearing c base up).reverse ++ base) = false := by
  induction up generalizing base with
  | nil => simpa [clearing] using h
  | cons x up ih =>
    rw [clearing]
    split_ifs with hx
    · simpa using h
    · simpa using ih (by simpa using hx)

theorem prefix_clearing {a : List Link} (ha : a <+: up)
    (h : conflicts c (a.reverse ++ base) = false) : a <+: clearing c base up := by
  induction a generalizing base up with
  | nil => exact List.nil_prefix
  | cons x a ih =>
    obtain ⟨t, rfl⟩ := ha
    have hx : conflicts c (x :: base) = false :=
      clear_of_suffix (r := (x :: a).reverse ++ base) (by simp) h
    rw [List.cons_append, clearing, if_neg (by simp [hx]), List.prefix_cons_inj]
    exact ih (List.prefix_append a t) (by simpa using h)

theorem clearing_of_clear (h : conflicts c (up.reverse ++ base) = false) :
    clearing c base up = up :=
  clearing_isPrefix.eq_of_length_le (prefix_clearing (List.prefix_refl up) h).length_le

/-! ## Candidates on routes -/

namespace Candidate

/-- The candidate is made of the links `up` on top of a part `base` of the best chain, and its flag
tells whether the checkpoint rules out the last of them. -/
structure Branches (f : Forest) (g : Hash) (c : Position) (best : List Link) (a : Candidate)
    (base up : List Link) : Prop where
  route : ∃ k, Route f g k (up.reverse ++ base)
  suffix : base <:+ best
  ne_nil : base ≠ []
  chain : a.chain.reverse = ascend base up
  banned : up ≠ [] → a.banned = conflicts c (up.reverse ++ base)

/-- The candidate competes with this path, whose last header has this work. -/
def Offers (d : Draft) (a : Candidate) (path : List Position) (work : ℕ) : Prop :=
  a.eligible d = .ok path ∧
    ∃ p h, path.getLast? = some p ∧ d.header? p.hash = some h ∧ h.work = work

variable {d : Draft} {g k : Hash} {a : Candidate} {best : List Link}

theorem beforeBan_ascend (ht : Exact d.header? g c)
    (hr : Route (forestOf d.header?) g k (up.reverse ++ base)) :
    beforeBan d (ascend base up) = .ok (ascend base (clearing c base up)) := by
  induction up generalizing base with
  | nil => rfl
  | cons x up ih =>
    have hx : Route (forestOf d.header?) g x.hash (x :: base) :=
      hr.of_suffix ht.named (by simp)
    have hrest := @ih (x :: base) (by simpa using hr)
    rw [ascend, beforeBan, Draft.header_eq (ht.placed hx), clearing]
    simp only [bind, Except.bind, isBanned_placed, hrest]
    split_ifs <;> rfl

theorem getLast?_ascend : (ascend base (up ++ [x])).getLast? =
    some ⟨(up.reverse ++ base).length, x.hash⟩ := by
  simp [ascend_append, ascend]

theorem Branches.eligible_eq (ht : Exact d.header? g c)
    (ha : a.Branches (forestOf d.header?) g c best base up) :
    a.eligible d = .ok (ascend base (clearing c base up)) := by
  obtain ⟨k, hr⟩ := ha.route
  rw [eligible, ha.chain]
  split_ifs with hb
  · exact beforeBan_ascend ht hr
  · congr 2
    rcases List.eq_nil_or_concat up with rfl | ⟨_, _, hup⟩
    · rfl
    · refine (clearing_of_clear ?_).symm
      rw [← ha.banned (by simp [hup])]
      simpa using hb

/-- What a candidate offers is the part of its route before the first conflict. -/
theorem Branches.offers_iff (ht : Exact d.header? g c)
    (ha : a.Branches (forestOf d.header?) g c best base up) {path : List Position} {work : ℕ} :
    a.Offers d path work ↔ clearing c base up ≠ [] ∧ path = ascend base (clearing c base up) ∧
      work = totalWork ((clearing c base up).reverse ++ base) := by
  obtain ⟨k, hr⟩ := ha.route
  rw [Offers, ha.eligible_eq ht]
  rcases List.eq_nil_or_concat (clearing c base up) with hnil | ⟨won, x, hwon⟩
  · rw [hnil]
    simp only [ne_eq, not_true_eq_false, false_and, iff_false, not_and, not_exists]
    intro hpath p h
    cases hpath
    simp [ascend]
  · have hx : x :: (won.reverse ++ base) <:+ up.reverse ++ base := by
      have hsuffix : (clearing c base up).reverse ++ base <:+ up.reverse ++ base := clearing_suffix
      rw [hwon, List.concat_eq_append] at hsuffix
      simpa using hsuffix
    have hplaced := ht.placed (hr.of_suffix ht.named hx)
    rw [List.concat_eq_append] at hwon
    rw [hwon]
    simp only [List.reverse_append, List.reverse_singleton]
    constructor
    · rintro ⟨hpath, p, h, hp, hh, rfl⟩
      cases hpath
      rw [getLast?_ascend] at hp
      cases hp
      rw [hplaced] at hh
      cases hh
      simp
    · rintro ⟨-, rfl, rfl⟩
      exact ⟨rfl, _, _, getLast?_ascend, hplaced, by simp⟩

/-- A candidate offers something, or all of it is ruled out. -/
theorem Branches.offers (ht : Exact d.header? g c)
    (ha : a.Branches (forestOf d.header?) g c best base up) :
    ∃ path, a.eligible d = .ok path ∧ (path = [] ∨ ∃ work, a.Offers d path work) := by
  refine ⟨_, ha.eligible_eq ht, ?_⟩
  by_cases hnil : clearing c base up = []
  · exact .inl (by simp [hnil, ascend])
  · exact .inr ⟨_, (ha.offers_iff ht).mpr ⟨hnil, rfl, rfl⟩⟩

theorem Offers.unique {path path' : List Position} {work work' : ℕ} (h : a.Offers d path work)
    (h' : a.Offers d path' work') : path = path' ∧ work = work' := by
  obtain ⟨hpath, p, x, hp, hx, rfl⟩ := h
  obtain ⟨hpath', p', x', hp', hx', rfl⟩ := h'
  cases hpath.symm.trans hpath'
  cases hp.symm.trans hp'
  cases hx.symm.trans hx'
  exact ⟨rfl, rfl⟩

end Candidate

/-! ## The heaviest candidate -/

/-- Either no candidate offers more than `most`, and the result is the winner so far; or the result
is offered with more work than that, and none offers more. -/
def Heaviest (d : Draft) (cands : List Candidate) (most : ℕ)
    (winner result : Option (List Position)) : Prop :=
  (result = winner ∧ ∀ a ∈ cands, ∀ path work, a.Offers d path work → work ≤ most) ∨
    ∃ a ∈ cands, ∃ path work, a.Offers d path work ∧ result = some path ∧ most < work ∧
      ∀ b ∈ cands, ∀ path' work', b.Offers d path' work' → work' ≤ work

variable {d : Draft} {a : Candidate} {cands : List Candidate} {most : ℕ}
variable {winner result : Option (List Position)}

theorem Heaviest.cons_of_le (ha : ∀ path work, a.Offers d path work → work ≤ most)
    (h : Heaviest d cands most winner result) : Heaviest d (a :: cands) most winner result := by
  rcases h with ⟨rfl, hle⟩ | ⟨b, hb, path, work, hoffer, hresult, hwork, hmax⟩
  · exact .inl ⟨rfl, List.forall_mem_cons.mpr ⟨ha, hle⟩⟩
  · refine .inr ⟨b, List.mem_cons_of_mem a hb, path, work, hoffer, hresult, hwork,
      List.forall_mem_cons.mpr ⟨?_, hmax⟩⟩
    exact fun path' work' h => (ha path' work' h).trans hwork.le

theorem Heaviest.cons_of_lt {path : List Position} {work : ℕ} (ha : a.Offers d path work)
    (hlt : most < work) (h : Heaviest d cands work (some path) result) :
    Heaviest d (a :: cands) most winner result := by
  have hself : ∀ path' work', a.Offers d path' work' → work' ≤ work :=
    fun _ _ h => (h.unique ha).2.le
  rcases h with ⟨rfl, hle⟩ | ⟨b, hb, path', work', hoffer, hresult, hwork, hmax⟩
  · exact .inr ⟨a, by simp, path, work, ha, rfl, hlt, List.forall_mem_cons.mpr ⟨hself, hle⟩⟩
  · refine .inr ⟨b, List.mem_cons_of_mem a hb, path', work', hoffer, hresult, hlt.trans hwork,
      List.forall_mem_cons.mpr ⟨?_, hmax⟩⟩
    exact fun path work h => (hself path work h).trans hwork.le

theorem Draft.heaviest_spec (most : ℕ) (winner : Option (List Position))
    (hc : ∀ a ∈ cands, ∃ path, a.eligible d = .ok path ∧
      (path = [] ∨ ∃ work, a.Offers d path work)) :
    ∃ result, d.heaviest most winner cands = .ok result ∧
      Heaviest d cands most winner result := by
  induction cands generalizing most winner with
  | nil => exact ⟨winner, rfl, .inl ⟨rfl, by simp⟩⟩
  | cons a cands ih =>
    obtain ⟨path, hpath, hoffer⟩ := hc a (by simp)
    have hcands := fun b hb => hc b (List.mem_cons_of_mem a hb)
    rw [heaviest, hpath]
    simp only [bind, Except.bind]
    rcases hoffer with rfl | ⟨work, hoffer⟩
    · obtain ⟨result, hresult, h⟩ := ih most winner hcands
      refine ⟨result, hresult, h.cons_of_le ?_⟩
      rintro path' work' ⟨hpath', p, -, hp', -⟩
      cases hpath.symm.trans hpath'
      simp at hp'
    · obtain ⟨-, tip, x, hp, hx, rfl⟩ := id hoffer
      simp only [hp, header_eq hx]
      split_ifs with hgt
      · obtain ⟨result, hresult, h⟩ := ih x.work (some path) hcands
        exact ⟨result, hresult, h.cons_of_lt hoffer hgt⟩
      · obtain ⟨result, hresult, h⟩ := ih most winner hcands
        refine ⟨result, hresult, h.cons_of_le ?_⟩
        intro path' work' h
        exact (h.unique hoffer).2.le.trans (not_lt.mp hgt)

/-! ## Drafts with the same headers -/

section Congr

variable {e : Draft} (hheader : e.header? = d.header?)

include hheader

theorem Draft.header_congr : e.header = d.header := by
  funext k
  rw [header, hheader, header]

theorem Candidate.beforeBan_congr (path : List Position) : beforeBan e path = beforeBan d path := by
  induction path with
  | nil => rfl
  | cons p path ih => rw [beforeBan, beforeBan, Draft.header_congr hheader, ih]

theorem Candidate.eligible_congr (a : Candidate) : a.eligible e = a.eligible d := by
  rw [eligible, eligible, beforeBan_congr hheader]

theorem Draft.heaviest_congr (most : ℕ) (winner : Option (List Position))
    (cands : List Candidate) : e.heaviest most winner cands = d.heaviest most winner cands := by
  induction cands generalizing most winner with
  | nil => rfl
  | cons a cands ih =>
    simp only [heaviest, Candidate.eligible_congr hheader, header_congr hheader, ih]

end Congr

end HeaderChain
