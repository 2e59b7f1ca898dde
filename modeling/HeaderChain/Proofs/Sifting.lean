import HeaderChain.Proofs.Choosing

/-!
# What a candidate may offer

The flag of a candidate says whether its tip is ruled out. That is enough to find out what of it may
become the best chain: bans go on to all descendants, so nothing is ruled out when the tip is not,
and the headers before the first one that is ruled out are all that are not.
-/

namespace HeaderChain

def Draft.bans (d : Draft) (p : Position) : Bool := (d.header? p.hash).any Header.isBanned

/-- The headers of a candidate form a path that starts above the best chain. Its flag is that of the
tip, and what is eligible are all the headers that are not ruled out, which come first. -/
structure Candidate.Sifted (d : Draft) (a : Candidate) : Prop where
  shown : ∀ p ∈ a.chain, ∃ h, d.header? p.hash = some h ∧ h.position = p
  linked : ∃ fork, d.onBest fork = true ∧ (fork :: a.chain.reverse).IsChain
    (Table.IsParent d.header?)
  flag : a.banned = a.tip?.any d.bans
  eligible : a.eligible d = .ok (a.chain.reverse.filter fun p => !d.bans p)
  isPrefix : (a.chain.reverse.filter fun p => !d.bans p) <+: a.chain.reverse

variable {c : Position} {base up b r : List Link} {x : Link} {d : Draft} {g k : Hash}
variable {a : Candidate} {cands : List Candidate}

theorem clearing_of_conflict (h : conflicts c base = true) : clearing c base up = [] := by
  cases up with
  | nil => rfl
  | cons x up => rw [clearing, if_pos (by simp [conflicts, h])]

theorem ascend_isPrefix {up' : List Link} (h : up' <+: up) :
    ascend base up' <+: ascend base up := by
  obtain ⟨more, rfl⟩ := h
  rw [ascend_append]
  exact List.prefix_append _ _

namespace Draft

theorem bans_of_route (ht : Exact d.header? g c) {height : Height}
    (hr : Route (forestOf d.header?) g k (x :: r)) :
    d.bans ⟨height, k⟩ = conflicts c (x :: r) := by
  simp [bans, ht.placed hr]

/-- The links before the first conflict are those of all headers that are not ruled out. -/
theorem filter_ascend (ht : Exact d.header? g c)
    (hr : Route (forestOf d.header?) g k (up.reverse ++ base)) :
    (ascend base up).filter (fun p => !d.bans p) = ascend base (clearing c base up) := by
  induction up generalizing base with
  | nil => rfl
  | cons x up ih =>
    have hx : Route (forestOf d.header?) g x.hash (x :: base) := hr.of_suffix ht.named (by simp)
    have hrest := @ih (x :: base) (by simpa using hr)
    rw [ascend, List.filter_cons, bans_of_route ht hx, clearing, hrest]
    -- Above a header that is ruled out there is none that is not.
    cases hconflict : conflicts c (x :: base) with
    | true => rw [clearing_of_conflict hconflict]; rfl
    | false => rfl

end Draft

namespace Candidate

theorem Branches.sifted (ht : Exact d.header? g d.currentCheckpoint)
    (hfollows : d.Follows b) (hr : r <:+ b)
    (ha : a.Branches (forestOf d.header?) g d.currentCheckpoint r base up)
    (hempty : a.chain = [] → a.banned = false) : a.Sifted d := by
  obtain ⟨j, hj⟩ := ha.route
  obtain ⟨y, s, rfl⟩ := List.exists_cons_of_ne_nil ha.ne_nil
  have hchain : a.chain.reverse = ascend (y :: s) up := ha.chain
  have hfilter := Draft.filter_ascend ht hj
  constructor
  case shown =>
    intro p hp
    have hmem : p ∈ ascend (y :: s) up := hchain ▸ List.mem_reverse.mpr hp
    obtain ⟨h, hh, -, hposition⟩ :=
      ht.placed_of_mem hj (mem_positions_of_mem_ascend (List.suffix_refl _) hmem)
    exact ⟨h, hh, hposition⟩
  case linked =>
    refine ⟨⟨s.length, y.hash⟩, ?_, ?_⟩
    · rw [hfollows.onBest_iff]
      exact mem_positions.mpr ⟨y, s, ha.suffix.trans hr, rfl⟩
    · have hpath : (ascend s (y :: up)).IsChain (Table.IsParent d.header?) :=
        ht.isChain_ascend hj (by simp)
      rw [hchain]
      exact hpath
  case flag =>
    cases hp : a.tip? with
    | none =>
      have hnil : a.chain = [] := List.head?_eq_none_iff.mp hp
      exact hempty hnil
    | some p =>
      obtain ⟨z, below, rfl, rfl⟩ := ha.tip hp
      rw [List.reverse_append, List.reverse_singleton, List.singleton_append,
        List.cons_append] at hj
      have hz := hj.of_suffix ht.named (List.suffix_refl _)
      rw [Option.any_some, Draft.bans_of_route ht hz, ha.banned (by simp)]
      simp
  case eligible => rw [ha.eligible_eq ht, hchain, hfilter]
  case isPrefix =>
    rw [hchain, hfilter]
    exact ascend_isPrefix clearing_isPrefix

end Candidate

/-- All candidates of a contest are fit for fork choice when those that are empty have no flag. -/
theorem Draft.Contested.sifted (h : d.Contested g b r cands)
    (hempty : ∀ a ∈ cands, a.chain = [] → a.banned = false) : ∀ a ∈ cands, a.Sifted d := by
  intro a ha
  obtain ⟨base, up, hbranch, -⟩ := h.branches a ha
  exact hbranch.sifted h.exact h.follows h.suffix (hempty a ha)

end HeaderChain
