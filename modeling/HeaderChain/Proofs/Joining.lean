import HeaderChain.Proofs.Attaching

/-!
# A new header and all that waits for it

A header that has just been put on top of a route opens routes to all that waits under it. What
hangs on it in the draft is what has a route through it in the grown forest, with the chain state
and the positions of that route. Hence a draft is exact again once all of it is attached.
-/

namespace HeaderChain

open Contest

theorem Draft.EdgesExact.named {d : Draft} (hd : d.EdgesExact) (hn : Named (forestOf d.header?)) :
    d.EdgesNamed := by
  intro e
  rw [hd]
  refine exists_congr fun h => and_congr_right fun hh => ?_
  rw [hn.hash_eq hh, eq_self, true_and]

/-- The draft shows the table `t` and on top of its route `s` the new link `x`, whose header has its
place. What waits under it waits still. -/
structure Joining (t : Table) (g : Hash) (x : Link) (s : List Link) (d : Draft) : Prop where
  exact : Exact t g d.currentCheckpoint
  new : t x.hash = none
  base : Route (forestOf t) g x.parent s
  header? : ∀ k, d.header? k = if k = x.hash then some (x.placed d.currentCheckpoint s) else t k
  edges : d.EdgesExact

variable {t : Table} {g k : Hash} {x : Link} {s r up : List Link} {d : Draft} {u : Header}
variable {climb : List Position}

namespace Joining

theorem new_forest (h : Joining t g x s d) : forestOf t x.hash = none := by
  simp [forestOf, h.new]

theorem found (h : Joining t g x s d) :
    d.header? x.hash = some (x.placed d.currentCheckpoint s) := by
  rw [h.header?, if_pos rfl]

theorem header?_of_ne (h : Joining t g x s d) (hk : k ≠ x.hash) : d.header? k = t k := by
  rw [h.header?, if_neg hk]

theorem forest (h : Joining t g x s d) : forestOf d.header? = plant (forestOf t) x := by
  funext k
  by_cases hk : k = x.hash
  · subst hk
    rw [plant_self, forestOf, h.found]
    rfl
  · rw [plant_of_ne hk, forestOf, forestOf, h.header?_of_ne hk]

theorem named (h : Joining t g x s d) : Named (plant (forestOf t) x) := h.exact.named.plant

theorem hash_eq (h : Joining t g x s d) (hk : d.header? k = some u) : u.hash = k :=
  Named.hash_eq (h.forest ▸ h.named) hk

theorem start (h : Joining t g x s d) : Start d x.hash (x.placed d.currentCheckpoint s) :=
  ⟨h.edges.named (h.forest ▸ h.named), h.found, isDisconnected_placed⟩

theorem ne_genesis (h : Joining t g x s d) : x.hash ≠ g := by
  rintro rfl
  obtain ⟨y, hy⟩ := h.exact.genesis_route
  have hnew := hy.found
  simp [h.new_forest] at hnew

theorem route (h : Joining t g x s d) : Route (plant (forestOf t) x) g x.hash (x :: s) :=
  .child h.ne_genesis plant_self (h.base.plant h.new_forest)

theorem not_suffix_of_route (h : Joining t g x s d) (hr : Route (forestOf t) g k r) :
    ¬ x :: s <:+ r := by
  intro hs
  have hx := (hr.of_suffix h.exact.named hs).found
  simp [h.new_forest] at hx

theorem route_iff (h : Joining t g x s d) : Route (plant (forestOf t) x) g k r ↔
    Route (forestOf t) g k r ∨ Route (plant (forestOf t) x) g k r ∧ x :: s <:+ r := by
  constructor
  · intro hr
    have hrooted : (forestOf t g).isSome := h.exact.rooted
    rcases hr.of_plant h.new_forest hrooted with hold | ⟨base, hbase, hs⟩
    · exact .inl hold
    · rw [hbase.unique h.base] at hs
      exact .inr ⟨hr, hs⟩
  · rintro (hold | ⟨hr, -⟩)
    · exact hold.plant h.new_forest
    · exact hr

/-- What hangs on the new header has a route through it and the chain state of that route. -/
theorem route_of_hangs (h : Joining t g x s d)
    (hk : Hangs d x.hash (x.placed d.currentCheckpoint s) k u climb) :
    ∃ up z rest, up.reverse ++ x :: s = z :: rest ∧ Route (plant (forestOf t) x) g k (z :: rest) ∧
      u = z.placed d.currentCheckpoint rest ∧ climb.reverse = ascend (x :: s) up := by
  induction hk with
  | root => exact ⟨[], x, s, rfl, h.route, rfl, rfl⟩
  | @child k j u v climb under found _ waits parent ih =>
    obtain ⟨up, z, rest, hsplit, hr, rfl, hclimb⟩ := ih
    have hj : plant (forestOf t) x j = some v.link :=
      h.forest ▸ forestOf_eq_some.mpr ⟨v, found, rfl⟩
    have hg : j ≠ g := by
      rintro rfl
      rw [h.header?_of_ne h.ne_genesis.symm] at found
      obtain ⟨y, hy⟩ := h.exact.genesis_route
      exact (h.exact.isDisconnected_iff found).mp waits _ hy
    have hup : Route (plant (forestOf t) x) g j (v.link :: z :: rest) := by
      refine .child hg hj ?_
      change Route _ g v.parent _
      rw [parent]
      exact hr
    refine ⟨up ++ [v.link], v.link, z :: rest, by simp [hsplit], hup, connect_placed v, ?_⟩
    rw [List.reverse_cons, hclimb, ascend_append, connect_placed]
    simp [ascend, hsplit]

/-- What has a route through the new header hangs on it. -/
theorem hangs_of_route (h : Joining t g x s d)
    (hr : Route (plant (forestOf t) x) g k (up.reverse ++ x :: s)) :
    ∃ u climb, Hangs d x.hash (x.placed d.currentCheckpoint s) k u climb := by
  induction hup : up.reverse generalizing k up with
  | nil =>
    rw [hup, List.nil_append] at hr
    rw [← hr.hash_eq h.named]
    exact ⟨_, _, .root⟩
  | cons z below ih =>
    rw [hup, List.cons_append] at hr
    obtain ⟨y, rest, hrest⟩ := List.exists_cons_of_ne_nil
      (List.append_ne_nil_of_right_ne_nil below (List.cons_ne_nil x s))
    rw [hrest] at hr
    have hparent := hr.parent.2
    rw [← hrest, ← List.reverse_reverse below] at hparent
    obtain ⟨u, climb, hu⟩ := ih hparent (List.reverse_reverse below)
    have hne : k ≠ x.hash := by
      rintro rfl
      have hlen := congrArg List.length (hr.unique h.route)
      have hlen' := congrArg List.length hrest
      simp at hlen hlen'
      omega
    have hz := hr.found
    rw [← h.forest] at hz
    obtain ⟨v, hv, rfl⟩ := forestOf_eq_some.mp hz
    have hwaits : v.isDisconnected = true := by
      have hv' := h.header?_of_ne hne ▸ hv
      rw [h.exact.isDisconnected_iff hv']
      intro r' hr'
      refine h.not_suffix_of_route hr' ?_
      rw [(hr'.plant h.new_forest).unique hr, ← hrest]
      exact (List.suffix_append below _).trans (List.suffix_cons _ _)
    exact ⟨_, _, hu.child hv (h.hash_eq hv) hwaits rfl⟩

theorem hangs_iff (h : Joining t g x s d) :
    (∃ u climb, Hangs d x.hash (x.placed d.currentCheckpoint s) k u climb) ↔
      ∃ r, Route (plant (forestOf t) x) g k r ∧ x :: s <:+ r := by
  constructor
  · rintro ⟨u, climb, hk⟩
    obtain ⟨up, z, rest, hsplit, hr, -⟩ := h.route_of_hangs hk
    exact ⟨z :: rest, hr, hsplit ▸ List.suffix_append _ _⟩
  · rintro ⟨r, hr, t, rfl⟩
    rw [← List.reverse_reverse t] at hr
    exact h.hangs_of_route hr

theorem not_hangs_of_route (h : Joining t g x s d) (hr : Route (forestOf t) g k r) :
    ∀ u climb, ¬ Hangs d x.hash (x.placed d.currentCheckpoint s) k u climb := by
  intro u climb hk
  obtain ⟨r', hr', hs⟩ := h.hangs_iff.mp ⟨u, climb, hk⟩
  rw [← (hr.plant h.new_forest).unique hr'] at hs
  exact h.not_suffix_of_route hr hs

/-! ## Once all is attached -/

variable {chain : List Position} {cands : Array Candidate} {start : ℕ} {c : Contest}

theorem header?_of_old (h : Joining t g x s d)
    (ha : Attached d x.hash (x.placed d.currentCheckpoint s) chain cands start c)
    (hk : ∀ u climb, ¬ Hangs d x.hash (x.placed d.currentCheckpoint s) k u climb) :
    c.draft.header? k = t k := by
  rw [ha.unchanged k hk, h.header?_of_ne]
  rintro rfl
  exact hk _ _ .root

theorem forest_attached (h : Joining t g x s d)
    (ha : Attached d x.hash (x.placed d.currentCheckpoint s) chain cands start c) :
    forestOf c.draft.header? = plant (forestOf t) x := by
  funext k
  by_cases hk : ∃ u climb, Hangs d x.hash (x.placed d.currentCheckpoint s) k u climb
  · obtain ⟨u, climb, hu⟩ := hk
    obtain ⟨up, z, rest, -, hr, rfl, -⟩ := h.route_of_hangs hu
    rw [hr.found, forestOf, ha.connected k _ climb hu]
    rfl
  · push Not at hk
    have hne : k ≠ x.hash := by
      rintro rfl
      exact hk _ _ .root
    rw [plant_of_ne hne, forestOf, h.header?_of_old ha hk, forestOf]

theorem exact_attached (h : Joining t g x s d)
    (ha : Attached d x.hash (x.placed d.currentCheckpoint s) chain cands start c) :
    Exact c.draft.header? g d.currentCheckpoint := by
  have hforest := h.forest_attached ha
  constructor
  case named =>
    rw [hforest]
    exact h.named
  case rooted =>
    rw [hforest, plant_of_ne h.ne_genesis.symm]
    exact h.exact.rooted
  case placed =>
    intro k z r hr
    rw [hforest] at hr
    rcases h.route_iff.mp hr with hold | hnew
    · rw [h.header?_of_old ha (h.not_hangs_of_route hold)]
      exact h.exact.placed hold
    · obtain ⟨u, climb, hu⟩ := h.hangs_iff.mpr ⟨_, hnew⟩
      obtain ⟨up, y, rest, -, hr', rfl, -⟩ := h.route_of_hangs hu
      cases hr.unique hr'
      exact ha.connected k _ climb hu
  case waiting =>
    intro k v hk hnone
    rw [hforest] at hnone
    have hnot : ∀ u climb, ¬ Hangs d x.hash (x.placed d.currentCheckpoint s) k u climb := by
      intro u climb hu
      obtain ⟨r, hr, -⟩ := h.hangs_iff.mp ⟨u, climb, hu⟩
      exact hnone r hr
    rw [h.header?_of_old ha hnot] at hk
    exact h.exact.waiting hk fun r hr => hnone r (hr.plant h.new_forest)

end Joining

theorem Contest.Attached.edgesExact {p : Hash} {v : Header} {chain : List Position}
    {cands : Array Candidate} {start : ℕ} {c : Contest} (hd : Start d p v) (he : d.EdgesExact)
    (ha : Attached d p v chain cands start c) : c.draft.EdgesExact := by
  intro e
  obtain ⟨q, k⟩ := e
  rw [ha.waiting, he]
  by_cases hk : ∃ u climb, Hangs d p v k u climb
  · obtain ⟨u, climb, hu⟩ := hk
    have hplace := hu.isDisconnected hd.connected
    simp only [ha.connected k u climb hu]
    constructor
    · rintro ⟨-, hnot⟩
      exact absurd hu (hnot u climb)
    · rintro ⟨w, hw, hwaits, -⟩
      cases hw
      simp [hplace] at hwaits
  · push Not at hk
    simp only [ha.unchanged k hk]
    exact ⟨And.left, fun hw => ⟨hw, hk⟩⟩

end HeaderChain
