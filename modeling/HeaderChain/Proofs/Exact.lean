import HeaderChain.Proofs.Forest

/-!
# Exact tables of headers

A table is exact for a checkpoint when the chain state of every header in it is what its route
says, and a header without a route is kept as one that waits. In such a table a walk over parents
goes down the route of the header that it starts from.
-/

namespace HeaderChain

/-- Headers with their chain state, by hash. -/
abbrev Table := Hash → Option Header

/-- The forest of a table: its headers without their chain state. -/
def forestOf (t : Table) : Forest := fun k => (t k).map Header.link

/-- Every header of the table has the chain state that its route and the checkpoint give it. -/
structure Exact (t : Table) (g : Hash) (c : Position) : Prop where
  named : Named (forestOf t)
  rooted : (forestOf t g).isSome
  placed : ∀ {k x r}, Route (forestOf t) g k (x :: r) → t k = some (x.placed c r)
  waiting : ∀ {k h}, t k = some h → (∀ r, ¬ Route (forestOf t) g k r) → h = h.disconnect

variable {t : Table} {g k : Hash} {c : Position} {h : Header} {x : Link} {r : List Link}

theorem forestOf_eq_some : forestOf t k = some x ↔ ∃ h, t k = some h ∧ h.link = x := by
  simp [forestOf]

theorem forestOf_eq_none : forestOf t k = none ↔ t k = none := by
  simp [forestOf]

theorem isSome_forestOf : (forestOf t k).isSome = (t k).isSome := by simp [forestOf]

theorem Named.hash_eq (hn : Named (forestOf t)) (hk : t k = some h) : h.hash = k :=
  hn k h.link (forestOf_eq_some.mpr ⟨h, hk, rfl⟩)

namespace Exact

theorem hash_eq (ht : Exact t g c) (hk : t k = some h) : h.hash = k := ht.named.hash_eq hk

theorem genesis_route (ht : Exact t g c) : ∃ x, Route (forestOf t) g g [x] := by
  obtain ⟨x, hx⟩ := Option.isSome_iff_exists.mp ht.rooted
  exact ⟨x, .genesis hx⟩

/-- A header that does not wait has a route, and the chain state that belongs to it. -/
theorem route_of_connected (ht : Exact t g c) (hk : t k = some h) (hc : h.isDisconnected = false) :
    ∃ r, Route (forestOf t) g k (h.link :: r) ∧ h = h.link.placed c r := by
  have : ∃ r, Route (forestOf t) g k r := by
    by_contra hnone
    push Not at hnone
    rw [ht.waiting hk hnone, Header.isDisconnected_disconnect] at hc
    exact absurd hc (by simp)
  obtain ⟨r, hr⟩ := this
  obtain ⟨x, r, rfl⟩ := List.exists_cons_of_ne_nil hr.ne_nil
  have hx := ht.placed hr
  rw [hk] at hx
  cases hx
  exact ⟨r, hr, rfl⟩

theorem isDisconnected_iff (ht : Exact t g c) (hk : t k = some h) :
    h.isDisconnected = true ↔ ∀ r, ¬ Route (forestOf t) g k r := by
  constructor
  · intro hd r hr
    obtain ⟨x, r, rfl⟩ := List.exists_cons_of_ne_nil hr.ne_nil
    have hx := ht.placed hr
    rw [hk] at hx
    cases hx
    simp at hd
  · intro hnone
    rw [ht.waiting hk hnone]
    exact Header.isDisconnected_disconnect h

/-- The chain state in a table is determined by the links in it and the checkpoint. -/
theorem unique {t' : Table} (ht : Exact t g c) (ht' : Exact t' g c)
    (hforest : forestOf t = forestOf t') : t = t' := by
  funext k
  by_cases hk : ∃ r, Route (forestOf t) g k r
  · obtain ⟨r, hr⟩ := hk
    obtain ⟨x, r, rfl⟩ := List.exists_cons_of_ne_nil hr.ne_nil
    rw [ht.placed hr, ht'.placed (hforest ▸ hr)]
  · push Not at hk
    have hlink : (t k).map Header.link = (t' k).map Header.link := congrFun hforest k
    have hk' : ∀ r, ¬ Route (forestOf t') g k r := hforest ▸ hk
    cases hx : t k with
    | none =>
      rw [hx] at hlink
      exact (Option.map_eq_none_iff.mp hlink.symm).symm
    | some x =>
      cases hy : t' k with
      | none => simp [hx, hy] at hlink
      | some y =>
        rw [hx, hy, Option.map_some, Option.map_some, Option.some.injEq] at hlink
        rw [ht.waiting hx hk, ht'.waiting hy hk', Header.disconnect, Header.disconnect]
        simp only [Header.link, Link.mk.injEq] at hlink
        simp [hlink]

end Exact

/-! ## Paths upward -/

/-- The first position is that of the parent of the second, which is one height above it. -/
def Table.IsParent (t : Table) (p q : Position) : Prop :=
  p.height + 1 = q.height ∧ ∃ x, t q.hash = some x ∧ x.parent = p.hash

theorem ascend_append (s a b : List Link) :
    ascend s (a ++ b) = ascend s a ++ ascend (a.reverse ++ s) b := by
  induction a generalizing s with
  | nil => simp [ascend]
  | cons x a ih => simp [ascend, ih]

theorem positions_append (t up : List Link) :
    positions (up.reverse ++ t) = (ascend t up).reverse ++ positions t := by
  induction up generalizing t with
  | nil => rfl
  | cons x up ih => simp [ascend, ih, positions]

theorem mem_positions_of_mem_ascend {base up : List Link} {p : Position}
    (hup : up.reverse ++ base <:+ r) (hp : p ∈ ascend base up) : p ∈ positions r := by
  obtain ⟨y, s, hs, rfl⟩ : ∃ y s, y :: s <:+ up.reverse ++ base ∧ p = ⟨s.length, y.hash⟩ := by
    apply mem_positions.mp
    rw [positions_append, List.mem_append, List.mem_reverse]
    exact .inl hp
  exact mem_positions.mpr ⟨y, s, hs.trans hup, rfl⟩

namespace Exact

theorem placed_of_mem {p : Position} (ht : Exact t g c) (hr : Route (forestOf t) g k r)
    (hp : p ∈ positions r) :
    ∃ h, t p.hash = some h ∧ h.isDisconnected = false ∧ h.position = p := by
  obtain ⟨y, s, hs, rfl⟩ := mem_positions.mp hp
  exact ⟨_, ht.placed (hr.of_suffix ht.named hs), isDisconnected_placed, rfl⟩

theorem isChain_ascend {base up : List Link} (ht : Exact t g c) (hr : Route (forestOf t) g k r)
    (hup : up.reverse ++ base <:+ r) : (ascend base up).IsChain (Table.IsParent t) := by
  induction up generalizing base with
  | nil => exact .nil
  | cons x up ih =>
    rw [List.reverse_cons, List.append_assoc, List.singleton_append] at hup
    have hrest := ih hup
    cases up with
    | nil => exact .singleton _
    | cons y up =>
      refine List.isChain_cons_cons.mpr ⟨⟨by simp, ?_⟩, hrest⟩
      have hy : y :: x :: base <:+ r := by
        rw [List.reverse_cons, List.append_assoc, List.singleton_append] at hup
        exact (List.suffix_append _ _).trans hup
      have hroute := hr.of_suffix ht.named hy
      exact ⟨_, ht.placed hroute, (hroute.parent.2.hash_eq ht.named).symm⟩

end Exact

/-! ## Walks -/

/-- What a walk down a route finds when it stops at genesis at the latest: the positions above a
part of the route, and the header at the top of that part, which is the first to satisfy `stop`. -/
structure Trace.Follows (stop : Header → Bool) (c : Position) (r : List Link) (w : Trace) :
    Prop where
  split : ∃ up base, ∃ x : Link, r = up.reverse ++ x :: base ∧
    w.passed = (ascend (x :: base) up).reverse ∧ w.last = x.placed c base ∧ stop w.last = true ∧
    ∀ y s, y :: s <:+ r → base.length < s.length → stop (y.placed c s) = false

theorem Trace.run_route {ε : Type} (endless : ε) {read : Hash → Except ε Header}
    (stop : Header → Bool) {f : Forest}
    (hread : ∀ k x r, Route f g k (x :: r) → read k = .ok (x.placed c r))
    (hstop : ∀ x : Link, stop (x.placed c []) = true) {bound : ℕ} (hr : Route f g k (x :: r))
    (hb : r.length ≤ bound) :
    ∃ w, Trace.run endless read stop bound (x.placed c r) = .ok w ∧ w.Follows stop c (x :: r) := by
  induction r generalizing k x bound with
  | nil =>
    refine ⟨⟨[], x.placed c []⟩, Trace.run_of_stop (hstop x),
      ⟨[], [], x, rfl, rfl, rfl, hstop x, ?_⟩⟩
    intro y s hs hlt
    simpa using lt_of_lt_of_le hlt (Nat.le_of_succ_le_succ hs.length_le)
  | cons y r ih =>
    by_cases h : stop (x.placed c (y :: r)) = true
    · refine ⟨⟨[], _⟩, Trace.run_of_stop h, ⟨[], y :: r, x, rfl, rfl, rfl, h, ?_⟩⟩
      intro z s hs hlt
      have := hs.length_le
      simp only [List.length_cons] at this hlt
      omega
    · obtain ⟨bound, rfl⟩ : ∃ b, bound = b + 1 := ⟨bound - 1, by simp at hb; omega⟩
      obtain ⟨-, hup⟩ := hr.parent
      obtain ⟨w, hw, ⟨up, base, z, hsplit, hpassed, hlast, hmet, habove⟩⟩ :=
        ih hup (by simpa using hb)
      refine ⟨⟨⟨(y :: r).length, x.hash⟩ :: w.passed, w.last⟩, ?_,
        ⟨up ++ [x], base, z, ?_, ?_, hlast, hmet, ?_⟩⟩
      · simp only [Trace.run, h, Bool.false_eq_true, if_false, parent_placed, hread _ _ _ hup]
        simp [bind, Except.bind, hw]
        rfl
      · simp [hsplit]
      · simp [ascend_append, ascend, hpassed, hsplit]
      · intro a s hs hlt
        rcases List.suffix_cons_iff.mp hs with heq | hs
        · cases heq
          simpa using h
        · exact habove a s hs hlt

/-- A walk that is told to stop just where its route meets another one finds where the two fork. -/
theorem Trace.Follows.forks {w : Trace} {stop : Header → Bool} {b : List Link}
    (hw : w.Follows stop c r)
    (hstop : ∀ y s, y :: s <:+ r → (stop (y.placed c s) = true ↔ y :: s <:+ b)) :
    ∃ up base, ∃ z : Link, Forks r b up (z :: base) ∧
      w.passed = (ascend (z :: base) up).reverse ∧ w.last = z.placed c base := by
  obtain ⟨⟨up, base, z, hsplit, hpassed, hlast, hmet, habove⟩⟩ := hw
  have hz : z :: base <:+ r := ⟨_, hsplit.symm⟩
  refine ⟨up, base, z, ⟨hsplit, (hstop z base hz).mp (hlast ▸ hmet), ?_⟩, hpassed, hlast⟩
  intro s hs hsb
  cases s with
  | nil => exact List.nil_suffix
  | cons y s =>
    have hle : s.length ≤ base.length := by
      by_contra hlt
      have hoff := habove y s hs (not_le.mp hlt)
      rw [(hstop y s hs).mpr hsb] at hoff
      cases hoff
    exact List.suffix_of_suffix_length_le hs hz (by simpa using hle)

end HeaderChain
