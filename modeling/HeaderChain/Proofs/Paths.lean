import HeaderChain.Proofs.Announcing

/-!
# Paths over parents

A path goes upward from a header to one of its descendants: each position is that of a stored header
with a place, and the header before it is its parent. Between two headers there is one path at most,
because a header has one parent, whose height is one less. A route gives such a path to everything
above one of its links, and the best chain between two of its blocks is one.
-/

namespace HeaderChain

/-- The front of a list under a limit, where zero means that there is none. -/
def front {α : Type} (limit : ℕ) (l : List α) : List α := if limit = 0 then l else l.take limit

theorem take_limited {α : Type} (limit : ℕ) (l : List α) :
    l.take (limited limit l.length) = front limit l := by
  unfold limited front
  split_ifs
  · exact List.take_length
  · rw [← List.take_eq_take_min]

/-- The first position is that of the parent of the second, which is one height above it. -/
def Store.IsParent (s : Store) (p q : Position) : Prop :=
  p.height + 1 = q.height ∧ ∃ x, s.header? q.hash = some x ∧ x.parent = p.hash

/-- Each position is that of a stored header with a place, and of the parent of the next one. -/
structure Store.Linked (s : Store) (path : List Position) : Prop where
  placed : ∀ p ∈ path, ∃ x, s.header? p.hash = some x ∧ x.isDisconnected = false ∧ x.position = p
  parents : path.IsChain s.IsParent

/-- A path over parents from one header up to another, with both of them. -/
structure Store.Leads (s : Store) (a k : Hash) (path : List Position) : Prop where
  linked : s.Linked path
  first : path.head?.map Position.hash = some a
  last : path.getLast?.map Position.hash = some k

variable {s : Store} {n : Network} {links b r t up : List Link} {a k : Hash} {p q : Position}
variable {path path' : List Position} {x : Link}

/-! ## There is one path at most -/

theorem Store.IsParent.unique {p' : Position} (h : s.IsParent p q) (h' : s.IsParent p' q) :
    p = p' := by
  obtain ⟨hheight, x, hx, hhash⟩ := h
  obtain ⟨hheight', x', hx', hhash'⟩ := h'
  cases hx.symm.trans hx'
  have hheights : p.height = p'.height := by lia
  obtain ⟨height, hash⟩ := p
  obtain ⟨height', hash'⟩ := p'
  rw [Position.mk.injEq]
  exact ⟨hheights, hhash.symm.trans hhash'⟩

theorem Store.height_of_descent (h : (p :: path).IsChain fun p q => s.IsParent q p)
    (hlast : (p :: path).getLast? = some q) : q.height + path.length = p.height := by
  induction path generalizing p with
  | nil =>
    cases hlast
    simp
  | cons p' path ih =>
    obtain ⟨⟨hheight, -⟩, hrest⟩ := List.isChain_cons_cons.mp h
    rw [List.getLast?_cons_cons] at hlast
    have := ih hrest hlast
    rw [List.length_cons]
    lia

/-- The way down over parents is determined by where it starts and how long it is. -/
theorem Store.descent_unique (h : (p :: path).IsChain fun p q => s.IsParent q p)
    (h' : (p :: path').IsChain fun p q => s.IsParent q p) (hlen : path.length = path'.length) :
    path = path' := by
  induction path generalizing p path' with
  | nil => exact (List.length_eq_zero_iff.mp hlen.symm).symm
  | cons q path ih =>
    obtain ⟨q', path', rfl⟩ := List.exists_cons_of_length_eq_add_one hlen.symm
    obtain ⟨hparent, hrest⟩ := List.isChain_cons_cons.mp h
    obtain ⟨hparent', hrest'⟩ := List.isChain_cons_cons.mp h'
    obtain rfl := hparent.unique hparent'
    rw [ih hrest hrest' (by simpa using hlen)]

theorem Store.Leads.unique (h : s.Leads a k path) (h' : s.Leads a k path') : path = path' := by
  have hposition {l l' : List Position} {p q : Position} (hl : s.Linked l) (hl' : s.Linked l')
      (hp : p ∈ l) (hq : q ∈ l') (hhash : p.hash = q.hash) : p = q := by
    obtain ⟨x, hx, -, rfl⟩ := hl.placed p hp
    obtain ⟨y, hy, -, rfl⟩ := hl'.placed q hq
    rw [hhash] at hx
    cases hx.symm.trans hy
    rfl
  obtain ⟨low, hlow, hlowhash⟩ := Option.map_eq_some_iff.mp h.first
  obtain ⟨low', hlow', hlowhash'⟩ := Option.map_eq_some_iff.mp h'.first
  obtain ⟨top, htop, htophash⟩ := Option.map_eq_some_iff.mp h.last
  obtain ⟨top', htop', htophash'⟩ := Option.map_eq_some_iff.mp h'.last
  have hlows : low = low' := hposition h.linked h'.linked (List.mem_of_head? hlow)
    (List.mem_of_head? hlow') (hlowhash.trans hlowhash'.symm)
  have htops : top = top' := hposition h.linked h'.linked (List.mem_of_getLast? htop)
    (List.mem_of_getLast? htop') (htophash.trans htophash'.symm)
  subst hlows htops
  -- Seen from above, both paths start at one position and end at one height.
  obtain ⟨down, hdown⟩ := List.head?_eq_some_iff.mp ((List.head?_reverse ..).trans htop)
  obtain ⟨down', hdown'⟩ := List.head?_eq_some_iff.mp ((List.head?_reverse ..).trans htop')
  have hchain := List.isChain_reverse.mpr h.linked.parents
  have hchain' := List.isChain_reverse.mpr h'.linked.parents
  have hbottom := (List.getLast?_reverse ..).trans hlow
  have hbottom' := (List.getLast?_reverse ..).trans hlow'
  rw [hdown] at hchain hbottom
  rw [hdown'] at hchain' hbottom'
  have hheight := height_of_descent hchain hbottom
  have hheight' := height_of_descent hchain' hbottom'
  have hsame := descent_unique hchain hchain' (by lia)
  rw [← List.reverse_inj, hdown, hdown', hsame]

/-! ## Paths along routes -/

theorem length_ascend (t up : List Link) : (ascend t up).length = up.length := by
  induction up generalizing t with
  | nil => rfl
  | cons x up ih => simp [ascend, ih]

theorem getLast?_ascend_cons (t : List Link) (x : Link) (up : List Link) :
    (ascend t (x :: up)).getLast? = (positions (up.reverse ++ x :: t)).head? := by
  have hsplit := positions_append t (x :: up)
  rw [List.reverse_cons, List.append_assoc, List.singleton_append] at hsplit
  rw [hsplit, List.head?_append, List.head?_reverse]
  cases hlast : (ascend t (x :: up)).getLast? with
  | some p => rfl
  | none => simp [ascend] at hlast

namespace Store.Founded

theorem linked_ascend (hs : s.Founded n links b)
    (hr : Route (forestOf s.header?) n.genesisHash k r) (hup : up.reverse ++ t <:+ r) :
    s.Linked (ascend t up) :=
  ⟨fun _ hp => hs.exact.placed_of_mem hr (mem_positions_of_mem_ascend hup hp),
    hs.exact.isChain_ascend hr hup⟩

theorem leads_ascend (hs : s.Founded n links b)
    (hr : Route (forestOf s.header?) n.genesisHash k (up.reverse ++ x :: t)) :
    s.Leads x.hash k (ascend t (x :: up)) := by
  refine ⟨hs.linked_ascend hr (by simp), rfl, ?_⟩
  rw [getLast?_ascend_cons]
  obtain ⟨y, u, hu⟩ := List.exists_cons_of_ne_nil hr.ne_nil
  rw [hu] at hr ⊢
  rw [← hr.hash_eq hs.exact.named]
  rfl

/-! ## Paths along the best chain -/

theorem onBest_cases (hs : s.Founded n links b) (hp : s.onBest p = true) : ∃ x r, x :: r <:+ b ∧
    p.height = r.length ∧ Route (forestOf s.header?) n.genesisHash p.hash (x :: r) := by
  obtain ⟨x, r, hr, hheight, -, hroute⟩ := hs.bestAt?_cases (Store.onBest_iff.mp hp)
  exact ⟨x, r, hr, hheight, hroute⟩

theorem bestAt?_of_suffix (hs : s.Founded n links b) (hx : x :: t <:+ b) :
    s.bestAt? t.length = some x.hash :=
  hs.bestAt?_iff.mpr (mem_positions.mpr ⟨x, t, hx, rfl⟩)

/-- The best chain upward from a part of its route. -/
theorem bestRun_eq (hs : s.Founded n links b) (hup : up.reverse ++ t <:+ b) {count : ℕ}
    (hcount : count ≤ up.length) : s.bestRun t.length count = (ascend t up).take count := by
  induction count generalizing up t with
  | zero => rfl
  | succ count ih =>
    cases up with
    | nil => simp at hcount
    | cons x up =>
      rw [List.reverse_cons, List.append_assoc, List.singleton_append] at hup
      have hat := hs.bestAt?_of_suffix ((List.suffix_append _ _).trans hup)
      have hrest := ih hup (by simpa using hcount)
      rw [List.length_cons, Nat.cast_succ] at hrest
      rw [Store.bestRun, hat, hrest]
      rfl

/-- The best chain between two of its blocks is the path between them, under a limit. -/
theorem bestBetween_eq (hs : s.Founded n links b) (hup : up.reverse ++ t <:+ b) {last : Height}
    (hlast : (last - t.length + 1).toNat = up.length) (limit : ℕ) :
    s.bestBetween t.length last limit = front limit (ascend t up) := by
  have hle : limited limit up.length ≤ up.length := by
    unfold limited
    split_ifs
    · exact le_rfl
    · exact Nat.min_le_right _ _
  rw [Store.bestBetween, hlast, hs.bestRun_eq hup hle, ← length_ascend t up, take_limited]

end Store.Founded

end HeaderChain
