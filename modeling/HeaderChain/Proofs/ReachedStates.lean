import HeaderChain.Proofs.Histories

/-!
# What holds after every history

The best chain is the valid chain with the most work, every stored header has the chain state that
its route and the checkpoint give it, the siblings are the losing leaves, and headers wait only for
parents that are not stored or wait themselves.
-/

namespace HeaderChain

def History.store (h : History) (n : Network) : Store := (h.last n).ledger.store

theorem History.checkpoint_last (h : History) (n : Network) :
    (h.last n).checkpoint = (h.store n).checkpoint := rfl

/-- The stored route of a header, which goes through the checkpoint if it is high enough. -/
structure Store.Valid (s : Store) (n : Network) (k : Hash) (r : List Link) : Prop where
  route : Route (forestOf s.header?) n.genesisHash k r
  checkpoint : ∀ p ∈ positions r, p.height = s.checkpoint.height → p.hash = s.checkpoint.hash

variable {s : Store} {n : Network} {links b r : List Link} {k : Hash} {c : Position} {x : Link}

/-- A route is in no conflict with a checkpoint when it goes through it or stays below it. -/
theorem conflicts_eq_false_iff :
    conflicts c r = false ↔ ∀ p ∈ positions r, p.height = c.height → p.hash = c.hash := by
  induction r with
  | nil => simp [conflicts, positions]
  | cons x r ih =>
    have hx : x.standing r.length c ≠ .banned ↔
        ((r.length : Height) = c.height → x.hash = c.hash) := by
      unfold Link.standing
      split_ifs with hheight hhash
      · simp [Ne.symm hheight]
      · simp [hhash]
      · rw [not_not] at hheight
        simp [hheight, Ne.symm hhash]
    simp only [conflicts, Bool.or_eq_false_iff, beq_eq_false_iff_ne, ih, positions,
      List.forall_mem_cons, hx]

theorem Store.valid_iff : s.Valid n k r ↔
    Route (forestOf s.header?) n.genesisHash k r ∧ conflicts s.checkpoint r = false := by
  rw [conflicts_eq_false_iff]
  exact ⟨fun h => ⟨h.route, h.checkpoint⟩, fun h => ⟨h.1, h.2⟩⟩

namespace Store.Founded

theorem exact (hs : s.Founded n links b) : Exact s.header? n.genesisHash s.checkpoint := by
  have hexact := hs.sound.exact
  rw [Draft.header?_mk] at hexact
  exact hexact

theorem optimal (hs : s.Founded n links b) :
    Optimal (forestOf s.header?) n.genesisHash s.checkpoint b := by
  have hoptimal := hs.sound.optimal
  rw [Draft.header?_mk] at hoptimal
  exact hoptimal

theorem bestAt?_iff (hs : s.Founded n links b) {height : Height} {hash : Hash} :
    s.bestAt? height = some hash ↔ ⟨height, hash⟩ ∈ positions b := by
  rw [← hs.sound.follows.bestAt, Draft.bestAt?_mk]

theorem mem_siblings_iff (hs : s.Founded n links b) :
    k ∈ s.siblings ↔ Losing (forestOf s.header?) n.genesisHash b k := by
  have hsiblings := hs.sound.siblings k
  rw [Draft.header?_mk] at hsiblings
  rw [Store.mem_siblings, ← hsiblings, Draft.isSibling]
  simp

theorem exists_bestAt? (hs : s.Founded n links b) (hset : s.checkpoint.isBlank = false)
    (hheight : s.checkpoint.height ≤ s.tipHeight) :
    ∃ hash, s.bestAt? s.checkpoint.height = some hash := by
  have hlow : 0 ≤ s.checkpoint.height := by
    rcases hs.checkpoint with hblank | ⟨hlow, -⟩
    · rw [hblank, Position.isBlank_blank] at hset
      cases hset
    · unfold Height.leastCheckpoint at hlow
      lia
  rw [← Option.isSome_iff_exists, hs.sound.follows.continuous.base.bestAt]
  exact ⟨hlow, hheight⟩

theorem hasHeader_eq (hs : s.Founded n links b) (k : Hash) :
    s.hasHeader k = (s.header? k).isSome := by
  have hreadable := Draft.hasHeader_iff (k := k) hs.sound.readable
  rw [Draft.header?_mk] at hreadable
  rw [Bool.eq_iff_iff, ← hreadable]
  simp [Draft.hasHeader]

theorem connected_iff (hs : s.Founded n links b) :
    (∃ x, s.header? k = some x ∧ x.isDisconnected = false) ↔
      ∃ r, Route (forestOf s.header?) n.genesisHash k r := by
  constructor
  · rintro ⟨x, hk, hplace⟩
    obtain ⟨r, hr, -⟩ := hs.exact.route_of_connected hk hplace
    exact ⟨_, hr⟩
  · rintro ⟨r, hr⟩
    obtain ⟨y, r, rfl⟩ := List.exists_cons_of_ne_nil hr.ne_nil
    exact ⟨_, hs.exact.placed hr, isDisconnected_placed⟩

theorem off_best_iff (hs : s.Founded n links b) :
    (∀ height, s.bestAt? height ≠ some k) ↔ ∀ x ∈ b, x.hash ≠ k := by
  constructor
  · intro hoff x hx hk
    subst hk
    obtain ⟨t, u, rfl⟩ := List.append_of_mem hx
    exact hoff u.length (hs.bestAt?_iff.mpr (mem_positions.mpr ⟨x, u, List.suffix_append t _, rfl⟩))
  · intro hoff height hat
    obtain ⟨x, u, hu, heq⟩ := mem_positions.mp (hs.bestAt?_iff.mp hat)
    exact hoff x (hu.subset (by simp)) (Position.mk.inj heq).2.symm

theorem route_length_le (hs : s.Founded n links b)
    (hr : Route (forestOf s.header?) n.genesisHash k r) : r.length ≤ links.length + 1 := by
  rw [hs.forest] at hr
  exact length_route_firsts_le hr

theorem bestAt?_cases (hs : s.Founded n links b) {height : Height}
    (hat : s.bestAt? height = some k) : ∃ x r, x :: r <:+ b ∧ height = r.length ∧ k = x.hash ∧
      Route (forestOf s.header?) n.genesisHash k (x :: r) := by
  obtain ⟨j, hj⟩ := hs.optimal.route
  obtain ⟨x, r, hr, hp⟩ := mem_positions.mp (hs.bestAt?_iff.mp hat)
  obtain ⟨rfl, rfl⟩ := Position.mk.inj hp
  exact ⟨x, r, hr, rfl, rfl, hj.of_suffix hs.exact.named hr⟩

theorem bestAt?_parent (hs : s.Founded n links b) (hr : x :: r <:+ b)
    (hroute : Route (forestOf s.header?) n.genesisHash k (x :: r)) (hne : r ≠ []) :
    s.bestAt? ((r.length : Height) - 1) = some x.parent := by
  obtain ⟨y, t, rfl⟩ := List.exists_cons_of_ne_nil hne
  have hparent := hroute.parent.2.hash_eq hs.exact.named
  apply hs.bestAt?_iff.mpr
  apply mem_positions.mpr
  refine ⟨y, t, (List.suffix_cons x _).trans hr, ?_⟩
  rw [← hparent, List.length_cons]
  simp

theorem mem_waiting_iff (hs : s.Founded n links b) {e : Edge} : e ∈ s.waiting ↔
    ∃ x, s.header? e.child = some x ∧ x.isDisconnected = true ∧ x.parent = e.parent := by
  have hwaiting : ({ base := s } : Draft).isWaiting e = s.isWaiting e := Changes.holds_empty e _
  rw [mem_waiting, ← hwaiting, hs.sound.edges, Draft.header?_mk]

theorem connected_of_parent (hs : s.Founded n links b) {x y : Header} (hx : s.header? k = some x)
    (hy : s.header? x.parent = some y) (hplace : y.isDisconnected = false) :
    x.isDisconnected = false := by
  obtain ⟨r, hr⟩ := hs.connected_iff.mp ⟨y, hy, hplace⟩
  have hk : ∃ r, Route (forestOf s.header?) n.genesisHash k r := by
    by_cases hgenesis : k = n.genesisHash
    · subst hgenesis
      obtain ⟨z, hz⟩ := hs.exact.genesis_route
      exact ⟨[z], hz⟩
    · exact ⟨x.link :: r, .child hgenesis (forestOf_eq_some.mpr ⟨x, hx, rfl⟩) hr⟩
  obtain ⟨z, hz, hconnected⟩ := hs.connected_iff.mpr hk
  cases hx.symm.trans hz
  exact hconnected

theorem leaf_iff (hs : s.Founded n links b) (hr : Route (forestOf s.header?) n.genesisHash k r) :
    Leaf (forestOf s.header?) n.genesisHash k ↔
      ∀ j y, s.header? j = some y → y.isDisconnected = false → y.parent = k →
        j = n.genesisHash := by
  constructor
  · intro hleaf j y hj _ hparent
    exact hleaf.2 j y.link (forestOf_eq_some.mpr ⟨y, hj, rfl⟩) hparent
  · intro hnone
    refine ⟨⟨r, hr⟩, ?_⟩
    intro j z hz hparent
    by_contra hne
    subst hparent
    have hj : Route (forestOf s.header?) n.genesisHash j (z :: r) := .child hne hz hr
    exact hne (hnone j _ (hs.exact.placed hj) isDisconnected_placed rfl)

end Store.Founded

/-! ## The best chain -/

theorem History.store_founded (h : History) (n : Network) :
    ∃ b, (h.store n).Founded n ((h.accepted n).map Header.link) b := by
  obtain ⟨b, ht⟩ := h.founded n
  exact ⟨b, ht.store⟩

/-- The tip of the best chain is valid, the best chain is its route, and no valid header has more
work. Where the chain is as high as the checkpoint it goes through it. -/
theorem History.best_chain_optimal (h : History) (n : Network) :
    ∃ best r, (h.store n).best = .ok best ∧ (h.store n).Valid n best.hash r ∧
      best.work = totalWork r ∧
      (∀ height hash, (h.store n).bestAt? height = some hash ↔ ⟨height, hash⟩ ∈ positions r) ∧
      (∀ k r', (h.store n).Valid n k r' → totalWork r' ≤ totalWork r) ∧
      ((h.store n).checkpoint.isBlank = false →
        (h.store n).checkpoint.height ≤ (h.store n).tipHeight →
        (h.store n).bestAt? (h.store n).checkpoint.height = some (h.store n).checkpoint.hash) := by
  obtain ⟨b, hs⟩ := h.store_founded n
  have hopt := hs.optimal
  obtain ⟨k, hk⟩ := hopt.route
  obtain ⟨x, r, rfl⟩ := List.exists_cons_of_ne_nil hk.ne_nil
  have hroute : Route (forestOf (h.store n).header?) n.genesisHash x.hash (x :: r) :=
    hk.of_suffix hs.exact.named (List.suffix_refl _)
  refine ⟨_, x :: r, hs.best, Store.valid_iff.mpr ⟨hroute, hopt.clear⟩, rfl, ?_, ?_, ?_⟩
  · intro height hash
    exact hs.bestAt?_iff
  · intro k r' hr'
    obtain ⟨hr', hclear⟩ := Store.valid_iff.mp hr'
    exact hopt.maximal k r' hr' hclear
  · intro hset hheight
    obtain ⟨hash, hat⟩ := hs.exists_bestAt? hset hheight
    have hmem := hs.bestAt?_iff.mp hat
    have hsame : hash = (h.store n).checkpoint.hash :=
      conflicts_eq_false_iff.mp hopt.clear _ hmem rfl
    rw [hat, hsame]

/-- The best chain has a block at each height from genesis up to its tip, and at no other one. Each
block is a stored header with its place at that height, which no checkpoint rules out and whose
parent is the block below. -/
theorem History.best_chain_linked (h : History) (n : Network) :
    0 ≤ (h.store n).tipHeight ∧
    (∀ height, ((h.store n).bestAt? height).isSome = true ↔
      0 ≤ height ∧ height ≤ (h.store n).tipHeight) ∧
    (h.store n).bestAt? 0 = some n.genesisHash ∧
    ∀ height hash, (h.store n).bestAt? height = some hash →
      ∃ x, (h.store n).header? hash = some x ∧ x.isDisconnected = false ∧ x.height = height ∧
        x.isBanned = false ∧
        (0 < height → (h.store n).bestAt? (height - 1) = some x.parent) := by
  obtain ⟨b, hs⟩ := h.store_founded n
  have hcontinuous := hs.sound.follows.continuous.base
  refine ⟨hcontinuous.tip, hcontinuous.bestAt, ?_, ?_⟩
  · obtain ⟨j, hj⟩ := hs.optimal.route
    obtain ⟨x, hx, hlow⟩ := hj.genesis_suffix
    apply hs.bestAt?_iff.mpr
    apply mem_positions.mpr
    refine ⟨x, [], hlow, ?_⟩
    rw [hs.exact.named _ x hx]
    rfl
  · intro height hash hat
    obtain ⟨x, r, hr, rfl, -, hroute⟩ := hs.bestAt?_cases hat
    refine ⟨_, hs.exact.placed hroute, isDisconnected_placed, rfl, ?_, ?_⟩
    · rw [isBanned_placed]
      exact clear_of_suffix hr hs.optimal.clear
    · intro hpos
      apply hs.bestAt?_parent hr hroute
      rintro rfl
      simp at hpos

/-! ## Stored headers -/

/-- The standing that a header has from its ancestors, the links of `r`. -/
theorem inherited_placed :
    (x.placed c r).inherited = .normal ∨ (x.placed c r).inherited = .banned := by
  unfold Link.placed
  by_cases h : conflicts c r = true <;> simp [h]

theorem inherited_placed_iff : (x.placed c r).inherited = .banned ↔
    ∃ y t, y :: t <:+ r ∧ y.standing t.length c = .banned := by
  rw [← conflicts_iff]
  unfold Link.placed
  by_cases h : conflicts c r = true <;> simp [h]

/-- The headers stored are the first of genesis and the brought ones for each hash. Their chain
state is what their route and the checkpoint say, or that of a header without a place. -/
theorem History.headers_exact (h : History) (n : Network) :
    (∀ k, (h.store n).hasHeader k = ((h.store n).header? k).isSome) ∧
    (∀ k, ((h.store n).header? k).map Header.link =
      ((n.genesis :: h.accepted n).map Header.link).find? fun x => x.hash = k) ∧
    ∀ k x, (h.store n).header? k = some x →
      (∃ r, Route (forestOf (h.store n).header?) n.genesisHash k (x.link :: r) ∧
        x.height = r.length ∧ x.work = totalWork (x.link :: r) ∧
        x.own = x.link.standing r.length (h.store n).checkpoint ∧
        (x.inherited = .normal ∨ x.inherited = .banned) ∧
        (x.inherited = .banned ↔
          ∃ y t, y :: t <:+ r ∧ y.standing t.length (h.store n).checkpoint = .banned)) ∨
      (∀ r, ¬ Route (forestOf (h.store n).header?) n.genesisHash k r) ∧
        x.height = -1 ∧ x.work = 0 ∧ x.own = .disconnected ∧ x.inherited = .normal := by
  obtain ⟨b, hs⟩ := h.store_founded n
  refine ⟨?_, ?_, ?_⟩
  · intro k
    exact hs.hasHeader_eq k
  · intro k
    have hforest := congrFun hs.forest k
    exact hforest
  · intro k x hk
    by_cases hplace : x.isDisconnected = true
    · right
      have hnone := (hs.exact.isDisconnected_iff hk).mp hplace
      have hwaits := hs.exact.waiting hk hnone
      refine ⟨hnone, ?_⟩
      rw [hwaits]
      exact ⟨rfl, rfl, rfl, rfl⟩
    · left
      rw [Bool.not_eq_true] at hplace
      obtain ⟨r, hr, hplaced⟩ := hs.exact.route_of_connected hk hplace
      refine ⟨r, hr, ?_⟩
      generalize x.link = y at *
      subst hplaced
      exact ⟨rfl, rfl, rfl, inherited_placed, inherited_placed_iff⟩

/-! ## Siblings -/

/-- The siblings are the headers with a place, off the best chain, that no header with a place is
a child of. None of them descends from another one, and every header off the best chain has one
above it. -/
theorem History.siblings_exact (h : History) (n : Network) :
    (∀ k, k ∈ (h.store n).siblings ↔
      (∃ x, (h.store n).header? k = some x ∧ x.isDisconnected = false) ∧
      (∀ height, (h.store n).bestAt? height ≠ some k) ∧
      ∀ j y, (h.store n).header? j = some y → y.isDisconnected = false → y.parent = k →
        j = n.genesisHash) ∧
    (∀ k ∈ (h.store n).siblings, ∀ j ∈ (h.store n).siblings,
      Ancestor (forestOf (h.store n).header?) n.genesisHash k j → k = j) ∧
    ∀ k x, (h.store n).header? k = some x → x.isDisconnected = false →
      (∀ height, (h.store n).bestAt? height ≠ some k) →
      ∃ j ∈ (h.store n).siblings, Ancestor (forestOf (h.store n).header?) n.genesisHash k j := by
  obtain ⟨b, hs⟩ := h.store_founded n
  have hn := hs.exact.named
  obtain ⟨l, hl⟩ := hs.optimal.route
  refine ⟨?_, ?_, ?_⟩
  · intro k
    rw [hs.mem_siblings_iff, hs.connected_iff, hs.off_best_iff]
    constructor
    · rintro ⟨hleaf, hoff⟩
      obtain ⟨r, hr⟩ := hleaf.route
      exact ⟨⟨r, hr⟩, hoff, (hs.leaf_iff hr).mp hleaf⟩
    · rintro ⟨⟨r, hr⟩, hoff, hnone⟩
      exact ⟨(hs.leaf_iff hr).mpr hnone, hoff⟩
  · intro k hk j hj hancestor
    obtain ⟨r, t, hr, ht, hsuffix⟩ := hancestor
    obtain ⟨hleaf, -⟩ := hs.mem_siblings_iff.mp hk
    exact (hleaf.eq_of_suffix hn hr ht hsuffix).1
  · intro k x hk hplace hoff
    obtain ⟨r, hr⟩ := hs.connected_iff.mp ⟨x, hk, hplace⟩
    rw [hs.off_best_iff] at hoff
    obtain ⟨j, t, ht, hleaf, hup⟩ := hr.exists_leaf fun _ _ => hs.route_length_le
    refine ⟨j, hs.mem_siblings_iff.mpr ⟨hleaf, ?_⟩, r, t, hr, ht, hup⟩
    -- A leaf on the best chain would have all its ancestors there.
    intro y hy hj
    have hon := hup.trans ((ht.exists_mem_iff hn hl).mp ⟨y, hy, hj⟩)
    obtain ⟨z, hz, hzk⟩ := (hr.exists_mem_iff hn hl).mpr hon
    exact hoff z hz hzk

/-! ## Waiting headers -/

/-- The edges are those from the headers without a place to their parents. No header waits for a
parent that has a place: the parent is not stored, or it waits itself. -/
theorem History.edges_exact (h : History) (n : Network) :
    (∀ e, e ∈ (h.store n).waiting ↔
      ∃ x, (h.store n).header? e.child = some x ∧ x.isDisconnected = true ∧
        x.parent = e.parent) ∧
    (∀ parent child, child ∈ (h.store n).waitingFor parent ↔
      ⟨parent, child⟩ ∈ (h.store n).waiting) ∧
    ∀ e ∈ (h.store n).waiting, (h.store n).hasHeader e.parent = false ∨
      ∃ y, (h.store n).header? e.parent = some y ∧ y.isDisconnected = true := by
  obtain ⟨b, hs⟩ := h.store_founded n
  refine ⟨fun e => hs.mem_waiting_iff, ?_, ?_⟩
  · intro parent child
    rw [Store.mem_waitingFor, Store.mem_waiting]
  · intro e he
    obtain ⟨x, hx, hwaits, hparent⟩ := hs.mem_waiting_iff.mp he
    rw [hs.hasHeader_eq, ← hparent]
    cases hy : (h.store n).header? x.parent with
    | none => exact .inl rfl
    | some y =>
      right
      refine ⟨y, rfl, ?_⟩
      by_contra hplace
      rw [Bool.not_eq_true] at hplace
      rw [hs.connected_of_parent hx hy hplace] at hwaits
      cases hwaits

end HeaderChain
