import HeaderChain.Proofs.Ancestors
import HeaderChain.Proofs.Outcomes

/-!
# Where a header joins the best chain

Three questions are asked about the way of a header to the best chain: which block of the chain it
branches off from, which positions come in when it becomes the tip, and which of the best chain lie
above the block. Each one walks by itself, and they tell the same: a route forks off the best chain
at one link, what is above it on the route is off the best chain, and what is above it on the best
chain goes up to the tip.
-/

namespace HeaderChain

variable {s : Store} {n : Network} {links b r t up base : List Link} {l : Ledger} {ε : Type}
variable {k : Hash} {p q : Position} {x z : Link} {h : Header}

/-- The list has the position of the best chain at each height from the first to the last. -/
def Store.Spans (s : Store) (first last : Height) (l : List Position) : Prop :=
  ∀ i : ℕ, l[i]? = if first + i ≤ last then s.bestPosition (first + i) else none

/-- The position is on the best chain, and is the highest there that belongs to a header or to one
of its ancestors. -/
structure Store.JoinsAt (s : Store) (g k : Hash) (a : Position) : Prop where
  onBest : s.onBest a = true
  ancestor : Ancestor (forestOf s.header?) g a.hash k
  highest : ∀ q, s.onBest q = true → Ancestor (forestOf s.header?) g q.hash k → q.height ≤ a.height

/-- The positions that a header brings in above a position of the best chain, highest first: those
of the header and its ancestors above it, each followed by its parent, and none on the chain. -/
structure Store.BringsIn (s : Store) (g k : Hash) (a : Position) (path : List Position) : Prop where
  mem : ∀ q, q ∈ path ↔ a.height < q.height ∧ ∃ y, s.header? q.hash = some y ∧ y.position = q ∧
    Ancestor (forestOf s.header?) g q.hash k
  parents : path.IsChain fun p q => s.IsParent q p
  offBest : ∀ q ∈ path, s.onBest q = false

/-! ## Positions of a route -/

theorem length_le_of_mem_ascend (hq : q ∈ ascend t up) : (t.length : Height) ≤ q.height := by
  induction up generalizing t with
  | nil => simp [ascend] at hq
  | cons x up ih =>
    rcases List.mem_cons.mp hq with rfl | hq
    · exact le_rfl
    · have hle := ih hq
      rw [List.length_cons] at hle
      lia

theorem mem_ascend_iff :
    q ∈ ascend t up ↔ q ∈ positions (up.reverse ++ t) ∧ (t.length : Height) ≤ q.height := by
  rw [positions_append, List.mem_append, List.mem_reverse]
  constructor
  · intro hq
    exact ⟨.inl hq, length_le_of_mem_ascend hq⟩
  · rintro ⟨hq | hq, hle⟩
    · exact hq
    · have hlt := (height_lt_of_mem_positions hq).2
      lia

namespace Store.Founded

variable (hs : s.Founded n links b)

include hs

theorem mem_positions_iff (hr : Route (forestOf s.header?) n.genesisHash k r) :
    q ∈ positions r ↔ ∃ y, s.header? q.hash = some y ∧ y.position = q ∧
      Ancestor (forestOf s.header?) n.genesisHash q.hash k := by
  constructor
  · intro hq
    obtain ⟨y, t, ht, rfl⟩ := mem_positions.mp hq
    have hy := hr.of_suffix hs.exact.named ht
    exact ⟨_, hs.exact.placed hy, rfl, _, _, hy, hr, ht⟩
  · rintro ⟨y, hy, hposition, t, r', ht, hr', hsuffix⟩
    obtain ⟨z, t, rfl⟩ := List.exists_cons_of_ne_nil ht.ne_nil
    cases hy.symm.trans (hs.exact.placed ht)
    rw [← hposition, ← hr'.unique hr]
    exact mem_positions.mpr ⟨z, t, hsuffix, rfl⟩

theorem onBest_placed_iff (hr : Route (forestOf s.header?) n.genesisHash k (x :: r)) :
    s.onBest (x.placed s.checkpoint r).position = true ↔ x :: r <:+ b := by
  obtain ⟨j, hj⟩ := hs.optimal.route
  rw [Store.onBest_iff, hs.bestAt?_iff, ← hr.mem_positions_iff hs.exact.named hj, position_placed,
    hr.hash_eq hs.exact.named]

theorem spans_ascend (hup : up.reverse ++ t <:+ b) :
    s.Spans t.length (t.length + up.length - 1) (ascend t up) := by
  induction up generalizing t with
  | nil =>
    intro i
    rw [if_neg (by simp)]
    rfl
  | cons x up ih =>
    rw [List.reverse_cons, List.append_assoc, List.singleton_append] at hup
    have hat := hs.bestAt?_of_suffix ((List.suffix_append _ _).trans hup)
    intro i
    cases i with
    | zero => simp [ascend, Store.bestPosition, hat]
    | succ i =>
      have hrest := ih hup i
      have hheight : ((x :: t).length : Height) + i = t.length + (i + 1 : ℕ) := by
        rw [List.length_cons]
        lia
      have htop : ((x :: t).length : Height) + up.length = t.length + (x :: up).length := by
        rw [List.length_cons, List.length_cons]
        lia
      rw [hheight, htop] at hrest
      exact hrest

theorem leads_route (hr : Route (forestOf s.header?) n.genesisHash k r) :
    s.Leads n.genesisHash k (ascend [] r.reverse) := by
  obtain ⟨x, hx, t, rfl⟩ := hr.genesis_suffix
  have hsplit : Route (forestOf s.header?) n.genesisHash k (t.reverse.reverse ++ [x]) := by
    rwa [List.reverse_reverse]
  have hleads := hs.leads_ascend hsplit
  rw [hs.exact.named _ x hx] at hleads
  simpa using hleads

/-! ## The walks -/

/-- The walk to the best chain ends where the route forks off from it. -/
theorem traceToBest_spec (missing endless : ε)
    (hr : Route (forestOf s.header?) n.genesisHash k (x :: r)) :
    ∃ w up base z, s.traceToBest missing endless (x.placed s.checkpoint r) = .ok w ∧
      Forks (x :: r) b up (z :: base) ∧ w.passed = (ascend (z :: base) up).reverse ∧
      w.last.position = ⟨base.length, z.hash⟩ ∧ s.onBest w.last.position = true := by
  have hlen := hs.length_lt_bound hr
  rw [List.length_cons] at hlen
  obtain ⟨w, hw, hwalk⟩ : ∃ w, s.traceToBest missing endless (x.placed s.checkpoint r) = .ok w ∧
      w.Follows (fun h => s.onBest h.position || h.isRoot) s.checkpoint (x :: r) :=
    Trace.run_route endless _ (fun k x r hr => by rw [hs.exact.placed hr]) (fun y => by simp) hr
      (by omega)
  obtain ⟨j, hj⟩ := hs.optimal.route
  obtain ⟨up, base, z, hforks, hpassed, hlast⟩ := hwalk.forks (b := b) fun y t ht => by
    have hy := hr.of_suffix hs.exact.named ht
    rw [Bool.or_eq_true, hs.onBest_placed_iff hy, or_iff_left_iff_imp]
    intro hroot
    rw [isRoot_placed, List.isEmpty_iff] at hroot
    subst hroot
    exact hy.singleton_suffix hj
  have hz := hr.of_suffix hs.exact.named ⟨_, hforks.split.symm⟩
  refine ⟨w, up, base, z, hw, hforks, hpassed, ?_, ?_⟩
  · rw [hlast, position_placed]
  · rw [hlast]
    exact (hs.onBest_placed_iff hz).mpr hforks.suffix

theorem exists_forks (hr : Route (forestOf s.header?) n.genesisHash k r) :
    ∃ up base z, Forks r b up (z :: base) := by
  obtain ⟨x, r, rfl⟩ := List.exists_cons_of_ne_nil hr.ne_nil
  obtain ⟨-, up, base, z, -, hforks, -⟩ := hs.traceToBest_spec () () hr
  exact ⟨up, base, z, hforks⟩

/-- What comes in with a header is what its route has above the fork. -/
theorem reorgPath_eq (hr : Route (forestOf s.header?) n.genesisHash p.hash r)
    (hforks : Forks r b up (z :: base)) :
    s.reorgPath p = .ok (ascend (z :: base) up).reverse := by
  unfold Store.reorgPath
  split_ifs with hp
  · obtain ⟨y, t, ht, -, hy⟩ := hs.onBest_cases hp
    rw [hy.unique hr] at ht
    obtain ⟨rfl, -⟩ := hforks.unique (.of_suffix ht)
    rfl
  · obtain ⟨x, r, rfl⟩ := List.exists_cons_of_ne_nil hr.ne_nil
    obtain ⟨w, up', base', z', hw, hforks', hpassed, -, hmeets⟩ := hs.traceToBest_spec
      (ChainError.notConnected (.missingAncestor p))
      (ChainError.contradiction (.endless (x.placed s.checkpoint r).position)) hr
    obtain ⟨rfl, heq⟩ := hforks.unique hforks'
    rw [hs.exact.placed hr]
    simp only [hw, bind, Except.bind, if_pos hmeets, hpassed, heq]
    rfl

end Store.Founded

/-- The last ancestor on the best chain is the link that the route forks at. -/
theorem Ledger.bestAncestor_eq (hs : l.store.Founded n links b)
    (hr : Route (forestOf l.store.header?) n.genesisHash k r) (hforks : Forks r b up (z :: base)) :
    l.bestAncestor k = ⟨base.length, z.hash⟩ := by
  obtain ⟨x, r, rfl⟩ := List.exists_cons_of_ne_nil hr.ne_nil
  obtain ⟨w, up', base', z', hw, hforks', -, hlast, hmeets⟩ := hs.traceToBest_spec () () hr
  obtain ⟨-, heq⟩ := hforks.unique hforks'
  cases heq
  unfold Ledger.bestAncestor
  rw [hs.exact.placed hr]
  simp only [hw, if_pos hmeets]
  exact hlast

namespace Store.Founded

variable (hs : s.Founded n links b)

include hs

theorem joinsAt (hr : Route (forestOf s.header?) n.genesisHash k r)
    (hforks : Forks r b up (z :: base)) : s.JoinsAt n.genesisHash k ⟨base.length, z.hash⟩ := by
  have hsuffix : z :: base <:+ r := ⟨_, hforks.split.symm⟩
  have hz := hr.of_suffix hs.exact.named hsuffix
  constructor
  case onBest => exact (hs.onBest_placed_iff hz).mpr hforks.suffix
  case ancestor => exact ⟨_, _, hz, hr, hsuffix⟩
  case highest =>
    rintro q hq ⟨t, r', ht, hr', htr⟩
    obtain ⟨y, t', hb, hheight, hy⟩ := hs.onBest_cases hq
    rw [ht.unique hy, hr'.unique hr] at htr
    have hle := (hforks.longest _ htr hb).length_le
    rw [List.length_cons, List.length_cons] at hle
    rw [hheight]
    lia

theorem bringsIn (hr : Route (forestOf s.header?) n.genesisHash k r)
    (hforks : Forks r b up (z :: base)) :
    s.BringsIn n.genesisHash k ⟨base.length, z.hash⟩ (ascend (z :: base) up).reverse := by
  have hmem (q : Position) : q ∈ ascend (z :: base) up ↔
      q ∈ positions r ∧ (base.length : Height) < q.height := by
    rw [mem_ascend_iff, ← hforks.split, List.length_cons]
    lia
  constructor
  case mem =>
    intro q
    rw [List.mem_reverse, hmem, hs.mem_positions_iff hr]
    exact and_comm
  case parents =>
    rw [List.isChain_reverse]
    exact hs.exact.isChain_ascend hr (hforks.split ▸ List.suffix_refl _)
  case offBest =>
    intro q hq
    rw [List.mem_reverse, hmem, hs.mem_positions_iff hr] at hq
    obtain ⟨⟨-, -, -, hup⟩, habove⟩ := hq
    by_contra hon
    rw [Bool.not_eq_false] at hon
    exact not_le.mpr habove ((hs.joinsAt hr hforks).highest q hon hup)

theorem spans_below (hsuffix : z :: base <:+ b) :
    s.Spans 0 base.length (ascend [] (z :: base).reverse) := by
  have hlow : (z :: base).reverse.reverse ++ [] <:+ b := by
    rwa [List.reverse_reverse, List.append_nil]
  have hspans := hs.spans_ascend hlow
  simpa using hspans

theorem spans_above (hup : b = up.reverse ++ z :: base) (hheight : h.height + 1 = b.length) :
    s.Spans base.length h.height (ascend base (z :: up)) := by
  have hhigh : (z :: up).reverse ++ base <:+ b := by
    rw [List.reverse_cons, List.append_assoc, List.singleton_append, ← hup]
  have htip : h.height = base.length + (z :: up).length - 1 := by
    rw [hup, List.length_append, List.length_reverse, List.length_cons] at hheight
    rw [List.length_cons]
    lia
  rw [htip]
  exact hs.spans_ascend hhigh

/-- The best chain up to the fork and then what comes in are the path from genesis. -/
theorem leads_of_forks (hr : Route (forestOf s.header?) n.genesisHash k r)
    (hforks : Forks r b up base) :
    s.Leads n.genesisHash k (ascend [] base.reverse ++ (ascend base up).reverse.reverse) := by
  have hpath : ascend [] base.reverse ++ (ascend base up).reverse.reverse =
      ascend [] r.reverse := by
    rw [hforks.split, List.reverse_append, List.reverse_reverse, List.reverse_reverse,
      ascend_append, List.reverse_reverse, List.append_nil]
  rw [hpath]
  exact hs.leads_route hr

theorem exists_best : ∃ tip, s.best = .ok tip ∧ tip.height + 1 = b.length := by
  obtain ⟨j, hj⟩ := hs.optimal.route
  obtain ⟨x, r, rfl⟩ := List.exists_cons_of_ne_nil hj.ne_nil
  exact ⟨_, hs.best, by simp⟩

/-! ## Headers without a place -/

theorem not_onBest (hnone : ∀ r, ¬ Route (forestOf s.header?) n.genesisHash q.hash r) :
    ¬ s.onBest q = true := by
  intro hq
  obtain ⟨x, r, -, -, hr⟩ := hs.onBest_cases hq
  exact hnone _ hr

/-- The walk from a header without a place ends where it starts, off the best chain. -/
theorem traceToBest_unplaced (missing endless : ε) (hk : s.header? k = some h)
    (hnone : ∀ r, ¬ Route (forestOf s.header?) n.genesisHash k r) :
    s.traceToBest missing endless h = .ok ⟨[], h⟩ ∧ ¬ s.onBest h.position = true := by
  have hroot : h.isRoot = true := by
    simp [Header.isRoot, (hs.exact.isDisconnected_iff hk).mpr hnone]
  refine ⟨Trace.run_of_stop (by simp [hroot]), hs.not_onBest (q := h.position) ?_⟩
  have hhash : h.position.hash = k := hs.exact.hash_eq hk
  rwa [hhash]

theorem reorgPath_unplaced (hnone : ∀ r, ¬ Route (forestOf s.header?) n.genesisHash p.hash r) :
    ∃ cause, s.reorgPath p = .error (.notConnected cause) := by
  unfold Store.reorgPath
  rw [if_neg (hs.not_onBest hnone)]
  cases hk : s.header? p.hash with
  | none => exact ⟨_, rfl⟩
  | some h =>
    obtain ⟨htrace, hoff⟩ := hs.traceToBest_unplaced (ChainError.notConnected (.missingAncestor p))
      (ChainError.contradiction (.endless h.position)) hk hnone
    refine ⟨.unreached p, ?_⟩
    simp only [htrace, bind, Except.bind, if_neg hoff]
    rfl

end Store.Founded

namespace Ledger

theorem bestAncestor_unplaced (hs : l.store.Founded n links b)
    (hnone : ∀ r, ¬ Route (forestOf l.store.header?) n.genesisHash k r) :
    l.bestAncestor k = ⟨0, l.network.genesisHash⟩ := by
  unfold bestAncestor
  cases hk : l.store.header? k with
  | none => rfl
  | some h =>
    obtain ⟨htrace, hoff⟩ := hs.traceToBest_unplaced () () hk hnone
    simp only [htrace, if_neg hoff]

theorem commonParent_eq (hbest : l.store.best = .ok h) (p : Position) :
    l.commonParent p = .ok (l.bestAncestor p.hash, h.position) := by
  unfold commonParent tip
  rw [hbest]
  rfl

theorem bestChainFrom_eq (hs : l.store.Founded n links b) (hbest : l.store.best = .ok h)
    (hheight : h.height + 1 = b.length) (hup : b = up.reverse ++ z :: base)
    (hfork : l.bestAncestor p.hash = ⟨base.length, z.hash⟩) (limit : ℕ) :
    l.bestChainFrom p limit = .ok (front limit (ascend base (z :: up))) := by
  have hsuffix : (z :: up).reverse ++ base <:+ b := by
    rw [hup, List.reverse_cons, List.append_assoc, List.singleton_append]
  have hcount : (h.height - base.length + 1).toNat = (z :: up).length := by
    rw [hup, List.length_append, List.length_reverse, List.length_cons] at hheight
    rw [List.length_cons]
    lia
  unfold bestChainFrom
  rw [commonParent_eq hbest, hfork]
  simp only [bind, Except.bind]
  exact congrArg Except.ok (hs.bestBetween_eq hsuffix hcount limit)

end Ledger

/-- The answers to the three questions agree. A header with a place branches off from the best chain
at the highest block there that belongs to it or to one of its ancestors; what it brings in is what
lies above that block on its way, and the best chain from there is asked for up to the tip. The best
chain up to the block, followed by what comes in, is the path from genesis to the header. For a hash
without a header that has a place the block is genesis, and nothing can come in. -/
theorem History.reorg_queries_agree (h : History) (n : Network) (p : Position) :
    (∀ x, (h.store n).header? p.hash = some x → x.isDisconnected = false →
      ∃ a tip path low high, (h.store n).best = .ok tip ∧
        (h.last n).ledger.commonParent p = .ok (a, tip.position) ∧
        (h.store n).JoinsAt n.genesisHash p.hash a ∧
        (h.store n).reorgPath p = .ok path ∧
        (h.store n).BringsIn n.genesisHash p.hash a path ∧
        (h.store n).Spans a.height tip.height high ∧
        (∀ limit, (h.last n).ledger.bestChainFrom p limit = .ok (front limit high)) ∧
        (h.store n).Spans 0 a.height low ∧
        (h.store n).Leads n.genesisHash p.hash (low ++ path.reverse)) ∧
    ((∀ x, (h.store n).header? p.hash = some x → x.isDisconnected = true) →
      (∃ tip, (h.store n).best = .ok tip ∧
        (h.last n).ledger.commonParent p = .ok (⟨0, n.genesisHash⟩, tip.position)) ∧
      ∃ cause, (h.store n).reorgPath p = .error (.notConnected cause)) := by
  obtain ⟨b, ht⟩ := h.founded n
  have hs : (h.store n).Founded n _ b := ht.store
  constructor
  · intro x hx hplace
    obtain ⟨r, hr⟩ := hs.connected_iff.mp ⟨x, hx, hplace⟩
    obtain ⟨up, base, z, hforks⟩ := hs.exists_forks hr
    obtain ⟨tip, hbest, hheight⟩ := hs.exists_best
    obtain ⟨v, hv⟩ := hforks.suffix
    have hb : b = v.reverse.reverse ++ z :: base := by rw [List.reverse_reverse, hv]
    have hfork := Ledger.bestAncestor_eq (l := (h.last n).ledger) hs hr hforks
    refine ⟨⟨base.length, z.hash⟩, tip, _, _, _, hbest, ?_, hs.joinsAt hr hforks,
      hs.reorgPath_eq hr hforks, hs.bringsIn hr hforks, hs.spans_above hb hheight,
      Ledger.bestChainFrom_eq hs hbest hheight hb hfork, hs.spans_below hforks.suffix,
      hs.leads_of_forks hr hforks⟩
    rw [Ledger.commonParent_eq hbest, hfork]
  · intro hdisconnected
    have hnone (r : List Link) :
        ¬ Route (forestOf (h.store n).header?) n.genesisHash p.hash r := by
      intro hr
      obtain ⟨x, hx, hplace⟩ := hs.connected_iff.mpr ⟨r, hr⟩
      rw [hdisconnected x hx] at hplace
      cases hplace
    obtain ⟨tip, hbest, -⟩ := hs.exists_best
    refine ⟨⟨tip, hbest, ?_⟩, hs.reorgPath_unplaced hnone⟩
    rw [Ledger.commonParent_eq (l := (h.last n).ledger) hbest,
      Ledger.bestAncestor_unplaced hs hnone, ht.network]

end HeaderChain
