import HeaderChain.Proofs.ReachedStates

/-!
# Independence of the history

What a store shows is determined by the first header for each hash, the checkpoint and the best
chain. The best chain is determined, too, when one valid header alone has the most work. Then all
records are the same, in whatever order and by whatever operations the headers were brought.
-/

namespace HeaderChain

variable {s s' : Store} {n : Network} {links links' b b' r : List Link} {k : Hash}
variable {t : Tracker}

theorem firsts_eq_some_iff (hnames : ∀ x ∈ links, ∀ y ∈ links, x.hash = y.hash → x = y)
    {x : Link} : firsts links k = some x ↔ x ∈ links ∧ x.hash = k := by
  constructor
  · intro hx
    exact ⟨mem_of_firsts hx, named_firsts links k x hx⟩
  · rintro ⟨hx, rfl⟩
    obtain ⟨y, hy⟩ := Option.isSome_iff_exists.mp (isSome_firsts.mpr ⟨x, hx, rfl⟩)
    rw [hy, hnames y (mem_of_firsts hy) x hx (named_firsts links _ y hy)]

/-- The order of links does not matter when no two of them share a hash. -/
theorem firsts_congr (hsame : ∀ x, x ∈ links ↔ x ∈ links')
    (hnames : ∀ x ∈ links, ∀ y ∈ links, x.hash = y.hash → x = y) :
    firsts links = firsts links' := by
  have hnames' : ∀ x ∈ links', ∀ y ∈ links', x.hash = y.hash → x = y := by
    intro x hx y hy
    exact hnames x ((hsame x).mpr hx) y ((hsame y).mpr hy)
  funext k
  ext x
  rw [firsts_eq_some_iff hnames, firsts_eq_some_iff hnames', hsame]

/-- When all links are on one route, every route is a part of it. -/
theorem Route.suffix_of_chain {g j : Hash} (h : Route (firsts links) g k r)
    (hb : Route (firsts links) g j b) (hall : ∀ x ∈ links, x ∈ b) : r <:+ b := by
  obtain ⟨x, r, rfl⟩ := List.exists_cons_of_ne_nil h.ne_nil
  apply (h.exists_mem_iff (named_firsts links) hb).mp
  exact ⟨x, hall x (mem_of_firsts h.found), h.hash_eq (named_firsts links)⟩

theorem firsts_cons_congr (x : Link) (h : firsts links = firsts links') :
    firsts (x :: links) = firsts (x :: links') := by
  funext k
  have hk := congrFun h k
  unfold firsts at hk ⊢
  rw [List.find?_cons, List.find?_cons, hk]

namespace Store.Founded

theorem bestAt?_congr (hs : s.Founded n links b) (hs' : s'.Founded n links' b) :
    s.bestAt? = s'.bestAt? := by
  funext height
  ext hash
  rw [hs.bestAt?_iff, hs'.bestAt?_iff]

theorem tipHeight_congr (hs : s.Founded n links b) (hs' : s'.Founded n links' b) :
    s.tipHeight = s'.tipHeight := by
  obtain ⟨k, hk⟩ := hs.optimal.route
  obtain ⟨x, r, rfl⟩ := List.exists_cons_of_ne_nil hk.ne_nil
  exact hs.tipHeight_eq.trans hs'.tipHeight_eq.symm

theorem siblings_congr (hs : s.Founded n links b) (hs' : s'.Founded n links' b)
    (hforest : forestOf s.header? = forestOf s'.header?) : s.siblings = s'.siblings :=
  s.ascending_siblings.ext s'.ascending_siblings fun k => by
    rw [hs.mem_siblings_iff, hs'.mem_siblings_iff, hforest]

theorem mem_waiting_iff_route (hs : s.Founded n links b) {e : Edge} : e ∈ s.waiting ↔
    ∃ x, forestOf s.header? e.child = some x ∧ x.parent = e.parent ∧
      ∀ r, ¬ Route (forestOf s.header?) n.genesisHash e.child r := by
  rw [hs.mem_waiting_iff]
  constructor
  · rintro ⟨x, hx, hwaits, hparent⟩
    exact ⟨x.link, forestOf_eq_some.mpr ⟨x, hx, rfl⟩, hparent,
      (hs.exact.isDisconnected_iff hx).mp hwaits⟩
  · rintro ⟨_, hlink, hparent, hnone⟩
    obtain ⟨x, hx, rfl⟩ := forestOf_eq_some.mp hlink
    exact ⟨x, hx, (hs.exact.isDisconnected_iff hx).mpr hnone, hparent⟩

theorem waiting_congr (hs : s.Founded n links b) (hs' : s'.Founded n links' b')
    (hforest : forestOf s.header? = forestOf s'.header?) : s.waiting = s'.waiting :=
  s.ascending_waiting.ext s'.ascending_waiting fun e => by
    rw [hs.mem_waiting_iff_route, hs'.mem_waiting_iff_route, hforest]

/-- Stores with the same links and the same best chain have the same records, apart from those of
headers and the checkpoint. -/
theorem getElem?_cases (hs : s.Founded n links b) (hs' : s'.Founded n links' b)
    (hforest : forestOf s.header? = forestOf s'.header?) (bytes : Bytes) :
    s.records[bytes]? = s'.records[bytes]? ∨ bytes = Key.checkpoint.bytes ∨
      ∃ k, bytes = (Key.header k).bytes := by
  by_cases hkey : ∃ key : Key, key.Proper ∧ key.bytes = bytes
  · obtain ⟨key, hkey, rfl⟩ := hkey
    have hget : s.get? key = s'.get? key ∨ key = .checkpoint ∨ ∃ k, key = .header k := by
      rw [hs.canonical.get? key hkey, hs'.canonical.get? key hkey]
      cases key with
      | header k => exact .inr (.inr ⟨k, rfl⟩)
      | best height =>
        left
        rw [Draft.record?, Draft.record?, Draft.bestAt?_mk, Draft.bestAt?_mk, hs.bestAt?_congr hs']
      | edge e =>
        have hiff : s.isWaiting e = s'.isWaiting e := by
          rw [Bool.eq_iff_iff, ← mem_waiting, ← mem_waiting, hs.waiting_congr hs' hforest]
        left
        rw [Draft.record?, Draft.record?, ← (Shows.refl s).isWaiting, ← (Shows.refl s').isWaiting,
          hiff]
      | sibling k =>
        have hiff : s.isSibling k = s'.isSibling k := by
          rw [Bool.eq_iff_iff, ← mem_siblings, ← mem_siblings, hs.siblings_congr hs' hforest]
        left
        rw [Draft.record?, Draft.record?, ← (Shows.refl s).isSibling, ← (Shows.refl s').isSibling,
          hiff]
      | tip =>
        left
        rw [Draft.record?, Draft.record?, Draft.tipHeight_mk, Draft.tipHeight_mk,
          hs.tipHeight_congr hs']
      | checkpoint => exact .inr (.inl rfl)
      | network => exact .inl rfl
    rcases hget with hsame | rfl | ⟨k, rfl⟩
    · exact .inl hsame
    · exact .inr (.inl rfl)
    · exact .inr (.inr ⟨k, rfl⟩)
  · have hnone {s : Store} {links : List Link} (hs : s.Founded n links b) :
        s.records[bytes]? = none := by
      by_contra hsome
      exact hkey (hs.canonical.keyed bytes (Option.isSome_iff_ne_none.mpr hsome))
    exact .inl ((hnone hs).trans (hnone hs').symm)

theorem records_eq (hs : s.Founded n links b) (hs' : s'.Founded n links' b)
    (hforest : forestOf s.header? = forestOf s'.header?)
    (hcheckpoint : s.checkpoint = s'.checkpoint)
    (bytes : Bytes) : s.records[bytes]? = s'.records[bytes]? := by
  have hheader : s.header? = s'.header? := hs.exact.unique (hcheckpoint ▸ hs'.exact) hforest
  have hcurrent : ({ base := s } : Draft).currentCheckpoint =
      ({ base := s' } : Draft).currentCheckpoint := hcheckpoint
  rcases hs.getElem?_cases hs' hforest bytes with hsame | rfl | ⟨k, rfl⟩
  · exact hsame
  · have hget : s.get? .checkpoint = s'.get? .checkpoint := by
      rw [hs.canonical.get? .checkpoint trivial, hs'.canonical.get? .checkpoint trivial,
        Draft.record?, Draft.record?, hcurrent]
    exact hget
  · have hget : s.get? (.header k) = s'.get? (.header k) := by
      rw [hs.canonical.get? (.header k) trivial, hs'.canonical.get? (.header k) trivial,
        Draft.record?, Draft.record?, Draft.header?_mk, Draft.header?_mk, hheader]
    exact hget

/-- The only valid header with the most work is the tip of the best chain. -/
theorem best_unique (hs : s.Founded n links b) (hvalid : s.Valid n k r)
    (hmost : ∀ k' r', s.Valid n k' r' → k' ≠ k → totalWork r' < totalWork r) : b = r := by
  have hopt := hs.optimal
  obtain ⟨j, hj⟩ := hopt.route
  obtain ⟨hr, hclear⟩ := valid_iff.mp hvalid
  have hle := hopt.maximal k r hr hclear
  have hsame : j = k := by
    by_contra hne
    have hlt := hmost j b (valid_iff.mpr ⟨hj, hopt.clear⟩) hne
    omega
  subst hsame
  exact hj.unique hr

/-- When one valid header alone has the most work, the best chain need not be compared. -/
theorem records_unique (hs : s.Founded n links b) (hs' : s'.Founded n links' b')
    (hforest : forestOf s.header? = forestOf s'.header?)
    (hcheckpoint : s.checkpoint = s'.checkpoint)
    (hone : ∃ k r, s.Valid n k r ∧ ∀ k' r', s.Valid n k' r' → k' ≠ k → totalWork r' < totalWork r)
    (bytes : Bytes) : s.records[bytes]? = s'.records[bytes]? := by
  obtain ⟨k, r, hvalid, hmost⟩ := hone
  have hcongr (k : Hash) (r : List Link) : s'.Valid n k r ↔ s.Valid n k r := by
    rw [valid_iff, valid_iff, hforest, hcheckpoint]
  have hb := hs.best_unique hvalid hmost
  have hb' : b' = r := by
    apply hs'.best_unique ((hcongr k r).mpr hvalid)
    intro k' r' hr'
    exact hmost k' r' ((hcongr k' r').mp hr')
  subst hb hb'
  exact hs.records_eq hs' hforest hcheckpoint bytes

end Store.Founded

theorem Tracker.Founded.addCheckpoint_deleteCheckpoint (ht : t.Founded n links b)
    (hroomy : Roomy links) {height : Height} (hash : Hash) (fits : height.Fits) :
    ∃ b', (Operation.runAll t [.addCheckpoint height hash fits, .deleteCheckpoint]).Founded n
        links b' ∧
      (Operation.runAll t [.addCheckpoint height hash fits, .deleteCheckpoint]).checkpoint =
        .blank := by
  have hdelete {t : Tracker} {b : List Link} (ht : t.Founded n links b) :
      ∃ b', (Operation.deleteCheckpoint.run t).Founded n links b' ∧
        (Operation.deleteCheckpoint.run t).checkpoint = .blank := by
    rw [Operation.run]
    rcases ht.deleteCheckpoint hroomy with
      ⟨hblank, cause, hfail⟩ | ⟨b', e, t', hdelete, -, h, hblank⟩
    · rw [hfail]
      exact ⟨b, ht, hblank⟩
    · rw [hdelete]
      exact ⟨b', h.founded, hblank⟩
  rw [Operation.runAll, Operation.runAll, Operation.runAll, Operation.run]
  rcases ht.addCheckpoint hroomy hash fits with ⟨cause, hfail⟩ | ⟨b', e, t', hadd, -, h, -⟩
  · rw [hfail]
    exact hdelete ht
  · rw [hadd]
    exact hdelete h.founded

/-- Two histories that brought the same headers and left the same checkpoint left the same records,
when one valid header alone has the most work. A checkpoint that is added and deleted leaves no
trace. -/
theorem History.records_determined (h h' : History) (n : Network)
    (hsame : ∀ x, x ∈ (h.accepted n).map Header.link ↔ x ∈ (h'.accepted n).map Header.link)
    (hnames : ∀ x ∈ (h.accepted n).map Header.link, ∀ y ∈ (h.accepted n).map Header.link,
      x.hash = y.hash → x = y)
    (hcheckpoint : (h.store n).checkpoint = (h'.store n).checkpoint)
    (hone : ∃ k r, (h.store n).Valid n k r ∧
      ∀ k' r', (h.store n).Valid n k' r' → k' ≠ k → totalWork r' < totalWork r) :
    (∀ bytes : Bytes, (h.store n).records[bytes]? = (h'.store n).records[bytes]?) ∧
    ((h.store n).checkpoint = .blank → ∀ height hash (fits : Height.Fits height)
      (bytes : Bytes),
      (Operation.runAll (h.last n)
        [.addCheckpoint height hash fits, .deleteCheckpoint]).ledger.store.records[bytes]? =
      (h.store n).records[bytes]?) := by
  obtain ⟨b, ht⟩ := h.founded n
  obtain ⟨b', hs'⟩ := h'.store_founded n
  have hs : (h.store n).Founded n _ b := ht.store
  have hforest : forestOf (h.store n).header? = forestOf (h'.store n).header? := by
    rw [hs.forest, hs'.forest]
    exact firsts_cons_congr n.genesis.link (firsts_congr hsame hnames)
  constructor
  · exact hs.records_unique hs' hforest hcheckpoint hone
  · intro hblank height hash fits bytes
    obtain ⟨b₁, ht₁, hblank₁⟩ := ht.addCheckpoint_deleteCheckpoint (h.roomy n) hash fits
    have hs₁ := ht₁.store
    have hforest₁ := hs.forest.trans hs₁.forest.symm
    exact (hs.records_unique hs₁ hforest₁ (hblank.trans hblank₁.symm) hone bytes).symm

/-- A header with as little work as a header of `regtest` can have. -/
def easyHeader (parent : Hash) (time : UInt32) : Header :=
  .unplaced ⟨1, parent, .zero, time, 0x207fffff, 0⟩

theorem ofRaw_easyHeader (parent : Hash) (time : UInt32) :
    Header.ofRaw (easyHeader parent time).raw = .ok (easyHeader parent time) := by
  have husable : (Target.workOfBits 0x207fffff).isSome = true := by decide +kernel
  exact Header.ofRaw_of_isSome husable

def lowerHeader : Header := easyHeader Network.regtest.genesisHash 0

/-- A header above that one. -/
def upperHeader : Header := easyHeader lowerHeader.hash 0

/-- The two headers in one batch. -/
def History.upward : History := ⟨[.addHeaders [lowerHeader, upperHeader]], by decide⟩

/-- The two headers one by one, the upper one first. -/
def History.downward : History :=
  ⟨[.addHeaders [upperHeader], .addHeaders [lowerHeader]], by decide⟩

/-- The two headers, and a checkpoint that bans the upper one. -/
def History.pinned : History :=
  ⟨[.addHeaders [lowerHeader, upperHeader], .addCheckpoint 2 (.fill 3) ⟨by decide, by decide⟩],
    by decide⟩

def upwardLinks : List Link := [upperHeader.link, lowerHeader.link, Network.regtest.genesis.link]

theorem hashes_upward : lowerHeader.hash ≠ Network.regtest.genesisHash ∧
    upperHeader.hash ≠ Network.regtest.genesisHash ∧ lowerHeader.hash ≠ upperHeader.hash := by
  decide +kernel

theorem names_upward :
    ∀ x ∈ [Network.regtest.genesis.link, lowerHeader.link, upperHeader.link],
      ∀ y ∈ [Network.regtest.genesis.link, lowerHeader.link, upperHeader.link],
        x.hash = y.hash → x = y := by
  obtain ⟨hlower, hupper, hne⟩ := hashes_upward
  apply List.inj_on_of_nodup_map
  simp [Header.link, Network.genesis, hlower.symm, hupper.symm, hne]

theorem route_upward :
    Route (firsts [Network.regtest.genesis.link, lowerHeader.link, upperHeader.link])
      Network.regtest.genesisHash upperHeader.hash upwardLinks := by
  obtain ⟨hlower, hupper, -⟩ := hashes_upward
  apply Route.child hupper ((firsts_eq_some_iff names_upward).mpr ⟨by simp, rfl⟩)
  apply Route.child hlower ((firsts_eq_some_iff names_upward).mpr ⟨by simp, rfl⟩)
  exact Route.genesis ((firsts_eq_some_iff names_upward).mpr ⟨by simp, rfl⟩)

theorem mem_upwardLinks : ∀ x ∈ [Network.regtest.genesis.link, lowerHeader.link, upperHeader.link],
    x ∈ upwardLinks := by
  simp [upwardLinks]

theorem work_pos_upward : ∀ x ∈ upwardLinks, 0 < x.work := by
  decide +kernel

/-- Two headers that were brought in either order leave the same records. -/
theorem History.records_upward_downward :
    History.upward.accepted .regtest ≠ History.downward.accepted .regtest ∧
      ∀ bytes : Bytes, (History.upward.store .regtest).records[bytes]? =
        (History.downward.store .regtest).records[bytes]? := by
  obtain ⟨hup, hblank⟩ := upward.additions [[lowerHeader, upperHeader]] .regtest rfl
  obtain ⟨hdown, hblank'⟩ := downward.additions [[upperHeader], [lowerHeader]] .regtest rfl
  rw [checkpoint_last] at hblank hblank'
  obtain ⟨b, hs⟩ := upward.store_founded .regtest
  rw [hup] at hs
  rw [hup, hdown]
  refine ⟨?_, (records_determined upward downward .regtest ?_ ?_ ?_ ?_).1⟩
  · intro hsame
    have hheader : lowerHeader = upperHeader := (List.cons.inj hsame).1
    exact hashes_upward.2.2 (congrArg Header.hash hheader)
  · intro x
    rw [hup, hdown]
    simp [or_comm]
  · rw [hup]
    intro x hx y hy
    exact names_upward x (.tail _ hx) y (.tail _ hy)
  · exact hblank.trans hblank'.symm
  · have hroute : Route (forestOf (upward.store .regtest).header?) Network.regtest.genesisHash
        upperHeader.hash upwardLinks := by
      rw [hs.forest]
      exact route_upward
    have hclear : conflicts (upward.store .regtest).checkpoint upwardLinks = false := by
      rw [hblank]
      exact (Position.Concerns.blank upwardLinks.length).clear le_rfl
    refine ⟨upperHeader.hash, upwardLinks, Store.valid_iff.mpr ⟨hroute, hclear⟩, ?_⟩
    intro k r hr hne
    have hroute' := hr.route
    rw [hs.forest] at hroute hroute'
    have hpart : r <:+ upwardLinks := hroute'.suffix_of_chain hroute mem_upwardLinks
    apply totalWork_lt_of_suffix hpart ?_ work_pos_upward
    rintro rfl
    exact hne (hroute'.target_unique (named_firsts _) hroute)

end HeaderChain
