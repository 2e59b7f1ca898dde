import HeaderChain.Ledger.Query
import HeaderChain.Proofs.Histories
import HeaderChain.Proofs.Mutations

/-!
# Drafts predict commits

Whatever mutations stage, when the draft is committed the store answers as the draft did just
before. There is one exception: whether headers wait for a parent is asked of the store by the front
of the keys alone, so that a key of another length there, which stands for no edge, is taken for
one.
-/

namespace HeaderChain

open Store

variable {s : Store} {d : Draft} {c : Committed}

/-! ## Keys that stand for no edge -/

/-- Under a parent lies a key that has too many or too few bytes after it for an edge. -/
def Store.Stray (s : Store) (parent : Hash) : Prop :=
  ∃ rest : Bytes, rest.length ≠ 32 ∧
    s.records.contains (Key.edges ++ parent.bytes ++ rest) = true

theorem Store.isAwaited_iff {parent : Hash} : s.isAwaited parent = true ↔
    s.waitingFor parent ≠ [] ∨ s.Stray parent := by
  have hscan : s.isAwaited parent = true ↔
      ∃ rest, s.records.contains (Key.edges ++ parent.bytes ++ rest) = true := by
    simp [isAwaited, List.eq_nil_iff_forall_not_mem, mem_scan]
  have hwaiting : s.waitingFor parent ≠ [] ↔ ∃ child, s.isWaiting ⟨parent, child⟩ = true := by
    simp [List.eq_nil_iff_forall_not_mem]
  rw [hscan, hwaiting]
  constructor
  · rintro ⟨rest, hrest⟩
    by_cases hlen : rest.length = 32
    · left
      refine ⟨⟨rest, hlen⟩, ?_⟩
      rwa [List.append_assoc] at hrest
    · exact .inr ⟨rest, hlen, hrest⟩
  · rintro (⟨child, hchild⟩ | ⟨rest, -, hrest⟩)
    · refine ⟨child.bytes, ?_⟩
      rwa [List.append_assoc]
    · exact ⟨rest, hrest⟩

theorem Draft.Leaves.stray_iff (hl : d.Leaves s) (parent : Hash) :
    s.Stray parent ↔ d.base.Stray parent := by
  have hsame (rest : Bytes) (hlen : rest.length ≠ 32) :
      s.records[Key.edges ++ parent.bytes ++ rest]? =
        d.base.records[Key.edges ++ parent.bytes ++ rest]? := by
    refine hl.others _ fun k hk heq _ => hlen ?_
    cases k with
    | edge e =>
      have hlength := congrArg List.length heq
      simp only [Key.bytes, List.length_append, e.length_bytes, parent.length_bytes] at hlength
      lia
    | _ => simp [Key.bytes, Key.labels, Key.label] at heq
  refine exists_congr fun rest => and_congr_right fun hlen => ?_
  rw [Std.TreeMap.contains_eq_isSome_getElem?, Std.TreeMap.contains_eq_isSome_getElem?,
    hsame rest hlen]

/-! ## Commits of drafts -/

/-- The store answers all questions as the draft does. A parent also counts as awaited when a stray
key lies under it in the store below the draft. -/
structure Store.Answers (s : Store) (d : Draft) : Prop where
  header? : ∀ hash, s.header? hash = d.header? hash
  hasHeader : ∀ hash, s.hasHeader hash = d.hasHeader hash
  bestAt? : ∀ height, s.bestAt? height = d.bestAt? height
  tip : ∃ p, d.tip = .ok p ∧ s.bestPosition s.tipHeight = some p
  isSibling : ∀ hash, s.isSibling hash = d.isSibling hash
  siblings : s.siblings = d.allSiblings
  waitingFor : ∀ parent, s.waitingFor parent = d.waitingFor parent
  waiting : s.waiting = d.waiting
  isAwaited : ∀ parent,
    s.isAwaited parent = true ↔ d.isAwaited parent = true ∨ d.base.Stray parent
  checkpoint : s.checkpoint = d.currentCheckpoint

theorem Draft.WellFormed.answers (hd : d.WellFormed) (hs : d.base.Indexed)
    (hwrite : d.write = .ok c) : c.store.Answers d := by
  have hj := hd.joins hs hwrite
  have hl := hd.leaves hs hwrite
  have hshows := hl.shows hs hj hd
  constructor
  case header? => exact congrFun hshows.header?
  case hasHeader => exact hl.hasHeader
  case bestAt? => exact congrFun hshows.bestAt?
  case tip =>
    obtain ⟨hash, hat⟩ := Option.isSome_iff_exists.mp <|
      Draft.isSome_bestAt?_of_written? hs hj hd.fits_tipHeight.2
        fun height => hl.get? (.best height)
    refine ⟨⟨d.tipHeight, hash⟩, ?_, ?_⟩
    · rw [Draft.tip, ← hshows.bestAt?, hat]
    · rw [hshows.tipHeight, bestPosition, hat]
      rfl
  case isSibling => exact congrFun hshows.isSibling
  case siblings => exact hshows.siblings
  case waitingFor => exact hshows.waitingFor
  case waiting => exact hshows.waiting
  case isAwaited =>
    intro parent
    rw [isAwaited_iff, hshows.waitingFor, hl.stray_iff, Draft.isAwaited]
    simp
  case checkpoint => exact hshows.checkpoint

theorem Ledger.apply_of_write {l : Ledger} (h : d.write = .ok c) :
    ∃ l', l.apply d = .ok l' ∧ l'.store = c.store := by
  exact ⟨_, apply_eq_ok.mpr ⟨c, h, rfl⟩, rfl⟩

theorem Ledger.write_of_apply {l l' : Ledger} (h : l.apply d = .ok l') :
    ∃ c, d.write = .ok c ∧ l'.store = c.store := by
  obtain ⟨c, hwrite, rfl⟩ := apply_eq_ok.mp h
  exact ⟨c, hwrite, rfl⟩

/-- Whatever mutations stage, and in whatever order: when they are committed, the store answers as
the draft did. -/
theorem Ledger.answers_of_apply (l l' : Ledger) (hl : l.store.Regular) (ms : List Mutation)
    (happly : l.apply (Mutation.runAll l.draft ms) = .ok l') :
    l'.store.Answers (Mutation.runAll l.draft ms) := by
  obtain ⟨hbase, hd⟩ := (Draft.wellFormed_mk l.store).runAll hl ms
  obtain ⟨c, hwrite, hstore⟩ := write_of_apply happly
  rw [hstore]
  exact hd.answers (hbase ▸ hl.indexed) hwrite

/-- A checkpoint at genesis with another hash. -/
def rulingOut : HeaderChange where
  run h := h.compareTo ⟨0, .zero⟩
  hash _ := rfl
  storable _ hh := ⟨hh.height, hh.work⟩

/-- Two blocks go onto the best chain and are cut off again, another one takes their place, and
members of the sets come and go. -/
def rivalry : List Mutation :=
  [.extend ⟨1, .fill 1⟩ (by constructor <;> decide), .addSibling (.fill 3),
    .extend ⟨2, .fill 2⟩ (by constructor <;> decide), .detach (.fill 4) (.fill 5),
    .rewind ⟨0, Network.regtest.genesisHash⟩ (by constructor <;> decide),
    .extend ⟨1, .fill 3⟩ (by constructor <;> decide), .removeSibling (.fill 3),
    .addSibling (.fill 2), .attach (.fill 4) (.fill 5),
    .stageNew Network.regtest.genesis Network.regtest.storable_genesis rulingOut,
    .setCheckpoint ⟨0, .zero⟩ (by constructor <;> decide)]

theorem continuous_rivalry :
    (Mutation.runAll (Tracker.fresh .regtest).ledger.draft rivalry).Continuous := by
  set d := (Tracker.fresh .regtest).ledger.draft
  have h₀ : d.Continuous := Draft.continuous_mk continuous_founding
  have ht₀ : d.tipHeight = 0 := (Draft.tipHeight_mk _).trans tipHeight_founding
  obtain ⟨h₁, ht₁⟩ := h₀.extend (p := ⟨1, .fill 1⟩) (by rw [ht₀]; rfl)
  obtain ⟨h₂, ht₂⟩ := h₁.extend (p := ⟨2, .fill 2⟩) (by rw [ht₁]; rfl)
  have hgenesis : ((d.extend ⟨1, .fill 1⟩).extend ⟨2, .fill 2⟩).bestAt? 0 =
      some Network.regtest.genesisHash := by
    rw [Draft.bestAt?_extend, if_neg (by decide), Draft.bestAt?_extend, if_neg (by decide)]
    exact (congrFun (Draft.bestAt?_mk _) 0).trans bestAt?_founding
  obtain ⟨h₃, ht₃⟩ := h₂.rewind (p := ⟨0, Network.regtest.genesisHash⟩) hgenesis
  obtain ⟨h₄, -⟩ := h₃.extend (p := ⟨1, .fill 3⟩) (by rw [ht₃]; rfl)
  -- The other mutations leave the best chain as it is.
  exact ⟨h₄.base, h₄.ancestor, h₄.staged⟩

theorem Ledger.answers_of_rivalry : ∃ l',
    (Tracker.fresh .regtest).ledger.apply
      (Mutation.runAll (Tracker.fresh .regtest).ledger.draft rivalry) = .ok l' ∧
    l'.store.Answers (Mutation.runAll (Tracker.fresh .regtest).ledger.draft rivalry) := by
  set l := (Tracker.fresh .regtest).ledger
  have hregular : l.store.Regular := regular_founding .regtest
  obtain ⟨-, hformed⟩ := (Draft.wellFormed_mk l.store).runAll hregular rivalry
  obtain ⟨c, hwrite, -⟩ :=
    hformed.write hregular.indexed (continuous_rivalry.joins canonical_founding)
  obtain ⟨l', happly, -⟩ := apply_of_write (l := l) hwrite
  exact ⟨l', happly, answers_of_apply l l' hregular rivalry happly⟩

/-! ## A stray key -/

/-- A key that begins as those of edges under a parent do, and ends after one more byte. -/
def strayKey : Bytes := Key.edges ++ (Hash.fill 0xab).bytes ++ [0x78]

/-- A new ledger with a stray key in its store. -/
def Ledger.strayed : Ledger := { (Tracker.fresh .regtest).ledger with
  store := ⟨(founding .regtest).records.insert strayKey []⟩ }

theorem Ledger.get?_strayed {k : Key} (hk : k.Fits) :
    strayed.store.get? k = (founding .regtest).get? k := by
  have hne : strayKey ≠ k.bytes := by
    intro heq
    have hlen := congrArg List.length heq
    cases k <;> simp [strayKey, Key.bytes, Key.labels, Key.label, Hash.length_bytes] at heq hlen
  simp [strayed, get?, Std.TreeMap.getElem?_insert, hne]

theorem Ledger.regular_strayed : strayed.store.Regular :=
  (regular_founding .regtest).congr fun _ hk => get?_strayed hk

theorem Ledger.joins_strayed : strayed.draft.Joins := by
  have htip : strayed.store.tipHeight = 0 := by
    rw [tipHeight_congr (get?_strayed (k := .tip) trivial), tipHeight_founding]
  apply Draft.joins_mk (p := ⟨0, Network.regtest.genesisHash⟩)
  · rw [storedTip_congr (get?_strayed (k := .tip) trivial), canonical_founding.storedTip_eq,
      tipHeight_founding, htip]
  · rw [htip, storedBest_congr (get?_strayed (k := .best 0) (by constructor <;> decide))]
    exact canonical_founding.storedBest_eq le_rfl (by decide) bestAt?_founding

theorem Ledger.isWaiting_strayed (e : Edge) : strayed.draft.isWaiting e = false := by
  rw [draft, Draft.isWaiting, isWaiting, contains_eq, get?_strayed (k := .edge e) trivial,
    ← contains_eq]
  exact (Changes.holds_empty e _).trans isWaiting_founding

/-- A draft without changes says that nothing waits under the parent of a stray key. After its
commit the store says that something does. -/
theorem Ledger.awaited_of_stray : strayed.store.Regular ∧
    (Mutation.runAll strayed.draft []).isAwaited (.fill 0xab) = false ∧
    ∃ l', strayed.apply (Mutation.runAll strayed.draft []) = .ok l' ∧
      l'.store.isAwaited (.fill 0xab) = true := by
  have hformed := Draft.wellFormed_mk strayed.store
  obtain ⟨c, hwrite, -⟩ := hformed.write regular_strayed.indexed joins_strayed
  obtain ⟨l', happly, hstore⟩ := apply_of_write (l := strayed) hwrite
  have hstray : strayed.store.Stray (.fill 0xab) :=
    ⟨[0x78], by decide, by simp [strayed, strayKey]⟩
  have hanswers := hformed.answers regular_strayed.indexed hwrite
  refine ⟨regular_strayed, ?_, l', happly, ?_⟩
  · have hnone : strayed.draft.waitingFor (.fill 0xab) = [] := by
      rw [List.eq_nil_iff_forall_not_mem]
      intro child
      rw [Draft.mem_waitingFor, isWaiting_strayed]
      exact Bool.false_ne_true
    change strayed.draft.isAwaited _ = false
    rw [Draft.isAwaited, hnone]
    rfl
  · rw [hstore]
    exact (hanswers.isAwaited _).mpr (.inr hstray)

end HeaderChain
