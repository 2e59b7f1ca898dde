import HeaderChain.Proofs.Announcing

/-!
# Tables in one map

All records lie in one ordered map. The labels of keys divide it into tables: no label begins
another one, so that no key begins with the label of a table that is not its own, whatever bytes
the hashes in it have. A change in one table then changes no answer that is read from another one.
What a history leaves are just the records for what is shown, and opening the store again shows
the same.
-/

namespace HeaderChain

/-- The tables that the records of a store are in. -/
inductive Key.Table where
  | headers
  | bests
  | edges
  | siblings
  /-- The records that stand alone. -/
  | singles
deriving DecidableEq

/-- What the keys of a table begin with. -/
def Key.Table.label : Table → Bytes
  | headers => Key.headers
  | bests => Key.bests
  | edges => Key.edges
  | siblings => Key.siblings
  | singles => Key.singles

def Key.table : Key → Table
  | header _ => .headers
  | best _ => .bests
  | edge _ => .edges
  | sibling _ => .siblings
  | tip | checkpoint | network => .singles

variable {T T' : Key.Table} {k l : Key} {s s' : Store} {bytes front : Bytes}

/-- No byte string begins with the labels of two tables. -/
theorem Key.Table.eq_of_label_isPrefix (h : T.label <+: bytes) (h' : T'.label <+: bytes) :
    T = T' := by
  obtain ⟨rest, rfl⟩ := h
  obtain ⟨rest', heq⟩ := h'
  cases T <;> cases T' <;> simp [label, Key.labels] at heq ⊢

theorem Key.label_isPrefix (k : Key) : k.table.label <+: k.bytes := by
  cases k <;> exact List.prefix_append _ _

theorem Key.bytes_ne (h : k.table ≠ l.table) : k.bytes ≠ l.bytes := by
  intro heq
  exact h (Table.eq_of_label_isPrefix k.label_isPrefix (heq ▸ l.label_isPrefix))

/-! ## Changes in one table -/

/-- The stores have the same records outside the table. -/
def Store.DiffersIn (T : Key.Table) (s s' : Store) : Prop :=
  ∀ bytes, ¬ T.label <+: bytes → s'.records[bytes]? = s.records[bytes]?

/-- The stores give the same answers to all that is asked of the table. -/
def Key.Table.SameAnswers (s s' : Store) : Table → Prop
  | headers => (∀ hash, s'.load hash = s.load hash) ∧ (∀ hash, s'.header? hash = s.header? hash) ∧
      ∀ hash, s'.hasHeader hash = s.hasHeader hash
  | bests => (∀ height, s'.bestAt? height = s.bestAt? height) ∧
      ∀ height, s'.storedBest height = s.storedBest height
  | edges => s'.waiting = s.waiting ∧ (∀ parent, s'.waitingFor parent = s.waitingFor parent) ∧
      ∀ parent, s'.isAwaited parent = s.isAwaited parent
  | siblings => s'.siblings = s.siblings ∧ ∀ hash, s'.isSibling hash = s.isSibling hash
  | singles => s'.tipHeight = s.tipHeight ∧ s'.storedTip = s.storedTip ∧
      s'.checkpoint = s.checkpoint ∧ s'.get? .network = s.get? .network

namespace Store

theorem differsIn_put (s : Store) (k : Key) (v : Bytes) : s.DiffersIn k.table (s.put k v) := by
  intro bytes hout
  have hne : k.bytes ≠ bytes := by
    rintro rfl
    exact hout k.label_isPrefix
  simp [put, Std.TreeMap.getElem?_insert, hne]

theorem differsIn_erase (s : Store) (k : Key) : s.DiffersIn k.table (s.erase k) := by
  intro bytes hout
  have hne : k.bytes ≠ bytes := by
    rintro rfl
    exact hout k.label_isPrefix
  simp [erase, Std.TreeMap.getElem?_erase, hne]

namespace DiffersIn

theorem getElem?_eq (h : DiffersIn T s s') (hne : T ≠ T') (hbytes : T'.label <+: bytes) :
    s'.records[bytes]? = s.records[bytes]? :=
  h bytes fun hin => hne (Key.Table.eq_of_label_isPrefix hin hbytes)

theorem get? (h : DiffersIn T s s') (hne : T ≠ k.table) : s'.get? k = s.get? k :=
  h.getElem?_eq hne k.label_isPrefix

theorem contains (h : DiffersIn T s s') (hne : T ≠ k.table) : s'.contains k = s.contains k := by
  rw [contains_eq, contains_eq, h.get? hne]

theorem scan (h : DiffersIn T s s') (hne : T ≠ T') (hfront : T'.label <+: front) :
    s'.scan front = s.scan front := by
  refine (s'.ascending_scan front).ext (s.ascending_scan front) fun rest => ?_
  rw [mem_scan, mem_scan, Std.TreeMap.contains_eq_isSome_getElem?,
    Std.TreeMap.contains_eq_isSome_getElem?,
    h.getElem?_eq hne (hfront.trans (List.prefix_append front rest))]

theorem sameAnswers (h : DiffersIn T s s') (hne : T ≠ T') : T'.SameAnswers s s' := by
  cases T' with
  | headers =>
    have hget (hash : Hash) : s'.get? (.header hash) = s.get? (.header hash) := h.get? hne
    refine ⟨fun hash => ?_, fun hash => header?_congr (hget hash), fun hash => h.contains hne⟩
    simp only [load, hget]
  | bests =>
    have hget (height : Height) : s'.get? (.best height) = s.get? (.best height) := h.get? hne
    refine ⟨fun height => ?_, fun height => storedBest_congr (hget height)⟩
    simp only [bestAt?, hget]
  | edges =>
    have hparent (parent : Hash) : s'.scan (Key.edges ++ parent.bytes) =
        s.scan (Key.edges ++ parent.bytes) := h.scan hne (List.prefix_append _ _)
    have hall : s'.scan Key.edges = s.scan Key.edges := h.scan hne (List.prefix_refl _)
    refine ⟨?_, fun parent => ?_, fun parent => ?_⟩
    · simp only [waiting, hall]
    · simp only [waitingFor, hparent]
    · simp only [isAwaited, hparent]
  | siblings =>
    have hall : s'.scan Key.siblings = s.scan Key.siblings := h.scan hne (List.prefix_refl _)
    refine ⟨?_, fun hash => h.contains hne⟩
    simp only [siblings, hall]
  | singles =>
    have htip : s'.get? .tip = s.get? .tip := h.get? hne
    have hcheckpoint : s'.get? .checkpoint = s.get? .checkpoint := h.get? hne
    refine ⟨tipHeight_congr htip, storedTip_congr htip, ?_, h.get? hne⟩
    simp only [checkpoint, hcheckpoint]

end DiffersIn

/-! ## Lists in the order of bytes -/

theorem ascending_bytes_waitingFor (s : Store) (parent : Hash) :
    Ascending ((s.waitingFor parent).map Hash.bytes) := by
  rw [Ascending, List.pairwise_map]
  exact s.ascending_waitingFor parent

theorem ascending_bytes_siblings (s : Store) : Ascending (s.siblings.map Hash.bytes) := by
  rw [Ascending, List.pairwise_map]
  exact s.ascending_siblings

theorem ascending_bytes_waiting (s : Store) : Ascending (s.waiting.map Edge.bytes) := by
  rw [Ascending, List.pairwise_map]
  refine s.ascending_waiting.imp ?_
  intro a b hab
  rwa [← Edge.compare_eq]

end Store

/-! ## What a history leaves -/

/-- The records after a history are just those for what is shown, each under a key of its own, and
changing those of one table changes no answer from another one. The lists are the members that are
stored, in ascending order of their bytes. Opened again for its network, the store is as it was and
the bus shows the tip; for another network it is not opened, and nothing happens. -/
theorem History.store_faithful (h : History) (n : Network) :
    (∀ k l : Key, k.table ≠ l.table → k.bytes ≠ l.bytes) ∧
    (∀ k l : Key, k.Fits → l.Fits → (k.bytes = l.bytes ↔ k = l)) ∧
    (∀ (k : Key) (T : Key.Table), k.table ≠ T →
      (∀ record, T.SameAnswers (h.store n) ((h.store n).put k record)) ∧
      T.SameAnswers (h.store n) ((h.store n).erase k)) ∧
    (h.store n).Canonical n ∧
    (∀ parent,
      (∀ child, child ∈ (h.store n).waitingFor parent ↔
        (h.store n).contains (.edge ⟨parent, child⟩) = true) ∧
      Ascending (((h.store n).waitingFor parent).map Hash.bytes)) ∧
    (∀ k, k ∈ (h.store n).siblings ↔ (h.store n).contains (.sibling k) = true) ∧
    Ascending ((h.store n).siblings.map Hash.bytes) ∧
    (∀ e, e ∈ (h.store n).waiting ↔ (h.store n).contains (.edge e) = true) ∧
    Ascending ((h.store n).waiting.map Edge.bytes) ∧
    (∃ best, (h.store n).best = .ok best ∧ best.position = (h.last n).ledger.bus.best ∧
      Ledger.ofStore (h.store n) n = .ok ⟨n, h.store n, { best := best.position }⟩) ∧
    ∀ n', n' ≠ n → Ledger.ofStore (h.store n) n' = .error (.otherNetwork n.tag n') ∧
      (Operation.reopen n').run (h.last n) = h.last n := by
  obtain ⟨b, hs⟩ := h.store_founded n
  refine ⟨fun k l => Key.bytes_ne, fun k l => Key.bytes_inj, ?_, hs.canonical, ?_, ?_,
    Store.ascending_bytes_siblings _, ?_, Store.ascending_bytes_waiting _, ?_, ?_⟩
  · intro k T hne
    exact ⟨fun record => (Store.differsIn_put _ k record).sameAnswers hne,
      (Store.differsIn_erase _ k).sameAnswers hne⟩
  · intro parent
    exact ⟨fun child => Store.mem_waitingFor, Store.ascending_bytes_waitingFor _ parent⟩
  · intro k
    exact Store.mem_siblings
  · intro e
    exact Store.mem_waiting
  · obtain ⟨x, hbest, hopen⟩ := hs.ofStore_same
    refine ⟨x, hbest, ?_, hopen⟩
    -- The bus of the history shows the same tip, which was read from the same store.
    have hwatched : (h.last n).ledger.tip = .ok (h.last n).ledger.bus.best := h.watched n
    have htip : (h.last n).ledger.tip = .ok x.position := by
      unfold Ledger.tip
      rw [← History.store, hbest]
      rfl
    exact Except.ok.inj (htip.symm.trans hwatched)
  · intro n' hn
    have hopen : Ledger.ofStore (h.last n).ledger.store n' = .error (.otherNetwork n.tag n') :=
      hs.ofStore_other hn
    refine ⟨hopen, ?_⟩
    rw [Operation.run, hopen]

end HeaderChain
