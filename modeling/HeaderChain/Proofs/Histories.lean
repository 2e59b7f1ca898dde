import HeaderChain.Proofs.Operating

/-!
# Histories of trackers

A history is a list of operations on a new tracker. An operation that fails leaves the tracker as
it was, and its headers are not brought. After every history the store is founded on the headers
that were brought.
-/

namespace HeaderChain

/-- What a tracker is asked for. Heights that come from outside have 64 bits. -/
inductive Operation where
  | addHeader (header : Header)
  | addHeaders (headers : List Header)
  | sync (prior : Hash) (records : List SyncRecord)
  | addCheckpoint (height : Height) (hash : Hash) (fits : height.Fits)
  | deleteCheckpoint
  /-- Upgrades to a default checkpoint. -/
  | init (default : Checkpoint) (fits : default.position.height.Fits)
  | reopen (network : Network)

/-- The tracker after a request: as it was, when the request failed, since the store discards what
an aborted transaction has written and nothing is written outside of one. -/
def Tracker.after (t : Tracker) (result : Except ChainError Tracker) : Tracker :=
  result.toOption.getD t

/-- The tracker of a network over a new store. -/
def Tracker.fresh (n : Network) : Tracker :=
  .ofLedger ⟨n, .founding n, { best := n.genesis.position }⟩

namespace Operation

def size : Operation → ℕ
  | addHeader _ => 1
  | addHeaders hs => hs.length
  | sync _ records => records.length
  | addCheckpoint _ _ _ | deleteCheckpoint | init _ _ | reopen _ => 0

def run (t : Tracker) : Operation → Tracker
  | addHeader h => t.after (t.addHeader h)
  | addHeaders hs => t.after (t.addHeaders hs)
  | sync prior records => (t.sync prior records).2
  | addCheckpoint height hash _ => t.after (t.addCheckpoint height hash)
  | deleteCheckpoint => t.after t.deleteCheckpoint
  | init default _ => t.after { t with default }.upgrade
  | reopen network =>
    match Ledger.ofStore t.ledger.store network with
    | .error _ => t
    | .ok l => .ofLedger l

/-- The headers that an operation brings: those that it hands over, when it succeeds. -/
def brought (t : Tracker) : Operation → List Header
  | addHeader h => if (t.addHeader h).isOk then [h] else []
  | addHeaders hs => if (t.addHeaders hs).isOk then hs else []
  | sync prior records =>
    if (t.sync prior records).1 = 0 then []
    else records.filterMap fun r => (Header.decode r.header).toOption
  | addCheckpoint _ _ _ | deleteCheckpoint | init _ _ | reopen _ => []

def runAll : Tracker → List Operation → Tracker
  | t, [] => t
  | t, o :: rest => runAll (o.run t) rest

def broughtAll : Tracker → List Operation → List Header
  | _, [] => []
  | t, o :: rest => o.brought t ++ broughtAll (o.run t) rest

end Operation

/-- Operations that hand over no more headers than there are heights. A height has 64 bits, so what
lies higher could not be stored. -/
structure History where
  operations : List Operation
  small : ((operations.map Operation.size).sum : Height) ≤ Height.greatest

namespace History

def last (h : History) (n : Network) : Tracker := Operation.runAll (.fresh n) h.operations

def accepted (h : History) (n : Network) : List Header :=
  Operation.broughtAll (.fresh n) h.operations

end History

/-! ## Records from a peer -/

namespace SyncRecord

variable {parent : Hash} {expected : Option Height} {r : SyncRecord} {records : List SyncRecord}
variable {hs : List Header}

theorem headers?_cons : headers? parent expected (r :: records) = some hs ↔
    ∃ x rest, hs = x :: rest ∧ Header.decode r.header = .ok x ∧ x.parent = parent ∧
      (∀ height ∈ expected, r.height = height) ∧ r.height < Height.greatest ∧
      headers? x.hash (some (r.height + 1)) records = some rest := by
  rw [headers?]
  cases hdecode : Header.decode r.header with
  | error cause => simp
  | ok x =>
    have hexpected : expected.all (· = r.height) = true ↔
        ∀ height ∈ expected, r.height = height := by
      cases expected <;> simp [eq_comm]
    simp only [Option.ite_none_right_eq_some, Option.map_eq_some_iff, hexpected]
    constructor
    · rintro ⟨⟨hparent, hheight, hroom⟩, rest, hrest, rfl⟩
      exact ⟨x, rest, rfl, rfl, hparent, hheight, hroom, hrest⟩
    · rintro ⟨y, rest, rfl, hy, hparent, hheight, hroom, hrest⟩
      cases hy
      exact ⟨⟨hparent, hheight, hroom⟩, rest, hrest, rfl⟩

/-- What the records have to be like, without a look at the order in which that is checked. -/
theorem headers?_eq_some : headers? parent expected records = some hs ↔
    List.Forall₂ (fun r x => Header.decode r.header = .ok x) records hs ∧
      (∀ x ∈ hs.head?, x.parent = parent) ∧ hs.IsChain (fun x y => y.parent = x.hash) ∧
      records.IsChain (fun r r' => r'.height = r.height + 1) ∧
      (∀ r ∈ records, r.height < Height.greatest) ∧
      ∀ height ∈ expected, ∀ r ∈ records.head?, r.height = height := by
  induction records generalizing parent expected hs with
  | nil =>
    rw [headers?, List.forall₂_nil_left_iff, Option.some.injEq, eq_comm]
    constructor
    · rintro rfl
      simp
    · exact And.left
  | cons r records ih =>
    rw [headers?_cons, List.forall₂_cons_left_iff]
    constructor
    · rintro ⟨x, rest, rfl, hdecode, hparent, hheight, hroom, hrest⟩
      obtain ⟨hdecoded, hfirst, hlinked, hclaims, hrooms, habove⟩ := ih.mp hrest
      refine ⟨⟨x, rest, hdecode, hdecoded, rfl⟩, by simpa using hparent,
        List.isChain_cons.mpr ⟨hfirst, hlinked⟩, List.isChain_cons.mpr ⟨?_, hclaims⟩,
        List.forall_mem_cons.mpr ⟨hroom, hrooms⟩, by simpa using hheight⟩
      exact habove _ rfl
    · rintro ⟨⟨x, rest, hdecode, hdecoded, rfl⟩, hfirst, hlinked, hclaims, hrooms, hheight⟩
      obtain ⟨hnext, hlinked⟩ := List.isChain_cons.mp hlinked
      obtain ⟨hclaim, hclaims⟩ := List.isChain_cons.mp hclaims
      obtain ⟨hroom, hrooms⟩ := List.forall_mem_cons.mp hrooms
      refine ⟨x, rest, rfl, hdecode, by simpa using hfirst, by simpa using hheight, hroom,
        ih.mpr ⟨hdecoded, hnext, hlinked, hclaims, hrooms, by simpa using hclaim⟩⟩

theorem filterMap_of_decoded
    (h : List.Forall₂ (fun r x => Header.decode r.header = .ok x) records hs) :
    (records.filterMap fun r => (Header.decode r.header).toOption) = hs := by
  induction h with
  | nil => rfl
  | cons hdecode _ ih =>
    rw [List.filterMap_cons, hdecode, ih]
    rfl

end SyncRecord

/-! ## One operation -/

namespace Tracker

variable {t : Tracker} {n : Network} {links b : List Link}

theorem Founded.addHeaders_run (ht : t.Founded n links b) (hs : List Header)
    (hroomy : ((links.length + hs.length : ℕ) : Height) ≤ Height.greatest) :
    (t.addHeaders hs).isOk = true ∧
      ∃ b', (t.after (t.addHeaders hs)).Founded n (links ++ hs.map Header.link) b' := by
  obtain ⟨t', b', hadd, hfounded, -⟩ := ht.addHeaders hs (roomy_append_iff.mpr hroomy)
  rw [hadd]
  exact ⟨rfl, b', hfounded⟩

/-- Records that hang together are followed by the same as when their headers are added. -/
theorem sync_eq (t : Tracker) (prior : Hash) (records : List SyncRecord) :
    t.sync prior records =
      match SyncRecord.headers? prior (t.ledger.store.heightAfter? prior) records with
      | none => (0, t)
      | some hs =>
        match t.addHeaders hs with
        | .error _ => (0, t)
        | .ok t => (hs.length, t) := by
  unfold sync
  cases records with
  | nil => rfl
  | cons r records =>
    rw [List.isEmpty_cons, if_neg Bool.false_ne_true]
    cases hheaders : SyncRecord.headers? prior (t.ledger.store.heightAfter? prior)
        (r :: records) with
    | none => rfl
    | some hs =>
      have hlen := (SyncRecord.headers?_eq_some.mp hheaders).1.length_eq
      have hsome : hs.isEmpty = false := by
        rw [List.isEmpty_eq_false_iff, ← List.length_pos_iff, ← hlen]
        exact Nat.succ_pos _
      dsimp only
      rw [hlen, addHeaders, hsome]
      rfl

/-- Headers are synchronized all together or not at all. -/
theorem sync_cases (t : Tracker) (prior : Hash) (records : List SyncRecord) :
    t.sync prior records = (0, t) ∨ ∃ t',
      t.addHeaders (records.filterMap fun r => (Header.decode r.header).toOption) = .ok t' ∧
      t.sync prior records =
        ((records.filterMap fun r => (Header.decode r.header).toOption).length, t') := by
  rw [sync_eq]
  cases hheaders : SyncRecord.headers? prior (t.ledger.store.heightAfter? prior) records with
  | none => exact .inl rfl
  | some hs =>
    rw [SyncRecord.filterMap_of_decoded (SyncRecord.headers?_eq_some.mp hheaders).1]
    cases hadd : t.addHeaders hs with
    | error cause => exact .inl (by simp only [hadd])
    | ok t' => exact .inr ⟨t', rfl, by simp only [hadd]⟩

theorem sync_roomy (t : Tracker) (prior : Hash) (records : List SyncRecord)
    (hroomy : ((links.length + records.length : ℕ) : Height) ≤ Height.greatest) :
    t.sync prior records = (0, t) ∨ ∃ hs t',
      (records.filterMap fun r => (Header.decode r.header).toOption) = hs ∧
      hs.length ≤ records.length ∧ Roomy (links ++ hs.map Header.link) ∧
      t.addHeaders hs = .ok t' ∧ t.sync prior records = (hs.length, t') := by
  rcases t.sync_cases prior records with hnone | ⟨t', hadd, hall⟩
  · exact .inl hnone
  · have hlen := List.length_filterMap_le (fun r => (Header.decode r.header).toOption) records
    exact .inr ⟨_, t', rfl, hlen, roomy_append_iff.mpr (by lia), hadd, hall⟩

theorem Founded.sync_run (ht : t.Founded n links b) (prior : Hash) (records : List SyncRecord)
    (hroomy : ((links.length + records.length : ℕ) : Height) ≤ Height.greatest) :
    ∃ b', (t.sync prior records).2.Founded n
      (links ++ ((Operation.sync prior records).brought t).map Header.link) b' := by
  rw [Operation.brought]
  rcases t.sync_roomy prior records hroomy with hnone | ⟨hs, t', hheaders, -, hmore, hadd, hall⟩
  · rw [hnone, if_pos rfl]
    exact ⟨b, by simpa using ht⟩
  · obtain ⟨t₁, b', hadd₁, hfounded, -⟩ := ht.addHeaders hs hmore
    cases hadd.symm.trans hadd₁
    refine ⟨b', ?_⟩
    rw [hall, hheaders]
    split_ifs with hzero
    · rw [List.length_eq_zero_iff] at hzero
      simpa [hzero] using hfounded
    · exact hfounded

theorem brought_length_le (t : Tracker) (o : Operation) : (o.brought t).length ≤ o.size := by
  cases o with
  | addHeader h =>
    rw [Operation.brought]
    split_ifs <;> simp [Operation.size]
  | addHeaders hs =>
    rw [Operation.brought]
    split_ifs <;> simp [Operation.size]
  | sync prior records =>
    rw [Operation.brought]
    split_ifs
    · exact Nat.zero_le _
    · exact List.length_filterMap_le _ _
  | addCheckpoint => exact le_rfl
  | deleteCheckpoint => exact le_rfl
  | init => exact le_rfl
  | reopen => exact le_rfl

theorem Founded.run (ht : t.Founded n links b) (o : Operation)
    (hroomy : ((links.length + o.size : ℕ) : Height) ≤ Height.greatest) :
    ∃ b', (o.run t).Founded n (links ++ (o.brought t).map Header.link) b' := by
  have hbefore : Roomy links := by
    unfold Roomy
    lia
  cases o with
  | addHeader h =>
    obtain ⟨hok, b', hfounded⟩ := ht.addHeaders_run [h] hroomy
    have hok' : (t.addHeader h).isOk = true := hok
    refine ⟨b', ?_⟩
    rw [Operation.brought, if_pos hok']
    exact hfounded
  | addHeaders hs =>
    obtain ⟨hok, b', hfounded⟩ := ht.addHeaders_run hs hroomy
    refine ⟨b', ?_⟩
    rw [Operation.brought, if_pos hok]
    exact hfounded
  | sync prior records => exact ht.sync_run prior records hroomy
  | addCheckpoint height hash fits =>
    rw [Operation.brought, List.map_nil, List.append_nil, Operation.run]
    rcases ht.addCheckpoint hbefore hash fits with ⟨cause, hfail⟩ | ⟨b', e, t', hadd, -, h, -⟩
    · rw [hfail]
      exact ⟨b, ht⟩
    · rw [hadd]
      exact ⟨b', h.founded⟩
  | deleteCheckpoint =>
    rw [Operation.brought, List.map_nil, List.append_nil, Operation.run]
    rcases ht.deleteCheckpoint hbefore with ⟨-, cause, hfail⟩ | ⟨b', e, t', hdelete, -, h, -⟩
    · rw [hfail]
      exact ⟨b, ht⟩
    · rw [hdelete]
      exact ⟨b', h.founded⟩
  | init default fits =>
    rw [Operation.brought, List.map_nil, List.append_nil, Operation.run]
    have hd : ({ t with default } : Tracker).Founded n links b := ⟨ht.network, ht.store⟩
    obtain ⟨t', b', hupgrade, h, -⟩ := hd.upgrade hbefore fits
    rw [hupgrade]
    exact ⟨b', h⟩
  | reopen network =>
    rw [Operation.brought, List.map_nil, List.append_nil, Operation.run]
    rcases ht.reopen network with ⟨-, cause, hfail⟩ | ⟨l, hopen, hnetwork, hstore⟩
    · rw [hfail]
      exact ⟨b, ht⟩
    · rw [hopen]
      refine ⟨b, hnetwork, ?_⟩
      change l.store.Founded n links b
      rw [hstore]
      exact ht.store

/-! ## Many operations -/

theorem Founded.runAll_addHeaders (ht : t.Founded n links b) (batches : List (List Header))
    (hroomy : ((links.length + (batches.map List.length).sum : ℕ) : Height) ≤ Height.greatest) :
    Operation.broughtAll t (batches.map .addHeaders) = batches.flatten ∧
      (Operation.runAll t (batches.map .addHeaders)).checkpoint = t.checkpoint := by
  induction batches generalizing t links b with
  | nil => exact ⟨rfl, rfl⟩
  | cons hs batches ih =>
    rw [List.map_cons, List.sum_cons] at hroomy
    have hafter : Roomy (links ++ hs.map Header.link) := roomy_append_iff.mpr (by lia)
    obtain ⟨t', b', hadd, hfounded, hkept⟩ := ht.addHeaders hs hafter
    have hrun : (Operation.addHeaders hs).run t = t' := by
      rw [Operation.run, hadd]
      rfl
    have hbrought : (Operation.addHeaders hs).brought t = hs := by
      rw [Operation.brought, hadd]
      rfl
    obtain ⟨hrest, hcheckpoint⟩ := ih hfounded (by
      rw [List.length_append, List.length_map]
      lia)
    rw [List.map_cons, Operation.broughtAll, Operation.runAll, hrun, hbrought, hrest, hcheckpoint]
    exact ⟨rfl, hkept⟩

theorem broughtAll_length_le (t : Tracker) (os : List Operation) :
    (Operation.broughtAll t os).length ≤ (os.map Operation.size).sum := by
  induction os generalizing t with
  | nil => exact le_rfl
  | cons o os ih =>
    rw [Operation.broughtAll, List.length_append, List.map_cons, List.sum_cons]
    exact Nat.add_le_add (brought_length_le t o) (ih (o.run t))

theorem Founded.runAll {os : List Operation} (ht : t.Founded n links b)
    (hroomy : ((links.length + (os.map Operation.size).sum : ℕ) : Height) ≤ Height.greatest) :
    ∃ b', (Operation.runAll t os).Founded n
      (links ++ (Operation.broughtAll t os).map Header.link) b' := by
  induction os generalizing t links b with
  | nil => exact ⟨b, by simpa [Operation.runAll, Operation.broughtAll] using ht⟩
  | cons o os ih =>
    rw [List.map_cons, List.sum_cons] at hroomy
    have hlen := brought_length_le t o
    obtain ⟨b₁, hfirst⟩ := ht.run o (by lia)
    obtain ⟨b', hrest⟩ := ih hfirst (by
      rw [List.length_append, List.length_map]
      lia)
    refine ⟨b', ?_⟩
    rw [Operation.runAll, Operation.broughtAll, List.map_append, ← List.append_assoc]
    exact hrest

theorem founded_fresh (n : Network) : (fresh n).Founded n [] [n.genesis.link] :=
  ⟨rfl, Store.founded_founding n⟩

end Tracker

theorem Ledger.create_eq (n : Network) : Ledger.create n = .ok (Tracker.fresh n).ledger := by
  have hbest := (Store.founded_founding n).best
  have hplaced : n.genesis.link.placed .blank [] = n.genesis := placed_genesis n (by decide)
  rw [Store.checkpoint_founding, hplaced] at hbest
  have hclaim : ({} : Store).claim n = .ok (.founding n) := by
    have hempty : ({} : Store).get? .network = none := by simp [Store.get?]
    unfold Store.claim Store.founding
    rw [hempty]
  exact ofStore_eq hclaim hbest

theorem History.additions {h : History} (batches : List (List Header)) (n : Network)
    (hbatches : h.operations = batches.map .addHeaders) :
    h.accepted n = batches.flatten ∧ (h.last n).checkpoint = .blank := by
  have hsmall := h.small
  have hsize : Operation.size ∘ Operation.addHeaders = List.length := rfl
  rw [hbatches, List.map_map, hsize] at hsmall
  obtain ⟨hbrought, hkept⟩ :=
    (Tracker.founded_fresh n).runAll_addHeaders batches (by simpa using hsmall)
  unfold History.accepted History.last
  rw [hbatches]
  exact ⟨hbrought, hkept.trans Store.checkpoint_founding⟩

theorem History.roomy (h : History) (n : Network) : Roomy ((h.accepted n).map Header.link) := by
  have hlen := Tracker.broughtAll_length_le (.fresh n) h.operations
  have hsmall := h.small
  unfold Roomy History.accepted
  rw [List.length_map]
  lia

/-- After every history the store is founded on what was brought. -/
theorem History.founded (h : History) (n : Network) :
    ∃ b, (h.last n).Founded n ((h.accepted n).map Header.link) b := by
  have hsmall := h.small
  have hrun := (Tracker.founded_fresh n).runAll (by simpa using hsmall)
  rw [List.nil_append] at hrun
  exact hrun

end HeaderChain
