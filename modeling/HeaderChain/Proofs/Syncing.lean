import HeaderChain.Proofs.HistoryIndependence
import HeaderChain.Proofs.Outcomes

/-!
# Headers from peers

Records from a peer are taken all together or not at all. They are taken when they continue a
header one by one, with heights that go up by one; nothing else can fail, because headers that can
be read are always added. Otherwise nothing changes.
-/

namespace HeaderChain

theorem Store.isSome_heightAfter? {s : Store} {prior : Hash} : (s.heightAfter? prior).isSome ↔
    ∃ x, s.header? prior = some x ∧ x.isDisconnected = false := by
  unfold heightAfter?
  cases s.header? prior with
  | none => simp
  | some h => cases hplace : h.isDisconnected <;> simp [hplace]

namespace SyncRecord

/-- The records continue `prior`, and `hs` are the headers in them. All of them can be read, the
first has `prior` as its parent, and each other one the header before it. The heights that are
claimed go up by one and have one above them; the first is the one above `prior`, when that has a
place. -/
structure Continues (s : Store) (prior : Hash) (records : List SyncRecord) (hs : List Header) :
    Prop where
  ne_nil : records ≠ []
  decoded : List.Forall₂ (fun r x => Header.decode r.header = .ok x) records hs
  first : ∀ x ∈ hs.head?, x.parent = prior
  linked : hs.IsChain fun x y => y.parent = x.hash
  claims : records.IsChain fun r r' => r'.height = r.height + 1
  room : ∀ r ∈ records, r.height < Height.greatest
  above : ∀ p, s.header? prior = some p → p.isDisconnected = false →
    ∀ r ∈ records.head?, r.height = p.height + 1

variable {s : Store} {prior : Hash} {r : SyncRecord} {records : List SyncRecord} {hs : List Header}

theorem continues_iff : Continues s prior records hs ↔
    records ≠ [] ∧ headers? prior (s.heightAfter? prior) records = some hs := by
  have habove : (∀ height ∈ s.heightAfter? prior, ∀ r ∈ records.head?, r.height = height) ↔
      ∀ p, s.header? prior = some p → p.isDisconnected = false →
        ∀ r ∈ records.head?, r.height = p.height + 1 := by
    unfold Store.heightAfter?
    cases s.header? prior with
    | none => simp
    | some p => cases hplace : p.isDisconnected <;> simp [hplace]
  rw [headers?_eq_some, habove]
  constructor
  · intro h
    exact ⟨h.ne_nil, h.decoded, h.first, h.linked, h.claims, h.room, h.above⟩
  · rintro ⟨hne, hdecoded, hfirst, hlinked, hclaims, hroom, habove⟩
    exact ⟨hne, hdecoded, hfirst, hlinked, hclaims, hroom, habove⟩

theorem continues_singleton {x : Header} : Continues s prior [r] [x] ↔
    Header.decode r.header = .ok x ∧ x.parent = prior ∧ r.height < Height.greatest ∧
      ∀ p, s.header? prior = some p → p.isDisconnected = false → r.height = p.height + 1 := by
  constructor
  · intro h
    exact ⟨(List.forall₂_cons.mp h.decoded).1, h.first x rfl, h.room r (.head _),
      fun p hp hplace => h.above p hp hplace r rfl⟩
  · rintro ⟨hdecode, hparent, hroom, habove⟩
    constructor
    case ne_nil => simp
    case decoded => exact .cons hdecode .nil
    case first => simpa using hparent
    case linked => exact .singleton _
    case claims => exact .singleton _
    case room => simpa using hroom
    case above => simpa using habove

theorem Continues.length_eq (h : Continues s prior records hs) : hs.length = records.length :=
  h.decoded.length_eq.symm

end SyncRecord

namespace Tracker

variable {t t' : Tracker} {prior : Hash} {records : List SyncRecord} {hs : List Header}

theorem sync_of_continues (h : SyncRecord.Continues t.ledger.store prior records hs)
    (hadd : t.addHeaders hs = .ok t') : t.sync prior records = (records.length, t') := by
  rw [sync_eq, (SyncRecord.continues_iff.mp h).2, ← h.length_eq]
  simp only [hadd]

theorem sync_of_not_continues (h : ∀ hs, ¬ SyncRecord.Continues t.ledger.store prior records hs) :
    t.sync prior records = (0, t) := by
  rw [sync_eq]
  cases hheaders : SyncRecord.headers? prior (t.ledger.store.heightAfter? prior) records with
  | none => rfl
  | some hs =>
    have hnil : records = [] := by
      by_contra hne
      exact h hs (SyncRecord.continues_iff.mpr ⟨hne, hheaders⟩)
    subst hnil
    cases hheaders
    rfl

end Tracker

/-- Records from a peer are taken just when they continue a header one by one. Then the tracker is
left as by adding the headers in them, and their number is returned. Otherwise zero is returned and
the tracker stays as it was. -/
theorem History.sync_all_or_nothing (h : History) (n : Network) (prior : Hash)
    (records : List SyncRecord) (hadmits : h.Admits records.length) :
    (∀ hs, SyncRecord.Continues (h.store n) prior records hs →
      ∃ t, (h.last n).addHeaders hs = .ok t ∧
        (h.last n).sync prior records = (records.length, t)) ∧
    ((∀ hs, ¬ SyncRecord.Continues (h.store n) prior records hs) →
      (h.last n).sync prior records = (0, h.last n)) ∧
    (((h.last n).sync prior records).1 ≠ 0 ↔
      ∃ hs, SyncRecord.Continues (h.store n) prior records hs) := by
  have htaken (hs : List Header) (hc : SyncRecord.Continues (h.store n) prior records hs) :
      ∃ t, (h.last n).addHeaders hs = .ok t ∧
        (h.last n).sync prior records = (records.length, t) := by
    rw [← hc.length_eq] at hadmits
    obtain ⟨t, -, hadd, -⟩ := h.addHeaders_ok n hadmits
    exact ⟨t, hadd, Tracker.sync_of_continues hc hadd⟩
  refine ⟨htaken, Tracker.sync_of_not_continues, ?_⟩
  constructor
  · intro hcount
    by_contra hnone
    push Not at hnone
    rw [Tracker.sync_of_not_continues hnone] at hcount
    exact hcount rfl
  · rintro ⟨hs, hc⟩
    obtain ⟨t, -, htaken⟩ := htaken hs hc
    rw [htaken]
    exact List.length_pos_of_ne_nil hc.ne_nil |>.ne'

theorem decode_easyHeader (parent : Hash) (time : UInt32) :
    Header.decode (easyHeader parent time).raw.encode = .ok (easyHeader parent time) :=
  (Header.decode_encode _).trans (ofRaw_easyHeader parent time)

/-- Records of the two headers above genesis, where the height that is claimed for the upper one is
`height`. -/
def upwardRecords (height : Height) : List SyncRecord :=
  [⟨1, lowerHeader.raw.encode⟩, ⟨height, upperHeader.raw.encode⟩]

theorem decoded_upwardRecords (height : Height) :
    List.Forall₂ (fun r x => Header.decode r.header = .ok x) (upwardRecords height)
      [lowerHeader, upperHeader] :=
  .cons (decode_easyHeader _ _) (.cons (decode_easyHeader _ _) .nil)

theorem continues_upwardRecords : SyncRecord.Continues (.founding .regtest)
    Network.regtest.genesisHash (upwardRecords 2) [lowerHeader, upperHeader] where
  ne_nil := List.cons_ne_nil _ _
  decoded := decoded_upwardRecords 2
  first := by
    rintro x ⟨⟩
    rfl
  linked := List.isChain_pair.mpr rfl
  claims := List.isChain_pair.mpr rfl
  room := by simp [upwardRecords, Height.greatest]
  above := by
    intro p hp _
    rw [Store.header?_founding, if_pos rfl, Option.some.injEq] at hp
    subst hp
    simp [upwardRecords, Network.genesis]

/-- Two records that continue genesis are taken, and not when a height is left out. -/
theorem History.sync_of_upwardRecords : (⟨[], by decide⟩ : History).Admits 2 ∧
    (∃ t, (Tracker.fresh .regtest).addHeaders [lowerHeader, upperHeader] = .ok t ∧
      (Tracker.fresh .regtest).sync Network.regtest.genesisHash (upwardRecords 2) = (2, t)) ∧
    (Tracker.fresh .regtest).sync Network.regtest.genesisHash (upwardRecords 3) =
      (0, Tracker.fresh .regtest) := by
  have hadmits : (⟨[], by decide⟩ : History).Admits 2 := by
    unfold History.Admits
    decide
  obtain ⟨htaken, -, -⟩ := sync_all_or_nothing ⟨[], by decide⟩ .regtest Network.regtest.genesisHash
    (upwardRecords 2) hadmits
  obtain ⟨-, hrefused, -⟩ := sync_all_or_nothing ⟨[], by decide⟩ .regtest
    Network.regtest.genesisHash (upwardRecords 3) hadmits
  refine ⟨hadmits, htaken _ continues_upwardRecords, hrefused ?_⟩
  intro hs hc
  have hclaim := hc.claims
  rw [upwardRecords, List.isChain_pair] at hclaim
  exact absurd hclaim (by decide)

end HeaderChain
