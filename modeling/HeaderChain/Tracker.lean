import HeaderChain.Ledger.Query
import HeaderChain.Selection

/-!
# Trackers

A tracker keeps the best chain of a network. Each operation stages its changes in a draft and
commits them together; one that fails leaves the tracker as it was. A checkpoint can be set and
deleted, and the default checkpoint replaces one that is not above it.
-/

namespace HeaderChain

/-- A header from a peer, with the height that the peer claims for it. -/
structure SyncRecord where
  height : Height
  header : Bytes

/-- The height above a header, when it is stored and has a place. -/
def Store.heightAfter? (s : Store) (prior : Hash) : Option Height :=
  match s.header? prior with
  | none => none
  | some h => if h.isDisconnected then none else some (h.height + 1)

/-- The headers of records that continue a parent one by one. The height of the first record is
checked when the parent has one. -/
def SyncRecord.headers? (parent : Hash) (expected : Option Height) :
    List SyncRecord → Option (List Header)
  | [] => some []
  | r :: rest =>
    match Header.decode r.header with
    | .error _ => none
    | .ok h =>
      if h.parent = parent ∧ expected.all (· = r.height) ∧ r.height < Height.greatest then
        (headers? h.hash (some (r.height + 1)) rest).map (h :: ·)
      else none

/-- The best chain of a network, and the checkpoint that comes with it. -/
structure Tracker where
  ledger : Ledger
  default : Checkpoint

namespace Tracker

def ofLedger (l : Ledger) : Tracker := ⟨l, l.network.defaultCheckpoint⟩

/-- The checkpoint, blank when there is none. -/
def checkpoint (t : Tracker) : Position := t.ledger.store.checkpoint

def commit (t : Tracker) (d : Draft) : Except ChainError Tracker :=
  match t.ledger.apply d with
  | .error cause => .error (.store cause)
  | .ok ledger => .ok { t with ledger }

/-- Adds headers in order: all of them, or none when one fails. -/
def addHeaders (t : Tracker) (hs : List Header) : Except ChainError Tracker :=
  if hs.isEmpty then .ok t else do t.commit (← t.ledger.draft.addHeaders hs)

def addHeader (t : Tracker) (h : Header) : Except ChainError Tracker := t.addHeaders [h]

/-- Adds the headers of records that continue `prior`, one after the other in one draft. Returns how
many there were, or zero when they do not hang together or cannot be added. -/
def sync (t : Tracker) (prior : Hash) (records : List SyncRecord) : Nat × Tracker :=
  if records.isEmpty then (0, t)
  else
    match SyncRecord.headers? prior (t.ledger.store.heightAfter? prior) records with
    | none => (0, t)
    | some hs =>
      match hs.foldlM Draft.addHeader t.ledger.draft >>= t.commit with
      | .error _ => (0, t)
      | .ok t => (records.length, t)

def addCheckpoint (t : Tracker) (height : Height) (hash : Hash) : Except ChainError Tracker := do
  if height < Height.leastCheckpoint then throw (.lowCheckpoint height)
  if !t.checkpoint.isBlank then throw (.checkpointExists t.checkpoint)
  let d := t.ledger.draft.setCheckpoint ⟨height, hash⟩
  t.commit (← d.applyCheckpoint ⟨height, hash⟩)

def deleteCheckpoint (t : Tracker) : Except ChainError Tracker := do
  if t.checkpoint.isBlank then throw .noCheckpoint
  t.commit (← t.ledger.draft.clearCheckpoint.applyCheckpoint t.checkpoint)

/-- Replaces the checkpoint by the default one, unless it is above that or the same. A default
checkpoint that is too low to be set only removes. -/
def upgrade (t : Tracker) : Except ChainError Tracker := do
  let existing := t.checkpoint
  let default := t.default.position
  if existing.height > default.height ∨ existing = default then return t
  let settable := Height.leastCheckpoint ≤ default.height
  if existing.isBlank ∧ ¬ settable then return t
  let d ← if existing.isBlank then pure t.ledger.draft
    else t.ledger.draft.clearCheckpoint.applyCheckpoint existing
  let d ← if settable then (d.setCheckpoint default).applyCheckpoint default else pure d
  t.commit d

end Tracker

end HeaderChain
