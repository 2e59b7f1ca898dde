import HeaderChain.Draft

/-!
# Committing a draft

A commit writes all staged changes to the store, or fails and writes none of them. The stored best
chain has to have a tip, the ancestor that it is cut back to has to be on it, and the staged
heights have to follow that ancestor without a gap.

A commit is one transaction of the store. It is assumed of the store that a transaction which is
aborted discards all that was written in it; so a write that fails returns no store at all.
-/

namespace HeaderChain

/-- The store after a commit, and the tips of the best chain before and after it. -/
structure Committed where
  store : Store
  before : Position
  after : Position

namespace Store

def storedTip (s : Store) : Except CommitFault Height :=
  match s.get? .tip with
  | none => .error .noTip
  | some record =>
    match heightOfRecord? record with
    | none => .error .unreadableTip
    | some height => .ok height

def storedBest (s : Store) (height : Height) : Except CommitFault Position :=
  match s.get? (.best height) with
  | none => .error (.noBest height)
  | some record =>
    match Hash.ofBytes? record with
    | none => .error (.unreadableBest height)
    | some hash => .ok ⟨height, hash⟩

/-- Removes `count` heights of the best chain, from `first` upward. -/
def eraseBest (s : Store) (first : Height) : (count : Nat) → Store
  | 0 => s
  | count + 1 => (s.erase (.best first)).eraseBest (first + 1) count

/-- Cuts the best chain, whose tip has height `tip`, back to an ancestor if there is one, and
returns the height of the tip after that. -/
def rewind (s : Store) (tip : Height) : Option Position → Except CommitFault (Height × Store)
  | none => .ok (tip, s)
  | some p => do
    if (← s.storedBest p.height) = p then
      return (p.height, s.eraseBest (p.height + 1) (tip - p.height).toNat)
    else throw (.strayAncestor p)

/-- Appends blocks to the best chain whose tip has height `tip`, each one height above the one
before it, and returns the height of the tip after that. -/
def append (s : Store) (tip : Height) : List (Height × Hash) → Except CommitFault (Height × Store)
  | [] => .ok (tip, s)
  | (height, hash) :: rest =>
    if height = tip + 1 then (s.put (.best height) hash.bytes).append height rest
    else .error (.gap height tip)

def putHeaders (s : Store) (hs : List Header) : Store :=
  hs.foldl (fun s h => s.put (.header h.hash) h.toRecord) s

def change {α : Type} [Ord α] (s : Store) (key : α → Key) (c : Changes α) : Store :=
  c.added.toList.foldl (fun s x => s.put (key x) [])
    (c.removed.toList.foldl (fun s x => s.erase (key x)) s)

def changeCheckpoint (s : Store) : CheckpointChange → Store
  | .keep => s
  | .set p => s.put .checkpoint p.toRecord
  | .clear => s.erase .checkpoint

end Store

namespace Draft

/-- Writes the staged changes in order, or tells why they do not fit. -/
def write (d : Draft) : Except CommitFault Committed := do
  let stored ← d.base.storedTip
  let before ← d.base.storedBest stored
  let (left, s) ← (d.base.putHeaders d.headers.values).rewind stored d.ancestor
  let (tip, s) ← s.append left d.best.toList
  let s := s.put .tip (Store.heightRecord tip)
  let s := ((s.change .edge d.edges).change .sibling d.siblings).changeCheckpoint d.checkpoint
  let after ← s.storedBest tip
  return ⟨s, before, after⟩

def commit (d : Draft) : Except StoreError Committed := d.write.mapError .aborted

end Draft

end HeaderChain
