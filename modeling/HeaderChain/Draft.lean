import HeaderChain.ChainError
import HeaderChain.Draft.Changes
import HeaderChain.Trace

/-!
# Drafts

A draft holds the changes of one operation over a store that they are not yet written to. Every
reader looks at the changes first and at the store after them, so that an operation sees its own
work. Staged headers are copies by hash; the best chain is cut back to an ancestor and extended
by staged heights; the sets have members added and removed.
-/

namespace HeaderChain

inductive CheckpointChange where
  | keep
  | set (checkpoint : Position)
  | clear
deriving DecidableEq

/-- Staged changes over a store. -/
structure Draft where
  base : Store
  headers : Std.TreeMap Hash Header := ∅
  best : Std.TreeMap Height Hash := ∅
  /-- Where the stored best chain is cut back to, if it is. -/
  ancestor : Option Position := none
  siblings : Changes Hash := {}
  edges : Changes Edge := {}
  checkpoint : CheckpointChange := .keep

namespace Draft

/-! ## Headers -/

def header? (d : Draft) (hash : Hash) : Option Header :=
  match d.headers[hash]? with
  | some h => some h
  | none => d.base.header? hash

def hasHeader (d : Draft) (hash : Hash) : Bool := d.headers.contains hash || d.base.hasHeader hash

def header (d : Draft) (hash : Hash) : Except ChainError Header :=
  match d.header? hash with
  | none => .error (.unknownHeader hash)
  | some h => .ok h

/-- Stages what `f` makes of a header. A staged copy of it wins over `h`. -/
def stageNew (d : Draft) (h : Header) (f : Header → Header) : Draft :=
  { d with headers := d.headers.insert h.hash (f (d.headers.getD h.hash h)) }

/-- Stages what `f` makes of the header with this hash, and returns that. -/
def stage (d : Draft) (hash : Hash) (f : Header → Header) : Except StoreError (Header × Draft) := do
  let h ← match d.headers[hash]? with
    | some h => .ok h
    | none => d.base.load hash
  return (f h, { d with headers := d.headers.insert hash (f h) })

/-- How many headers there can be at most. -/
def bound (d : Draft) : Nat := d.base.records.size + d.headers.size + 1

def trace (d : Draft) (stop : Header → Bool) (cursor : Header) : Except ChainError Trace :=
  Trace.run (.contradiction (.endless cursor.position)) d.header stop d.bound cursor

/-! ## The best chain -/

def bestAt? (d : Draft) (height : Height) : Option Hash :=
  match d.best[height]? with
  | some hash => some hash
  | none =>
    match d.ancestor with
    | some p => if height > p.height then none else d.base.bestAt? height
    | none => d.base.bestAt? height

def tipHeight (d : Draft) : Height :=
  match d.best.maxKey?, d.ancestor with
  | some height, _ => height
  | none, some p => p.height
  | none, none => d.base.tipHeight

def tip (d : Draft) : Except ChainError Position :=
  match d.bestAt? d.tipHeight with
  | none => .error (.contradiction (.noTip d.tipHeight))
  | some hash => .ok ⟨d.tipHeight, hash⟩

def onBest (d : Draft) (p : Position) : Bool := d.bestAt? p.height == some p.hash

def extend (d : Draft) (p : Position) : Draft := { d with best := d.best.insert p.height p.hash }

/-- Cuts the best chain back to `p`, whose height has another one above it. Staged heights above it
go. The stored chain is only cut when `p` is below all that is left of it. -/
def rewind (d : Draft) (p : Position) : Draft :=
  let left := (d.ancestor.map Position.height).getD d.base.tipHeight
  { d with
    ancestor := if p.height < left then some p else d.ancestor
    best := d.best.filter fun height _ => height ≤ p.height }

/-- Cuts the best chain back to a position of any height that has 64 bits. The height after the
greatest one is the least one there, and all that is staged lies above that. -/
def cutBack (d : Draft) (p : Position) : Draft :=
  if p.height < Height.greatest then d.rewind p else { d.rewind p with best := ∅ }

/-- Stages the header at the tip as it is, and returns it. -/
def stageBest (d : Draft) : Except ChainError (Header × Draft) := do
  let tip ← d.tip
  match d.stage tip.hash id with
  | .error cause => throw (.store cause)
  | .ok staged => return staged

/-! ## Siblings -/

def addSibling (d : Draft) (hash : Hash) : Draft := { d with siblings := d.siblings.add hash }

def removeSibling (d : Draft) (hash : Hash) : Draft := { d with siblings := d.siblings.remove hash }

def isSibling (d : Draft) (hash : Hash) : Bool := d.siblings.holds hash (d.base.isSibling hash)

def allSiblings (d : Draft) : List Hash := d.siblings.apply d.base.siblings

/-! ## Waiting edges -/

/-- Lets `child` wait under `parent`. -/
def detach (d : Draft) (parent child : Hash) : Draft :=
  { d with edges := d.edges.add ⟨parent, child⟩ }

/-- Ends that `child` waits under `parent`. -/
def attach (d : Draft) (parent child : Hash) : Draft :=
  { d with edges := d.edges.remove ⟨parent, child⟩ }

def waiting (d : Draft) : List Edge := d.edges.apply d.base.waiting

/-- The edges that the draft adds under a parent. -/
def newlyWaiting (d : Draft) (parent : Hash) : List Hash :=
  (d.edges.added[(Edge.mk parent .zero)...*].iter.takeWhile fun e => e.parent = parent).toList.map
    Edge.child

/-- The headers that wait for this parent, in ascending order. -/
def waitingFor (d : Draft) (parent : Hash) : List Hash :=
  let kept := (d.base.waitingFor parent).filter fun child =>
    !d.edges.removed.contains ⟨parent, child⟩
  (Std.TreeSet.ofList (kept ++ d.newlyWaiting parent)).toList

def isAwaited (d : Draft) (parent : Hash) : Bool := !(d.waitingFor parent).isEmpty

/-! ## The checkpoint -/

def setCheckpoint (d : Draft) (p : Position) : Draft := { d with checkpoint := .set p }

def clearCheckpoint (d : Draft) : Draft := { d with checkpoint := .clear }

def currentCheckpoint (d : Draft) : Position :=
  match d.checkpoint with
  | .keep => d.base.checkpoint
  | .set p => p
  | .clear => .blank

@[simp] theorem header?_mk (s : Store) : ({ base := s } : Draft).header? = s.header? := by
  funext hash
  simp [header?]

@[simp] theorem bestAt?_mk (s : Store) : ({ base := s } : Draft).bestAt? = s.bestAt? := by
  funext height
  simp [bestAt?]

@[simp] theorem tipHeight_mk (s : Store) : ({ base := s } : Draft).tipHeight = s.tipHeight := by
  simp [tipHeight]

@[simp] theorem bestAt?_extend (d : Draft) (p : Position) (height : Height) :
    (d.extend p).bestAt? height = if p.height = height then some p.hash else d.bestAt? height := by
  by_cases h : p.height = height <;> simp [bestAt?, extend, Std.TreeMap.getElem?_insert, h]

end Draft

end HeaderChain
