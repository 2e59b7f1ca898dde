import HeaderChain.Network
import HeaderChain.Store.Key
import HeaderChain.Store.Record
import Std.Data.Iterators
import Std.Data.TreeMap

/-!
# The store of a chain

One ordered map from byte strings to byte strings holds everything that is remembered: the
records of headers, the hashes of the best chain by height, the height of its tip, the edges under
which headers wait, the siblings, the checkpoint and the network's tag. Reading never fails on a
missing or unreadable record unless the reader asks for the reason.
-/

namespace HeaderChain

inductive CommitFault where
  | noTip
  | unreadableTip
  | noBest (height : Height)
  | unreadableBest (height : Height)
  /-- The best chain should be cut back to a block that is not on it. -/
  | strayAncestor (ancestor : Position)
  /-- The block after a tip does not have the height after it. -/
  | gap (height tip : Height)
deriving DecidableEq

def CommitFault.message : CommitFault → String
  | .noTip => "missing tip height"
  | .unreadableTip => "corrupt tip height"
  | .noBest height => "no best block at height " ++ toString height
  | .unreadableBest height => "corrupt best block at height " ++ toString height
  | .strayAncestor ancestor => "reorg parent " ++ ancestor.summary ++ " is not on the best chain"
  | .gap height tip =>
    "best chain gap: appending " ++ toString height ++ " onto tip " ++ toString tip

inductive StoreError where
  | aborted (cause : CommitFault)
  | unreadable (cause : RecordError)
  | unknownHeader (hash : Hash)
  | noBest (height : Height)
  | otherNetwork (found : UInt8) (expected : Network)
deriving DecidableEq

def StoreError.message : StoreError → String
  | .aborted cause => "transaction aborted: " ++ cause.message
  | .unreadable cause => "serialization error: " ++ cause.message
  | .unknownHeader hash => "not found: header " ++ hash.hex
  | .noBest height => "not found: best block at height " ++ toString height
  | .otherNetwork found expected =>
    "database belongs to chain tag " ++ toString found.toNat ++ ", expected " ++ expected.name

structure Store where
  records : Std.TreeMap Bytes Bytes := ∅

namespace Store

def get? (s : Store) (key : Key) : Option Bytes := s.records[key.bytes]?

def contains (s : Store) (key : Key) : Bool := s.records.contains key.bytes

def put (s : Store) (key : Key) (value : Bytes) : Store := ⟨s.records.insert key.bytes value⟩

def erase (s : Store) (key : Key) : Store := ⟨s.records.erase key.bytes⟩

/-- What follows `front` in the keys that begin with it, in ascending order. -/
def scan (s : Store) (front : Bytes) : List Bytes :=
  (s.records[front...*].iter.takeWhile fun entry => front.isPrefixOf entry.1).toList.map
    fun entry => entry.1.drop front.length

/-! ## Headers -/

def hasHeader (s : Store) (hash : Hash) : Bool := s.contains (.header hash)

/-- The header with this hash, or the reason why there is none. -/
def load (s : Store) (hash : Hash) : Except StoreError Header :=
  match s.get? (.header hash) with
  | none => .error (.unknownHeader hash)
  | some record =>
    match Header.ofRecord record with
    | .error cause => .error (.unreadable cause)
    | .ok h => .ok h

/-- The header with this hash, when its record can be read. -/
def header? (s : Store) (hash : Hash) : Option Header := (s.load hash).toOption

/-! ## The best chain -/

def bestAt? (s : Store) (height : Height) : Option Hash :=
  if height < 0 ∨ Height.greatest < height then none
  else (s.get? (.best height)).bind Hash.ofBytes?

/-- Writes a height as a record of its own, most significant byte first. -/
def heightRecord (height : Height) : Bytes := Bytes.bigEndian 8 (Bytes.residue 8 height)

/-- Reads such a record, when it has eight bytes. -/
def heightOfRecord? (record : Bytes) : Option Height :=
  if record.length = 8 then some (Bytes.signed 8 (Bytes.toNat record.reverse)) else none

def tipHeight (s : Store) : Height :=
  ((s.get? .tip).bind heightOfRecord?).getD Height.blank

def best (s : Store) : Except StoreError Header :=
  match s.bestAt? s.tipHeight with
  | none => .error (.noBest s.tipHeight)
  | some hash => s.load hash

def onBest (s : Store) (p : Position) : Bool := s.bestAt? p.height == some p.hash

/-! ## Checkpoint, siblings and waiting edges -/

/-- The checkpoint, blank when there is none. -/
def checkpoint (s : Store) : Position :=
  match s.get? .checkpoint with
  | none => .blank
  | some record => (Position.ofRecord record).toOption.getD .blank

/-- The tips off the best chain. -/
def siblings (s : Store) : List Hash := (s.scan Key.siblings).filterMap Hash.ofBytes?

def isSibling (s : Store) (hash : Hash) : Bool := s.contains (.sibling hash)

/-- All edges under which headers wait. -/
def waiting (s : Store) : List Edge := (s.scan Key.edges).filterMap Edge.ofBytes?

def waitingFor (s : Store) (parent : Hash) : List Hash :=
  (s.scan (Key.edges ++ parent.bytes)).filterMap Hash.ofBytes?

def isAwaited (s : Store) (parent : Hash) : Bool := !(s.scan (Key.edges ++ parent.bytes)).isEmpty

/-! ## Opening -/

/-- Writes the genesis header of a network as the whole best chain, and the network's tag. -/
def importGenesis (s : Store) (network : Network) : Store :=
  let genesis := network.genesis
  (((s.put (.header genesis.hash) genesis.toRecord).put (.best 0) genesis.hash.bytes).put .tip
    (heightRecord 0)).put .network [network.tag]

/-- Makes a store ready for a network: a store without a tag gets the genesis header, a store with
the tag of another network is refused. -/
def claim (s : Store) (network : Network) : Except StoreError Store :=
  match s.get? .network with
  | none => .ok (s.importGenesis network)
  | some tag =>
    if tag = [network.tag] then .ok s
    else .error (.otherNetwork (tag.headD 0) network)

@[simp] theorem get?_put (s : Store) (k : Key) (v : Bytes) : (s.put k v).get? k = some v := by
  simp [get?, put]

theorem get?_put_of_ne {s : Store} {k l : Key} {v : Bytes} (h : l.bytes ≠ k.bytes) :
    (s.put l v).get? k = s.get? k := by
  simp [get?, put, Std.TreeMap.getElem?_insert, h]

@[simp] theorem get?_erase (s : Store) (k : Key) : (s.erase k).get? k = none := by
  simp [get?, erase]

theorem get?_erase_of_ne {s : Store} {k l : Key} (h : l.bytes ≠ k.bytes) :
    (s.erase l).get? k = s.get? k := by
  simp [get?, erase, Std.TreeMap.getElem?_erase, h]

end Store

end HeaderChain
