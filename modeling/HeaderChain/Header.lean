import HeaderChain.Header.RawHeader
import HeaderChain.Header.Target
import HeaderChain.Position

/-!
# Headers and their chain state

A header carries, beside its raw fields and its name, what its place in the tree of headers says
about it: a height, the work of the whole path down to genesis, and its standing. The standing
is kept twice: what holds of the header itself, and what it has from its ancestors. All of this
is taken from the parent and from the checkpoint by `connect`.
-/

namespace HeaderChain

/-- What is known of a header's place. -/
inductive Standing where
  | normal
  /-- The parent is not known yet. -/
  | disconnected
  /-- The header is the checkpoint. -/
  | checkpoint
  /-- A checkpoint rules the header out. -/
  | banned
deriving DecidableEq, Repr

def Standing.name : Standing → String
  | .normal => "Normal"
  | .disconnected => "Disconnected"
  | .checkpoint => "Checkpoint"
  | .banned => "CheckpointBanned"

inductive HeaderError where
  | malformed (cause : DecodeError)
  | unusableTarget (bits : UInt32)
deriving DecidableEq, Repr

def HeaderError.message : HeaderError → String
  | .malformed cause => "malformed header: " ++ cause.message
  | .unusableTarget bits =>
    "invalid header: unusable compact target 0x" ++ Hex.encode (Bytes.bigEndian 4 bits.toNat)

structure Header where
  raw : RawHeader
  hash : Hash
  height : Height
  /-- The work of the header and all its ancestors. -/
  work : Nat
  /-- What holds of the header itself. -/
  own : Standing
  /-- What the header has from its ancestors. -/
  inherited : Standing
deriving DecidableEq

namespace Header

def parent (h : Header) : Hash := h.raw.previous

def position (h : Header) : Position := ⟨h.height, h.hash⟩

def ownWork (h : Header) : Nat := (Target.workOfBits h.raw.bits).getD 0

def isDisconnected (h : Header) : Bool := h.own == .disconnected || h.inherited == .disconnected

/-- Whether a checkpoint rules the header out of the best chain. -/
def isBanned (h : Header) : Bool := h.own == .banned || h.inherited == .banned

/-- A header that has no place yet. -/
def unplaced (raw : RawHeader) : Header where
  raw := raw
  hash := raw.hash
  height := Height.blank
  work := 0
  own := .normal
  inherited := .normal

/-- The header with these fields, when its target can be used. -/
def ofRaw (raw : RawHeader) : Except HeaderError Header :=
  match Target.workOfBits raw.bits with
  | none => .error (.unusableTarget raw.bits)
  | some _ => .ok (unplaced raw)

/-- The header at the root of a chain. -/
def genesis (raw : RawHeader) : Except HeaderError Header :=
  (ofRaw raw).map fun h => { h with height := 0, work := h.ownWork }

def decode (bytes : Bytes) : Except HeaderError Header :=
  match RawHeader.decode bytes with
  | .error cause => .error (.malformed cause)
  | .ok raw => ofRaw raw

def inheritWork (h : Header) (parentWork : Nat) : Header :=
  { h with work := parentWork + h.ownWork }

/-- The standing that the children of a header have from it. -/
def bequest (parent : Header) : Standing :=
  if parent.isBanned then .banned else if parent.isDisconnected then .disconnected else .normal

def inheritStanding (h parent : Header) : Header := { h with inherited := parent.bequest }

def inheritHeight (h parent : Header) : Header := { h with height := parent.height + 1 }

/-- The header's own standing against a checkpoint: only the checkpoint's height matters to it. -/
def compareTo (h : Header) (checkpoint : Position) : Header :=
  { h with own :=
      if checkpoint.height ≠ h.height then .normal
      else if checkpoint.hash = h.hash then .checkpoint
      else .banned }

/-- Takes the chain state from the parent and the checkpoint. -/
def connect (h parent : Header) (checkpoint : Position) : Header :=
  (((h.inheritWork parent.work).inheritStanding parent).inheritHeight parent).compareTo checkpoint

/-- The header without a place, waiting for its parent. -/
def disconnect (h : Header) : Header :=
  { h with own := .disconnected, inherited := .normal, height := Height.blank, work := 0 }

def summary (h : Header) : String :=
  "Header #" ++ toString h.height ++ " [" ++ h.hash.short ++ "] parent=" ++ h.parent.short ++
    " work=" ++ toString h.work ++ " status=" ++ h.own.name ++ "/" ++ h.inherited.name

theorem ofRaw_of_isSome {raw : RawHeader} (h : (Target.workOfBits raw.bits).isSome = true) :
    ofRaw raw = .ok (unplaced raw) := by
  obtain ⟨work, hwork⟩ := Option.isSome_iff_exists.mp h
  unfold ofRaw
  rw [hwork]

theorem decode_encode (raw : RawHeader) : decode raw.encode = ofRaw raw := by
  unfold decode
  rw [RawHeader.decode_encode]

@[simp] theorem hash_connect (h parent : Header) (checkpoint : Position) :
    (h.connect parent checkpoint).hash = h.hash := rfl

@[simp] theorem raw_connect (h parent : Header) (checkpoint : Position) :
    (h.connect parent checkpoint).raw = h.raw := rfl

@[simp] theorem hash_disconnect (h : Header) : h.disconnect.hash = h.hash := rfl

@[simp] theorem raw_disconnect (h : Header) : h.disconnect.raw = h.raw := rfl

@[simp] theorem isDisconnected_disconnect (h : Header) : h.disconnect.isDisconnected = true := rfl

end Header

end HeaderChain
