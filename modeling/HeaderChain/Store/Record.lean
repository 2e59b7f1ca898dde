import HeaderChain.Header

/-!
# Stored records

Headers and positions are stored as records: integers of fixed width, least significant byte
first, heights in two's complement, work as a count of digits in base `2 ^ 32` with the digits
after it, and a standing as its number. Bytes after a record are ignored when it is read, and so
are zero digits at the high end of the work; neither is ever written.
-/

namespace HeaderChain

inductive RecordError where
  | endOfRecord
  | unknownStanding (number : Nat)
deriving DecidableEq, Repr

def RecordError.message : RecordError → String
  | .endOfRecord => "io error: unexpected end of file"
  | .unknownStanding number =>
    "invalid value: integer `" ++ toString number ++ "`, expected variant index 0 <= i < 4"

namespace Record

/-- Takes values off the front of a record. -/
abbrev Reader := StateT Bytes (Except RecordError)

def take (n : Nat) : Reader Bytes := fun bytes =>
  match Bytes.split? n bytes with
  | none => .error .endOfRecord
  | some (front, rest) => .ok (front, rest)

def readNat (w : Nat) : Reader Nat := return Bytes.toNat (← take w)

def readWord : Reader UInt32 := return UInt32.ofNat (← readNat 4)

def writeWord (w : UInt32) : Bytes := Bytes.littleEndian 4 w.toNat

def readHash : Reader Hash := do
  match Hash.ofBytes? (← take 32) with
  | none => throw .endOfRecord
  | some h => return h

def readHeight : Reader Height := return Bytes.signed 8 (← readNat 8)

def writeHeight (h : Height) : Bytes := Bytes.littleEndian 8 (Bytes.residue 8 h)

/-- The digits of a number in base `2 ^ 32`, least significant first, none of them superfluous. -/
def workDigits (n : Nat) : List Nat :=
  if n = 0 then [] else n % 0x100000000 :: workDigits (n / 0x100000000)
termination_by n
decreasing_by omega

/-- Reads so many digits, least significant first. -/
def readDigits : Nat → Reader Nat
  | 0 => return 0
  | n + 1 => do
    let digit ← readNat 4
    let higher ← readDigits n
    return digit + 0x100000000 * higher

def readWork : Reader Nat := do readDigits (← readNat 8)

def writeWork (n : Nat) : Bytes :=
  let digits := workDigits n
  Bytes.littleEndian 8 digits.length ++ digits.flatMap (Bytes.littleEndian 4)

def standingNumber : Standing → Nat
  | .normal => 0
  | .disconnected => 1
  | .checkpoint => 2
  | .banned => 3

def readStanding : Reader Standing := do
  match ← readNat 4 with
  | 0 => return .normal
  | 1 => return .disconnected
  | 2 => return .checkpoint
  | 3 => return .banned
  | number => throw (.unknownStanding number)

def writeStanding (s : Standing) : Bytes := Bytes.littleEndian 4 (standingNumber s)

def readHeader : Reader Header := do
  let version ← readWord
  let previous ← readHash
  let merkleRoot ← readHash
  let timestamp ← readWord
  let bits ← readWord
  let nonce ← readWord
  let hash ← readHash
  let height ← readHeight
  let work ← readWork
  let own ← readStanding
  let inherited ← readStanding
  return { raw := { version, previous, merkleRoot, timestamp, bits, nonce }, hash, height, work,
           own, inherited }

def readPosition : Reader Position := do
  let height ← readHeight
  let hash ← readHash
  return { height, hash }

end Record

open Record

def Header.toRecord (h : Header) : Bytes :=
  writeWord h.raw.version ++ h.raw.previous.bytes ++ h.raw.merkleRoot.bytes ++
    writeWord h.raw.timestamp ++ writeWord h.raw.bits ++ writeWord h.raw.nonce ++
    h.hash.bytes ++ writeHeight h.height ++ writeWork h.work ++
    writeStanding h.own ++ writeStanding h.inherited

/-- Reads the record of a header from the front of a byte string. -/
def Header.ofRecord (bytes : Bytes) : Except RecordError Header := (readHeader bytes).map Prod.fst

def Position.toRecord (p : Position) : Bytes := writeHeight p.height ++ p.hash.bytes

/-- Reads the record of a position from the front of a byte string. -/
def Position.ofRecord (bytes : Bytes) : Except RecordError Position :=
  (readPosition bytes).map Prod.fst

end HeaderChain
