import HeaderChain.Encoding.Hex
import HeaderChain.Encoding.Text
import HeaderChain.Hash.Sha256
import Std.Data.TreeMap

/-!
# Hashes

Every block, transaction and merkle node is named by a hash: the SHA-256 digest of a SHA-256
digest, 32 bytes. Hashes are ordered as byte strings. They are shown to people in *display*
form, with the bytes reversed.
-/

namespace HeaderChain

structure Hash where
  bytes : Bytes
  length_bytes : bytes.length = 32
deriving DecidableEq

namespace Hash

def ofBytes? (bytes : Bytes) : Option Hash :=
  if h : bytes.length = 32 then some ⟨bytes, h⟩ else none

def fill (b : UInt8) : Hash := ⟨List.replicate 32 b, List.length_replicate⟩

/-- Stands where no block is meant: the parent of a genesis block, a blank position. -/
def zero : Hash := fill 0

instance : Inhabited Hash := ⟨zero⟩

/-- The hash of a byte string. -/
def ofData (data : Bytes) : Hash := ⟨Sha256.digest (Sha256.digest data), Sha256.length_digest _⟩

/-- All digits, in stored order. -/
def hex (h : Hash) : String := Hex.encode h.bytes

/-- The first sixteen digits, in stored order. -/
def short (h : Hash) : String := Hex.encode (h.bytes.take 8)

/-- All digits, in display order. -/
def display (h : Hash) : String := Hex.encode h.bytes.reverse

inductive ParseError where
  | notHex (text : String) (fault : Hex.Fault)
  | wrongSize (size : Nat)
deriving DecidableEq, Repr

def ParseError.message : ParseError → String
  | .notHex text fault => "bad hex '" ++ text ++ "': " ++ fault.message
  | .wrongSize size => "expected 32 bytes, got " ++ toString size

/-- Reads a hash in display form. Blank characters around it are ignored. -/
def ofDisplay (text : String) : Except ParseError Hash :=
  match Hex.decode (Text.trim text) with
  | .error fault => .error (.notHex text fault)
  | .ok bytes =>
    match ofBytes? bytes.reverse with
    | none => .error (.wrongSize bytes.length)
    | some h => .ok h

instance : Ord Hash := ⟨fun a b => compare a.bytes b.bytes⟩

theorem ext {a b : Hash} (h : a.bytes = b.bytes) : a = b := by
  cases a; cases b; cases h; rfl

instance : Std.TransOrd Hash :=
  inferInstanceAs (Std.TransCmp (compareOn Hash.bytes))

instance : Std.LawfulEqOrd Hash where
  eq_of_compare h := ext (Std.LawfulEqOrd.eq_of_compare (α := Bytes) h)

@[simp] theorem ofBytes?_bytes (h : Hash) : ofBytes? h.bytes = some h := by
  simp [ofBytes?, h.length_bytes]

theorem ofBytes?_eq_some {bytes : Bytes} {h : Hash} :
    ofBytes? bytes = some h ↔ h.bytes = bytes := by
  constructor
  · intro hb
    unfold ofBytes? at hb
    split at hb
    · cases hb; rfl
    · cases hb
  · rintro rfl
    exact ofBytes?_bytes h

end Hash

end HeaderChain
