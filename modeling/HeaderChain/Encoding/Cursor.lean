import HeaderChain.Encoding.Bytes

/-!
# Reading byte strings

A cursor is a place in a byte string: the number of bytes before it and the bytes after it. The
errors are those of all the binary formats read here.
-/

namespace HeaderChain

inductive DecodeError where
  /-- A header has exactly 80 bytes. -/
  | headerSize (size : Nat)
  /-- Bytes are missing from this offset on. -/
  | truncated (offset : Nat)
  /-- A count or a length is beyond the limit. -/
  | tooLarge (value : Nat)
  /-- So many bytes follow the block. -/
  | trailingBytes (count : Nat)
deriving DecidableEq, Repr

def DecodeError.message : DecodeError → String
  | .headerSize size => "malformed header: expected 80 bytes, got " ++ toString size
  | .truncated offset => "unexpected end of input at offset " ++ toString offset
  | .tooLarge value => "length prefix " ++ toString value ++ " exceeds limit"
  | .trailingBytes count => toString count ++ " trailing bytes after block"

structure Cursor where
  offset : Nat
  rest : Bytes
deriving DecidableEq, Repr

namespace Cursor

/-- The place with `offset` bytes before it. -/
def seek (bytes : Bytes) (offset : Nat) : Cursor := ⟨offset, bytes.drop offset⟩

/-- Takes `n` bytes. Those that are missing are reported at the cursor. -/
def take (n : Nat) (c : Cursor) : Except DecodeError (Bytes × Cursor) :=
  match Bytes.split? n c.rest with
  | none => .error (.truncated c.offset)
  | some (front, rest) => .ok (front, ⟨c.offset + n, rest⟩)

end Cursor

end HeaderChain
