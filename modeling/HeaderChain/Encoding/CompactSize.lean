import HeaderChain.Encoding.Cursor

/-!
# Compact sizes

A count below 253 is one byte. Larger ones are a marker byte and the number in two, four or
eight bytes, least significant first. The shortest form is written; every form is read, off a
cursor or at an offset that is moved in place.
-/

namespace HeaderChain.CompactSize

/-- The shortest form of a number. -/
def write (value : UInt64) : Bytes :=
  let n := value.toNat
  if n ≤ 0xfc then [UInt8.ofNat n]
  else if n ≤ 0xffff then 0xfd :: Bytes.littleEndian 2 n
  else if n ≤ 0xffffffff then 0xfe :: Bytes.littleEndian 4 n
  else 0xff :: Bytes.littleEndian 8 n

def width (first : UInt8) : Nat :=
  if first = 0xfd then 2 else if first = 0xfe then 4 else if first = 0xff then 8 else 0

/-- Reads a number in any of its forms. -/
def read (c : Cursor) : Except DecodeError (UInt64 × Cursor) :=
  match c.rest with
  | [] => .error (.truncated c.offset)
  | first :: rest =>
    let next : Cursor := ⟨c.offset + 1, rest⟩
    match width first with
    | 0 => .ok (first.toUInt64, next)
    | w + 1 => (next.take (w + 1)).map fun (digits, after) => (UInt64.ofNat digits.toNat, after)

/-- Reads a number in any of its forms at an offset, which moves on to the end of the form. -/
def readAt (bytes : Bytes) : EStateM DecodeError Nat UInt64 := do
  let offset ← get
  match bytes[offset]? with
  | none => throw (.truncated offset)
  | some first =>
    let start := offset + 1
    match width first with
    | 0 =>
      set start
      return first.toUInt64
    | w + 1 =>
      match Bytes.split? (w + 1) (bytes.drop start) with
      | none => throw (.truncated start)
      | some (digits, _) =>
        set (start + (w + 1))
        return UInt64.ofNat digits.toNat

end HeaderChain.CompactSize
