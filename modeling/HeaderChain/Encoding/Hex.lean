import HeaderChain.Encoding.Bytes

/-!
# Hexadecimal text

`encode` writes two lowercase digits a byte. `decode` reads digits of either case from the
UTF-8 bytes of a text: an odd number of bytes is reported first, then the first byte that is
no digit, with its index. In a message such a byte stands as the character of the same number,
quoted and escaped so that it is visible.
-/

namespace HeaderChain.Hex

inductive Fault where
  | oddLength
  | invalidByte (byte : UInt8) (index : Nat)
deriving DecidableEq, Repr

/-- The lowercase digit for a number below sixteen. -/
def digit (n : Nat) : Char :=
  if n < 10 then Char.ofNat (48 + n) else Char.ofNat (87 + n)

def byteDigits (b : UInt8) : List Char := [digit (b.toNat / 16), digit (b.toNat % 16)]

def encode (bytes : Bytes) : String := String.ofList (bytes.flatMap byteDigits)

/-- The value of an ASCII digit of either case. -/
def value? (b : UInt8) : Option UInt8 :=
  if 48 ≤ b ∧ b ≤ 57 then some (b - 48)
  else if 97 ≤ b ∧ b ≤ 102 then some (b - 87)
  else if 65 ≤ b ∧ b ≤ 70 then some (b - 55)
  else none

/-- Reads pairs of digits, where `index` counts the bytes before them. -/
def decodePairs (index : Nat) : Bytes → Except Fault Bytes
  | [] => .ok []
  | [_] => .error .oddLength
  | a :: b :: rest =>
    match value? a, value? b with
    | none, _ => .error (.invalidByte a index)
    | _, none => .error (.invalidByte b (index + 1))
    | some high, some low => (decodePairs (index + 2) rest).map ((16 * high + low) :: ·)

def decodeBytes (text : Bytes) : Except Fault Bytes :=
  if text.length % 2 = 1 then .error .oddLength else decodePairs 0 text

def decode (text : String) : Except Fault Bytes := decodeBytes text.toUTF8.toList

/-- The shortest lowercase hexadecimal numeral of a byte. -/
def numeral (b : UInt8) : List Char :=
  if b < 16 then [digit b.toNat] else byteDigits b

def quoted (b : UInt8) : String :=
  let shown :=
    if b = 0 then ['\\', '0']
    else if b = 9 then ['\\', 't']
    else if b = 10 then ['\\', 'n']
    else if b = 13 then ['\\', 'r']
    else if b = 39 ∨ b = 92 then ['\\', Char.ofNat b.toNat]
    else if b < 32 ∨ (127 ≤ b ∧ b ≤ 160) ∨ b = 173 then
      ['\\', 'u', '\x7b'] ++ numeral b ++ ['\x7d']
    else [Char.ofNat b.toNat]
  String.ofList (['\''] ++ shown ++ ['\''])

def Fault.message : Fault → String
  | .oddLength => "Odd number of digits"
  | .invalidByte b index => "Invalid character " ++ quoted b ++ " at position " ++ toString index

theorem value?_digit (n : Nat) (h : n < 16) :
    value? (UInt8.ofNat (digit n).toNat) = some (UInt8.ofNat n) := by
  match n with
  | 0 | 1 | 2 | 3 | 4 | 5 | 6 | 7 | 8 | 9 | 10 | 11 | 12 | 13 | 14 | 15 => decide
  | n + 16 => omega

end HeaderChain.Hex
