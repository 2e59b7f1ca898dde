/-!
# Numerals

Decimal numerals as they are written on a command line: digits, and a sign in front of them if the
number may have one. A plus sign is always allowed.
-/

namespace HeaderChain.Numeral

/-- The number with these decimal digits, of which there has to be one. -/
def natural? (digits : List Char) : Option Nat :=
  if digits.isEmpty || !digits.all Char.isDigit then none
  else some (digits.foldl (fun n c => 10 * n + (c.toNat - 48)) 0)

/-- Reads a number of 64 bits without a sign. -/
def unsigned? (text : String) : Option UInt64 :=
  let digits := match text.toList with
    | '+' :: digits => digits
    | digits => digits
  match natural? digits with
  | some n => if n < 0x10000000000000000 then some (UInt64.ofNat n) else none
  | none => none

/-- Reads a number of 64 bits with a sign. -/
def signed? (text : String) : Option Int :=
  let read (digits : List Char) (sign : Int) : Option Int :=
    match natural? digits with
    | some n =>
      if -0x8000000000000000 ≤ sign * n ∧ sign * n < 0x8000000000000000 then some (sign * n)
      else none
    | none => none
  match text.toList with
  | '+' :: digits => read digits 1
  | '-' :: digits => read digits (-1)
  | digits => read digits 1

def padded (width : Nat) (z : Int) : String :=
  let text := toString z
  String.ofList (List.replicate (width - text.length) ' ') ++ text

end HeaderChain.Numeral
