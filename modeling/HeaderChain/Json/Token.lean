import HeaderChain.Encoding.Hex

/-!
# Tokens of JSON

A text is cut into brackets, separators, words, numbers and strings. The value of a number is
kept when it is written as an integer; minus zero is none. A string may escape halves of surrogate
pairs: two that fit stand for one character, and a string with a half that has no partner stands
for no text.
-/

namespace HeaderChain.Json

inductive Token where
  | openArray
  | closeArray
  | openObject
  | closeObject
  | comma
  | colon
  | null
  | bool (value : Bool)
  | number (value : Option Int)
  | string (text : Option String)
deriving DecidableEq

namespace Token

/-! ## Strings -/

/-- The code of a character that is escaped by one letter or sign. -/
def escaped? : Char → Option Nat
  | '"' => some 0x22
  | '\\' => some 0x5c
  | '/' => some 0x2f
  | 'b' => some 0x08
  | 'f' => some 0x0c
  | 'n' => some 0x0a
  | 'r' => some 0x0d
  | 't' => some 0x09
  | _ => none

def digit? (c : Char) : Option Nat :=
  if c.toNat < 128 then (Hex.value? c.toUInt8).map UInt8.toNat else none

def code? (digits : List Char) : Option Nat :=
  digits.foldlM (fun n c => (digit? c).map (16 * n + ·)) 0

/-- Reads a string up to its closing quote as the codes of its characters, where `codes` are those
before in reverse. -/
def readString (codes : List Nat) : List Char → Option (List Nat × List Char)
  | [] => none
  | '"' :: rest => some (codes.reverse, rest)
  | '\\' :: 'u' :: a :: b :: c :: d :: rest =>
    match code? [a, b, c, d] with
    | none => none
    | some n => readString (n :: codes) rest
  | '\\' :: c :: rest =>
    match escaped? c with
    | none => none
    | some n => readString (n :: codes) rest
  | c :: rest => if c.toNat < 0x20 then none else readString (c.toNat :: codes) rest

def isHighHalf (n : Nat) : Bool := 0xd800 ≤ n && n < 0xdc00

def isLowHalf (n : Nat) : Bool := 0xdc00 ≤ n && n < 0xe000

/-- The characters with these codes, where `cs` are those before in reverse. -/
def characters? (cs : List Char) : List Nat → Option (List Char)
  | [] => some cs.reverse
  | [n] => if isHighHalf n || isLowHalf n then none else some (Char.ofNat n :: cs).reverse
  | n :: m :: rest =>
    if isHighHalf n then
      if isLowHalf m then
        characters? (Char.ofNat (0x10000 + 0x400 * (n - 0xd800) + (m - 0xdc00)) :: cs) rest
      else none
    else if isLowHalf n then none
    else characters? (Char.ofNat n :: cs) (m :: rest)

/-! ## Numbers -/

/-- The digits at the front, when there is one, and what follows them. -/
def readDigits (cs : List Char) : Option (List Char × List Char) :=
  let digits := cs.takeWhile Char.isDigit
  if digits.isEmpty then none else some (digits, cs.dropWhile Char.isDigit)

/-- Passes over a fraction, and says whether there is one. -/
def readFraction : List Char → Option (Bool × List Char)
  | '.' :: rest => (readDigits rest).map fun (_, rest) => (true, rest)
  | cs => some (false, cs)

def readExponent : List Char → Option (Bool × List Char)
  | c :: rest =>
    if c = 'e' ∨ c = 'E' then
      let digits := match rest with
        | '+' :: digits => digits
        | '-' :: digits => digits
        | digits => digits
      (readDigits digits).map fun (_, rest) => (true, rest)
    else some (false, c :: rest)
  | [] => some (false, [])

def readNumber (negative : Bool) (cs : List Char) : Option (Option Int × List Char) := do
  let (digits, rest) ← readDigits cs
  let (fraction, rest) ← readFraction rest
  let (exponent, rest) ← readExponent rest
  let n : Nat := digits.foldl (fun n c => 10 * n + (c.toNat - 48)) 0
  if digits.head? = some '0' ∧ digits.length ≠ 1 then none
  else if fraction || exponent || (negative && n = 0) then some (none, rest)
  else some (some (if negative then -(n : Int) else n), rest)

/-! ## Texts -/

def isSpace (c : Char) : Bool := c = ' ' || c = '\n' || c = '\t' || c = '\r'

def readWord (word : List Char) (t : Token) (cs : List Char) : Option (Token × List Char) :=
  if word.isPrefixOf cs then some (t, cs.drop word.length) else none

/-- Reads the token that starts with `c` and goes on in `rest`. -/
def read (c : Char) (rest : List Char) : Option (Token × List Char) :=
  match c with
  | '[' => some (openArray, rest)
  | ']' => some (closeArray, rest)
  | '\x7b' => some (openObject, rest)
  | '\x7d' => some (closeObject, rest)
  | ',' => some (comma, rest)
  | ':' => some (colon, rest)
  | 'n' => readWord ['u', 'l', 'l'] null rest
  | 't' => readWord ['r', 'u', 'e'] (bool true) rest
  | 'f' => readWord ['a', 'l', 's', 'e'] (bool false) rest
  | '"' => (readString [] rest).map fun (codes, rest) =>
      (string ((characters? [] codes).map String.ofList), rest)
  | '-' => (readNumber true rest).map fun (value, rest) => (number value, rest)
  | _ => (readNumber false (c :: rest)).map fun (value, rest) => (number value, rest)

/-- Cuts characters into tokens, `bound` at most together with the spaces between them, where
`tokens` are those before in reverse. -/
def readAll : (bound : Nat) → (tokens : List Token) → List Char → Option (List Token)
  | _, tokens, [] => some tokens.reverse
  | 0, _, _ => none
  | bound + 1, tokens, c :: rest =>
    if isSpace c then readAll bound tokens rest
    else match read c rest with
      | none => none
      | some (t, rest) => readAll bound (t :: tokens) rest

def ofText? (text : String) : Option (List Token) := readAll text.length [] text.toList

end Token

end HeaderChain.Json
