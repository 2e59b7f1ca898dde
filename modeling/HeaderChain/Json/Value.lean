import HeaderChain.Json.Token

/-!
# Values of JSON

A value is built from tokens one by one. The containers that are still open are kept in a list, the
innermost first, so that the depth of a text does not matter. An object keeps all its members in
order, repeated names too.
-/

namespace HeaderChain.Json

inductive Value where
  | null
  | bool (value : Bool)
  | number (value : Option Int)
  | string (text : Option String)
  | array (items : List Value)
  | object (members : List (Option String × Value))

namespace Value

/-- An open container, with what is in it so far in reverse. -/
inductive Frame where
  | array (items : List Value)
  | object (members : List (Option String × Value)) (name : Option String)

/-- What may come next, inside these open containers. -/
inductive Expected where
  | value (frames : List Frame)
  | firstItem (frames : List Frame)
  | firstName (frames : List Frame)
  | name (members : List (Option String × Value)) (frames : List Frame)
  | colon (members : List (Option String × Value)) (name : Option String) (frames : List Frame)
  /-- A value is complete: a separator or a closing bracket. -/
  | after (value : Value) (frames : List Frame)

def begin (frames : List Frame) : Token → Option Expected
  | .null => some (.after .null frames)
  | .bool b => some (.after (.bool b) frames)
  | .number n => some (.after (.number n) frames)
  | .string s => some (.after (.string s) frames)
  | .openArray => some (.firstItem frames)
  | .openObject => some (.firstName frames)
  | _ => none

def step : Expected → Token → Option Expected
  | .value frames, t => begin frames t
  | .firstItem frames, .closeArray => some (.after (.array []) frames)
  | .firstItem frames, t => begin (.array [] :: frames) t
  | .firstName frames, .closeObject => some (.after (.object []) frames)
  | .firstName frames, .string name => some (.colon [] name frames)
  | .name members frames, .string name => some (.colon members name frames)
  | .colon members name frames, .colon => some (.value (.object members name :: frames))
  | .after v (.array items :: frames), .comma => some (.value (.array (v :: items) :: frames))
  | .after v (.array items :: frames), .closeArray =>
    some (.after (.array (v :: items).reverse) frames)
  | .after v (.object members name :: frames), .comma => some (.name ((name, v) :: members) frames)
  | .after v (.object members name :: frames), .closeObject =>
    some (.after (.object ((name, v) :: members).reverse) frames)
  | _, _ => none

def ofText? (text : String) : Option Value := do
  match ← (← Token.ofText? text).foldlM step (.value []) with
  | .after v [] => some v
  | _ => none

/-! ## Reading -/

def text? : Value → Option String
  | string text => text
  | _ => none

/-- The integer, when it has 64 bits. -/
def integer? : Value → Option Int
  | number (some z) => if -0x8000000000000000 ≤ z ∧ z < 0x8000000000000000 then some z else none
  | _ => none

/-- The one value of a name, if it has any. A repeated name is refused. -/
def member? (members : List (Option String × Value)) (name : String) : Option (Option Value) :=
  match members.filter fun m => m.1 == some name with
  | [] => some none
  | [m] => some (some m.2)
  | _ => none

/-- The values of a record's fields: by name, or in order in an array whose end may be missing.
Other names are ignored. -/
def fields? (names : List String) : Value → Option (List (Option Value))
  | array items =>
    if items.length ≤ names.length then
      some (items.map some ++ List.replicate (names.length - items.length) none)
    else none
  | object members =>
    if members.all fun m => m.1.isSome then names.mapM (member? members) else none
  | _ => none

end Value

end HeaderChain.Json
