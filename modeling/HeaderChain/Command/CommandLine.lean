import HeaderChain.Encoding.Numeral
import HeaderChain.Network

/-!
# The command line

Arguments name one command, the options of that command and its values; options that say where
the data is may stand before or after the command. A value of an option follows it, or is written
behind an equals sign, which is the only way for one that starts with a dash. After two dashes only
values come. Arguments are read from left to right, and the first fault ends that.
-/

namespace HeaderChain

inductive Command where
  | init
  | info
  | importFile (path : String)
  | addCheckpoint (height : Height) (hash : String)
  | deleteCheckpoint
  | bestChain (limit : UInt64)
  | siblings
  | reorg (hash : String)
deriving DecidableEq

/-- A command, and what its arguments say about the configuration. -/
structure Invocation where
  config : Option String
  dataDirectory : Option String
  network : Option Network
  command : Command
deriving DecidableEq

namespace CommandLine

inductive Stop where
  | usage
  | help
  | version
deriving DecidableEq, Repr

inductive Flag where
  | config
  | dataDirectory
  | network
  | height
  | hash
  | limit
deriving DecidableEq, Repr

namespace Flag

def name : Flag → String
  | config => "config"
  | dataDirectory => "data-dir"
  | network => "chain"
  | height => "height"
  | hash => "hash"
  | limit => "limit"

def letter? : Flag → Option Char
  | limit => some 'l'
  | _ => none

def accepts : Flag → String → Bool
  | config, text => !text.isEmpty
  | dataDirectory, text => !text.isEmpty
  | network, text => (Network.parse text).toOption.isSome
  | height, text => (Numeral.signed? text).isSome
  | hash, _ => true
  | limit, text => (Numeral.unsigned? text).isSome

def everywhere : List Flag := [config, dataDirectory, network]

end Flag

/-- What may stand before the command, or after it. -/
structure Grammar where
  flags : List Flag := []
  /-- How many values there may be. -/
  arity : Nat := 0
  accepts : String → Bool := fun _ => true
  /-- Whether this is the part before the command. -/
  leading : Bool := false

structure Gathered where
  flags : List (Flag × String) := []
  values : List String := []

inductive Reading where
  | value
  | escape
  | flag (f : Flag) (attached : Option String)
  | stop (s : Stop)

namespace Gathered

def get? (got : Gathered) (f : Flag) : Option String := got.flags.lookup f

/-- Adds a flag. It may be given once, and its value has to fit. -/
def put (got : Gathered) (f : Flag) (text : String) : Except Stop Gathered :=
  if (got.get? f).isSome || !f.accepts text then .error .usage
  else .ok { got with flags := (f, text) :: got.flags }

end Gathered

namespace Grammar

def allFlags (g : Grammar) : List Flag := Flag.everywhere ++ g.flags

def readLong (g : Grammar) (cs : List Char) : Reading :=
  let name := String.ofList (cs.takeWhile (· ≠ '='))
  let attached := match cs.dropWhile (· ≠ '=') with
    | [] => none
    | _ :: value => some (String.ofList value)
  if name = "help" ∧ attached = none then .stop .help
  else if name = "version" ∧ attached = none ∧ g.leading then .stop .version
  else match g.allFlags.find? fun f => f.name = name with
    | none => .stop .usage
    | some f => .flag f attached

def readShort (g : Grammar) : List Char → Reading
  | [] => .value
  | 'h' :: _ => .stop .help
  | c :: rest =>
    if c = 'V' ∧ g.leading then .stop .version
    else match g.allFlags.find? fun f => f.letter? = some c with
      | none => .stop .usage
      | some f => match rest with
        | [] => .flag f none
        | '=' :: value => .flag f (some (String.ofList value))
        | value => .flag f (some (String.ofList value))

def read (g : Grammar) (arg : String) : Reading :=
  match arg.toList with
  | ['-', '-'] => .escape
  | '-' :: '-' :: cs => g.readLong cs
  | '-' :: cs => g.readShort cs
  | _ => .value

def putValue (g : Grammar) (got : Gathered) (text : String) : Except Stop Gathered :=
  if got.values.length < g.arity ∧ g.accepts text then
    .ok { got with values := got.values ++ [text] }
  else .error .usage

/-- Whether an argument cannot be the value of the flag before it. -/
def isDashed (text : String) : Bool := text.startsWith "-" && text != "-"

/-- Reads arguments up to the first value that is not expected, and returns the rest from there. -/
def gather (g : Grammar) (got : Gathered) : List String → Except Stop (Gathered × List String)
  | [] => .ok (got, [])
  | arg :: rest =>
    match g.read arg with
    | .stop s => .error s
    | .escape =>
      if g.leading then .error .usage
      else do return (← rest.foldlM g.putValue got, [])
    | .value =>
      if got.values.length < g.arity then do g.gather (← g.putValue got arg) rest
      else .ok (got, arg :: rest)
    | .flag f (some text) => do g.gather (← got.put f text) rest
    | .flag f none =>
      match rest with
      | [] => .error .usage
      | text :: rest =>
        if isDashed text then .error .usage else do g.gather (← got.put f text) rest

end Grammar

/-- The names of the commands, with what may follow each. -/
def grammars : List (String × Grammar) := [
  ("init", {}),
  ("info", {}),
  ("import", { arity := 1, accepts := fun text => !text.isEmpty }),
  ("add-checkpoint", { flags := [.height, .hash] }),
  ("delete-checkpoint", {}),
  ("best-chain", { flags := [.limit] }),
  ("siblings", {}),
  ("reorg", { arity := 1 })]

/-- How many blocks of the best chain are shown when nothing else is said. -/
def defaultLimit : UInt64 := 20

/-- The command with this name, when it has all that it needs. -/
def command? (name : String) (got : Gathered) : Option Command :=
  match name, got.values with
  | "init", [] => some .init
  | "info", [] => some .info
  | "import", [path] => some (.importFile path)
  | "add-checkpoint", [] => do
    return .addCheckpoint (← (got.get? .height).bind Numeral.signed?) (← got.get? .hash)
  | "delete-checkpoint", [] => some .deleteCheckpoint
  | "best-chain", [] =>
    some (.bestChain (((got.get? .limit).bind Numeral.unsigned?).getD defaultLimit))
  | "siblings", [] => some .siblings
  | "reorg", [hash] => some (.reorg hash)
  | _, _ => none

/-- Reads what follows the name of a command, where `before` was in front of it. What is said after
it counts. -/
def parseCommand (before : Gathered) (name : String) (args : List String) :
    Except Stop Invocation := do
  let some g := grammars.lookup name | throw .usage
  let (got, rest) ← g.gather {} args
  unless rest.isEmpty do throw .usage
  let some command := command? name got | throw .usage
  let get? (f : Flag) : Option String := (got.get? f).or (before.get? f)
  return {
    config := get? .config
    dataDirectory := get? .dataDirectory
    network := (get? .network).bind fun text => (Network.parse text).toOption
    command }

def parse (args : List String) : Except Stop Invocation := do
  let leading : Grammar := { leading := true }
  match ← leading.gather {} args with
  | (_, []) => throw .usage
  | (_, ["help"]) => throw .help
  | (_, ["help", name]) =>
    throw (if name = "help" ∨ (grammars.lookup name).isSome then .help else .usage)
  | (before, name :: rest) => parseCommand before name rest

end CommandLine

end HeaderChain
