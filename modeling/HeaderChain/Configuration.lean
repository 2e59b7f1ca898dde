import HeaderChain.ChainError
import HeaderChain.Files.FileFault
import HeaderChain.Files.Path
import HeaderChain.Json.Value

/-!
# Configuration

A configuration names the directory of the data, the network, the words of the log filter and, if
the network's default checkpoint does not do, another one. It is written as a JSON record whose
fields may all be missing.
-/

namespace HeaderChain

/-- A checkpoint as it is written: the hash is a text in display form. -/
structure CheckpointOverride where
  height : Height
  hash : String
deriving DecidableEq

structure Configuration where
  dataDirectory : String := "headerforge_data"
  network : Network := .bitcoin
  checkpoint : Option CheckpointOverride := none
  logFilter : String := "headerforge=info"

inductive ConfigurationError where
  | unreadable (path : String) (cause : FileFault)
  | malformed (path : String)
  | lowCheckpoint (height : Height)
  | badCheckpoint (cause : Hash.ParseError)

def ConfigurationError.message : ConfigurationError → String
  | unreadable path cause => "failed to read " ++ path ++ ": " ++ cause.message
  | malformed path => "failed to parse " ++ path ++ ": not a configuration"
  | lowCheckpoint height => (ChainError.lowCheckpoint height).message
  | badCheckpoint cause => "invalid checkpoint: " ++ cause.message

namespace Configuration

open Json (Value)

/-- Reads a field, or takes the default where it is missing. -/
def field {α : Type} (default : α) (read : Value → Option α) : Option Value → Option α
  | none => some default
  | some v => read v

/-- Reads a network: its name, or an object with the name and nothing in it. -/
def readNetwork : Value → Option Network
  | .string (some name) => Network.ofName? name
  | .object [(some name, .null)] => Network.ofName? name
  | _ => none

def readCheckpoint (v : Value) : Option CheckpointOverride := do
  match ← v.fields? ["height", "hash"] with
  | [some height, some hash] => return { height := ← height.integer?, hash := ← hash.text? }
  | _ => none

def readOptional {α : Type} (read : Value → Option α) : Value → Option (Option α)
  | .null => some none
  | v => (read v).map some

def ofValue? (v : Value) : Option Configuration := do
  let default : Configuration := {}
  match ← v.fields? ["data_dir", "chain", "checkpoint", "log_filter"] with
  | [directory, network, checkpoint, filter] =>
    return {
      dataDirectory := ← field default.dataDirectory Value.text? directory
      network := ← field default.network readNetwork network
      checkpoint := ← field default.checkpoint (readOptional readCheckpoint) checkpoint
      logFilter := ← field default.logFilter Value.text? filter }
  | _ => none

def ofText? (text : String) : Option Configuration := (Value.ofText? text).bind ofValue?

def ofFile (path : String) : Except FileFault String → Except ConfigurationError Configuration
  | .error cause => .error (.unreadable path cause)
  | .ok text =>
    match ofText? text with
    | none => .error (.malformed path)
    | some c => .ok c

def directory (c : Configuration) : String := Path.join c.dataDirectory c.network.name

/-- Whether a configuration says nothing beyond the defaults. -/
def isDefault (c : Configuration) : Bool :=
  let default : Configuration := {}
  Path.components c.dataDirectory == Path.components default.dataDirectory &&
    c.network == default.network && c.checkpoint == default.checkpoint &&
    c.logFilter == default.logFilter

/-- The checkpoint to start with. -/
def defaultCheckpoint (c : Configuration) : Except ConfigurationError Checkpoint :=
  match c.checkpoint with
  | none => .ok c.network.defaultCheckpoint
  | some given =>
    if given.height < Height.leastCheckpoint then .error (.lowCheckpoint given.height)
    else match Hash.ofDisplay given.hash with
      | .error cause => .error (.badCheckpoint cause)
      | .ok hash => .ok ⟨⟨given.height, hash⟩, .zero, .zero⟩

end Configuration

end HeaderChain
