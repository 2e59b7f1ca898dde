import HeaderChain.Command.Console

/-!
# Running a command line

A host reads files, makes directories and keeps stores. A run reads the configuration, opens the
store of the network in its directory, brings the checkpoint up to date and carries out the
command. What is committed is kept, also when something fails after that.
-/

namespace HeaderChain

/-- What a command line needs from the world around it. -/
structure Host (m : Type → Type) where
  readFile : String → m (Except FileFault String)
  makeDirectory : String → m (Except FileFault Unit)
  /-- The store in a directory, empty if none was kept there. -/
  loadStore : String → m (Except FileFault Store)
  saveStore : String → Store → m Unit

structure Report where
  code : UInt8 := 0
  out : List String := []
  err : List String := []
deriving DecidableEq, Repr

namespace Report

def usage : Report := { code := 2, err := ["usage"] }

def help : Report where
  out := [
    "HeaderForge - block header oracle",
    "Usage: headerforge [--config FILE] [--data-dir DIR] [--chain NAME] COMMAND",
    "Commands:",
    "  init",
    "  info",
    "  import FILE",
    "  add-checkpoint --height HEIGHT --hash HASH",
    "  delete-checkpoint",
    "  best-chain [--limit LIMIT]",
    "  siblings",
    "  reorg HASH"]

def version : Report := { out := ["headerforge 0.3.1"] }

/-- The report of a run that failed, where `c` holds what was printed before. -/
def failed (message : String) (out err : List String) : Report :=
  { code := 1, out, err := err ++ ["❌ " ++ message] }

end Report

namespace Host

variable {m : Type → Type} [Monad m]

def configure (host : Host m) (invocation : Invocation) : ExceptT String m Configuration := do
  let c ← match invocation.config with
    | none => pure {}
    | some path =>
      match Configuration.ofFile path (← host.readFile path) with
      | .error e => throw e.message
      | .ok c => pure c
  return { c with
    dataDirectory := invocation.dataDirectory.getD c.dataDirectory
    network := invocation.network.getD c.network }

def openTracker (host : Host m) (c : Configuration) : ExceptT String m Tracker := do
  let path := c.directory
  if let .error cause := ← host.makeDirectory path then throw (path ++ ": " ++ cause.message)
  let store ← match ← host.loadStore path with
    | .error cause => throw (path ++ ": " ++ cause.message)
    | .ok store => pure store
  let ledger ← match Ledger.ofStore store c.network with
    | .error e => throw e.message
    | .ok ledger => pure ledger
  host.saveStore path ledger.store
  let default ← match c.defaultCheckpoint with
    | .error e => throw e.message
    | .ok default => pure default
  match (Tracker.mk ledger default).upgrade with
  | .error e => throw e.message
  | .ok tracker => return tracker

/-- Carries out a command and keeps the store that it leaves. -/
def perform (host : Host m) (directory : String) (tracker : Tracker) (command : Command) :
    m Report := do
  let content ← match command with
    | .importFile path => host.readFile path
    | _ => pure (.error .missing)
  let (result, console) := (Console.perform directory content command).run.run { tracker }
  host.saveStore directory console.tracker.ledger.store
  return match result with
    | .error message => .failed message console.out console.err
    | .ok () => { out := console.out, err := console.err }

def run (host : Host m) (args : List String) : m Report := do
  match CommandLine.parse args with
  | .error .usage => return .usage
  | .error .help => return .help
  | .error .version => return .version
  | .ok invocation =>
    match ← (host.configure invocation).run with
    | .error message => return .failed message [] []
    | .ok c =>
      match ← (host.openTracker c).run with
      | .error message => return .failed message [] []
      | .ok tracker => host.perform c.directory tracker invocation.command

end Host

end HeaderChain
