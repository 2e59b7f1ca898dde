import HeaderChain.Command.CommandLine
import HeaderChain.Configuration
import HeaderChain.Tracker

/-!
# Commands

What each command does to the tracker and what it prints. A command that fails prints one line
about that, and keeps what it has done and printed before.
-/

namespace HeaderChain

/-- A tracker, and the lines that are printed while working on it. -/
structure Console where
  tracker : Tracker
  out : List String := []
  err : List String := []

namespace Console

/-- Work on a console, which may fail with a message. -/
abbrev Work := ExceptT String (StateM Console)

def say (line : String) : Work Unit := modify fun c => { c with out := c.out ++ [line] }

def warn (line : String) : Work Unit := modify fun c => { c with err := c.err ++ [line] }

def orFail {ε α : Type} (message : ε → String) : Except ε α → Work α
  | .error e => throw (message e)
  | .ok a => return a

def ledger : Work Ledger := return (← get).tracker.ledger

def tip : Work Position := do orFail ChainError.message (← ledger).tip

def update (f : Tracker → Except ChainError Tracker) : Work Unit := do
  let tracker ← orFail ChainError.message (f (← get).tracker)
  modify fun c => { c with tracker }

def row (p : Position) : String := Numeral.padded 8 p.height ++ " " ++ p.hash.display

/-- A hash, and the height of its block. -/
def located (p : Position) : String := p.hash.display ++ " @ " ++ toString p.height

def parseHash (text : String) : Work Hash := orFail Hash.ParseError.message (Hash.ofDisplay text)

/-! ## Importing -/

def batchSize : Nat := 2000

/-- Members in groups of `size`. -/
def batches {α : Type} (size : Nat) (xs : List α) : List (List α) :=
  if _h : size = 0 ∨ xs = [] then []
  else xs.take size :: batches size (xs.drop size)
termination_by xs.length
decreasing_by
  have : xs.length ≠ 0 := by simpa using fun hx => _h (.inr hx)
  simp only [List.length_drop]
  omega

def headerOfLine (line : String) : Except String (Option Header) :=
  let text := Text.trim line
  if text.isEmpty || text.startsWith "#" then .ok none
  else match Hex.decode text with
    | .error fault => .error fault.message
    | .ok bytes => ((Header.decode bytes).map some).mapError HeaderError.message

/-- The headers on lines, of which the first has this number. -/
def headersOfLines (number : Nat) : List String → Except String (List Header)
  | [] => .ok []
  | line :: rest =>
    match headerOfLine line with
    | .error message => .error ("line " ++ toString number ++ ": " ++ message)
    | .ok h? => do return h?.toList ++ (← headersOfLines (number + 1) rest)

/-- Adds the headers of a file, one in hexadecimal on each line. -/
def importText (path : String) (content : Except FileFault String) : Work Unit := do
  let text ← orFail (fun cause => path ++ ": " ++ cause.message) content
  let hs ← orFail id (headersOfLines 1 (Text.lines text))
  say ("📥 Importing " ++ toString hs.length ++ " headers from " ++ path)
  let start ← tip
  (batches batchSize hs).forM fun batch => update (·.addHeaders batch)
  let best ← tip
  say ("  ✅ Height " ++ toString start.height ++ " -> " ++ toString best.height ++
    " (" ++ best.hash.display ++ ")")

/-! ## The other commands -/

def init (directory : String) : Work Unit := do
  let network := (← ledger).network
  let best ← tip
  say "🔨 HeaderForge initialized!"
  say ("  Chain:   " ++ network.name)
  say ("  Data:    " ++ directory)
  say ("  Genesis: " ++ network.genesisHash.display)
  say ("  Height:  " ++ toString best.height)

def info : Work Unit := do
  let l ← ledger
  let best ← tip
  say ("📊 HeaderForge (" ++ l.network.name ++ ")")
  say ("  Height:     " ++ toString best.height)
  say ("  Tip:        " ++ best.hash.display)
  match l.store.load best.hash with
  | .error _ => pure ()
  | .ok h => say ("  Work:       " ++ toString h.work)
  let checkpoint := l.store.checkpoint
  say ("  Checkpoint: " ++ if checkpoint.isBlank then "none" else located checkpoint)
  say ("  Siblings:   " ++ toString l.store.siblings.length)

def addCheckpoint (height : Height) (hash : String) : Work Unit := do
  let hash ← parseHash hash
  update (·.addCheckpoint height hash)
  say ("📌 Checkpoint set at height " ++ toString height)
  say ("  Best: " ++ located (← tip))

def deleteCheckpoint : Work Unit := do
  update Tracker.deleteCheckpoint
  say "Checkpoint removed"
  say ("  Best: " ++ located (← tip))

/-- Where the best chain is shown from. A limit counts as a signed number of 64 bits, and all that
is computed here is meant to have 64 bits as well. -/
def firstShown (best : Height) (limit : UInt64) : Height :=
  max (best - (limit.toNat : Int).bmod 0x10000000000000000 + 1) 0

def bestChain (limit : UInt64) : Work Unit := do
  let s := (← ledger).store
  let best ← tip
  let first := firstShown best.height limit
  (List.range (best.height - first + 1).toNat).forM fun (i : Nat) =>
    match s.bestPosition (first + i) with
    | none => pure ()
    | some p => say (row p)

def siblings : Work Unit := do
  let s := (← ledger).store
  if s.siblings.isEmpty then say "No sibling tips."
  s.siblings.forM fun hash =>
    match s.load hash with
    | .error e => warn ("⚠️  " ++ hash.display ++ ": " ++ e.message)
    | .ok h => say (row ⟨h.height, hash⟩ ++ if h.isBanned then " (banned)" else "")

def reorg (text : String) : Work Unit := do
  let hash ← parseHash text
  let l ← ledger
  let h ← orFail StoreError.message (l.store.load hash)
  let path ← orFail ChainError.message (l.store.reorgPath h.position)
  if path.isEmpty then say (hash.display ++ " is already on the best chain")
  else
    let (ancestor, best) ← orFail ChainError.message (l.commonParent h.position)
    say ("🔄 Reorg from " ++ toString best.height ++ " to " ++ toString h.height)
    say ("  Fork: " ++ located ancestor)
    path.reverse.forM fun p => say (row p)

/-- Carries out a command. `directory` is where the data is, and `content` what the file holds that
is imported. -/
def perform (directory : String) (content : Except FileFault String) : Command → Work Unit
  | .init => init directory
  | .info => info
  | .importFile path => importText path content
  | .addCheckpoint height hash => addCheckpoint height hash
  | .deleteCheckpoint => deleteCheckpoint
  | .bestChain limit => bestChain limit
  | .siblings => siblings
  | .reorg hash => reorg hash

end Console

end HeaderChain
