import HeaderChain.Command.Host

/-!
# A disk in memory

A host that is a value: files and directories by place, and in a directory the store that is kept
there. A path is followed through directories that are there.
-/

namespace HeaderChain

inductive Node where
  | file (text : String)
  | directory (store : Option Store)

structure Disk where
  nodes : Std.TreeMap Path.Place Node := ∅

namespace Disk

open HeaderChain.Path (Place)

def node? (d : Disk) (place : Place) : Option Node :=
  d.nodes[place]?.or (if Path.isGiven place then some (.directory none) else none)

def put (d : Disk) (place : Place) (node : Node) : Disk :=
  { d with nodes := d.nodes.insert place node }

/-- Where a name leads to from a place, which has to be a directory. -/
def step (d : Disk) (place : Place) (name : String) : Except FileFault Place :=
  match d.node? place with
  | none => .error .missing
  | some (.file _) => .error .notDirectory
  | some (.directory _) =>
    if name.utf8ByteSize > Path.nameLimit then .error .nameTooLong
    else .ok (Path.enter place name)

/-- The place that a path leads to. -/
def locate (d : Disk) (path : String) : Except FileFault Place := do
  Path.check path
  (Path.names path).foldlM d.step (Path.start path)

def readFile (d : Disk) (path : String) : Except FileFault String := do
  match d.node? (← d.locate path) with
  | none => throw .missing
  | some (.directory _) => throw .isDirectory
  | some (.file text) => return text

/-- Makes the directories on the way from a place. When that fails, those made before stay. -/
def makeDirectories (d : Disk) (place : Place) : List String → Except FileFault Unit × Disk
  | [] => (.ok (), d)
  | name :: rest =>
    match d.step place name with
    | .error cause => (.error cause, d)
    | .ok next =>
      match d.node? next with
      | none => (d.put next (.directory none)).makeDirectories next rest
      | some (.directory _) => d.makeDirectories next rest
      | some (.file _) => (.error (if rest.isEmpty then .exists else .notDirectory), d)

def makeDirectory (d : Disk) (path : String) : Except FileFault Unit × Disk :=
  match Path.check path with
  | .error cause => (.error cause, d)
  | .ok () => d.makeDirectories (Path.start path) (Path.names path)

/-- Puts a file at a path, in directories that are made for it. -/
def putFile (d : Disk) (path text : String) : Disk :=
  let (_, d) := d.makeDirectories (Path.start path) (Path.names path).dropLast
  d.put ((Path.names path).foldl Path.enter (Path.start path)) (.file text)

/-- The store that is kept in a directory, empty if there is none. -/
def loadStore (d : Disk) (path : String) : Except FileFault Store := do
  match d.node? (← d.locate path) with
  | none => throw .missing
  | some (.file _) => throw .notDirectory
  | some (.directory store) => return store.getD {}

def saveStore (d : Disk) (path : String) (s : Store) : Disk :=
  match d.locate path with
  | .error _ => d
  | .ok place => d.put place (.directory (some s))

def host : Host (StateM Disk) where
  readFile path := return (← get).readFile path
  makeDirectory path := modifyGet (·.makeDirectory path)
  loadStore path := return (← get).loadStore path
  saveStore path s := modify (·.saveStore path s)

end Disk

end HeaderChain
