import HeaderChain.Command.Host
import HeaderChain.Store.File

/-!
# The program

The system as a host: files are files, and the store of a directory is the file `records` in it.
-/

namespace HeaderChain.System

def fault : IO.Error → FileFault
  | .noFileOrDirectory _ _ _ => .missing
  | .alreadyExists _ _ _ => .exists
  | e => .other (toString e)

def caught {α : Type} (action : IO α) : IO (Except FileFault α) := do
  match ← action.toBaseIO with
  | .error e => return .error (fault e)
  | .ok a => return .ok a

def storePath (directory : String) : String := Path.join directory "records"

def readFile (path : String) : IO (Except FileFault String) := do
  return (← caught (IO.FS.readBinFile path)) >>= FileFault.textOf

def loadStore (directory : String) : IO (Except FileFault Store) := do
  match ← caught (IO.FS.readBinFile (storePath directory)) with
  | .error .missing => return .ok {}
  | .error cause => return .error cause
  | .ok content => return (Store.decode content.toList).mapError fun e => .other e.message

def saveStore (directory : String) (s : Store) : IO Unit :=
  IO.FS.writeBinFile (storePath directory) ⟨s.encode.toArray⟩

def host : Host IO where
  readFile := readFile
  makeDirectory path := caught (IO.FS.createDirAll path)
  loadStore := loadStore
  saveStore := saveStore

end HeaderChain.System

def main (args : List String) : IO UInt32 := do
  let report ← HeaderChain.System.host.run args
  report.out.forM IO.println
  report.err.forM IO.eprintln
  return report.code.toUInt32
