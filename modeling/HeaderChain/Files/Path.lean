import HeaderChain.Files.FileFault

/-!
# Paths

A path is a text whose parts are separated by slashes. Repeated slashes count as one, and a dot
stands for nothing unless the path starts with it. A path is followed name by name, and each name
is looked for in the directory that the names before it lead to.
-/

namespace HeaderChain.Path

inductive Component where
  | root
  | here
  | name (text : String)
deriving DecidableEq

def join (directory name : String) : String :=
  if directory.isEmpty || directory.endsWith "/" then directory ++ name
  else directory ++ "/" ++ name

/-- The parts of a path. Two paths with the same parts are the same. -/
def components (path : String) : List Component :=
  let tail (parts : List String) : List Component :=
    (parts.filter fun p => p != "" && p != ".").map .name
  match path.splitOn "/" with
  | [] | [""] => []
  | "" :: rest => .root :: tail rest
  | "." :: rest => .here :: tail rest
  | first :: rest => .name first :: tail rest

/-! ## The way to a path -/

/-- The most bytes that a path may have. -/
def pathLimit : Nat := 4095

/-- The most bytes that a name may have. -/
def nameLimit : Nat := 255

/-- Whether a path can name anything at all. -/
def check (path : String) : Except FileFault Unit :=
  if path.contains '\x00' then .error .nullCharacter
  else if path.isEmpty then .error .missing
  else if path.utf8ByteSize > pathLimit then .error .nameTooLong
  else .ok ()

/-- The names on the way. A slash at the end counts as one before a dot, so that only a directory
can be in front of it. -/
def names (path : String) : List String :=
  let parts := (path.splitOn "/").filter (· != "")
  if path.endsWith "/" then parts ++ ["."] else parts

/-- A place by the names that lead there from the working directory. Two dots stand in front of
all other names, and a slash at the front is the root. -/
abbrev Place := List String

def start (path : String) : Place := if path.startsWith "/" then ["/"] else []

def outer (place : Place) : Place :=
  match place.getLast? with
  | none | some ".." => place ++ [".."]
  | some "/" => place
  | some _ => place.dropLast

/-- Where a name leads to from a directory. -/
def enter (place : Place) (name : String) : Place :=
  match name with
  | "." => place
  | ".." => outer place
  | name => place ++ [name]

/-- Whether a place is the working directory, the root or a directory around the working directory,
which are always there. -/
def isGiven (place : Place) : Bool := place.all fun name => name == ".." || name == "/"

end HeaderChain.Path
