/-!
# Faults of files

Why a file or a directory cannot be had, in the words of the system.
-/

namespace HeaderChain

inductive FileFault where
  | missing
  | exists
  | notDirectory
  | isDirectory
  | nameTooLong
  | nullCharacter
  | notText
  | other (text : String)
deriving DecidableEq, Repr

def FileFault.message : FileFault → String
  | .missing => "No such file or directory (os error 2)"
  | .exists => "File exists (os error 17)"
  | .notDirectory => "Not a directory (os error 20)"
  | .isDirectory => "Is a directory (os error 21)"
  | .nameTooLong => "File name too long (os error 36)"
  | .nullCharacter => "file name contained an unexpected NUL byte"
  | .notText => "stream did not contain valid UTF-8"
  | .other text => text

def FileFault.textOf (bytes : ByteArray) : Except FileFault String :=
  match String.fromUTF8? bytes with
  | none => .error .notText
  | some text => .ok text

end HeaderChain
