/-! # Errors of a file system -/

namespace RmlAlgebra

/-- The classes that errors of input and output are sorted into. -/
inductive ErrorKind where
  | notFound
  | permissionDenied
  | notADirectory
  | isADirectory
  | invalidInput
  | invalidData
  | other
  deriving DecidableEq, Repr

inductive FileError where
  | missing
  | notDirectory
  | isDirectory
  | notText
  /-- Some other condition that the system reports. -/
  | system (description : String) (code : Nat)
  deriving DecidableEq, Repr

namespace FileError

def message : FileError → String
  | missing => "No such file or directory (os error 2)"
  | notDirectory => "Not a directory (os error 20)"
  | isDirectory => "Is a directory (os error 21)"
  | notText => "stream did not contain valid UTF-8"
  | system description code => s!"{description} (os error {code})"

def kind : FileError → ErrorKind
  | missing => .notFound
  | notDirectory => .notADirectory
  | isDirectory => .isADirectory
  | notText => .invalidData
  | system _ code => if code = 1 ∨ code = 13 then .permissionDenied else .other

end FileError

end RmlAlgebra
