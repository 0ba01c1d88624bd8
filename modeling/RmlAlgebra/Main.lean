import RmlAlgebra.CommandLine
import RmlAlgebra.CommandLine.Help

/-! # The program

The command line on the files and the output of the system.
-/

namespace RmlAlgebra.CommandLine

/-- The number of a condition, which may come with its sign turned. -/
def conditionNumber (code : UInt32) : Nat :=
  if code < 0x80000000 then code.toNat else (0 - code).toNat

def systemError : IO.Error → FileError
  | .noFileOrDirectory _ _ _ => .missing
  | .inappropriateType _ code details =>
      match conditionNumber code with
      | 20 => .notDirectory
      | 21 => .isDirectory
      | number => .system details number
  | .permissionDenied _ code _ => .system "Permission denied" (conditionNumber code)
  | error => .system (toString error) 0

def systemHost : Host IO where
  readText path := do
    try
      match String.fromUTF8? (← IO.FS.readBinFile path) with
      | some text => return .ok text
      | none => return .error .notText
    catch error => return .error (systemError error)
  writeText path text := do
    try
      IO.FS.writeFile path text
      return .ok ()
    catch error => return .error (systemError error)
  print text := do
    let output ← IO.getStdout
    output.putStr text
    output.flush

def systemWording : Wording where
  iriFault _ := "The text is not an absolute IRI"
  syntaxFault _ _ := "The document is not valid Turtle"
  help := helpText

end RmlAlgebra.CommandLine

open RmlAlgebra.CommandLine in
def main (arguments : List String) : IO UInt32 := do
  let exit ← run systemWording systemHost arguments
  if exit = .misuse then
    IO.eprintln "usage: konverter --mapping <MAPPING> [OPTIONS]"
  return exit.code
