import RmlAlgebra.Engine.Interface
import RmlAlgebra.FileSystem
import RmlAlgebra.Pipeline.Error

/-! # Hosts

What the program asks of its surroundings: to read a file, to write one, and to print. A file system
with a record of the printed text is a host without effects.
-/

namespace RmlAlgebra.CommandLine

structure Host (m : Type → Type) where
  readText : String → m (Except FileError String)
  writeText : String → String → m (Except FileError Unit)
  print : String → m Unit

namespace Host

variable {m : Type → Type} [Monad m]

def readDocument (host : Host m) (path : String) : ExceptT CompileError m String := do
  match ← host.readText path with
  | .ok document => return document
  | .error cause => throw (.unreadable path cause)

/-- Write a plan to a file, or print it if there is none to write to. -/
def consumer (host : Host m) (target? : Option String) : Consumer m :=
  fun plan _ =>
    match target? with
    | some path => do return (← host.writeText path plan).mapError FileError.message
    | none => do
        host.print plan
        return .ok ()

end Host

/-- Files, and what has been printed. -/
structure World (system : FileSystem) where
  files : system.State
  printed : String := ""

def World.host (system : FileSystem) : Host (StateM (World system)) where
  readText path := do return system.readText (← get).files path
  writeText path text := do
    let world ← get
    match system.writeText world.files path text with
    | .ok files =>
        let echo := if system.isOutput world.files path then text else ""
        set { world with files := files, printed := world.printed ++ echo }
        return .ok ()
    | .error error => return .error error
  print text := modify fun world => { world with printed := world.printed ++ text }

end RmlAlgebra.CommandLine
