import RmlAlgebra.Files.Error

/-! # Errors of a run

A run ends at the first step that fails. A refusal keeps the words of the engine that refused.
-/

namespace RmlAlgebra

inductive CompileError where
  | invalidBase (base fault : String)
  | unreadable (path : String) (cause : FileError)
  | parseRefused (message : String)
  | parseAbsent
  | normalizeRefused (message : String)
  | normalizeAbsent
  /-- A block was refused; blocks are counted from zero in sorted order. -/
  | generateRefused (index : Nat) (message : String)
  | generateAbsent (index : Nat)
  | handoffFailed (cause : String)
  deriving DecidableEq, Repr

namespace CompileError

def message : CompileError → String
  | invalidBase base _ => s!"Invalid base IRI '{base}'"
  | unreadable path _ => s!"Failed to read mapping document '{path}'"
  | parseRefused message => message
  | parseAbsent => "RDF parser function returned NULL or encountered an error"
  | normalizeRefused message => message
  | normalizeAbsent => "Error: Function returned NULL"
  | generateRefused _ message => message
  | generateAbsent index => s!"Plan generator returned no result for sub-graph {index}"
  | handoffFailed _ => "Failed to hand off the logical plan"

/-- What lies behind an error. -/
def cause? : CompileError → Option String
  | invalidBase _ fault => some fault
  | unreadable _ cause => some cause.message
  | handoffFailed cause => some cause
  | _ => none

end CompileError

/-- An error of input and output: one of the file system itself, or a failed run under some kind. -/
inductive IoError where
  | file (error : FileError)
  | custom (kind : ErrorKind) (error : CompileError)
  deriving DecidableEq, Repr

def IoError.kind : IoError → ErrorKind
  | file error => error.kind
  | custom kind _ => kind

/-- A failed run as an error of input and output. An unreadable document is reported as the error that
was met in reading it, without its path. -/
def CompileError.toIoError : CompileError → IoError
  | unreadable _ cause => .file cause
  | invalidBase base fault => .custom .invalidInput (invalidBase base fault)
  | error => .custom .invalidData error

end RmlAlgebra
