import RmlAlgebra.Files.Error

/-! # File systems

What a program can ask of a file system, and what it may rely on. Files are whatever paths lead to,
wherever these start and whatever links they take; some paths lead to the standard output instead.
-/

namespace RmlAlgebra

structure FileSystem where
  State : Type
  File : Type
  content? : State → File → Option ByteArray
  /-- The file that a path leads to, which need not exist yet. -/
  locate? : State → String → Option File
  /-- Whether what is written to a path is printed. -/
  isOutput : State → String → Bool
  readText : State → String → Except FileError String
  /-- Write a text. There is no new state if this fails: a failed attempt changes nothing. -/
  writeText : State → String → String → Except FileError State
  read_of_ok : ∀ {state : State} {path text : String}, readText state path = .ok text →
    ∃ file, locate? state path = some file ∧ (content? state file).bind String.fromUTF8? = some text
  printed_of_ok : ∀ {state next : State} {path text : String}, isOutput state path = true →
    writeText state path text = .ok next → next = state
  written_of_ok : ∀ {state next : State} {path text : String}, isOutput state path = false →
    writeText state path text = .ok next →
    ∃ file, locate? state path = some file ∧ content? next file = some text.toUTF8 ∧
      ∀ other, other ≠ file → content? next other = content? state other

end RmlAlgebra
