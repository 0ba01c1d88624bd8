/-! # Answers of an engine

Engines speak plain text. An engine may give no answer at all, and an answer that starts with
`Error:` tells why it refuses its input. Everything else is a result.
-/

namespace RmlAlgebra.Engine

abbrev Raw := Option String

inductive Answer where
  | success (text : String)
  | refusal (message : String)
  | absent
  deriving DecidableEq, Repr

def refusalMark : List Char :=
  ['E', 'r', 'r', 'o', 'r', ':']

/-- What a raw answer means. The text of a refusal is kept as it is. -/
def Answer.ofRaw : Raw → Answer
  | none => .absent
  | some text =>
      if refusalMark.isPrefixOf text.toList then .refusal text else .success text

def refusalText (cause : String) : String :=
  "Error: " ++ cause

/-- The raw answer of an operation that gives a text or the cause of its failure. -/
def Raw.ofResult : Except String String → Raw
  | .ok text => some text
  | .error cause => some (refusalText cause)

end RmlAlgebra.Engine
