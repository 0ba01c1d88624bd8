import RmlAlgebra.Turtle.Machine

/-! # Reading a document

A reading is the statements in the order of their delivery, and whether the document is sound to its
end. What one token completes is delivered at once, the last statement first. At a token that does
not fit the reading stops, and nothing of that token is delivered.
-/

namespace RmlAlgebra.Turtle

structure Reading where
  statements : List Statement
  sound : Bool
  deriving DecidableEq, Repr

def readTokens (stack : List Expectation) (scope : Scope) : List Token → Reading
  | [] => ⟨[], stack.isEmpty⟩
  | token :: others =>
      match advance token scope stack with
      | none => ⟨[], false⟩
      | some p =>
          let reading := readTokens p.stack p.scope others
          ⟨p.completed.reverse ++ reading.statements, reading.sound⟩

/-- Read a document whose references are relative to a base. -/
def read (base document : String) : Reading :=
  readTokens [] ⟨base.toList, [], 0⟩ (tokens document.toList)

end RmlAlgebra.Turtle
