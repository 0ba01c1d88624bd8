import RmlAlgebra.Graph
import RmlAlgebra.Label
import RmlAlgebra.Turtle.Document
import RmlAlgebra.Wording

/-! # Mapping documents as mapping graphs

Every term of a document becomes plain text. Blank nodes are labelled `b1`, `b2` and so on in the
order of their first appearance, in each statement the subject before the object. A text that the
line format cannot carry is refused.
-/

namespace RmlAlgebra

namespace Document

/-- Whether a text can be a term of a line. -/
def isRepresentable (text : String) : Bool :=
  !text.toList.contains '\n' && !text.toList.contains '\r' &&
    !Text.contains Triple.separator text.toList

inductive Error where
  /-- The document is not Turtle. -/
  | syntaxError
  | unrepresentable (term : String)
  deriving DecidableEq, Repr

def Error.message (wording : Wording) (base document : String) : Error → String
  | syntaxError => wording.syntaxFault base document
  | unrepresentable term =>
      s!"The term '{term}' contains a line break or '|||' and cannot be represented"

abbrev Seen := List BlankNode

/-- The label of a blank node, which is new or has been seen before. -/
def labelOf (seen : Seen) (node : BlankNode) : String × Seen :=
  if node ∈ seen then (Label.ofNat (seen.idxOf node + 1), seen)
  else (Label.ofNat (seen.length + 1), seen ++ [node])

def textOf (text : String) : Except Error String :=
  if isRepresentable text then .ok text else .error (.unrepresentable text)

def nodeText (seen : Seen) : Node → Except Error (String × Seen)
  | .iri text => (textOf text).map (·, seen)
  | .blank node => .ok (labelOf seen node)

def termText (seen : Seen) : Term → Except Error (String × Seen)
  | .node node => nodeText seen node
  | .literal lexical => (textOf lexical).map (·, seen)

def relabelOne (seen : Seen) (s : Statement) : Except Error (Triple × Seen) := do
  let (subject, seen) ← nodeText seen s.subject
  let predicate ← textOf s.predicate
  let (object, seen) ← termText seen s.object
  return (⟨subject, predicate, object⟩, seen)

def relabelFrom (seen : Seen) : List Statement → Except Error Graph
  | [] => .ok []
  | s :: others => do
      let (t, seen) ← relabelOne seen s
      let g ← relabelFrom seen others
      return t :: g

/-- The graph of a list of statements, or its first term that cannot be represented. -/
def relabel (statements : List Statement) : Except Error Graph :=
  relabelFrom [] statements

end Document

def isBase (base : String) : Bool :=
  Iri.isIri base.toList

/-- The mapping graph of a document. A term that cannot be represented is found before a fault in
the text behind it. -/
def Graph.ofDocument (base document : String) : Except Document.Error Graph := do
  let reading := Turtle.read base document
  let g ← Document.relabel reading.statements
  if reading.sound then return g else throw .syntaxError

end RmlAlgebra
