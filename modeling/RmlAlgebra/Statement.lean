/-! # RDF statements

What a document says before its terms are turned into plain text. A literal is only its lexical
value here: language and datatype have no effect on a mapping.
-/

namespace RmlAlgebra

/-- A blank node: one that the document names, or one that it only describes. -/
inductive BlankNode where
  | named (label : String)
  | anonymous (index : Nat)
  deriving DecidableEq, Repr

inductive Node where
  | iri (text : String)
  | blank (node : BlankNode)
  deriving DecidableEq, Repr

inductive Term where
  | node (node : Node)
  | literal (lexical : String)
  deriving DecidableEq, Repr

structure Statement where
  subject : Node
  predicate : String
  object : Term
  deriving DecidableEq, Repr

end RmlAlgebra
