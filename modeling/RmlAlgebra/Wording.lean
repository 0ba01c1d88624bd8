/-! # Texts worded elsewhere

The libraries that read IRIs, documents and arguments have texts of their own: what is wrong with an
IRI or a document, and how the program is used. They are printed as they are and decide nothing.
-/

namespace RmlAlgebra

structure Wording where
  iriFault (iri : String) : String
  syntaxFault (base document : String) : String
  /-- A line or two on every option, or all that there is to say. -/
  help (detailed : Bool) : String
  deriving Inhabited

end RmlAlgebra
