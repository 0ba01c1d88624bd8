import RmlAlgebra.Document
import RmlAlgebra.Engine.Interface
import RmlAlgebra.Normal
import RmlAlgebra.Pipeline.Block
import RmlAlgebra.Pipeline.Error
import RmlAlgebra.Pipeline.PlanText
import RmlAlgebra.Plan

/-! # The built-in engines

Each one reads its input from text, applies an operation on mapping graphs, and writes the result as
text again.
-/

namespace RmlAlgebra.Engine

/-- A text that an operation on graphs is not applied to, or refuses. -/
inductive TextError (ε : Type) where
  | malformed (cause : MalformedText)
  | refused (cause : ε)
  deriving DecidableEq, Repr

def TextError.message {ε : Type} (messageOf : ε → String) : TextError ε → String
  | malformed cause => cause.message
  | refused cause => messageOf cause

def onGraph {ε α : Type} (operation : Graph → Except ε α) (text : String) :
    Except (TextError ε) α :=
  match Graph.ofText text with
  | .error cause => .error (.malformed cause)
  | .ok g => (operation g).mapError .refused

def parseText (base document : String) : Except Document.Error String :=
  (Graph.ofDocument base document).map Graph.toText

def normalizeText (text : String) (seed : UInt32) : Except (TextError NormalizeError) String :=
  (onGraph (Graph.normalize · seed) text).map Block.ofGraphs

def planText (block : String) : Except (TextError PlanError) String :=
  (onGraph Graph.plan block).map fun expressions =>
    PlanText.serialize (expressions.map Expression.render)

def parse (wording : Wording) (base document : String) : Raw :=
  .ofResult ((parseText base document).mapError (Document.Error.message wording base document))

def normalize (text : String) (seed : UInt32) : Raw :=
  .ofResult ((normalizeText text seed).mapError (TextError.message NormalizeError.message))

def generate (block : String) : Raw :=
  .ofResult ((planText block).mapError (TextError.message PlanError.message))

end RmlAlgebra.Engine

namespace RmlAlgebra

def Engines.builtIn {m : Type → Type} [Pure m] (wording : Wording) (base : String) : Engines m where
  parse document := pure (Engine.parse wording base document)
  normalize parsed seed := pure (Engine.normalize parsed seed)
  generate block := pure (Engine.generate block)

/-- The built-in engines for the options of a run, whose base must be an IRI. -/
def Options.engines {m : Type → Type} [Pure m] (wording : Wording) (options : Options) :
    Except CompileError (Engines m) :=
  if isBase options.baseUri then .ok (.builtIn wording options.baseUri)
  else .error (.invalidBase options.baseUri (wording.iriFault options.baseUri))

end RmlAlgebra
