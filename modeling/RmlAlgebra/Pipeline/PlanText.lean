import RmlAlgebra.Text.Blank
import RmlAlgebra.Text.Line

/-! # Plans as text

A logical plan is a list of expressions, each on a line of its own. Lines that are blank do not
count.
-/

namespace RmlAlgebra.PlanText

/-- The expressions in the answer of a plan generator. -/
def collect (text : String) : List String :=
  ((Text.lines text.toList).filter fun line => !(Text.trim line).isEmpty).map String.ofList

def serialize (expressions : List String) : String :=
  String.ofList (Text.unlines (expressions.map String.toList))

def expressions (plan : String) : List String :=
  (Text.lines plan.toList).map String.ofList

end RmlAlgebra.PlanText
