import RmlAlgebra.Graph
import RmlAlgebra.Text.Blank

/-! # Blocks

The text of a normalized mapping holds one block for each sub-graph, with a delimiter after it. Read
back, blocks have no blank characters at their ends, and empty ones are dropped.
-/

namespace RmlAlgebra.Block

def delimiter : List Char :=
  ['=', '=', '=', '=']

def ofGraphs (graphs : List Graph) : String :=
  String.join (graphs.map fun g => g.toText ++ String.ofList delimiter)

def split (text : String) : List String :=
  (((Text.pieces delimiter text.toList).map Text.trim).filter (!·.isEmpty)).map String.ofList

/-- Blocks in the order of their code points. -/
def sort (blocks : List String) : List String :=
  blocks.mergeSort fun a b => a ≤ b

end RmlAlgebra.Block
