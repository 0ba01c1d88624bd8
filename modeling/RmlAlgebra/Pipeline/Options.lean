/-! # Options of a run

Only the base and the seed have an effect on the plan. The other options are for whoever evaluates
it.
-/

namespace RmlAlgebra

structure Options where
  /-- The IRI that references in the mapping document are relative to. -/
  baseUri : String := "http://example.com/base/"
  /-- Where the evaluation puts its output. -/
  outputPath : String := "./res.nq"
  continueOnError : Bool := false
  threadingEnabled : Bool := true
  materializeConstants : Bool := true
  heuristicOrdering : Bool := true
  /-- New blank nodes are numbered after this. -/
  blankNodeSeed : UInt32 := 58932
  deriving DecidableEq, Repr

end RmlAlgebra
