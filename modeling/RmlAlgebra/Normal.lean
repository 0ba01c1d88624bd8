import RmlAlgebra.Normal.Class
import RmlAlgebra.Normal.Constant
import RmlAlgebra.Normal.PredicateObject
import RmlAlgebra.Normal.SubGraph

/-! # Normalization

Every term map of a mapping graph is spelled out, and every triples map is left with at most one
predicate-object map. Then each triples map gives one sub-graph.
-/

namespace RmlAlgebra

inductive NormalizeError where
  | multipleSubjectMaps (triplesMap : String)
  | noTriplesMaps
  deriving DecidableEq, Repr

def NormalizeError.message : NormalizeError → String
  | multipleSubjectMaps _ => "Found multiple subject maps!"
  | noTriplesMaps => "No TMs found."

namespace Graph

/-- The first declared triples map with more than one subject map. -/
def ambiguousMap? (g : Graph) : Option String :=
  g.triplesMaps.find? fun triplesMap => 1 < (g.objectsOf triplesMap R2rml.subjectMap).length

def highestLabel (g : Graph) : Nat :=
  ((g.flatMap fun t => [t.subject, t.object]).filterMap Label.number?).foldl max 0

/-- A supply of labels above a seed and above all labels of the graph. -/
def supply (g : Graph) (seed : UInt32) : Supply :=
  ⟨max g.highestLabel seed.toNat⟩

/-- The three expansions and the separation, one after the other. -/
def spellOut (g : Graph) (supply : Supply) : Graph × Supply :=
  let (g, supply) := g.expandClasses supply
  let (g, supply) := Graph.expandConstants g supply
  let (g, supply) := Graph.expandPredicateObjectMaps g supply
  (Graph.separatePredicateObjectMaps g, supply)

/-- The sub-graphs of a mapping graph in the order of their triples maps. -/
def normalize (g : Graph) (seed : UInt32) : Except NormalizeError (List Graph) :=
  match g.ambiguousMap? with
  | some triplesMap => .error (.multipleSubjectMaps triplesMap)
  | none =>
      let spelled := (g.spellOut (g.supply seed)).1
      if spelled.triplesMaps.isEmpty then .error .noTriplesMaps else .ok spelled.subGraphs

end Graph

end RmlAlgebra
