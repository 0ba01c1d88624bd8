import RmlAlgebra.Label
import RmlAlgebra.Normal.Separation

/-! # Sub-graphs

The sub-graph of a node is found depth first. From the objects of a node the last one is visited
next, and only the first predicate-object map that is met counts.
-/

namespace RmlAlgebra.Graph

/-- The properties whose objects are values and never nodes. -/
def valuePredicates : List String :=
  [R2rml.constant, R2rml.template, Rml.reference, Rml.source, R2rml.child, R2rml.parent,
    R2rml.termType]

def isPredicateObjectMap (t : Triple) : Bool :=
  t.predicate == R2rml.predicateObjectMap

def isLink (t : Triple) : Bool :=
  isNode t.object && !valuePredicates.contains t.predicate

/-- The given triples, without those that lead to a predicate-object map after the first. -/
def keepFirst (found : Bool) : List Triple → List Triple
  | [] => []
  | t :: others =>
      if isPredicateObjectMap t then
        if found then keepFirst true others else t :: keepFirst true others
      else t :: keepFirst found others

/-- How far a traversal has come: the nodes in the order of their visits, whether it has met a
predicate-object map, and the triples it has kept. -/
structure Walk where
  visited : List String
  found : Bool
  triples : Graph
  deriving DecidableEq, Repr

/-- Visit one node. The result holds the nodes to go to from there, in the order of the graph. -/
def visit (g : Graph) (w : Walk) (node : String) : Walk × List String :=
  let visited := w.visited ++ [node]
  let kept := keepFirst w.found (g.filter (·.subject == node))
  let links := kept.filter fun t => isLink t && !visited.contains t.object
  (⟨visited, w.found || kept.any isPredicateObjectMap, w.triples ++ kept⟩, links.map Triple.object)

/-- Visit the nodes on a stack, taking at most `fuel` of them from it. -/
def walkFrom (g : Graph) : Nat → List String → Walk → Walk
  | 0, _, w => w
  | _ + 1, [], w => w
  | fuel + 1, node :: stack, w =>
      if w.visited.contains node then walkFrom g fuel stack w
      else
        let (w, links) := g.visit w node
        walkFrom g fuel (links.reverse ++ stack) w

/-- The traversal from a node. Apart from the first node, each one on the stack was put there for a
triple of its own, so the number of triples bounds their number. -/
def walk (g : Graph) (root : String) : Walk :=
  g.walkFrom (g.length + 1) [root] ⟨[], false, []⟩

def reachable (g : Graph) (root : String) : Graph :=
  (g.walk root).triples

/-- Whether a graph has what every rule needs: a subject map, a predicate map and an object map. -/
def isComplete (g : Graph) : Bool :=
  0 < g.countPredicate R2rml.subjectMap && 0 < g.countPredicate R2rml.predicateMap &&
    0 < g.countPredicate R2rml.objectMap

def subGraphs (g : Graph) : List Graph :=
  (g.triplesMaps.map g.reachable).filter isComplete

end RmlAlgebra.Graph
