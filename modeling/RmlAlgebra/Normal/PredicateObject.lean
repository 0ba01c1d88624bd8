import RmlAlgebra.Graph
import RmlAlgebra.Label
import RmlAlgebra.Text.Order
import RmlAlgebra.Vocabulary

/-! # Multiplying out predicate-object maps

A predicate-object map with several predicate maps or object maps is replaced by one map for every
pair of them. Each new map has the parents and all other properties of the old one.
-/

namespace RmlAlgebra.Graph

def pairTriples (parents : List String) (shared : List Triple) (predicateMap objectMap : String)
    (pom : String) : List Triple :=
  parents.map (⟨·, R2rml.predicateObjectMap, pom⟩) ++
    ⟨pom, R2rml.predicateMap, predicateMap⟩ :: ⟨pom, R2rml.objectMap, objectMap⟩ ::
      shared.map fun t => { t with subject := pom }

/-- The triples of the new maps for all pairs, with a new label each. -/
def pairMaps (parents : List String) (shared : List Triple) :
    List (String × String) → Supply → List Triple × Supply
  | [], supply => ([], supply)
  | (predicateMap, objectMap) :: others, supply =>
      let (pom, supply) := supply.next
      let (added, supply) := pairMaps parents shared others supply
      (pairTriples parents shared predicateMap objectMap pom ++ added, supply)

def isAbout (pom : String) (t : Triple) : Bool :=
  t.subject == pom || (t.predicate == R2rml.predicateObjectMap && t.object == pom)

/-- Multiply out one predicate-object map, if it has more than one predicate map or object map. -/
def multiplyOut (g : Graph) (parents : List String) (pom : String) (supply : Supply) :
    Graph × Supply :=
  let predicateMaps := g.objectsOf pom R2rml.predicateMap
  let objectMaps := g.objectsOf pom R2rml.objectMap
  if predicateMaps.length ≤ 1 && objectMaps.length ≤ 1 then (g, supply)
  else
    let removed := g.filter (isAbout pom)
    let shared := removed.filter fun t =>
      t.subject == pom && t.predicate != R2rml.predicateMap && t.predicate != R2rml.objectMap
    let pairs := predicateMaps.flatMap fun p => objectMaps.map fun o => (p, o)
    let (added, supply) := pairMaps parents shared pairs supply
    (g.removeEach removed ++ added, supply)

def predicateObjectMaps (g : Graph) : List String :=
  Text.sortedSet ((g.filter (·.predicate == R2rml.predicateObjectMap)).map Triple.object)

/-- Multiply out the listed maps one after the other, with their parents in a given graph. -/
def multiplyOutAll (start : Graph) : List String → Graph → Supply → Graph × Supply
  | [], g, supply => (g, supply)
  | pom :: others, g, supply =>
      let (g, supply) :=
        g.multiplyOut (start.subjectsWith R2rml.predicateObjectMap pom) pom supply
      multiplyOutAll start others g supply

def expandPredicateObjectMaps (g : Graph) (supply : Supply) : Graph × Supply :=
  multiplyOutAll g g.predicateObjectMaps g supply

end RmlAlgebra.Graph
