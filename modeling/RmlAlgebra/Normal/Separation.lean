import RmlAlgebra.Graph
import RmlAlgebra.Vocabulary

/-! # One predicate-object map for each triples map

A triples map with several predicate-object maps hands them over to new triples maps, one for each,
which are named after it and numbered from one.
-/

namespace RmlAlgebra.Graph

def triplesMaps (g : Graph) : List String :=
  g.subjectsWith Rdf.type R2rml.triplesMap

def separatedName (triplesMap : String) (number : Nat) : String :=
  triplesMap ++ "_" ++ Nat.repr number

def property (subject predicate : String) (object : Option String) : List Triple :=
  object.toList.map (⟨subject, predicate, ·⟩)

/-- The triples of a new triples map. It has the given subject map and source, or, if the
predicate-object map itself names a parent, those of the parent together with the join conditions. -/
def separatedTriples (g : Graph) (subjectMap source : Option String) (name pom : String) :
    List Triple :=
  ⟨name, Rdf.type, R2rml.triplesMap⟩ ::
    (match g.firstObject? pom R2rml.parentTriplesMap with
      | some parent =>
          ⟨name, R2rml.parentTriplesMap, parent⟩ ::
            (property name Rml.logicalSource (g.firstObject? parent Rml.logicalSource) ++
              property name R2rml.subjectMap (g.firstObject? parent R2rml.subjectMap) ++
              (g.objectsOf pom R2rml.joinCondition).map (⟨name, R2rml.joinCondition, ·⟩))
      | none => property name R2rml.subjectMap subjectMap ++ property name Rml.logicalSource source) ++
    [⟨name, R2rml.predicateObjectMap, pom⟩]

/-- Add new triples maps for the listed predicate-object maps, numbered from `number` on. -/
def addSeparated (triplesMap : String) (subjectMap source : Option String) :
    Nat → List String → Graph → Graph
  | _, [], g => g
  | number, pom :: others, g =>
      addSeparated triplesMap subjectMap source (number + 1) others
        (g ++ g.separatedTriples subjectMap source (separatedName triplesMap number) pom)

/-- Separate one triples map, if it has more than one predicate-object map. -/
def separate (g : Graph) (triplesMap : String) : Graph :=
  let poms := g.objectsOf triplesMap R2rml.predicateObjectMap
  if poms.length ≤ 1 then g
  else
    let subjectMap := g.firstObject? triplesMap R2rml.subjectMap
    let source := g.firstObject? triplesMap Rml.logicalSource
    Graph.removeEach (addSeparated triplesMap subjectMap source 1 poms g)
      (poms.map (⟨triplesMap, R2rml.predicateObjectMap, ·⟩))

def separatePredicateObjectMaps (g : Graph) : Graph :=
  g.triplesMaps.foldl separate g

end RmlAlgebra.Graph
