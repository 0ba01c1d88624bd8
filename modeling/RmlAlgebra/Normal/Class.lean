import RmlAlgebra.Graph
import RmlAlgebra.Label
import RmlAlgebra.Vocabulary

/-! # Classes as predicate-object maps

A class of a subject map is short for a predicate-object map that states the type. The owner of the
subject map is the subject of the first triple that leads to it.
-/

namespace RmlAlgebra.Graph

/-- The predicate-object maps for the given class triples, with a new label each. A class whose
subject nothing leads to is lost. -/
def classMaps (g : Graph) : List Triple → Supply → List Triple × Supply
  | [], supply => ([], supply)
  | t :: others, supply =>
      match g.find? (·.object == t.subject) with
      | none => classMaps g others supply
      | some owner =>
          let (pom, supply) := supply.next
          let (added, supply) := classMaps g others supply
          (⟨owner.subject, R2rml.predicateObjectMap, pom⟩ :: ⟨pom, R2rml.predicate, Rdf.type⟩ ::
            ⟨pom, R2rml.object, t.object⟩ :: added, supply)

def expandClasses (g : Graph) (supply : Supply) : Graph × Supply :=
  let classes := g.filter (·.predicate == R2rml.class_)
  let (added, supply) := g.classMaps classes supply
  (g.removeEach classes ++ added, supply)

end RmlAlgebra.Graph
