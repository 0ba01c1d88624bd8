import RmlAlgebra.Graph
import RmlAlgebra.Label
import RmlAlgebra.Vocabulary

/-! # Constants as term maps

A property such as `rr:subject` is short for a term map with a constant value.
-/

namespace RmlAlgebra.Graph

/-- The property that leads to the term map which a shortcut stands for. -/
def shortcut? (predicate : String) : Option String :=
  if predicate = R2rml.subject then some R2rml.subjectMap
  else if predicate = R2rml.predicate then some R2rml.predicateMap
  else if predicate = R2rml.object then some R2rml.objectMap
  else if predicate = R2rml.graph then some R2rml.graphMap
  else if predicate = R2rml.datatype then some R2rml.datatypeMap
  else if predicate = R2rml.language then some R2rml.languageMap
  else none

def constantMaps : List Triple → Supply → List Triple × Supply
  | [], supply => ([], supply)
  | t :: others, supply =>
      match shortcut? t.predicate with
      | none => constantMaps others supply
      | some mapPredicate =>
          let (label, supply) := supply.next
          let (added, supply) := constantMaps others supply
          (⟨t.subject, mapPredicate, label⟩ :: ⟨label, R2rml.constant, t.object⟩ :: added, supply)

def expandConstants (g : Graph) (supply : Supply) : Graph × Supply :=
  let (added, supply) := constantMaps g supply
  (g.removeEach (g.filter fun t => (shortcut? t.predicate).isSome) ++ added, supply)

end RmlAlgebra.Graph
