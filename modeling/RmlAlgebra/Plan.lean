import RmlAlgebra.Plan.Rule

/-! # Planning a sub-graph

A sub-graph with two subject maps joins a child and a parent triples map; every other one reads a
single source. There is one expression for each graph that the rule names.
-/

namespace RmlAlgebra.Graph

/-- One expression for each of the given graphs, or a single one without graph. -/
def perGraph (graphs : List (Option TermMap)) (expression : Option TermMap → Expression) :
    List Expression :=
  match graphs with
  | [] => [expression none]
  | graphs => (graphs.map expression).eraseDups

def sources (g : Graph) : List String :=
  g.objects none (some Rml.source)

/-- Plan a sub-graph over its first source. -/
def planSource (g : Graph) : Except PlanError (List Expression) := do
  let some source := g.sources.head? | throw .noSource
  let root ← g.root
  let pom ← g.required root R2rml.predicateObjectMap
  let subjectNode ← g.required root R2rml.subjectMap
  let subject ← g.subjectMap subjectNode
  let predicate ← g.predicateMap pom
  let object ← g.objectMap pom
  let graphs := g.graphMaps subjectNode pom
  let rows := Projection.reading ([subject, predicate, object.term] ++ graphs.reduceOption) [] source
  return perGraph graphs fun graph => ⟨subject, predicate, object, graph, .source rows⟩

/-- The source of the child in a join: the first one other than the parent's, unless the first two
sources are the same. -/
def childSource? (sources : List String) (parentSource : String) : Option String :=
  match sources with
  | first :: second :: _ =>
      if first = second then some first else sources.find? (· != parentSource)
  | sources => sources.head?

/-- Plan a sub-graph as a join. On a pair of columns every attribute is read under the name of its
source. -/
def planJoin (g : Graph) : Except PlanError (List Expression) := do
  let root ← g.root
  let pom ← g.required root R2rml.predicateObjectMap
  let subjectNode ← g.required root R2rml.subjectMap
  let subject ← g.subjectMap subjectNode
  let predicate ← g.predicateMap pom
  let referencing ← g.referencing pom
  let graphs := g.graphMaps subjectNode pom
  let some source := childSource? g.sources referencing.source | throw .noSource
  let object := referencing.object
  let childColumn := referencing.columns.toList.map JoinColumns.child
  let parentColumn := referencing.columns.toList.map JoinColumns.parent
  let child := Projection.reading ([subject, predicate] ++ graphs.reduceOption) childColumn source
  let parent := Projection.reading [object.term] parentColumn referencing.source
  let relation := Relation.join child parent referencing.columns
  match referencing.columns with
  | none => return perGraph graphs fun graph => ⟨subject, predicate, object, graph, relation⟩
  | some _ =>
      let inParent := { object with term := object.term.qualify referencing.source }
      return perGraph (graphs.map (Option.map (TermMap.qualify source))) fun graph =>
        ⟨subject.qualify source, predicate.qualify source, inParent, graph, relation⟩

def plan (g : Graph) : Except PlanError (List Expression) :=
  if g.countPredicate R2rml.subjectMap = 2 then g.planJoin else g.planSource

end RmlAlgebra.Graph
