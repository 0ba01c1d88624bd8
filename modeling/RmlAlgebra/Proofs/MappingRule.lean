import Mathlib.Data.List.Perm.Basic
import RmlAlgebra.Proofs.Separation

/-! # The rules of a mapping

A rule joins a triples map with a predicate map and an object map of one of its predicate-object
maps. A class of its subject map is one more rule, and a shortcut is as good as a term map. So the
rules of a mapping can be listed before anything is spelled out, and the list can be compared with
the rules of the sub-graphs.
-/

namespace RmlAlgebra

/-- What a property leads to: a node of the graph or, if it is a shortcut, a constant. -/
inductive RuleTerm where
  | node (name : String)
  | constant (value : String)
  deriving DecidableEq, Repr

structure MappingRule where
  triplesMap : String
  subject : Option RuleTerm
  source : Option RuleTerm
  predicate : RuleTerm
  object : RuleTerm
  /-- The other properties of the predicate-object map, such as graph maps. -/
  others : List (String × RuleTerm)
  deriving DecidableEq, Repr

abbrev Properties := List (String × RuleTerm)

/-- What a node has under a predicate. -/
def Properties.under (properties : Properties) (predicate : String) : List RuleTerm :=
  (properties.filter (·.1 == predicate)).map Prod.snd

namespace MappingRule

/-- The rules of a triples map and one of its predicate-object maps, by the properties of both. -/
def product (triplesMap : String) (owner pom : Properties) : List MappingRule :=
  (pom.under R2rml.predicateMap).flatMap fun predicate =>
    (pom.under R2rml.objectMap).map fun object =>
      { triplesMap, predicate, object
        subject := (owner.under R2rml.subjectMap).head?
        source := (owner.under Rml.logicalSource).head?
        others := pom.filter fun x => x.1 != R2rml.predicateMap && x.1 != R2rml.objectMap }

end MappingRule

namespace Graph

/-- The properties that the triples of a node state. Shortcuts count as what they are short for and
come last. -/
def described (ts : List Triple) : Properties :=
  (ts.filter (!isShortcut ·)).map (fun t => (t.predicate, .node t.object)) ++
    (constants ts).map fun t => (t.predicate, .constant t.object)

def properties (g : Graph) (x : String) : Properties :=
  described (g.plain x)

/-- The properties of the predicate-object map that a class is short for. -/
def classProperties (name : String) : Properties :=
  [(R2rml.predicateMap, .constant Rdf.type), (R2rml.objectMap, .constant name)]

/-- The rules at a link from a triples map to a predicate-object map. -/
def linkRules (g : Graph) (t : Triple) : List MappingRule :=
  MappingRule.product t.subject (g.properties t.subject) (g.properties t.object)

/-- The rules for the classes of a triples map's subject map. -/
def classRules (g : Graph) (t : Triple) : List MappingRule :=
  (g.subjectsWith R2rml.subjectMap t.subject).flatMap fun triplesMap =>
    MappingRule.product triplesMap (g.properties triplesMap) (classProperties t.object)

def rules (g : Graph) : List MappingRule :=
  (g.filter isPredicateObjectMap).flatMap g.linkRules ++ (g.filter isClass).flatMap g.classRules

/-- The triples map that a name stands for: itself if a mapping knows it, or else the one that it is
numbered after. -/
def origin (g : Graph) (name : String) : String :=
  if g.Mentions name then name else numberedAfter name

/-- What a mapping whose subjects are triples maps, predicate-object maps, term maps and sources
looks like. -/
structure WellShaped (g : Graph) : Prop where
  nodup : g.Nodup
  subject : ∀ triplesMap ∈ g.triplesMaps, (g.filter fun t => t.subject == triplesMap &&
    (t.predicate == R2rml.subjectMap || t.predicate == R2rml.subject)).length = 1
  owner : ∀ t ∈ g, isPredicateObjectMap t = true → t.subject ∈ g.triplesMaps
  node : ∀ t ∈ g, isPredicateObjectMap t = true → isNode t.object = true
  link : ∀ t ∈ g, isPredicateObjectMap t = true → ∀ u ∈ g, u.object = t.object →
    isPredicateObjectMap u = true
  noParent : ∀ t ∈ g, isPredicateObjectMap t = true →
    g.objectsOf t.object R2rml.parentTriplesMap = []
  term : ∀ t ∈ g, t.predicate ∈ [R2rml.predicateMap, R2rml.predicate, R2rml.objectMap,
    R2rml.object] → ∃ u ∈ g, isPredicateObjectMap u = true ∧ u.object = t.subject
  object : ∀ t ∈ g, t.predicate = R2rml.objectMap → ∀ u ∈ g, u.object = t.object →
    u.predicate = R2rml.objectMap
  joined : ∀ t ∈ g, t.object ∈ g.triplesMaps → t.predicate = R2rml.parentTriplesMap ∧
    ∃ u ∈ g, u.predicate = R2rml.objectMap ∧ u.object = t.subject
  class_ : ∀ t ∈ g, isClass t = true → ∃ triplesMap ∈ g.triplesMaps,
    ⟨triplesMap, R2rml.subjectMap, t.subject⟩ ∈ g ∧
      ∀ u ∈ g, u.object = t.subject → u = ⟨triplesMap, R2rml.subjectMap, t.subject⟩
  separated : ∀ triplesMap ∈ g.triplesMaps, ∀ n, ¬g.Mentions (separatedName triplesMap n)

end Graph

namespace RuleTerm

/-- What a term of a sub-graph stands for in a mapping: a label that the mapping does not know stands
for its constant. -/
def resolve (g k : Graph) : RuleTerm → RuleTerm
  | node name =>
      if isLabel name = true ∧ ¬g.Mentions name then
        constant ((k.firstObject? name R2rml.constant).getD "")
      else node name
  | constant value => constant value

end RuleTerm

def Properties.resolve (g k : Graph) (properties : Properties) : Properties :=
  properties.map fun x => (x.1, x.2.resolve g k)

/-- The rule of a mapping that a rule of one of its sub-graphs stands for. -/
def MappingRule.resolve (g k : Graph) (rule : MappingRule) : MappingRule :=
  { triplesMap := g.origin rule.triplesMap
    subject := rule.subject.map (RuleTerm.resolve g k)
    source := rule.source.map (RuleTerm.resolve g k)
    predicate := rule.predicate.resolve g k
    object := rule.object.resolve g k
    others := Properties.resolve g k rule.others }

end RmlAlgebra
