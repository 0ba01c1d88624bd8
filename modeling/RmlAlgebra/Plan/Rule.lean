import RmlAlgebra.Graph
import RmlAlgebra.Plan.Expression
import RmlAlgebra.Vocabulary

/-! # The rule of a sub-graph

A sub-graph describes one rule: the root triples map with its predicate-object map, and the term
maps of its subject, predicate, object and graphs.
-/

namespace RmlAlgebra

inductive PlanError where
  | noSubjectMap
  | noRoot
  | noSource
  | missing (subject predicate : String)
  | literalSubject
  | unsupportedLanguage (tag : String)
  deriving DecidableEq, Repr

def PlanError.message : PlanError → String
  | noSubjectMap => "No triple maps found."
  | noRoot => "No root subject node with predicateObjectMap found."
  | noSource => "No logical source found."
  | missing subject predicate => s!"'{subject}' has no <{predicate}>"
  | literalSubject => "Literal not supported!"
  | unsupportedLanguage tag => s!"Language tag '{tag}' is not supported!"

namespace Graph

def required (g : Graph) (subject predicate : String) : Except PlanError String :=
  match g.firstObject? subject predicate with
  | some object => .ok object
  | none => .error (.missing subject predicate)

/-- The root of a sub-graph: the first node with a subject map and exactly one predicate-object
map. -/
def root (g : Graph) : Except PlanError String :=
  match g.subjects R2rml.subjectMap none with
  | [] => .error .noSubjectMap
  | owners =>
      match owners.find? fun o => (g.objectsOf o R2rml.predicateObjectMap).length == 1 with
      | some owner => .ok owner
      | none => .error .noRoot

/-- The term map at a node. A constant counts before a reference and a reference before a template,
each only if it is the only one of its kind. -/
def termMap (g : Graph) (node : String) (type : TermType) : TermMap :=
  match g.singleObject? node R2rml.constant with
  | some value => ⟨value, some .constant, type⟩
  | none =>
      match g.singleObject? node Rml.reference with
      | some value => ⟨value, some .reference, type⟩
      | none =>
          match g.singleObject? node R2rml.template with
          | some value => ⟨value, some .template, type⟩
          | none => ⟨"", none, type⟩

/-- The subject map at a node. Subjects are IRIs unless they are said to be blank nodes. -/
def subjectMap (g : Graph) (node : String) : Except PlanError TermMap :=
  let type := g.singleObject? node R2rml.termType
  if type = some R2rml.literal then .error .literalSubject
  else .ok (g.termMap node (if type = some R2rml.blankNode then .blankNode else .iri))

def predicateMap (g : Graph) (pom : String) : Except PlanError TermMap := do
  let node ← g.required pom R2rml.predicateMap
  return g.termMap node .iri

/-- The type of an object that does not state one. Constants that look like IRIs and templates make
IRIs. -/
def inferredType (t : TermMap) : TermType :=
  match t.kind with
  | some .constant => if "http".toList.isPrefixOf t.value.toList then .iri else .literal
  | some .template => .iri
  | _ => .literal

def inferredTermMap (g : Graph) (node : String) : TermMap :=
  let t := g.termMap node .literal
  { t with type := inferredType t }

/-- The term map of an object with the type that is stated for it or else inferred. -/
def objectTerm (g : Graph) (node : String) : TermMap :=
  match g.singleObject? node R2rml.termType with
  | none => g.inferredTermMap node
  | some type =>
      g.termMap node
        (if type = R2rml.iri then .iri
        else if type = R2rml.blankNode then .blankNode
        else .literal)

/-- The primary language subtags that object maps may use. -/
def languages : List String :=
  ["en", "es", "fr", "de", "zh", "it", "ja", "ko", "no", "pt", "ru", "ar", "cs", "da", "nl", "fi",
    "el", "hi", "hu", "ro"]

/-- Whether the text before the first hyphen is a supported language, in any case. -/
def isSupported (tag : String) : Bool :=
  languages.contains (String.ofList ((tag.toList.takeWhile (· != '-')).map Char.toLower))

def objectLanguage (g : Graph) (node : String) : Except PlanError (Option String) :=
  match g.singleObject? node R2rml.languageMap with
  | none => .ok none
  | some languageMap => do
      let tag ← g.required languageMap R2rml.constant
      if isSupported tag then return some tag else throw (.unsupportedLanguage tag)

def objectDatatype (g : Graph) (node : String) : Except PlanError (Option String) :=
  match g.singleObject? node R2rml.datatypeMap with
  | none => .ok none
  | some datatypeMap => do
      let datatype ← g.required datatypeMap R2rml.constant
      return some datatype

def objectMap (g : Graph) (pom : String) : Except PlanError ObjectMap := do
  let node ← g.required pom R2rml.objectMap
  let language ← g.objectLanguage node
  let datatype ← g.objectDatatype node
  return ⟨g.objectTerm node, language, datatype⟩

/-- An object map that takes its terms from the subjects of another triples map. -/
structure Referencing where
  object : ObjectMap
  columns : Option JoinColumns
  source : String
  deriving DecidableEq, Repr

/-- The columns of the join condition at a node, which counts only if there is just one. -/
def joinColumns (g : Graph) (node : String) : Except PlanError (Option JoinColumns) :=
  match g.singleObject? node R2rml.joinCondition with
  | none => .ok none
  | some condition => do
      let child ← g.required condition R2rml.child
      let parent ← g.required condition R2rml.parent
      return some ⟨child, parent⟩

/-- The referencing object map of a predicate-object map, with the source of its parent. -/
def referencing (g : Graph) (pom : String) : Except PlanError Referencing := do
  let node ← g.required pom R2rml.objectMap
  let columns ← g.joinColumns node
  let parent ← g.required node R2rml.parentTriplesMap
  let logicalSource ← g.required parent Rml.logicalSource
  let source ← g.required logicalSource Rml.source
  let parentSubject ← g.required parent R2rml.subjectMap
  return ⟨⟨g.inferredTermMap parentSubject, none, none⟩, columns, source⟩

/-- The graph map of a node, if it has just one and that has a value. The result says whether it
names the default graph. -/
def graphOf? (g : Graph) (owner : String) : Option (Option TermMap) := do
  let node ← g.singleObject? owner R2rml.graphMap
  let t := g.termMap node .iri
  if t.kind.isNone then none
  else if t.value = R2rml.defaultGraph then some none
  else some (some t)

def graphMaps (g : Graph) (subjectNode pom : String) : List (Option TermMap) :=
  [subjectNode, pom].filterMap g.graphOf?

end Graph

end RmlAlgebra
