import RmlAlgebra.Triple

/-! # Mapping graphs

A mapping graph is its triples in order. Repeated triples are kept, and every query answers in the
order of the graph.
-/

namespace RmlAlgebra

abbrev Graph := List Triple

namespace Graph

def ofText (text : String) : Except MalformedText Graph :=
  Triple.ofLines 1 (Text.lines text.toList)

def toText (g : Graph) : String :=
  String.ofList (Text.unlines (g.map Triple.toChars))

/-- The objects of the triples with the given subject and predicate, where given. -/
def objects (g : Graph) (subject predicate : Option String) : List String :=
  (g.filter fun t =>
    subject.all (· == t.subject) && predicate.all (· == t.predicate)).map Triple.object

def objectsOf (g : Graph) (subject predicate : String) : List String :=
  (g.filter fun t => t.subject == subject && t.predicate == predicate).map Triple.object

def firstObject? (g : Graph) (subject predicate : String) : Option String :=
  (g.objectsOf subject predicate).head?

/-- The object of a subject under a predicate, if there is exactly one. -/
def singleObject? (g : Graph) (subject predicate : String) : Option String :=
  match g.objectsOf subject predicate with
  | [object] => some object
  | _ => none

/-- The subjects of the triples with the given predicate and, where given, the given object. -/
def subjects (g : Graph) (predicate : String) (object : Option String) : List String :=
  (g.filter fun t => t.predicate == predicate && object.all (· == t.object)).map Triple.subject

def subjectsWith (g : Graph) (predicate object : String) : List String :=
  g.subjects predicate (some object)

def countPredicate (g : Graph) (predicate : String) : Nat :=
  g.countP (·.predicate == predicate)

/-- The graph without the first occurrence of each listed triple. A triple that is listed more
often is removed as often. -/
def removeEach (g : Graph) (removed : List Triple) : Graph :=
  removed.foldl List.erase g

def sorted (g : Graph) : Graph :=
  g.mergeSort Triple.le

theorem mem_objectsOf {g : Graph} {subject predicate object : String} :
    object ∈ g.objectsOf subject predicate ↔ ⟨subject, predicate, object⟩ ∈ g := by
  simp only [objectsOf, List.mem_map, List.mem_filter, Bool.and_eq_true, beq_iff_eq]
  constructor
  · rintro ⟨⟨s, p, o⟩, ⟨h, rfl, rfl⟩, rfl⟩
    exact h
  · intro h
    exact ⟨_, ⟨h, rfl, rfl⟩, rfl⟩

theorem mem_subjectsWith {g : Graph} {subject predicate object : String} :
    subject ∈ g.subjectsWith predicate object ↔ ⟨subject, predicate, object⟩ ∈ g := by
  simp only [subjectsWith, subjects, List.mem_map, List.mem_filter, Bool.and_eq_true, beq_iff_eq,
    Option.all_some]
  constructor
  · rintro ⟨⟨s, p, o⟩, ⟨h, rfl, rfl⟩, rfl⟩
    exact h
  · intro h
    exact ⟨_, ⟨h, rfl, rfl⟩, rfl⟩

end Graph

end RmlAlgebra
