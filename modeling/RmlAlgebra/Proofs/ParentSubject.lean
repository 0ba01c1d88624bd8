import RmlAlgebra.Proofs.JoinForm

/-! # The object of a join

The object of a join is read off the subject map of the parent, so it has the value and the kind of the
parent's subjects. Its type, however, is inferred as for every other object, and a type that the
subject map states does not count. The two agree for templates and for constants that look like IRIs,
and only if the subjects are IRIs; otherwise the join makes terms that the parent does not have.
-/

namespace RmlAlgebra

/-- Whether an object with this value is taken for an IRI when it states no type. -/
def TermMap.LooksLikeIri (t : TermMap) : Prop :=
  t.kind = some .template ∨ t.kind = some .constant ∧ "http".toList <+: t.value.toList

instance (t : TermMap) : Decidable t.LooksLikeIri :=
  inferInstanceAs (Decidable (_ ∨ _))

namespace Graph

variable {g : Graph} {pom node : String} {t : TermMap} {expressions : List Expression}

/-! ## Types -/

theorem inferredType_eq (t : TermMap) :
    inferredType t = if t.LooksLikeIri then .iri else .literal := by
  obtain ⟨value, kind, type⟩ := t
  cases kind with
  | none => simp [inferredType, TermMap.LooksLikeIri]
  | some kind => cases kind <;> simp [inferredType, TermMap.LooksLikeIri]

/-- An object has the type of a subject if that is an IRI and looks like one. -/
theorem inferredType_eq_type_iff (h : t.type ≠ .literal) :
    inferredType t = t.type ↔ t.type = .iri ∧ t.LooksLikeIri := by
  rw [inferredType_eq]
  by_cases hlooks : t.LooksLikeIri
  · simp [hlooks, eq_comm]
  · simp [hlooks, h.symm]

/-- The value and the kind of a term map do not depend on its type. -/
theorem termMap_eq (g : Graph) (node : String) (first second : TermType) :
    g.termMap node second = { g.termMap node first with type := second } := by
  cases hconstant : g.singleObject? node R2rml.constant with
  | some value => simp only [termMap, hconstant]
  | none =>
      cases hreference : g.singleObject? node Rml.reference with
      | some value => simp only [termMap, hconstant, hreference]
      | none =>
          cases htemplate : g.singleObject? node R2rml.template with
          | some value => simp only [termMap, hconstant, hreference, htemplate]
          | none => simp only [termMap, hconstant, hreference, htemplate]

/-- Subjects are IRIs or blank nodes. -/
theorem exists_type_of_subjectMap (h : g.subjectMap node = .ok t) :
    ∃ type, type ≠ .literal ∧ t = g.termMap node type := by
  simp only [subjectMap] at h
  split at h
  · cases h
  · cases h
    refine ⟨_, ?_, rfl⟩
    split <;> simp

/-- What a subject map says about subjects and about the objects that refer to it. -/
theorem inferredTermMap_of_subjectMap (h : g.subjectMap node = .ok t) :
    (g.inferredTermMap node).value = t.value ∧ (g.inferredTermMap node).kind = t.kind ∧
      ((g.inferredTermMap node).type = t.type ↔ t.type = .iri ∧ t.LooksLikeIri) := by
  obtain ⟨type, htype, rfl⟩ := exists_type_of_subjectMap h
  have hsubject := g.termMap_eq node .literal type
  have hinferred : (g.inferredTermMap node).type = inferredType (g.termMap node type) := by
    rw [hsubject]
    rfl
  rw [hinferred, inferredType_eq_type_iff]
  · rw [hsubject]
    exact ⟨rfl, rfl, Iff.rfl⟩
  · rw [hsubject]
    exact htype

/-! ## Joins -/

/-- The way from a predicate-object map to the subject map of the parent that its object map refers
to. Where there are several nodes to go to, the first one counts. -/
structure LeadsToParent (g : Graph) (pom objectNode parent node : String) : Prop where
  object_eq : g.firstObject? pom R2rml.objectMap = some objectNode
  parent_eq : g.firstObject? objectNode R2rml.parentTriplesMap = some parent
  subject_eq : g.firstObject? parent R2rml.subjectMap = some node

theorem exists_parent_of_referencing {r : Referencing} (h : g.referencing pom = .ok r) :
    ∃ objectNode parent node, g.LeadsToParent pom objectNode parent node ∧
      r.object = ⟨g.inferredTermMap node, none, none⟩ := by
  obtain ⟨objectNode, parent, -, node, hobject, -, hparent, -, -, hnode, heq⟩ :=
    exists_nodes_of_referencing h
  exact ⟨objectNode, parent, node, ⟨hobject, hparent, hnode⟩, heq⟩

/-- The object of every expression of a join is the object that refers to the parent, read from the
parent's source. Its value and its kind are those of the parent's subjects. Its type is theirs if and
only if the subjects are IRIs with a value that looks like an IRI. -/
theorem object_agrees_iff (h : g.planJoin = .ok expressions) :
    ∃ (rule : g.JoinRule) (objectNode parent node : String),
      g.LeadsToParent rule.pom objectNode parent node ∧ expressions ≠ [] ∧
      (∀ e ∈ expressions, e.object.term =
        rule.referencing.read rule.referencing.source rule.referencing.object.term) ∧
      ∀ t, g.subjectMap node = .ok t →
        rule.referencing.object.term.value = t.value ∧
          rule.referencing.object.term.kind = t.kind ∧
          (rule.referencing.object.term.type = t.type ↔ t.type = .iri ∧ t.LooksLikeIri) := by
  obtain ⟨rule, rfl⟩ := exists_joinRule h
  obtain ⟨objectNode, parent, node, hleads, hobject⟩ :=
    exists_parent_of_referencing rule.referencing_eq
  have hplanned : rule.planned ≠ [] ∧ ∀ e ∈ rule.planned, e.object.term =
      rule.referencing.read rule.referencing.source rule.referencing.object.term :=
    perGraph_form _ fun graph => rfl
  refine ⟨rule, objectNode, parent, node, hleads, hplanned.1, hplanned.2, ?_⟩
  intro t ht
  rw [hobject]
  exact inferredTermMap_of_subjectMap ht

/-- A triples map that is joined with a parent whose subject map has the given properties. -/
def joinedTo (properties : List (String × String)) : Graph :=
  [⟨"http://e/A", R2rml.subjectMap, "b1"⟩, ⟨"b1", R2rml.template, "http://e/{i}"⟩,
    ⟨"http://e/A", R2rml.predicateObjectMap, "b2"⟩, ⟨"b2", R2rml.predicateMap, "b3"⟩,
    ⟨"b3", R2rml.constant, "http://e/p"⟩, ⟨"b2", R2rml.objectMap, "b4"⟩,
    ⟨"b4", R2rml.parentTriplesMap, "http://e/B"⟩, ⟨"http://e/B", Rml.logicalSource, "b5"⟩,
    ⟨"b5", Rml.source, "f"⟩, ⟨"http://e/B", R2rml.subjectMap, "b6"⟩] ++
  properties.map fun x => ⟨"b6", x.1, x.2⟩

set_option maxRecDepth 100000 in
theorem object_agrees_template :
    ∃ expressions, (joinedTo [(R2rml.template, "{j}")]).planJoin = .ok expressions ∧
      ∃ rule : (joinedTo [(R2rml.template, "{j}")]).JoinRule,
        (joinedTo [(R2rml.template, "{j}")]).LeadsToParent rule.pom "b4" "http://e/B" "b6" ∧
        (joinedTo [(R2rml.template, "{j}")]).subjectMap "b6" =
          .ok rule.referencing.object.term := by
  have hplan : (joinedTo [(R2rml.template, "{j}")]).planJoin.toOption.isSome = true := by
    decide +kernel
  have hroot : (joinedTo [(R2rml.template, "{j}")]).root.toOption = some "http://e/A" := by
    decide +kernel
  have hsubject : (joinedTo [(R2rml.template, "{j}")]).subjectMap "b6" =
      .ok ⟨"{j}", some .template, .iri⟩ := toOption_eq_some_iff.mp (by decide +kernel)
  obtain ⟨expressions, hexpressions⟩ := Option.isSome_iff_exists.mp hplan
  have hplan := toOption_eq_some_iff.mp hexpressions
  obtain ⟨rule, objectNode, parent, node, hleads, -, -, hagree⟩ := object_agrees_iff hplan
  -- Each node on the way to the parent is the only one to go to.
  have hroot : rule.root = "http://e/A" :=
    Except.ok.inj (rule.root_eq.symm.trans (toOption_eq_some_iff.mp hroot))
  have hpom : rule.pom = "b2" :=
    Option.some.inj (rule.pom_eq.symm.trans (by rw [hroot]; decide +kernel))
  have hobject : objectNode = "b4" :=
    Option.some.inj (hleads.object_eq.symm.trans (by rw [hpom]; decide +kernel))
  have hparent : parent = "http://e/B" :=
    Option.some.inj (hleads.parent_eq.symm.trans (by rw [hobject]; decide +kernel))
  have hnode : node = "b6" :=
    Option.some.inj (hleads.subject_eq.symm.trans (by rw [hparent]; decide +kernel))
  subst hobject hparent hnode
  obtain ⟨hvalue, hkind, htype⟩ := hagree _ hsubject
  have hterm : rule.referencing.object.term = ⟨"{j}", some .template, .iri⟩ := calc
    rule.referencing.object.term = ⟨rule.referencing.object.term.value,
      rule.referencing.object.term.kind, rule.referencing.object.term.type⟩ := rfl
    _ = ⟨"{j}", some .template, .iri⟩ := by rw [hvalue, hkind, htype.mpr (by decide)]
  exact ⟨expressions, hplan, rule, hleads, by rw [hsubject, hterm]⟩

set_option maxRecDepth 100000 in
/-- Subjects that come from a column are IRIs, and the objects that refer to them are literals. -/
theorem object_of_reference_differs :
    ¬∀ (g : Graph) (expressions : List Expression)
        (root pom objectNode parent node : String) (r : Referencing) (t : TermMap),
        g.planJoin = .ok expressions → g.root = .ok root →
        g.firstObject? root R2rml.predicateObjectMap = some pom →
        g.LeadsToParent pom objectNode parent node → g.referencing pom = .ok r →
        g.subjectMap node = .ok t → r.object.term = t := by
  intro hall
  have hplan : (joinedTo [(Rml.reference, "j")]).planJoin.toOption.isSome = true := by
    decide +kernel
  obtain ⟨expressions, hexpressions⟩ := Option.isSome_iff_exists.mp hplan
  have hequal := hall (joinedTo [(Rml.reference, "j")]) expressions "http://e/A" "b2" "b4"
    "http://e/B" "b6" ⟨⟨⟨"j", some .reference, .literal⟩, none, none⟩, none, "f"⟩
    ⟨"j", some .reference, .iri⟩ (toOption_eq_some_iff.mp hexpressions)
    (toOption_eq_some_iff.mp (by decide +kernel)) (by decide +kernel)
    ⟨by decide +kernel, by decide +kernel, by decide +kernel⟩
    (toOption_eq_some_iff.mp (by decide +kernel)) (toOption_eq_some_iff.mp (by decide +kernel))
  exact absurd hequal (by decide)

end Graph

end RmlAlgebra
