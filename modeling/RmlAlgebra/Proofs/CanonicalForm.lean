import RmlAlgebra.Proofs.HandOff
import RmlAlgebra.Proofs.SpelledOut

/-! # The canonical form of sub-graphs

A traversal visits every node once, so a sub-graph has no properties that its graph does not have and
none of them more often. What the rewrites establish for the whole graph therefore holds for every
sub-graph, and the traversal itself adds that there is one link to a predicate-object map at most.
-/

namespace RmlAlgebra.Graph

variable {g k : Graph} {root x p : String}

/-! ## The properties of reached nodes -/

/-- A node that was visited keeps all its properties, apart from links to predicate-object maps. -/
theorem plain_reachable (hx : x ∈ (g.walk root).visited) :
    (g.reachable root).plain x = g.plain x :=
  (walked g root).plain x hx

theorem objectsOf_reachable (hp : p ≠ R2rml.predicateObjectMap)
    (hx : x ∈ (g.walk root).visited) : (g.reachable root).objectsOf x p = g.objectsOf x p := by
  rw [objectsOf_eq_plain hp, plain_reachable hx, ← objectsOf_eq_plain hp]

theorem objectsOf_reachable_of_not_mem (hx : x ∉ (g.walk root).visited) :
    (g.reachable root).objectsOf x p = [] := by
  apply objectsOf_eq_nil
  rintro t ht rfl
  exact absurd ((walked g root).mem t ht).2 hx

theorem length_objectsOf_reachable_le (hp : p ≠ R2rml.predicateObjectMap) :
    ((g.reachable root).objectsOf x p).length ≤ (g.objectsOf x p).length := by
  by_cases hx : x ∈ (g.walk root).visited
  · exact Nat.le_of_eq (congrArg List.length (objectsOf_reachable hp hx))
  · rw [objectsOf_reachable_of_not_mem hx]
    exact Nat.zero_le _

/-- The sub-graph of a declared triples map declares it too. -/
theorem mem_triplesMaps_reachable (h : root ∈ g.triplesMaps) :
    root ∈ (g.reachable root).triplesMaps := by
  have hdeclared : R2rml.triplesMap ∈ (g.reachable root).objectsOf root Rdf.type := by
    rw [objectsOf_reachable (by decide) (g.mem_visited_root root), mem_objectsOf]
    exact mem_subjectsWith.mp h
  exact mem_subjectsWith.mpr (mem_objectsOf.mp hdeclared)

theorem countPredicate_reachable_le (g : Graph) (root : String) :
    (g.reachable root).countPredicate R2rml.predicateObjectMap ≤ 1 := by
  have hlength : (g.reachable root).countPredicate R2rml.predicateObjectMap =
      ((g.reachable root).filter isPredicateObjectMap).length := List.countP_eq_length_filter
  rw [hlength, reachable, (walked g root).single]
  split <;> omega

/-! ## Canonical graphs -/

/-- What every sub-graph of a normalized mapping looks like. -/
structure Canonical (g : Graph) : Prop where
  /-- Nothing is abbreviated. -/
  unabbreviated : g.Unabbreviated
  /-- There is one link to a predicate-object map at most. -/
  link : g.countPredicate R2rml.predicateObjectMap ≤ 1
  /-- The linked predicate-object map has one predicate map and one object map at most. -/
  paired : g.Paired
  /-- There are a subject map, a predicate map and an object map. -/
  complete : g.isComplete = true
  /-- The graph starts with a triple of a triples map that it declares. -/
  start : ∃ t others, g = t :: others ∧ t.subject ∈ g.triplesMaps

theorem canonical_reachable (hwords : g.Unabbreviated) (hpaired : g.Paired)
    (hroot : root ∈ g.triplesMaps) (hcomplete : (g.reachable root).isComplete = true) :
    (g.reachable root).Canonical where
  unabbreviated := fun t ht => hwords t (mem_of_mem_reachable ht)
  link := g.countPredicate_reachable_le root
  paired := by
    intro t ht hlink
    have hsingle := hpaired t (mem_of_mem_reachable ht) hlink
    exact ⟨Nat.le_trans (length_objectsOf_reachable_le (by decide)) hsingle.1,
      Nat.le_trans (length_objectsOf_reachable_le (by decide)) hsingle.2⟩
  complete := hcomplete
  start := by
    obtain ⟨t, others, heq, hs⟩ := head_reachable hroot
    refine ⟨t, others, heq, ?_⟩
    rw [hs]
    exact mem_triplesMaps_reachable hroot

/-- A sub-graph of a normalized mapping is what is reached from a triples map of the spelled out
graph, and it is canonical. -/
theorem exists_root_of_normalize {seed : UInt32} {subs : List Graph}
    (hlimit : (g.spellOut (g.supply seed)).2.last < UInt64.size) (h : g.normalize seed = .ok subs)
    {sub : Graph} (hsub : sub ∈ subs) :
    ∃ root ∈ (g.spellOut (g.supply seed)).1.triplesMaps,
      sub = (g.spellOut (g.supply seed)).1.reachable root ∧ sub.Canonical := by
  have hle : g.highestLabel ≤ (g.supply seed).last := Nat.le_max_left _ _
  rw [← (normalize_eq_ok_iff.mp h).2.2] at hsub
  obtain ⟨root, hroot, rfl, hcomplete⟩ := mem_subGraphs hsub
  refine ⟨root, hroot, rfl, ?_⟩
  exact canonical_reachable (unabbreviated_spellOut g _) (paired_spellOut hle hlimit) hroot hcomplete

/-- Every sub-graph of a mapping is canonical, whatever the mapping looks like. -/
theorem canonical_of_normalize {seed : UInt32} {subs : List Graph}
    (hlimit : (g.spellOut (g.supply seed)).2.last < UInt64.size)
    (h : g.normalize seed = .ok subs) : ∀ sub ∈ subs, sub.Canonical := by
  intro sub hsub
  obtain ⟨root, -, -, hcanonical⟩ := exists_root_of_normalize hlimit h hsub
  exact hcanonical

/-- A mapping with repeated triples, where two predicate-object maps are each other's parents, one is
also its own, and literals look like labels. -/
def tangledMapping : Graph :=
  [⟨"http://e/A", Rdf.type, R2rml.triplesMap⟩, ⟨"http://e/A", Rdf.type, R2rml.triplesMap⟩,
    ⟨"http://e/A", R2rml.subjectMap, "b1"⟩, ⟨"b1", R2rml.class_, "http://e/K"⟩,
    ⟨"b1", R2rml.class_, "http://e/K"⟩, ⟨"b1", R2rml.graph, "b9"⟩,
    ⟨"http://e/A", R2rml.predicateObjectMap, "b2"⟩, ⟨"b2", R2rml.predicateObjectMap, "b2"⟩,
    ⟨"b2", R2rml.predicateObjectMap, "b3"⟩, ⟨"b3", R2rml.predicateObjectMap, "b2"⟩,
    ⟨"b2", R2rml.predicate, "http://e/p"⟩, ⟨"b2", R2rml.predicate, "http://e/p"⟩,
    ⟨"b2", R2rml.object, "b9"⟩, ⟨"b3", R2rml.object, "b2"⟩, ⟨"b3", R2rml.object, "o"⟩,
    ⟨"b3", R2rml.predicateMap, "b2"⟩]

set_option maxRecDepth 100000 in
theorem canonical_tangledMapping :
    (tangledMapping.spellOut (tangledMapping.supply 7)).2.last < UInt64.size ∧
      ∃ subs, tangledMapping.normalize 7 = .ok subs ∧ subs.length = 4 ∧
        ∀ sub ∈ subs, sub.Canonical := by
  have hlimit : (tangledMapping.spellOut (tangledMapping.supply 7)).2.last < UInt64.size := by
    decide +kernel
  have hsubs : ∃ subs, tangledMapping.normalize 7 = .ok subs ∧ subs.length = 4 := by
    simp only [normalize_eq_ok_iff]
    exact ⟨_, ⟨by decide +kernel, by decide +kernel, rfl⟩, by decide +kernel⟩
  obtain ⟨subs, hsubs, hlength⟩ := hsubs
  exact ⟨hlimit, subs, hsubs, hlength, canonical_of_normalize hlimit hsubs⟩

end RmlAlgebra.Graph
