import RmlAlgebra.Proofs.LabelShift
import RmlAlgebra.Proofs.SubGraphRules

/-! # Normalization keeps the rules

The rules of a well shaped mapping are kept by each rewrite in turn, and the sub-graphs of the last
graph have one rule each.
-/

namespace RmlAlgebra.Graph

variable {g : Graph} {supply : Supply}

theorem nodup_triplesMaps (h : g.Nodup) : g.triplesMaps.Nodup := by
  have hmap : (g.triplesMaps.map (⟨·, Rdf.type, R2rml.triplesMap⟩) : List Triple).Nodup := by
    rw [triplesMaps, map_subjectsWith]
    exact h.filter _
  exact List.Pairwise.of_map _ (fun a b hne hab => hne (by rw [hab])) hmap

namespace WellShaped

variable (hg : g.WellShaped)
include hg

theorem ambiguousMap?_eq_none : g.ambiguousMap? = none := by
  rw [ambiguousMap?, List.find?_eq_none]
  intro triplesMap htm hlt
  have hle : (g.objectsOf triplesMap R2rml.subjectMap).length ≤ 1 := by
    rw [← hg.subject triplesMap htm, objectsOf, List.length_map, ← List.countP_eq_length_filter,
      ← List.countP_eq_length_filter]
    apply List.countP_mono_left
    intro t _ ht
    simp only [Bool.and_eq_true, beq_iff_eq] at ht
    simp [ht.1, ht.2]
  rw [decide_eq_true_eq] at hlt
  omega

theorem rules_eq_nil (h : g.triplesMaps = []) : g.rules = [] := by
  have hlinks : g.filter isPredicateObjectMap = [] := by
    rw [List.filter_eq_nil_iff]
    intro t ht hlink
    exact absurd (h ▸ hg.owner t ht hlink) List.not_mem_nil
  have hclasses : g.filter isClass = [] := by
    rw [List.filter_eq_nil_iff]
    intro t ht hclass
    obtain ⟨triplesMap, htm, -⟩ := hg.class_ t ht hclass
    exact absurd (h ▸ htm) List.not_mem_nil
  rw [rules, hlinks, hclasses]
  rfl

theorem origin_separatedName {triplesMap : String} (h : triplesMap ∈ g.triplesMaps) (n : Nat) :
    g.origin (separatedName triplesMap n) = g.origin triplesMap := by
  rw [origin_of_mentions (mentions_of_mem_triplesMaps h), origin,
    if_neg (hg.separated triplesMap h n), numberedAfter_separatedName]

section Run

variable (hle : g.highestLabel ≤ supply.last)
  (hlimit : (g.spellOut supply).2.last < UInt64.size)
include hle hlimit

theorem multipliedOut : MultipliedOut (g.spellTerms supply).1 (g.spellTerms supply).2
    g.predicateObjectMaps (g.spellMaps supply).1 := by
  have hterms : (g.spellTerms supply).2.last < UInt64.size :=
    Nat.lt_of_le_of_lt (last_le_multiplyOutAll _ _ _ _) hlimit
  have heq := spellMaps_eq g supply hle hlimit
  rw [heq]
  apply (hg.arranged_spellTerms hle hterms).multiplyOutAll
  · exact (before_of_le hle).expandClasses.expandConstants
  · exact g.nodup_predicateObjectMaps
  · intro pom hpom
    obtain ⟨parent, hparent⟩ := mem_predicateObjectMaps.mp hpom
    exact ⟨⟨parent, mem_spellTerms_link.mpr (.inl hparent)⟩, rfl⟩
  · rintro ⟨s, p, o⟩ ht hlink
    obtain rfl := isPredicateObjectMap_iff.mp hlink
    rcases mem_spellTerms_link.mp ht with ht | ⟨i, owner, hi, -, rfl⟩
    · exact .inl (mem_predicateObjectMaps.mpr ⟨s, ht⟩)
    · exact .inr (single_classMap (before_of_le hle) hterms hi)
  · rw [← heq]
    exact hlimit

theorem triplesMaps_spellMaps_eq : (g.spellMaps supply).1.triplesMaps = g.triplesMaps :=
  (hg.multipliedOut hle hlimit).triplesMaps.trans triplesMaps_spellTerms

/-- The names of separated triples maps are new when they are given. -/
theorem not_mentions_spellMaps {triplesMap : String} (h : triplesMap ∈ g.triplesMaps) (n : Nat) :
    ¬(g.spellMaps supply).1.Mentions (separatedName triplesMap n) := by
  intro hmention
  have hlabel := isLabel_separatedName triplesMap n
  rcases (hg.multipliedOut hle hlimit).mentions _ hmention with hold | hnew
  · rcases mentions_spellTerms hold with hold | hnew | htype
    · exact hg.separated triplesMap h n hold
    · exact Bool.false_ne_true (hlabel.symm.trans hnew)
    · have hmark : '_' ∈ (separatedName triplesMap n).toList := by simp [toList_separatedName]
      rw [htype] at hmark
      exact absurd hmark (by decide)
  · exact Bool.false_ne_true (hlabel.symm.trans hnew)

theorem separatedOut : SeparatedOut g (g.spellMaps supply).1 g.triplesMaps
    (g.spellOut supply).1 := by
  have hmaps := hg.triplesMaps_spellMaps_eq hle hlimit
  have hstart := hg.multipliedOut hle hlimit
  have heq : (g.spellOut supply).1 = g.triplesMaps.foldl Graph.separate (g.spellMaps supply).1 := by
    rw [spellOut_eq, separatePredicateObjectMaps, hmaps]
  rw [heq]
  apply hstart.arranged.foldl_separate
  · exact nodup_triplesMaps hg.nodup
  · exact fun x hx => hmaps ▸ hx
  · exact fun x hx n => hg.not_mentions_spellMaps hle hlimit hx n
  · exact fun x hx n => hg.origin_separatedName hx n
  · rw [hmaps]
    exact nodup_triplesMaps hg.nodup
  · exact fun x hx => .inl (hmaps ▸ hx)
  · exact hstart.single

/-- A new term map keeps its constant. -/
theorem map_rules_spellTerms : (g.spellTerms supply).1.rules.map
    (MappingRule.resolve g (g.spellOut supply).1) = g.rules := by
  have hterms : (g.spellTerms supply).2.last < UInt64.size :=
    Nat.lt_of_le_of_lt (last_le_multiplyOutAll _ _ _ _) hlimit
  have hbefore : Before (g.spellTerms supply).1 (g.spellTerms supply).2 :=
    (before_of_le hle).expandClasses.expandConstants
  rw [← hg.rules_spellTerms hle hterms, spelled_spellTerms.rules_eq, List.map_flatMap,
    List.map_flatMap]
  apply List.flatMap_congr
  intro t _
  apply map_linkRules_congr spelled_spellTerms
  intro u hu _ _ hlabel hnew
  have hpom : u.object ∉ g.predicateObjectMaps := by
    intro hpom
    obtain ⟨parent, hparent⟩ := mem_predicateObjectMaps.mp hpom
    exact hnew ⟨_, hparent, .inr rfl⟩
  have hname : ∀ triplesMap ∈ g.triplesMaps, ∀ n, u.object ≠ separatedName triplesMap n := by
    intro triplesMap _ n heq
    rw [heq, isLabel_separatedName] at hlabel
    cases hlabel
  rw [(hg.separatedOut hle hlimit).plain _ hname,
    (hg.multipliedOut hle hlimit).plain _ (hbefore u hu).2 hpom]

end Run

end WellShaped

/-- Normalization neither loses nor doubles a rule: a mapping without triples maps has none, and from
any other every rule comes out as the only one of a sub-graph. -/
theorem perm_rules_normalize {seed : UInt32} (hg : g.WellShaped)
    (hlimit : (g.spellOut (g.supply seed)).2.last < UInt64.size) :
    (g.triplesMaps = [] ∧ g.rules = [] ∧ g.normalize seed = .error .noTriplesMaps) ∨
      ∃ subs, g.normalize seed = .ok subs ∧ (∀ sub ∈ subs, sub.rules.length = 1) ∧
        (subs.flatMap fun sub => sub.rules.map (MappingRule.resolve g sub)).Perm g.rules := by
  have hle : g.highestLabel ≤ (g.supply seed).last := Nat.le_max_left _ _
  have hmaps := hg.triplesMaps_spellMaps_eq hle hlimit
  have hout := hg.separatedOut hle hlimit
  have hnormalize : g.normalize seed =
      if (g.spellOut (g.supply seed)).1.triplesMaps.isEmpty then .error .noTriplesMaps
      else .ok (g.spellOut (g.supply seed)).1.subGraphs := by
    rw [normalize, hg.ambiguousMap?_eq_none]
  by_cases hempty : g.triplesMaps = []
  · have hspelled : (g.spellOut (g.supply seed)).1 = (g.spellMaps (g.supply seed)).1 := by
      rw [spellOut_eq, separatePredicateObjectMaps, hmaps, hempty]
      rfl
    refine .inl ⟨hempty, hg.rules_eq_nil hempty, ?_⟩
    rw [hnormalize, hspelled, hmaps, hempty]
    rfl
  · obtain ⟨x, hx⟩ := List.exists_mem_of_ne_nil _ hempty
    have hne : (g.spellOut (g.supply seed)).1.triplesMaps ≠ [] :=
      List.ne_nil_of_mem (hout.declared x (hmaps ▸ hx))
    have hvalues : ValuesIn (fun o => isLabel o = true → g.Mentions o)
        (g.spellOut (g.supply seed)).1 := by
      apply ValuesIn.spellOut
      · intro htype
        exact absurd htype (by decide)
      · intro t ht _ _
        exact ⟨t, ht, .inr rfl⟩
    obtain ⟨hone, hperm⟩ := hout.arranged.rules_subGraphs (g := g) hout.one hout.nodup hout.single
      fun t ht hvalue => hvalues t ht (by rw [isValuePredicate, hvalue]; rfl)
    refine .inr ⟨_, by rw [hnormalize, if_neg (by simpa using hne)], hone, ?_⟩
    refine (hperm.trans (hout.rules _)).trans ?_
    rw [← hg.map_rules_spellTerms hle hlimit]
    exact (hg.multipliedOut hle hlimit).rules.map _

/-- Two triples maps that share a predicate-object map, which joins the second one. The first has a
class and the second a predicate-object map without an object. -/
def sharedMapping : Graph :=
  [⟨"http://e/A", Rdf.type, R2rml.triplesMap⟩, ⟨"http://e/A", R2rml.subjectMap, "b1"⟩,
    ⟨"b1", R2rml.class_, "http://e/K"⟩, ⟨"http://e/A", R2rml.predicateObjectMap, "b2"⟩,
    ⟨"http://e/B", Rdf.type, R2rml.triplesMap⟩, ⟨"http://e/B", R2rml.subject, "http://e/s"⟩,
    ⟨"http://e/B", R2rml.predicateObjectMap, "b2"⟩, ⟨"http://e/B", R2rml.predicateObjectMap, "b4"⟩,
    ⟨"b2", R2rml.predicate, "http://e/p"⟩, ⟨"b2", R2rml.predicate, "http://e/q"⟩,
    ⟨"b2", R2rml.objectMap, "b3"⟩, ⟨"b3", R2rml.parentTriplesMap, "http://e/B"⟩,
    ⟨"b4", R2rml.predicate, "http://e/p"⟩]

set_option maxRecDepth 100000 in
theorem wellShaped_sharedMapping : sharedMapping.WellShaped where
  nodup := by decide +kernel
  subject := by decide +kernel
  owner := by decide +kernel
  node := by decide +kernel
  link := by decide +kernel
  noParent := by decide +kernel
  term := by decide +kernel
  object := by decide +kernel
  joined := by decide +kernel
  class_ := by decide +kernel
  separated := by
    have hplain : ∀ t ∈ sharedMapping, '_' ∉ t.subject.toList ∧ '_' ∉ t.object.toList := by
      decide +kernel
    rintro triplesMap - n ⟨t, ht, hx⟩
    have hmark : '_' ∈ (separatedName triplesMap n).toList := by simp [toList_separatedName]
    rcases hx with hx | hx
    · exact (hplain t ht).1 (hx ▸ hmark)
    · exact (hplain t ht).2 (hx ▸ hmark)

set_option maxRecDepth 100000 in
theorem perm_rules_sharedMapping : sharedMapping.WellShaped ∧
    (sharedMapping.spellOut (sharedMapping.supply 7)).2.last < UInt64.size ∧
    sharedMapping.rules.length = 5 ∧ ∃ subs, sharedMapping.normalize 7 = .ok subs ∧
      (∀ sub ∈ subs, sub.rules.length = 1) ∧
      (subs.flatMap fun sub => sub.rules.map (MappingRule.resolve sharedMapping sub)).Perm
        sharedMapping.rules := by
  have hlimit : (sharedMapping.spellOut (sharedMapping.supply 7)).2.last < UInt64.size := by
    decide +kernel
  refine ⟨wellShaped_sharedMapping, hlimit, by decide +kernel, ?_⟩
  refine (perm_rules_normalize wellShaped_sharedMapping hlimit).resolve_left ?_
  rintro ⟨hempty, -⟩
  exact absurd hempty (by decide +kernel)

end RmlAlgebra.Graph
