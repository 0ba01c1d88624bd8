import RmlAlgebra.Proofs.MappingRule

/-! # Spelling out classes and constants keeps the rules

The predicate-object map for a class has the shortcuts that state the type, so the rules of a mapping
without classes are the same. Without shortcuts they are the same up to the names of the new term
maps, each of which stands for the constant that it holds.
-/

namespace RmlAlgebra

namespace MappingRule

theorem under_resolve (g k : Graph) (properties : Properties) (p : String) :
    (properties.resolve g k).under p = (properties.under p).map (RuleTerm.resolve g k) := by
  simp [Properties.under, Properties.resolve, List.filter_map, Function.comp_def]

/-- To resolve rules is to resolve the properties that they are made from. -/
theorem map_resolve_product (g k : Graph) (triplesMap : String) (owner pom : Properties) :
    (product triplesMap owner pom).map (resolve g k) =
      product (g.origin triplesMap) (owner.resolve g k) (pom.resolve g k) := by
  have hothers : Properties.resolve g k
      (pom.filter fun x => x.1 != R2rml.predicateMap && x.1 != R2rml.objectMap) =
      (pom.resolve g k).filter fun x => x.1 != R2rml.predicateMap && x.1 != R2rml.objectMap := by
    simp only [Properties.resolve, List.filter_map, Function.comp_def]
  simp only [product, under_resolve, List.flatMap_map, List.map_flatMap, List.map_map,
    Function.comp_def, resolve, hothers, List.head?_map]

end MappingRule

namespace Graph

variable {g : Graph} {supply : Supply} {x : String}

theorem described_eq_map {ts : List Triple} (h : ∀ t ∈ ts, isShortcut t = false) :
    described ts = ts.map fun t => (t.predicate, .node t.object) := by
  have hkept : ts.filter (!isShortcut ·) = ts := by
    rw [List.filter_eq_self]
    intro t ht
    rw [h t ht]
    rfl
  have hnone : constants ts = [] := by
    rw [constants, List.filterMap_eq_nil_iff]
    intro t ht
    have hshort : (shortcut? t.predicate).isSome = false := h t ht
    rw [Option.isSome_eq_false_iff, Option.isNone_iff_eq_none] at hshort
    rw [hshort, Option.map_none]
  rw [described, hkept, hnone, List.map_nil, List.append_nil]

/-! ## Classes -/

theorem filter_eq_singleton {keep : Triple → Bool} {t : Triple} (hg : g.Nodup) (ht : t ∈ g)
    (h : ∀ u ∈ g, keep u = true ↔ u = t) : g.filter keep = [t] := by
  have heq : g.filter keep = g.filter (· == t) := by
    apply List.filter_congr
    intro u hu
    rw [Bool.eq_iff_iff, h u hu, beq_iff_eq]
  rw [heq, List.filter_beq, hg.count, if_pos ht]
  rfl

theorem filter_classGroup (label : String) (owner : String × String) :
    (classGroup label owner).filter isPredicateObjectMap =
      [⟨owner.1, R2rml.predicateObjectMap, label⟩] := by
  have h1 : (R2rml.predicate == R2rml.predicateObjectMap) = false := by decide
  have h2 : (R2rml.object == R2rml.predicateObjectMap) = false := by decide
  simp [classGroup, isPredicateObjectMap, h1, h2]

/-- The links to predicate-object maps are the old ones and those for classes. -/
theorem filter_expandClasses : (g.expandClasses supply).1.filter isPredicateObjectMap =
    g.filter isPredicateObjectMap ++
      (labelled classGroup supply (g.owned (g.filter isClass))).filter isPredicateObjectMap := by
  rw [expandClasses_eq, List.filter_append, List.filter_filter]
  congr 1
  apply List.filter_congr
  intro t _
  by_cases hp : t.predicate = R2rml.predicateObjectMap
  · have hclass : (R2rml.predicateObjectMap == R2rml.class_) = false := by decide
    simp [isPredicateObjectMap, isClass, hp, hclass]
  · simp [isPredicateObjectMap, hp]

theorem isClass_expandClasses {t : Triple} (ht : t ∈ (g.expandClasses supply).1) :
    isClass t = false := by
  rcases mem_expandClasses.mp ht with ⟨-, hnot⟩ | ⟨i, owner, -, ht⟩
  · exact hnot
  · have hall : ∀ q ∈ [R2rml.predicateObjectMap, R2rml.predicate, R2rml.object],
        (q == R2rml.class_) = false := by decide
    simp only [classGroup, List.mem_cons, List.not_mem_nil, or_false] at ht
    rcases ht with rfl | rfl | rfl <;> exact hall _ (by simp)

theorem filter_isClass_expandClasses : (g.expandClasses supply).1.filter isClass = [] := by
  rw [List.filter_eq_nil_iff]
  intro t ht
  rw [isClass_expandClasses ht]
  exact Bool.false_ne_true

theorem properties_classMap (hg : g.Before supply)
    (hlimit : (g.expandClasses supply).2.last < UInt64.size) {i : Nat} {owner : String × String}
    (hi : (g.owned (g.filter isClass))[i]? = some owner) :
    (g.expandClasses supply).1.properties (Label.ofNat (supply.last + 1 + i)) =
      classProperties owner.2 := by
  have hpredicate : shortcut? R2rml.predicate = some R2rml.predicateMap := by decide
  have hobject : shortcut? R2rml.object = some R2rml.objectMap := by decide
  rw [properties, plain_classMap hg hlimit hi]
  simp [described, constants, isShortcut, hpredicate, hobject, classProperties]

namespace WellShaped

variable (hg : g.WellShaped)
include hg

theorem subjectMap_not_mem_triplesMaps {s : String} (h : ⟨s, R2rml.subjectMap, x⟩ ∈ g) :
    x ∉ g.triplesMaps := by
  intro hx
  have hne : R2rml.subjectMap ≠ R2rml.parentTriplesMap := by decide
  exact hne (hg.joined _ h hx).1

theorem subjectMap_ne_link {s : String} (h : ⟨s, R2rml.subjectMap, x⟩ ∈ g) {t : Triple} (ht : t ∈ g)
    (hlink : isPredicateObjectMap t = true) : t.object ≠ x := by
  intro ho
  have hpom : (R2rml.subjectMap == R2rml.predicateObjectMap) = true := hg.link t ht hlink _ h ho.symm
  exact absurd hpom (by decide)

/-- Only the subject map of a triples map has classes. -/
theorem filter_not_isClass (h : ∀ s, ⟨s, R2rml.subjectMap, x⟩ ∉ g) :
    (g.plain x).filter (!isClass ·) = g.plain x := by
  rw [List.filter_eq_self]
  intro t ht
  obtain ⟨hmem, hs, -⟩ := mem_plain.mp ht
  rw [Bool.not_eq_true', Bool.eq_false_iff]
  intro hclass
  obtain ⟨triplesMap, -, hsm, -⟩ := hg.class_ t hmem hclass
  exact h triplesMap (hs ▸ hsm)

theorem properties_expandClasses (hx : supply.Older x)
    (hlimit : (g.expandClasses supply).2.last < UInt64.size)
    (h : ∀ s, ⟨s, R2rml.subjectMap, x⟩ ∉ g) :
    (g.expandClasses supply).1.properties x = g.properties x := by
  rw [properties, plain_expandClasses hx hlimit, hg.filter_not_isClass h, properties]

/-- The owner of a class is the only triples map with its subject map. -/
theorem owned_eq {classes : List Triple} (h : ∀ t ∈ classes, t ∈ g ∧ isClass t = true) :
    g.owned classes = classes.flatMap fun t =>
      (g.subjectsWith R2rml.subjectMap t.subject).map fun triplesMap => (triplesMap, t.object) := by
  induction classes with
  | nil => rfl
  | cons t others ih =>
      rw [List.forall_mem_cons] at h
      obtain ⟨triplesMap, -, hsm, honly⟩ := hg.class_ t h.1.1 h.1.2
      have hfind : g.find? (·.object == t.subject) =
          some ⟨triplesMap, R2rml.subjectMap, t.subject⟩ := by
        cases hfound : g.find? (·.object == t.subject) with
        | none =>
            rw [List.find?_eq_none] at hfound
            exact absurd (beq_self_eq_true t.subject) (hfound _ hsm)
        | some u =>
            have ho : u.object = t.subject := by simpa using List.find?_some hfound
            rw [honly u (List.mem_of_find?_eq_some hfound) ho]
      have hsubjects : g.subjectsWith R2rml.subjectMap t.subject = [triplesMap] := by
        rw [subjectsWith, subjects, filter_eq_singleton hg.nodup hsm]
        · rfl
        · intro u hu
          simp only [Option.all_some, Bool.and_eq_true, beq_iff_eq]
          refine ⟨fun hq => honly u hu hq.2.symm, ?_⟩
          rintro rfl
          exact ⟨rfl, rfl⟩
      have hothers : g.owned (t :: others) =
          (triplesMap, t.object) :: g.owned others := by simp [owned, hfind]
      rw [hothers, List.flatMap_cons, hsubjects, ih h.2]
      rfl

theorem mem_triplesMaps_of_mem_owned {owner : String × String}
    (h : owner ∈ g.owned (g.filter isClass)) : owner.1 ∈ g.triplesMaps := by
  rw [hg.owned_eq fun t => List.mem_filter.mp] at h
  obtain ⟨t, ht, h⟩ := List.mem_flatMap.mp h
  obtain ⟨triplesMap, htm, rfl⟩ := List.mem_map.mp h
  obtain ⟨only, honly, -, heq⟩ := hg.class_ t (List.mem_filter.mp ht).1 (List.mem_filter.mp ht).2
  have hsame := heq _ (mem_subjectsWith.mp htm) rfl
  rw [Triple.mk.injEq] at hsame
  exact hsame.1 ▸ honly

theorem owner_expandClasses {t : Triple} (ht : t ∈ (g.expandClasses supply).1)
    (hlink : isPredicateObjectMap t = true) : t.subject ∈ g.triplesMaps := by
  rcases mem_expandClasses.mp ht with ⟨hmem, -⟩ | ⟨i, owner, hi, ht⟩
  · exact hg.owner t hmem hlink
  · have hmem : t ∈ (classGroup (Label.ofNat (supply.last + 1 + i)) owner).filter
        isPredicateObjectMap := List.mem_filter.mpr ⟨ht, hlink⟩
    rw [filter_classGroup, List.mem_singleton] at hmem
    rw [hmem]
    exact hg.mem_triplesMaps_of_mem_owned (List.mem_of_getElem? hi)

/-- A mapping without classes has the same rules. -/
theorem rules_expandClasses (hle : g.highestLabel ≤ supply.last)
    (hlimit : (g.expandClasses supply).2.last < UInt64.size) :
    (g.expandClasses supply).1.rules = g.rules := by
  have hbefore : g.Before supply := before_of_le hle
  have hold (triplesMap : String) (h : triplesMap ∈ g.triplesMaps) :
      (g.expandClasses supply).1.properties triplesMap = g.properties triplesMap := by
    apply hg.properties_expandClasses (hbefore _ (mem_subjectsWith.mp h)).1 hlimit
    intro s hs
    exact hg.subjectMap_not_mem_triplesMaps hs h
  have hlinks : (g.filter isPredicateObjectMap).flatMap (g.expandClasses supply).1.linkRules =
      (g.filter isPredicateObjectMap).flatMap g.linkRules := by
    apply List.flatMap_congr
    intro t ht
    obtain ⟨hmem, hlink⟩ := List.mem_filter.mp ht
    have hpom : (g.expandClasses supply).1.properties t.object = g.properties t.object := by
      apply hg.properties_expandClasses (hbefore t hmem).2 hlimit
      intro s hs
      exact hg.subjectMap_ne_link hs hmem hlink rfl
    rw [linkRules, hold _ (hg.owner t hmem hlink), hpom, linkRules]
  have hclasses : ((labelled classGroup supply (g.owned (g.filter isClass))).filter
      isPredicateObjectMap).flatMap (g.expandClasses supply).1.linkRules =
      (g.filter isClass).flatMap g.classRules := by
    have hproduct : (g.filter isClass).flatMap g.classRules =
        (g.owned (g.filter isClass)).flatMap fun owner =>
          MappingRule.product owner.1 (g.properties owner.1) (classProperties owner.2) := by
      rw [hg.owned_eq fun t => List.mem_filter.mp, List.flatMap_assoc]
      simp only [List.flatMap_map]
      rfl
    rw [filter_numbered, hproduct]
    apply flatMap_numbered
    intro i owner hi
    have howner := hg.mem_triplesMaps_of_mem_owned (List.mem_of_getElem? hi)
    rw [filter_classGroup, List.flatMap_singleton, linkRules, hold _ howner,
      properties_classMap hbefore hlimit hi]
  rw [rules, filter_isClass_expandClasses, List.flatMap_nil, List.append_nil, filter_expandClasses,
    List.flatMap_append, hlinks, hclasses, rules]

end WellShaped

/-! ## Constants -/

/-- A graph without classes and shortcuts. -/
def Spelled (g : Graph) : Prop :=
  ∀ t ∈ g, isClass t = false ∧ isShortcut t = false

theorem Spelled.properties_eq (h : g.Spelled) (x : String) :
    g.properties x = (g.plain x).map fun t => (t.predicate, .node t.object) :=
  described_eq_map fun t ht => (h t (mem_plain.mp ht).1).2

theorem Spelled.rules_eq (h : g.Spelled) :
    g.rules = (g.filter isPredicateObjectMap).flatMap g.linkRules := by
  have hnone : g.filter isClass = [] := by
    rw [List.filter_eq_nil_iff]
    intro t ht
    rw [(h t ht).1]
    exact Bool.false_ne_true
  rw [rules, hnone, List.flatMap_nil, List.append_nil]

theorem spelled_expandConstants (h : ∀ t ∈ g, isClass t = false) :
    (g.expandConstants supply).1.Spelled := by
  intro t ht
  rcases mem_expandConstants.mp ht with ⟨hmem, hshort⟩ | ⟨i, u, hu, ht⟩
  · exact ⟨h t hmem, hshort⟩
  · obtain ⟨s, hs, -⟩ := exists_of_mem_constants (List.mem_of_getElem? hu)
    have hall : ∀ a ∈ shortcuts, (a.2 == R2rml.class_) = false ∧
        (shortcut? a.2).isSome = false := by decide
    have hconstant : (R2rml.constant == R2rml.class_) = false ∧
        (shortcut? R2rml.constant).isSome = false := by decide
    simp only [constantGroup, List.mem_cons, List.not_mem_nil, or_false] at ht
    rcases ht with rfl | rfl
    · exact hall _ (mem_shortcuts hs)
    · exact hconstant

theorem filter_expandConstants : (g.expandConstants supply).1.filter isPredicateObjectMap =
    g.filter isPredicateObjectMap := by
  have hnew : (labelled constantGroup supply g.constants).filter isPredicateObjectMap = [] := by
    rw [List.filter_eq_nil_iff]
    intro t ht hlink
    obtain ⟨i, u, hu, ht⟩ := mem_numbered.mp ht
    simp only [constantGroup, List.mem_cons, List.not_mem_nil, or_false] at ht
    rcases ht with rfl | rfl
    · have hplain : isPredicateObjectMap u = false :=
        isPredicateObjectMap_of_mem_constants (List.mem_of_getElem? hu)
      exact Bool.false_ne_true (hplain.symm.trans hlink)
    · exact absurd hlink (by rw [isPredicateObjectMap_eq_false (by decide)]; exact Bool.false_ne_true)
  rw [expandConstants_eq, List.filter_append, hnew, List.append_nil, List.filter_filter]
  apply List.filter_congr
  intro t _
  by_cases hp : t.predicate = R2rml.predicateObjectMap
  · have hshort : (shortcut? R2rml.predicateObjectMap).isSome = false := by decide
    simp [isPredicateObjectMap, isShortcut, hp, hshort]
  · simp [isPredicateObjectMap, hp]

/-- A term that a mapping knows stands for itself. -/
theorem resolve_of_mentions {k : Graph} (h : g.Mentions x) :
    RuleTerm.resolve g k (.node x) = .node x :=
  if_neg fun hnew => hnew.2 h

/-- A label that a mapping does not know stands for its constant. -/
theorem resolve_of_constant {k : Graph} (hlabel : isLabel x = true) (hnew : ¬g.Mentions x)
    {value : String} (h : k.objectsOf x R2rml.constant = [value]) :
    RuleTerm.resolve g k (.node x) = .constant value := by
  rw [RuleTerm.resolve, if_pos ⟨hlabel, hnew⟩, firstObject?, h]
  rfl

/-- With the new term maps for shortcuts, an old node has the properties that it had. -/
theorem resolve_properties_expandConstants {k : Graph} (hk : k.Before supply)
    (hclass : ∀ t ∈ k, isClass t = false)
    (hlimit : (k.expandConstants supply).2.last < UInt64.size) (hx : supply.Older x)
    (hold : ∀ t ∈ k, isShortcut t = false → isPredicateObjectMap t = false → g.Mentions t.object)
    (hnew : ∀ n, supply.last < n → n < UInt64.size → ¬g.Mentions (Label.ofNat n)) :
    ((k.expandConstants supply).1.properties x).resolve g (k.expandConstants supply).1 =
      k.properties x := by
  have hconstant (i : Nat) (t : Triple) (hi : k.constants[i]? = some t) :
      (t.predicate, RuleTerm.resolve g (k.expandConstants supply).1
        (.node (Label.ofNat (supply.last + 1 + i)))) = (t.predicate, .constant t.object) := by
    have hlength := (List.getElem?_eq_some_iff.mp hi).1
    have hlast : (k.expandConstants supply).2.last = supply.last + k.constants.length := by
      rw [expandConstants_eq]
    rw [resolve_of_constant (Label.isLabel_ofNat _) (hnew _ (by omega) (by omega))
      (objectsOf_constant hk hlimit hi)]
  have hkept : ((k.plain x).filter (!isShortcut ·)).map (fun t =>
      (t.predicate, RuleTerm.resolve g (k.expandConstants supply).1 (.node t.object))) =
      ((k.plain x).filter (!isShortcut ·)).map fun t => (t.predicate, .node t.object) := by
    apply List.map_congr_left
    intro t ht
    obtain ⟨ht, hshort⟩ := List.mem_filter.mp ht
    obtain ⟨hmem, -, hplain⟩ := mem_plain.mp ht
    rw [resolve_of_mentions (hold t hmem (by simpa using hshort) hplain)]
  rw [(spelled_expandConstants hclass).properties_eq, Properties.resolve, List.map_map]
  simp only [Function.comp_def]
  rw [map_plain_expandConstants hx hlimit hconstant, hkept, properties, described]

/-! ## Both -/

theorem spelled_spellTerms : (g.spellTerms supply).1.Spelled :=
  spelled_expandConstants fun _ => isClass_expandClasses

theorem origin_of_mentions (h : g.Mentions x) : g.origin x = x :=
  if_pos h

/-- With the new term maps for shortcuts, the rules of a mapping are the same. -/
theorem WellShaped.rules_spellTerms (hg : g.WellShaped) (hle : g.highestLabel ≤ supply.last)
    (hlimit : (g.spellTerms supply).2.last < UInt64.size) :
    (g.spellTerms supply).1.rules.map (MappingRule.resolve g (g.spellTerms supply).1) = g.rules := by
  have hclasses := Nat.lt_of_le_of_lt (last_le_expandConstants _ _) hlimit
  have hsupply := last_le_expandClasses g supply
  have hbefore : Before (g.expandClasses supply).1 (g.expandClasses supply).2 :=
    (before_of_le hle).expandClasses
  have hterms : ∀ t ∈ (g.expandClasses supply).1, isShortcut t = false →
      isPredicateObjectMap t = false → g.Mentions t.object := by
    intro t ht hshort hplain
    rcases mem_expandClasses.mp ht with ⟨hmem, -⟩ | ⟨i, owner, -, ht⟩
    · exact ⟨t, hmem, .inr rfl⟩
    · simp only [classGroup, List.mem_cons, List.not_mem_nil, or_false] at ht
      rcases ht with rfl | rfl | rfl
      · exact absurd hplain (by simp [isPredicateObjectMap])
      · exact absurd hshort (show ¬(shortcut? R2rml.predicate).isSome = false by decide)
      · exact absurd hshort (show ¬(shortcut? R2rml.object).isSome = false by decide)
  have hnew (n : Nat) (hlow : (g.expandClasses supply).2.last < n) (hhigh : n < UInt64.size) :
      ¬g.Mentions (Label.ofNat n) := not_mentions_ofNat (by omega) hhigh
  have hproperties (x : String) (hx : (g.expandClasses supply).2.Older x) :
      ((g.spellTerms supply).1.properties x).resolve g (g.spellTerms supply).1 =
        (g.expandClasses supply).1.properties x :=
    resolve_properties_expandConstants hbefore (fun _ => isClass_expandClasses) hlimit hx hterms hnew
  rw [← hg.rules_expandClasses hle hclasses, spelled_spellTerms.rules_eq, List.map_flatMap, rules,
    filter_isClass_expandClasses, List.flatMap_nil, List.append_nil, spellTerms,
    filter_expandConstants]
  apply List.flatMap_congr
  intro t ht
  obtain ⟨hmem, hlink⟩ := List.mem_filter.mp ht
  rw [linkRules, MappingRule.map_resolve_product, ← spellTerms, hproperties _ (hbefore t hmem).1,
    hproperties _ (hbefore t hmem).2,
    origin_of_mentions (mentions_of_mem_triplesMaps (hg.owner_expandClasses hmem hlink)), linkRules]

end Graph

end RmlAlgebra
