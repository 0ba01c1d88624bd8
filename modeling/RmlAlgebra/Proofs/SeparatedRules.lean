import RmlAlgebra.Proofs.PairRules

/-! # Separation keeps the rules

A triples map with several predicate-object maps hands each of them over to a new triples map that
has the same subject map and the same source. So every rule stays, with another name for its triples
map, and the name says which one it was.
-/

namespace RmlAlgebra.Graph

variable {g m c : Graph} {triplesMap : String}

/-! ## One triples map -/

/-- The new triples maps for the predicate-object maps of an old one. -/
def separatedGroups (g : Graph) (triplesMap : String) : List Triple :=
  numbered (separatedName triplesMap)
    (separatedGroup (g.firstObject? triplesMap R2rml.subjectMap)
      (g.firstObject? triplesMap Rml.logicalSource)) 1
    (g.objectsOf triplesMap R2rml.predicateObjectMap)

theorem Arranged.separate_eq (hg : g.Arranged)
    (hlt : 1 < (g.objectsOf triplesMap R2rml.predicateObjectMap).length) :
    g.separate triplesMap =
      g.filter (!isLinkOf triplesMap ·) ++ g.separatedGroups triplesMap := by
  rw [separate_of_lt hlt, separatedFrom_eq, separatedGroups]
  intro pom hpom o ho
  exact hg.noParent _ (mem_objectsOf.mp hpom) (beq_self_eq_true _) _ ho rfl rfl

theorem of_mem_separatedGroups {t : Triple} (h : t ∈ g.separatedGroups triplesMap) :
    ∃ n, t.subject = separatedName triplesMap n ∧
      (t = ⟨separatedName triplesMap n, Rdf.type, R2rml.triplesMap⟩ ∨
        t.predicate ∈ copiedPredicates ∧ ⟨triplesMap, t.predicate, t.object⟩ ∈ g) := by
  obtain ⟨i, pom, hi, ht⟩ := mem_numbered.mp h
  have hproperty {p : String} (hp : p ∈ copiedPredicates)
      (ht : t ∈ property (separatedName triplesMap (1 + i)) p (g.firstObject? triplesMap p)) :
      ∃ n, t.subject = separatedName triplesMap n ∧
        (t = ⟨separatedName triplesMap n, Rdf.type, R2rml.triplesMap⟩ ∨
          t.predicate ∈ copiedPredicates ∧ ⟨triplesMap, t.predicate, t.object⟩ ∈ g) := by
    obtain ⟨hs, rfl, ho⟩ := of_mem_property ht
    exact ⟨1 + i, hs, .inr ⟨hp, mem_objectsOf.mp (List.mem_of_head? ho)⟩⟩
  rcases mem_separatedGroup.mp ht with rfl | ht | ht | rfl
  · exact ⟨1 + i, rfl, .inl rfl⟩
  · exact hproperty (by decide) ht
  · exact hproperty (by decide) ht
  · exact ⟨1 + i, rfl, .inr ⟨by simp [copiedPredicates], mem_objectsOf.mp (List.mem_of_getElem? hi)⟩⟩

/-- A node that is no new triples map keeps its triples, links to predicate-object maps apart. -/
theorem Arranged.plain_separate (hg : g.Arranged) {x : String}
    (hx : ∀ n, x ≠ separatedName triplesMap n) : (g.separate triplesMap).plain x = g.plain x := by
  by_cases hle : (g.objectsOf triplesMap R2rml.predicateObjectMap).length ≤ 1
  · rw [separate_of_le hle]
  have hnew : plain (g.separatedGroups triplesMap) x = [] := by
    apply plain_eq_nil
    intro t ht hs
    obtain ⟨n, hn, -⟩ := of_mem_separatedGroups ht
    exact absurd (hs.symm.trans hn) (hx n)
  rw [hg.separate_eq (by omega), plain_append, hnew, List.append_nil, plain_filter_eq]
  intro t _ _ hplain
  have hp : (t.predicate == R2rml.predicateObjectMap) = false := hplain
  simp [isLinkOf, hp]

theorem plain_property {x p : String} (hp : p ≠ R2rml.predicateObjectMap) (object : Option String) :
    plain (property x p object) x = property x p object := by
  rw [plain, List.filter_filter, List.filter_eq_self]
  rintro ⟨s, q, o⟩ ht
  obtain ⟨rfl, rfl, -⟩ := of_mem_property ht
  simp [isPredicateObjectMap_eq_false hp]

theorem filter_property {x p : String} (hp : p ≠ R2rml.predicateObjectMap)
    (object : Option String) : (property x p object).filter isPredicateObjectMap = [] := by
  rw [List.filter_eq_nil_iff]
  rintro ⟨s, q, o⟩ ht
  obtain ⟨rfl, rfl, -⟩ := of_mem_property ht
  simp [isPredicateObjectMap_eq_false hp]

theorem plain_separatedGroup (subjectMap source : Option String) (name pom : String) :
    plain (separatedGroup subjectMap source name pom) name =
      ⟨name, Rdf.type, R2rml.triplesMap⟩ ::
        (property name R2rml.subjectMap subjectMap ++
          property name Rml.logicalSource source) := by
  have htype : plain [⟨name, Rdf.type, R2rml.triplesMap⟩] name =
      [⟨name, Rdf.type, R2rml.triplesMap⟩] := by
    simp [plain, isPredicateObjectMap_eq_false (show Rdf.type ≠ R2rml.predicateObjectMap by decide)]
  have hlink : plain [⟨name, R2rml.predicateObjectMap, pom⟩] name = [] :=
    plain_eq_nil fun t ht _ => by rw [List.mem_singleton.mp ht]; exact beq_self_eq_true _
  rw [separatedGroup, ← List.singleton_append, plain_append, plain_append, plain_append, htype,
    hlink, plain_property (by decide), plain_property (by decide), List.append_nil]

theorem filter_separatedGroup (subjectMap source : Option String) (name pom : String) :
    (separatedGroup subjectMap source name pom).filter isPredicateObjectMap =
      [⟨name, R2rml.predicateObjectMap, pom⟩] := by
  have htype : isPredicateObjectMap ⟨name, Rdf.type, R2rml.triplesMap⟩ = false :=
    isPredicateObjectMap_eq_false (by decide)
  have hlink : isPredicateObjectMap ⟨name, R2rml.predicateObjectMap, pom⟩ = true :=
    beq_self_eq_true _
  rw [separatedGroup, List.filter_append, List.filter_cons_of_neg (by simp [htype]),
    List.filter_append, filter_property (by decide), filter_property (by decide),
    List.filter_cons_of_pos hlink]
  rfl

/-- The links of the old triples map give way to those of the new ones. -/
theorem Arranged.filter_separate (hg : g.Arranged)
    (hlt : 1 < (g.objectsOf triplesMap R2rml.predicateObjectMap).length) :
    (g.separate triplesMap).filter isPredicateObjectMap =
      (g.filter isPredicateObjectMap).filter (·.subject != triplesMap) ++
        numbered (separatedName triplesMap) (fun name pom => [⟨name, R2rml.predicateObjectMap, pom⟩])
          1 (g.objectsOf triplesMap R2rml.predicateObjectMap) := by
  rw [hg.separate_eq hlt, List.filter_append, separatedGroups, filter_numbered]
  simp only [filter_separatedGroup]
  congr 1
  rw [List.filter_filter, List.filter_filter]
  apply List.filter_congr
  intro t _
  by_cases hp : t.predicate = R2rml.predicateObjectMap
  · simp [isPredicateObjectMap, isLinkOf, hp, bne]
  · have hother : (t.predicate == R2rml.predicateObjectMap) = false := beq_false_of_ne hp
    simp [isPredicateObjectMap, hother]

section Names

variable (hg : g.Arranged) (hnames : ∀ n, ¬g.Mentions (separatedName triplesMap n))
  (hlt : 1 < (g.objectsOf triplesMap R2rml.predicateObjectMap).length)
include hg hnames hlt

/-- The triples of a new triples map, links to predicate-object maps apart. -/
theorem Arranged.plain_separate_new {i : Nat} {pom : String}
    (hi : (g.objectsOf triplesMap R2rml.predicateObjectMap)[i]? = some pom) :
    (g.separate triplesMap).plain (separatedName triplesMap (1 + i)) =
      ⟨separatedName triplesMap (1 + i), Rdf.type, R2rml.triplesMap⟩ ::
        (property (separatedName triplesMap (1 + i)) R2rml.subjectMap
            (g.firstObject? triplesMap R2rml.subjectMap) ++
          property (separatedName triplesMap (1 + i)) Rml.logicalSource
            (g.firstObject? triplesMap Rml.logicalSource)) := by
  rw [hg.separate_eq hlt, separatedGroups, plain_append_numbered hi, plain_separatedGroup]
  · intro t ht hs
    exact hnames (1 + i) ⟨t, (List.mem_filter.mp ht).1, .inl hs⟩
  · intro j x _ hji t ht hs
    have hown : t.subject = separatedName triplesMap (1 + j) := by
      rcases mem_separatedGroup.mp ht with rfl | ht | ht | rfl
      · rfl
      · exact (of_mem_property ht).1
      · exact (of_mem_property ht).1
      · rfl
    have hnumbers := (separatedName_inj (hown.symm.trans hs)).2
    omega

/-- A new triples map has the first of the properties that are handed over. -/
theorem Arranged.firstObject?_separate_new {i : Nat} {pom p : String}
    (hi : (g.objectsOf triplesMap R2rml.predicateObjectMap)[i]? = some pom)
    (hp : p ∈ [R2rml.subjectMap, Rml.logicalSource]) :
    (g.separate triplesMap).firstObject? (separatedName triplesMap (1 + i)) p =
      g.firstObject? triplesMap p := by
  have hproperty (q : String) (object : Option String) :
      ((property (separatedName triplesMap (1 + i)) q object).filter (·.predicate == p)).map
        Triple.object = if q = p then object.toList else [] := by
    cases object with
    | none => simp [property]
    | some o => by_cases hq : q = p <;> simp [property, hq]
  have hall : ∀ q ∈ [R2rml.subjectMap, Rml.logicalSource],
      q ≠ R2rml.predicateObjectMap ∧ Rdf.type ≠ q := by decide
  have htype : (Rdf.type == p) = false := beq_false_of_ne (hall p hp).2
  rw [firstObject?, objectsOf_eq_plain (hall p hp).1, hg.plain_separate_new hnames hlt hi,
    List.filter_cons_of_neg (by simp [htype]), List.filter_append, List.map_append, hproperty,
    hproperty]
  have hne : R2rml.subjectMap ≠ Rml.logicalSource := by decide
  simp only [List.mem_cons, List.not_mem_nil, or_false] at hp
  rcases hp with rfl | rfl
  · simp [hne.symm]
  · simp [hne]

/-- The rules of a new triples map are those of the old one under another name. -/
theorem Arranged.map_linkRules_separate (hk : (g.separate triplesMap).Spelled)
    (horigin : ∀ n, m.origin (separatedName triplesMap n) = m.origin triplesMap) {i : Nat}
    {pom : String} (hi : (g.objectsOf triplesMap R2rml.predicateObjectMap)[i]? = some pom) :
    ((g.separate triplesMap).linkRules
        ⟨separatedName triplesMap (1 + i), R2rml.predicateObjectMap, pom⟩).map
        (MappingRule.resolve m c) =
      (g.linkRules ⟨triplesMap, R2rml.predicateObjectMap, pom⟩).map (MappingRule.resolve m c) := by
  have hmem : ⟨triplesMap, R2rml.predicateObjectMap, pom⟩ ∈ g :=
    mem_objectsOf.mp (List.mem_of_getElem? hi)
  have hplain : (g.separate triplesMap).plain pom = g.plain pom := by
    apply hg.plain_separate
    rintro n rfl
    exact hnames n ⟨_, hmem, .inr rfl⟩
  have hhead {p : String} (hp : p ∈ [R2rml.subjectMap, Rml.logicalSource])
      (hlink : p ≠ R2rml.predicateObjectMap) :
      (((g.separate triplesMap).properties (separatedName triplesMap (1 + i))).under p).head? =
        ((g.properties triplesMap).under p).head? := by
    rw [hk.under_properties hlink, hg.spelled.under_properties hlink, List.head?_map, List.head?_map]
    exact congrArg _ (hg.firstObject?_separate_new hnames hlt hi hp)
  have hothers : (g.separate triplesMap).others pom = g.others pom := by rw [others, hplain, others]
  rw [hk.linkRules_eq, hg.spelled.linkRules_eq, pairs_eq_of_plain hplain, List.map_map, List.map_map]
  apply List.map_congr_left
  intro pair _
  simp only [Function.comp_apply, MappingRule.resolve, pairRule, horigin, hothers,
    hhead (show R2rml.subjectMap ∈ [R2rml.subjectMap, Rml.logicalSource] by decide) (by decide),
    hhead (show Rml.logicalSource ∈ [R2rml.subjectMap, Rml.logicalSource] by decide) (by decide)]

theorem Arranged.separatedGraph (htm : triplesMap ∈ g.triplesMaps) :
    SeparatedGraph g (g.separate triplesMap) triplesMap := by
  have hdeclared {i : Nat} {pom : String}
      (hi : (g.objectsOf triplesMap R2rml.predicateObjectMap)[i]? = some pom) :
      ∀ t ∈ separatedGroup (g.firstObject? triplesMap R2rml.subjectMap)
        (g.firstObject? triplesMap Rml.logicalSource) (separatedName triplesMap (1 + i)) pom,
        t ∈ g.separate triplesMap := by
    intro t ht
    rw [hg.separate_eq hlt]
    exact List.mem_append_right _ (mem_numbered.mpr ⟨i, pom, hi, ht⟩)
  constructor
  case kept =>
    intro t ht hnot
    rw [hg.separate_eq hlt]
    exact List.mem_append_left _ (List.mem_filter.mpr ⟨ht, by rw [hnot]; rfl⟩)
  case triple =>
    intro t ht
    rw [hg.separate_eq hlt] at ht
    rcases List.mem_append.mp ht with ht | ht
    · obtain ⟨hmem, hnot⟩ := List.mem_filter.mp ht
      exact .old hmem (by simpa using hnot)
    · obtain ⟨i, pom, hi, hgroup⟩ := mem_numbered.mp ht
      have hname : separatedName triplesMap (1 + i) ∈ (g.separate triplesMap).triplesMaps :=
        mem_subjectsWith.mpr (hdeclared hi _ (mem_separatedGroup.mpr (.inl rfl)))
      obtain ⟨s, p, o⟩ := t
      rcases mem_separatedGroup.mp hgroup with heq | hmem | hmem | heq
      · rw [heq]
        exact .declared (hnames _)
      · obtain ⟨rfl, rfl, ho⟩ := of_mem_property hmem
        exact .copy hname (by decide) (mem_objectsOf.mp (List.mem_of_head? ho))
      · obtain ⟨rfl, rfl, ho⟩ := of_mem_property hmem
        exact .copy hname (by decide) (mem_objectsOf.mp (List.mem_of_head? ho))
      · rw [heq]
        exact .copy hname (by decide) (mem_objectsOf.mp (List.mem_of_getElem? hi))
  case link =>
    intro y hy
    obtain ⟨i, hi⟩ := List.mem_iff_getElem?.mp (mem_objectsOf.mpr hy)
    exact ⟨_, hdeclared hi _ (mem_separatedGroup.mpr (.inr (.inr (.inr rfl))))⟩
  case subject =>
    intro x hx hold
    have hmem := mem_subjectsWith.mp hx
    rw [hg.separate_eq hlt] at hmem
    rcases List.mem_append.mp hmem with hmem | hmem
    · exact absurd (mem_subjectsWith.mpr (List.mem_filter.mp hmem).1) hold
    · obtain ⟨i, pom, hi, hgroup⟩ := mem_numbered.mp hmem
      have hname : x = separatedName triplesMap (1 + i) := by
        rcases mem_separatedGroup.mp hgroup with heq | hp | hp | heq
        · exact congrArg Triple.subject heq
        · exact (of_mem_property hp).1
        · exact (of_mem_property hp).1
        · exact congrArg Triple.subject heq
      obtain ⟨o, ho⟩ := hg.subject triplesMap htm
      cases hfirst : g.firstObject? triplesMap R2rml.subjectMap with
      | none =>
          rw [firstObject?, List.head?_eq_none_iff] at hfirst
          exact absurd (hfirst ▸ mem_objectsOf.mpr ho) List.not_mem_nil
      | some value =>
          refine ⟨value, hname ▸ hdeclared hi _ (mem_separatedGroup.mpr (.inr (.inl ?_)))⟩
          rw [hfirst]
          exact List.mem_map.mpr ⟨value, Option.mem_toList.mpr rfl, rfl⟩

/-- Separating a triples map keeps the rules, up to its name. -/
theorem Arranged.map_rules_separate (htm : triplesMap ∈ g.triplesMaps)
    (horigin : ∀ n, m.origin (separatedName triplesMap n) = m.origin triplesMap) :
    ((g.separate triplesMap).rules.map (MappingRule.resolve m c)).Perm
      (g.rules.map (MappingRule.resolve m c)) := by
  have hk : (g.separate triplesMap).Arranged := (hg.separatedGraph hnames hlt htm).arranged hg htm
  have hframe {x : String} (hx : g.Mentions x) : (g.separate triplesMap).plain x = g.plain x := by
    apply hg.plain_separate
    rintro n rfl
    exact hnames n hx
  have hkept : ((g.filter isPredicateObjectMap).filter (·.subject != triplesMap)).flatMap
      (g.separate triplesMap).linkRules =
      ((g.filter isPredicateObjectMap).filter (·.subject != triplesMap)).flatMap g.linkRules := by
    apply List.flatMap_congr
    intro t ht
    have hmem := (List.mem_filter.mp (List.mem_filter.mp ht).1).1
    exact linkRules_eq_of_plain hg.spelled hk.spelled (hframe ⟨t, hmem, .inl rfl⟩)
      (hframe ⟨t, hmem, .inr rfl⟩)
  have hnew : (numbered (separatedName triplesMap)
      (fun name pom => [⟨name, R2rml.predicateObjectMap, pom⟩]) 1
      (g.objectsOf triplesMap R2rml.predicateObjectMap)).flatMap
        (fun t => ((g.separate triplesMap).linkRules t).map (MappingRule.resolve m c)) =
      (g.objectsOf triplesMap R2rml.predicateObjectMap).flatMap fun pom =>
        (g.linkRules ⟨triplesMap, R2rml.predicateObjectMap, pom⟩).map
          (MappingRule.resolve m c) := by
    apply flatMap_numbered
    intro i pom hi
    rw [List.flatMap_singleton, hg.map_linkRules_separate hnames hlt hk.spelled horigin hi]
  have hold : ((g.filter isPredicateObjectMap).filter (!·.subject != triplesMap)).flatMap
      g.linkRules = (g.objectsOf triplesMap R2rml.predicateObjectMap).flatMap fun pom =>
        g.linkRules ⟨triplesMap, R2rml.predicateObjectMap, pom⟩ := by
    have hmap : (g.filter isPredicateObjectMap).filter (!·.subject != triplesMap) =
        (g.objectsOf triplesMap R2rml.predicateObjectMap).map
          (⟨triplesMap, R2rml.predicateObjectMap, ·⟩) := by
      rw [map_objectsOf, List.filter_filter]
      apply List.filter_congr
      intro t _
      simp [isPredicateObjectMap, bne]
    rw [hmap, List.flatMap_map]
  have hrules : (g.separate triplesMap).rules.map (MappingRule.resolve m c) =
      (((g.filter isPredicateObjectMap).filter (·.subject != triplesMap)).flatMap g.linkRules ++
        ((g.filter isPredicateObjectMap).filter (!·.subject != triplesMap)).flatMap
          g.linkRules).map (MappingRule.resolve m c) := by
    rw [hk.spelled.rules_eq, hg.filter_separate hlt, List.flatMap_append, hkept, List.map_append,
      List.map_flatMap (l := numbered _ _ _ _), hnew, ← List.map_flatMap, ← hold, List.map_append]
  rw [hrules, hg.spelled.rules_eq, ← List.flatMap_append]
  exact ((List.filter_append_perm _ _).flatMap_right _).map _

end Names

/-! ## Declarations and links -/

theorem triplesMaps_append (g k : Graph) :
    triplesMaps (g ++ k) = g.triplesMaps ++ k.triplesMaps := by
  simp [triplesMaps, subjectsWith, subjects]

theorem triplesMaps_separatedGroup (subjectMap source : Option String) (name pom : String) :
    triplesMaps (separatedGroup subjectMap source name pom) = [name] := by
  have hnone (ts : List Triple) (hts : ∀ t ∈ ts, t.predicate ≠ Rdf.type) : triplesMaps ts = [] := by
    rw [List.eq_nil_iff_forall_not_mem]
    intro x hx
    exact hts _ (mem_subjectsWith.mp hx) rfl
  have hproperty (p : String) (hp : p ≠ Rdf.type) (object : Option String) :
      triplesMaps (property name p object) = [] :=
    hnone _ fun t ht => (of_mem_property ht).2.1 ▸ hp
  have hlink : triplesMaps [⟨name, R2rml.predicateObjectMap, pom⟩] = [] :=
    hnone _ fun t ht => by
      rw [List.mem_singleton.mp ht]
      exact (by decide : R2rml.predicateObjectMap ≠ Rdf.type)
  have htype : triplesMaps [⟨name, Rdf.type, R2rml.triplesMap⟩] = [name] := by
    simp [triplesMaps, subjectsWith, subjects]
  rw [separatedGroup, ← List.singleton_append, triplesMaps_append, triplesMaps_append,
    triplesMaps_append, htype, hproperty _ (by decide), hproperty _ (by decide), hlink]
  rfl

theorem triplesMaps_numbered (name : Nat → String) (subjectMap source : Option String) (n : Nat)
    (poms : List String) : triplesMaps (numbered name (separatedGroup subjectMap source) n poms) =
      (List.range' n poms.length).map name := by
  induction poms generalizing n with
  | nil => rfl
  | cons pom others ih =>
      rw [numbered, triplesMaps_append, triplesMaps_separatedGroup, ih, List.length_cons,
        List.range'_succ, List.map_cons]
      rfl

/-- The new triples maps are declared behind the old ones. -/
theorem Arranged.triplesMaps_separate (hg : g.Arranged)
    (hlt : 1 < (g.objectsOf triplesMap R2rml.predicateObjectMap).length) :
    (g.separate triplesMap).triplesMaps = g.triplesMaps ++
      (List.range' 1 (g.objectsOf triplesMap R2rml.predicateObjectMap).length).map
        (separatedName triplesMap) := by
  have hkept : triplesMaps (g.filter (!isLinkOf triplesMap ·) ++ []) = g.triplesMaps := by
    apply triplesMaps_filter_append
    · intro t _ hp _
      have hne : (Rdf.type == R2rml.predicateObjectMap) = false := by decide
      simp [isLinkOf, hp, hne]
    · simp
  rw [hg.separate_eq hlt, triplesMaps_append, separatedGroups, triplesMaps_numbered]
  rw [List.append_nil] at hkept
  rw [hkept]

theorem Arranged.nodup_separate (hg : g.Arranged)
    (hnames : ∀ n, ¬g.Mentions (separatedName triplesMap n)) (hnodup : g.triplesMaps.Nodup) :
    (g.separate triplesMap).triplesMaps.Nodup := by
  by_cases hle : (g.objectsOf triplesMap R2rml.predicateObjectMap).length ≤ 1
  · rw [separate_of_le hle]
    exact hnodup
  · rw [hg.triplesMaps_separate (by omega), List.nodup_append]
    refine ⟨hnodup, ?_, ?_⟩
    · rw [List.Nodup, List.pairwise_map]
      refine (List.nodup_range' (s := 1)).imp ?_
      intro a b hab hname
      exact hab (separatedName_inj hname).2
    · rintro x hx y hy rfl
      obtain ⟨n, -, rfl⟩ := List.mem_map.mp hy
      exact hnames n (mentions_of_mem_triplesMaps hx)

/-! ## All triples maps -/

/-- What becomes of a graph when the listed triples maps are separated. -/
structure SeparatedOut (m g : Graph) (maps : List String) (k : Graph) : Prop where
  arranged : k.Arranged
  nodup : k.triplesMaps.Nodup
  declared : ∀ x ∈ g.triplesMaps, x ∈ k.triplesMaps
  one : ∀ x ∈ k.triplesMaps, (k.objectsOf x R2rml.predicateObjectMap).length ≤ 1
  single : ∀ t ∈ k, isPredicateObjectMap t = true → k.Single t.object
  plain : ∀ x, (∀ triplesMap ∈ maps, ∀ n, x ≠ separatedName triplesMap n) →
    k.plain x = g.plain x
  rules : ∀ c, (k.rules.map (MappingRule.resolve m c)).Perm (g.rules.map (MappingRule.resolve m c))

section Step

variable (hg : g.Arranged) (htm : triplesMap ∈ g.triplesMaps)
  (hnames : ∀ n, ¬g.Mentions (separatedName triplesMap n))
include hg htm hnames

theorem Arranged.separate : (g.separate triplesMap).Arranged := by
  by_cases hle : (g.objectsOf triplesMap R2rml.predicateObjectMap).length ≤ 1
  · rw [separate_of_le hle]
    exact hg
  · exact (hg.separatedGraph hnames (by omega) htm).arranged hg htm

/-- Separation of one triples map makes no use of names that belong to another. -/
theorem Arranged.mentions_separate {x : String} (h : (g.separate triplesMap).Mentions x) :
    g.Mentions x ∨ ∃ n, x = separatedName triplesMap n := by
  by_cases hle : (g.objectsOf triplesMap R2rml.predicateObjectMap).length ≤ 1
  · rw [separate_of_le hle] at h
    exact .inl h
  · obtain ⟨t, ht, hx⟩ := h
    obtain ⟨s, hold, -⟩ := (hg.separatedGraph hnames (by omega) htm).exists_old htm ht
    rcases hx with rfl | rfl
    · rcases mem_of_mem_separate ht with ht | ⟨hname, -⟩
      · exact .inl ⟨t, ht, .inl rfl⟩
      · exact .inr hname
    · exact .inl ⟨_, hold, .inr rfl⟩

end Step

theorem Arranged.foldl_separate (hg : g.Arranged) {maps : List String} (hmaps : maps.Nodup)
    (hdeclared : ∀ x ∈ maps, x ∈ g.triplesMaps)
    (hnames : ∀ x ∈ maps, ∀ n, ¬g.Mentions (separatedName x n))
    (horigin : ∀ x ∈ maps, ∀ n, m.origin (separatedName x n) = m.origin x)
    (hnodup : g.triplesMaps.Nodup)
    (hone : ∀ x ∈ g.triplesMaps, x ∈ maps ∨
      (g.objectsOf x R2rml.predicateObjectMap).length ≤ 1)
    (hsingle : g.Paired) :
    SeparatedOut m g maps (maps.foldl Graph.separate g) := by
  induction maps generalizing g with
  | nil =>
      refine ⟨hg, hnodup, fun x hx => hx, ?_, hsingle, fun x _ => rfl, fun c => .refl _⟩
      intro x hx
      exact (hone x hx).resolve_left List.not_mem_nil
  | cons triplesMap others ih =>
      rw [List.forall_mem_cons] at hdeclared hnames horigin
      obtain ⟨hnot, hothers⟩ := List.nodup_cons.mp hmaps
      have hnext := hg.separate hdeclared.1 hnames.1
      have hmem (x : String) (hx : x ∈ g.triplesMaps) : x ∈ (g.separate triplesMap).triplesMaps :=
        mem_triplesMaps_separate.mpr (.inl hx)
      have hunlinked : ∀ x ∈ g.newNames triplesMap,
          g.objectsOf x R2rml.predicateObjectMap ≠ [] → x ∈ others := by
        intro x hx htaken
        obtain ⟨-, i, -, rfl⟩ := mem_newNames.mp hx
        refine absurd (objectsOf_eq_nil fun t ht hs => ?_) htaken
        exact absurd ⟨t, ht, .inl hs⟩ (hnames.1 (1 + i))
      have hfresh : ∀ x ∈ others, ∀ n, ¬(g.separate triplesMap).Mentions (separatedName x n) := by
        intro x hx n hmention
        rcases hg.mentions_separate hdeclared.1 hnames.1 hmention with hold | ⟨i, hi⟩
        · exact hnames.2 x hx n hold
        · exact hnot ((separatedName_inj hi).1 ▸ hx)
      have hsteps := ih hnext hothers (fun x hx => hmem x (hdeclared.2 x hx)) hfresh horigin.2
        (hg.nodup_separate hnames.1 hnodup)
        (linkedOnce_separate hunlinked hone) (hsingle.separate triplesMap)
      refine ⟨hsteps.arranged, hsteps.nodup, fun x hx => hsteps.declared x (hmem x hx), hsteps.one,
        hsteps.single, ?_, ?_⟩
      · intro x hx
        rw [List.forall_mem_cons] at hx
        exact (hsteps.plain x hx.2).trans (hg.plain_separate hx.1)
      · intro c
        refine (hsteps.rules c).trans ?_
        by_cases hle : (g.objectsOf triplesMap R2rml.predicateObjectMap).length ≤ 1
        · rw [separate_of_le hle]
        · exact hg.map_rules_separate hnames.1 (by omega) hdeclared.1 horigin.1

end RmlAlgebra.Graph
