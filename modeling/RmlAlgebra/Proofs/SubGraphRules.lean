import RmlAlgebra.Proofs.SeparatedRules
import RmlAlgebra.Proofs.Traversal

/-! # The rule of a sub-graph

A triples map with a predicate-object map finds it first, and then nothing that a joined triples map
links to is a predicate-object map any more. So the sub-graph has the rules of its root. A triples map
that has handed over its predicate-object maps reaches none, because the only way back to a triples
map leads through an object map.
-/

namespace RmlAlgebra.Graph

variable {g k : Graph} {root pom : String}

/-! ## Roots without a predicate-object map -/

/-- The properties that make a triple part of a predicate-object map. -/
def rulePredicates : List String :=
  [R2rml.predicateObjectMap, R2rml.predicateMap, R2rml.objectMap]

/-- What a visit adds if no predicate-object map was met before. -/
theorem Arranged.not_mem_rulePredicates_visit (hk : k.Arranged) (hroot : root ∈ k.triplesMaps)
    (hnone : k.objectsOf root R2rml.predicateObjectMap = []) {node : String} {stack : List String}
    {w : Walk} (hw : Walked k root (node :: stack) w)
    (hplain : ∀ t ∈ w.triples, t.predicate ∉ rulePredicates) {t : Triple} (ht : t ∈ k)
    (hs : t.subject = node) : t.predicate ∉ rulePredicates := by
  have hnot (p : String) (hp : p ∈ rulePredicates) {u : Triple} (hu : u ∈ w.triples) :
      u.predicate ≠ p := fun h => hplain u hu (h ▸ hp)
  have hnode := hw.reached node (.inr List.mem_cons_self)
  intro hp
  by_cases hlink : isPredicateObjectMap t = true
  · have howner : node ∈ k.triplesMaps := hs ▸ hk.owner t ht hlink
    rcases hnode with rfl | ⟨u, hu, hlinkU, ho⟩
    · have hmem : t.object ∈ k.objectsOf node R2rml.predicateObjectMap := by
        rw [mem_objectsOf, ← hs, ← isPredicateObjectMap_iff.mp hlink]
        exact ht
      rw [hnone] at hmem
      exact absurd hmem List.not_mem_nil
    · -- The way to this triples map would have led through an object map.
      obtain ⟨hnotDeclared, hinto⟩ := hk.joined u (hw.mem u hu).1 hlinkU (ho ▸ howner)
      rcases hw.reached u.subject (.inl (hw.mem u hu).2) with hsame | ⟨v, hv, hlinkV, hov⟩
      · exact hnotDeclared (hsame ▸ hroot)
      · exact hnot _ (by decide) hv (hinto v (hw.mem v hv).1 hlinkV hov)
  · have hterm : t.predicate = R2rml.predicateMap ∨ t.predicate = R2rml.objectMap := by
      simp only [rulePredicates, List.mem_cons, List.not_mem_nil, or_false] at hp
      exact hp.resolve_left fun hp => hlink (isPredicateObjectMap_iff.mpr hp)
    obtain ⟨u, hu, hlinkU, ho⟩ := hk.term t ht hterm
    rw [hs] at ho
    rcases hnode with rfl | ⟨v, hv, hlinkV, hov⟩
    · exact hk.undeclared u hu hlinkU (ho ▸ hroot)
    · have hmet := hk.link u hu hlinkU v (hw.mem v hv).1 hlinkV (hov.trans ho.symm)
      exact hnot _ (by decide) hv (isPredicateObjectMap_iff.mp hmet)

/-- From a triples map without predicate-object maps none is reached. -/
theorem Arranged.not_mem_rulePredicates (hk : k.Arranged) (hroot : root ∈ k.triplesMaps)
    (hnone : k.objectsOf root R2rml.predicateObjectMap = []) :
    ∀ t ∈ k.reachable root, t.predicate ∉ rulePredicates := by
  have hrun : Walked k root [] (k.walk root) ∧
      ∀ t ∈ (k.walk root).triples, t.predicate ∉ rulePredicates := by
    apply walk_induct (motive := fun stack w =>
      Walked k root stack w ∧ ∀ t ∈ w.triples, t.predicate ∉ rulePredicates)
    · rintro node stack w hv ⟨hw, hplain⟩
      exact ⟨hw.skip hv, hplain⟩
    · rintro node stack w hv ⟨hw, hplain⟩
      refine ⟨hw.visit hv, ?_⟩
      intro t ht
      rcases List.mem_append.mp ht with ht | ht
      · exact hplain t ht
      · obtain ⟨hmem, hs⟩ := mem_of_mem_keptAt (w := w) ht
        exact hk.not_mem_rulePredicates_visit hroot hnone hw hplain hmem hs
    · exact ⟨walked_start k root, by simp⟩
  exact hrun.2

theorem isComplete_iff : g.isComplete = true ↔
    (∃ t ∈ g, t.predicate = R2rml.subjectMap) ∧ (∃ t ∈ g, t.predicate = R2rml.predicateMap) ∧
      ∃ t ∈ g, t.predicate = R2rml.objectMap := by
  simp [isComplete, countPredicate, List.countP_pos_iff, and_assoc]

/-! ## Roots with a predicate-object map -/

section Root

variable (hk : k.Arranged) (hroot : root ∈ k.triplesMaps)
  (hone : k.objectsOf root R2rml.predicateObjectMap = [pom])
include hone

/-- The only link to a predicate-object map that a sub-graph keeps is that of its root. -/
theorem filter_reachable : (k.reachable root).filter isPredicateObjectMap =
    [⟨root, R2rml.predicateObjectMap, pom⟩] := by
  have hlinks : (k.filter (·.subject == root)).filter isPredicateObjectMap =
      [⟨root, R2rml.predicateObjectMap, pom⟩] := by
    have hmap := map_objectsOf k root R2rml.predicateObjectMap
    rw [hone, List.map_singleton] at hmap
    rw [hmap, List.filter_filter]
    apply List.filter_congr
    intro t _
    rw [isPredicateObjectMap, Bool.and_comm]
  obtain ⟨rest, hrest⟩ := k.prefix_reachable root
  have hsplit : (k.reachable root).filter isPredicateObjectMap =
      ⟨root, R2rml.predicateObjectMap, pom⟩ :: rest.filter isPredicateObjectMap := by
    rw [← hrest, List.filter_append, filter_keepFirst_false, hlinks]
    rfl
  have hlength : ((k.reachable root).filter isPredicateObjectMap).length ≤ 1 := by
    rw [reachable, (walked k root).single]
    split <;> omega
  rw [hsplit, List.length_cons] at hlength
  have hnil : rest.filter isPredicateObjectMap = [] := List.length_eq_zero_iff.mp (by omega)
  rw [hsplit, hnil]

theorem mem_reachable_link : ⟨root, R2rml.predicateObjectMap, pom⟩ ∈ k.reachable root := by
  have hmem : ⟨root, R2rml.predicateObjectMap, pom⟩ ∈
      (k.reachable root).filter isPredicateObjectMap := by
    rw [filter_reachable hone]
    exact List.mem_singleton_self _
  exact (List.mem_filter.mp hmem).1

include hk

theorem Arranged.mem_visited : pom ∈ (k.walk root).visited := by
  have hmem := mem_reachable_link hone
  have hlink := hk.isLink (mem_of_mem_reachable hmem) (beq_self_eq_true _)
  exact ((walked k root).closed _ hmem hlink).resolve_right List.not_mem_nil

/-- The sub-graph of a triples map has the rules at its link to its predicate-object map. -/
theorem Arranged.rules_reachable :
    (k.reachable root).rules = k.linkRules ⟨root, R2rml.predicateObjectMap, pom⟩ := by
  have hw := walked k root
  have hvisited := k.mem_visited_root root
  have hspelled : (k.reachable root).Spelled := fun t ht => hk.spelled t (hw.mem t ht).1
  rw [hspelled.rules_eq, filter_reachable hone, List.flatMap_singleton]
  exact linkRules_eq_of_plain hk.spelled hspelled (hw.plain root hvisited)
    (hw.plain pom (hk.mem_visited hone))

include hroot

/-- Predicate maps and object maps in a sub-graph belong to the predicate-object map of the root. -/
theorem Arranged.subject_eq_of_term {t : Triple} (ht : t ∈ k.reachable root)
    (hp : t.predicate = R2rml.predicateMap ∨ t.predicate = R2rml.objectMap) : t.subject = pom := by
  have hw := walked k root
  obtain ⟨u, hu, hlinkU, ho⟩ := hk.term t (hw.mem t ht).1 hp
  rcases hw.reached t.subject (.inl (hw.mem t ht).2) with hsame | ⟨v, hv, hlinkV, hov⟩
  · exact absurd (ho.trans hsame ▸ hroot) (hk.undeclared u hu hlinkU)
  · have hmet := hk.link u hu hlinkU v (hw.mem v hv).1 hlinkV (hov.trans ho.symm)
    have hmem : v ∈ (k.reachable root).filter isPredicateObjectMap := List.mem_filter.mpr ⟨hv, hmet⟩
    rw [filter_reachable hone, List.mem_singleton] at hmem
    rw [← hov, hmem]

/-- The sub-graph is complete if its predicate-object map has a predicate map and an object map. -/
theorem Arranged.isComplete_reachable :
    (k.reachable root).isComplete = true ↔ k.pairs pom ≠ [] := by
  have hw := walked k root
  have hvisited := k.mem_visited_root root
  have hterm {p : String} (hp : p = R2rml.predicateMap ∨ p = R2rml.objectMap) :
      (∃ t ∈ k.reachable root, t.predicate = p) ↔ ∃ o, o ∈ k.objectsOf pom p := by
    constructor
    · rintro ⟨t, ht, rfl⟩
      refine ⟨t.object, mem_objectsOf.mpr ?_⟩
      rw [← hk.subject_eq_of_term hroot hone ht hp]
      exact (hw.mem t ht).1
    · rintro ⟨o, ho⟩
      have hplain : ⟨pom, p, o⟩ ∈ k.plain pom := by
        refine mem_plain.mpr ⟨mem_objectsOf.mp ho, rfl, isPredicateObjectMap_eq_false ?_⟩
        rcases hp with rfl | rfl <;> decide
      have hmem : ⟨pom, p, o⟩ ∈ (k.reachable root).plain pom := by
        rw [reachable, plain, hw.plain pom (hk.mem_visited hone)]
        exact hplain
      exact ⟨_, (mem_plain.mp hmem).1, rfl⟩
  have hsubject : ∃ t ∈ k.reachable root, t.predicate = R2rml.subjectMap := by
    obtain ⟨o, ho⟩ := hk.subject root hroot
    have hmem : ⟨root, R2rml.subjectMap, o⟩ ∈ (k.reachable root).plain root := by
      rw [reachable, plain, hw.plain root hvisited]
      exact mem_plain.mpr ⟨ho, rfl, isPredicateObjectMap_eq_false (by decide)⟩
    exact ⟨_, (mem_plain.mp hmem).1, rfl⟩
  rw [isComplete_iff, hterm (.inl rfl), hterm (.inr rfl), and_iff_right hsubject]
  constructor
  · rintro ⟨⟨p, hp⟩, o, ho⟩
    exact List.ne_nil_of_mem (mem_pairs.mpr (⟨hp, ho⟩ : (p, o).1 ∈ _ ∧ (p, o).2 ∈ _))
  · intro hpairs
    obtain ⟨pair, hpair⟩ := List.exists_mem_of_ne_nil _ hpairs
    exact ⟨⟨_, (mem_pairs.mp hpair).1⟩, ⟨_, (mem_pairs.mp hpair).2⟩⟩

end Root

/-! ## Terms -/

theorem resolve_eq_of_plain {c d : Graph} {x : String}
    (h : isLabel x = true → ¬g.Mentions x → d.plain x = c.plain x) :
    RuleTerm.resolve g d (.node x) = RuleTerm.resolve g c (.node x) := by
  by_cases hnew : isLabel x = true ∧ ¬g.Mentions x
  · have hconstant : R2rml.constant ≠ R2rml.predicateObjectMap := by decide
    rw [RuleTerm.resolve, RuleTerm.resolve, if_pos hnew, if_pos hnew, firstObject?, firstObject?,
      objectsOf_eq_plain hconstant, objectsOf_eq_plain hconstant, h hnew.1 hnew.2]
  · rw [RuleTerm.resolve, RuleTerm.resolve, if_neg hnew, if_neg hnew]

/-- Rules stand for the same if the new labels in them have the same constants. -/
theorem map_linkRules_congr {c d : Graph} (hk : k.Spelled) {t : Triple}
    (h : ∀ u ∈ k, u.subject = t.subject ∨ u.subject = t.object → isPredicateObjectMap u = false →
      isLabel u.object = true → ¬g.Mentions u.object → d.plain u.object = c.plain u.object) :
    (k.linkRules t).map (MappingRule.resolve g d) =
      (k.linkRules t).map (MappingRule.resolve g c) := by
  have hproperties (x : String) (hx : x = t.subject ∨ x = t.object) :
      (k.properties x).resolve g d = (k.properties x).resolve g c := by
    rw [hk.properties_eq, Properties.resolve, Properties.resolve, List.map_map, List.map_map]
    apply List.map_congr_left
    intro u hu
    obtain ⟨hmem, rfl, hplain⟩ := mem_plain.mp hu
    simp only [Function.comp_apply]
    rw [resolve_eq_of_plain (h u hmem hx hplain)]
  rw [linkRules, MappingRule.map_resolve_product, MappingRule.map_resolve_product,
    hproperties _ (.inl rfl), hproperties _ (.inr rfl)]

/-- A sub-graph holds the constants of all new labels in its rules. -/
theorem Arranged.map_rules_reachable (hk : k.Arranged)
    (hone : k.objectsOf root R2rml.predicateObjectMap = [pom])
    (hvalues : ∀ t ∈ k, valuePredicates.contains t.predicate = true → isLabel t.object = true →
      g.Mentions t.object) :
    (k.reachable root).rules.map (MappingRule.resolve g (k.reachable root)) =
      (k.linkRules ⟨root, R2rml.predicateObjectMap, pom⟩).map (MappingRule.resolve g k) := by
  have hw := walked k root
  rw [hk.rules_reachable hone]
  apply map_linkRules_congr hk.spelled
  intro u hu hs hplain hlabel hnew
  have hvisited : u.subject ∈ (k.walk root).visited := by
    rcases hs with hs | hs
    · exact hs ▸ k.mem_visited_root root
    · exact hs ▸ hk.mem_visited hone
  have hmem : u ∈ (k.reachable root).plain u.subject := by
    rw [reachable, plain, hw.plain _ hvisited]
    exact mem_plain.mpr ⟨hu, rfl, hplain⟩
  have hlink : Graph.isLink u = true := by
    have hvalue : valuePredicates.contains u.predicate = false := by
      rw [Bool.eq_false_iff]
      exact fun hvalue => hnew (hvalues u hu hvalue hlabel)
    rw [Graph.isLink, isNode, hlabel, hvalue]
    rfl
  have hfollowed := (hw.closed u (mem_plain.mp hmem).1 hlink).resolve_right List.not_mem_nil
  exact hw.plain _ hfollowed

/-! ## All sub-graphs -/

/-- Triples can be put in the order of their subjects. -/
theorem perm_flatMap_filter {keys : List String} {ts : List Triple} (hnodup : keys.Nodup)
    (h : ∀ t ∈ ts, t.subject ∈ keys) :
    ts.Perm (keys.flatMap fun x => ts.filter (·.subject == x)) := by
  induction keys generalizing ts with
  | nil =>
      have hnil : ts = [] := List.eq_nil_iff_forall_not_mem.mpr fun t ht =>
        absurd (h t ht) List.not_mem_nil
      rw [hnil]
      exact .refl _
  | cons x others ih =>
      obtain ⟨hnot, hothers⟩ := List.nodup_cons.mp hnodup
      have hkeys : ∀ t ∈ ts.filter (!·.subject == x), t.subject ∈ others := by
        intro t ht
        obtain ⟨hmem, hne⟩ := List.mem_filter.mp ht
        exact (List.mem_cons.mp (h t hmem)).resolve_left (by simpa using hne)
      have hrest := ih hothers hkeys
      have hsame : (others.flatMap fun y => (ts.filter (!·.subject == x)).filter (·.subject == y)) =
          others.flatMap fun y => ts.filter (·.subject == y) := by
        apply List.flatMap_congr
        intro y hy
        have hne : y ≠ x := fun h => hnot (h ▸ hy)
        rw [List.filter_filter]
        apply List.filter_congr
        intro t _
        by_cases hs : t.subject = y
        · simp [hs, hne]
        · simp [hs]
      rw [hsame] at hrest
      rw [List.flatMap_cons]
      exact (List.filter_append_perm _ _).symm.trans (hrest.append_left _)

theorem flatMap_filter_eq {α β : Type} (p : α → Bool) (f : α → List β) (xs : List α) :
    (xs.filter p).flatMap f = xs.flatMap fun x => if p x = true then f x else [] := by
  induction xs with
  | nil => rfl
  | cons x others ih => by_cases hp : p x = true <;> simp [hp, ih]

theorem eq_nil_or_singleton {α : Type} {xs : List α} (h : xs.length ≤ 1) :
    xs = [] ∨ ∃ x, xs = [x] := by
  cases xs with
  | nil => exact .inl rfl
  | cons x others =>
      rw [List.length_cons] at h
      have hnil : others = [] := List.length_eq_zero_iff.mp (by omega)
      exact .inr ⟨x, by rw [hnil]⟩

theorem length_pairs_le (h : g.Single pom) : (g.pairs pom).length ≤ 1 := by
  rcases eq_nil_or_singleton h.1 with hnone | ⟨p, hp⟩
  · simp [pairs, hnone]
  · simpa [pairs, hp] using h.2

section Roots

variable (hk : k.Arranged)
  (hone : ∀ x ∈ k.triplesMaps, (k.objectsOf x R2rml.predicateObjectMap).length ≤ 1)
include hk hone

/-- A complete sub-graph has the rules at the links of its root, and an incomplete one is no loss. -/
theorem Arranged.map_rules_root (hroot : root ∈ k.triplesMaps)
    (hvalues : ∀ t ∈ k, valuePredicates.contains t.predicate = true → isLabel t.object = true →
      g.Mentions t.object) :
    (if (k.reachable root).isComplete = true then
        (k.reachable root).rules.map (MappingRule.resolve g (k.reachable root)) else []) =
      (((k.filter isPredicateObjectMap).filter (·.subject == root)).flatMap k.linkRules).map
        (MappingRule.resolve g k) := by
  have hlinks : (k.filter isPredicateObjectMap).filter (·.subject == root) =
      (k.objectsOf root R2rml.predicateObjectMap).map
        (⟨root, R2rml.predicateObjectMap, ·⟩) := by
    rw [map_objectsOf, List.filter_filter]
    rfl
  rw [hlinks]
  rcases eq_nil_or_singleton (hone root hroot) with hnone | ⟨pom, hpom⟩
  · rw [hnone, if_neg]
    · rfl
    · intro hcomplete
      obtain ⟨-, ⟨t, ht, hp⟩, -⟩ := isComplete_iff.mp hcomplete
      exact hk.not_mem_rulePredicates hroot hnone t ht (by rw [hp]; decide)
  · rw [hpom, List.map_singleton, List.flatMap_singleton]
    by_cases hcomplete : (k.reachable root).isComplete = true
    · rw [if_pos hcomplete, hk.map_rules_reachable hpom hvalues]
    · have hpairs : k.pairs pom = [] := by
        by_contra hpairs
        exact hcomplete ((hk.isComplete_reachable hroot hpom).mpr hpairs)
      rw [if_neg hcomplete, hk.spelled.linkRules_eq, hpairs]
      rfl

/-- The sub-graphs have the rules of the whole graph, one each. -/
theorem Arranged.rules_subGraphs (hnodup : k.triplesMaps.Nodup)
    (hsingle : ∀ t ∈ k, isPredicateObjectMap t = true → k.Single t.object)
    (hvalues : ∀ t ∈ k, valuePredicates.contains t.predicate = true → isLabel t.object = true →
      g.Mentions t.object) :
    (∀ sub ∈ k.subGraphs, sub.rules.length = 1) ∧
      (k.subGraphs.flatMap fun sub => sub.rules.map (MappingRule.resolve g sub)).Perm
        (k.rules.map (MappingRule.resolve g k)) := by
  constructor
  · intro sub hsub
    obtain ⟨hmap, hcomplete⟩ := List.mem_filter.mp hsub
    obtain ⟨root, hroot, rfl⟩ := List.mem_map.mp hmap
    rcases eq_nil_or_singleton (hone root hroot) with hnone | ⟨pom, hpom⟩
    · obtain ⟨-, ⟨t, ht, hp⟩, -⟩ := isComplete_iff.mp hcomplete
      exact absurd (by rw [hp]; decide) (hk.not_mem_rulePredicates hroot hnone t ht)
    · have hpairs := (hk.isComplete_reachable hroot hpom).mp hcomplete
      have hlink : ⟨root, R2rml.predicateObjectMap, pom⟩ ∈ k :=
        mem_of_mem_reachable (mem_reachable_link hpom)
      have hle := length_pairs_le (hsingle _ hlink (beq_self_eq_true _))
      have hpos := List.length_pos_iff.mpr hpairs
      rw [hk.rules_reachable hpom, hk.spelled.linkRules_eq, List.length_map]
      simp only at hle ⊢
      omega
  · have hroots : (k.subGraphs.flatMap fun sub => sub.rules.map (MappingRule.resolve g sub)) =
        k.triplesMaps.flatMap fun root =>
          (((k.filter isPredicateObjectMap).filter (·.subject == root)).flatMap k.linkRules).map
            (MappingRule.resolve g k) := by
      rw [subGraphs, flatMap_filter_eq, List.flatMap_map]
      apply List.flatMap_congr
      intro root hroot
      exact hk.map_rules_root hone hroot hvalues
    have howner : ∀ t ∈ k.filter isPredicateObjectMap, t.subject ∈ k.triplesMaps := by
      intro t ht
      exact hk.owner t (List.mem_filter.mp ht).1 (List.mem_filter.mp ht).2
    have hperm := ((perm_flatMap_filter hnodup howner).flatMap_right k.linkRules).map
      (MappingRule.resolve g k)
    rw [hroots, hk.spelled.rules_eq, ← List.map_flatMap, ← List.flatMap_assoc]
    exact hperm.symm

end Roots

end RmlAlgebra.Graph
