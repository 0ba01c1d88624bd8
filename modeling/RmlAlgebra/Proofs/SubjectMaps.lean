import RmlAlgebra.Proofs.Fixpoint
import RmlAlgebra.Proofs.TakenNames

/-! # One subject map for each triples map

A mapping is checked once, before it is rewritten, and the check counts the subject maps that are
written in full. A constant subject becomes a subject map only afterwards, and separation hands the
subject map of a triples map on to the new ones. So the triples maps of the sub-graphs have one subject
map at most if no constant subject stands beside another subject, and if no new name has a subject
map of its own.
-/

namespace RmlAlgebra.Graph

variable {g start : Graph} {supply : Supply} {x p pom triplesMap : String}
  {parents poms maps : List String}

/-- Whether every triples map has one subject map at most. -/
def SubjectOnce (g : Graph) : Prop :=
  ∀ x ∈ g.triplesMaps, (g.objectsOf x R2rml.subjectMap).length ≤ 1

/-! ## Constant subjects -/

/-- Spelling out the shortcuts among some triples makes a subject map of each constant subject. -/
theorem count_subjectMap_constants (ts : List Triple) :
    ((ts.filter (!isShortcut ·)).map Triple.predicate).count R2rml.subjectMap +
        ((constants ts).map Triple.predicate).count R2rml.subjectMap =
      (ts.map Triple.predicate).count R2rml.subjectMap +
        (ts.map Triple.predicate).count R2rml.subject := by
  have hall : ∀ a ∈ shortcuts, a.1 ≠ R2rml.subjectMap ∧
      (a.2 = R2rml.subjectMap ↔ a.1 = R2rml.subject) := by decide
  have hsubject : shortcut? R2rml.subject = some R2rml.subjectMap := by decide
  induction ts with
  | nil => rfl
  | cons t others ih =>
      cases hq : shortcut? t.predicate with
      | none =>
          have hne : t.predicate ≠ R2rml.subject := by
            intro hp
            rw [hp, hsubject] at hq
            cases hq
          simp [isShortcut, constants, hq, hne, List.count_cons] at ih ⊢
          omega
      | some q =>
          obtain ⟨hne, hiff⟩ := hall _ (mem_shortcuts hq)
          simp [isShortcut, constants, hq, hne, List.count_cons, hiff] at ih ⊢
          omega

/-- After the first two expansions an old node has a subject map for each of its subjects, whether
they were written in full or as constants. -/
theorem length_subjectMaps_spellTerms (hx : supply.Older x)
    (hlimit : (g.spellTerms supply).2.last < UInt64.size) :
    ((g.spellTerms supply).1.objectsOf x R2rml.subjectMap).length =
      (g.objectsOf x R2rml.subjectMap).length + (g.objectsOf x R2rml.subject).length := by
  have hclasses := Nat.lt_of_le_of_lt (last_le_expandConstants _ _) hlimit
  have hcount {p : String} (hp : p ≠ R2rml.class_) :
      (((g.plain x).filter (!isClass ·)).map Triple.predicate).count p =
        ((g.plain x).map Triple.predicate).count p := by
    rw [List.count_eq_countP, List.count_eq_countP, List.countP_map, List.countP_map,
      List.countP_filter]
    apply List.countP_congr
    intro t _
    simp only [Function.comp_apply, Bool.and_eq_true, beq_iff_eq, Bool.not_eq_true']
    exact ⟨And.left, fun h => ⟨h, beq_false_of_ne (h ▸ hp)⟩⟩
  have hx' := hx.mono (g.last_le_expandClasses supply)
  rw [length_objectsOf (by decide), length_objectsOf (by decide), length_objectsOf (by decide),
    spellTerms, predicates_expandConstants hx' hlimit, List.count_append,
    count_subjectMap_constants, plain_expandClasses hx hclasses, hcount (by decide),
    hcount (by decide)]

theorem subjectOnce_spellTerms_iff (hg : g.Before supply)
    (hlimit : (g.spellTerms supply).2.last < UInt64.size) :
    (g.spellTerms supply).1.SubjectOnce ↔ ∀ x ∈ g.triplesMaps,
      (g.objectsOf x R2rml.subjectMap).length + (g.objectsOf x R2rml.subject).length ≤ 1 := by
  rw [SubjectOnce, triplesMaps_spellTerms]
  apply forall₂_congr
  intro x hx
  rw [length_subjectMaps_spellTerms (hg _ (mem_subjectsWith.mp hx)).1 hlimit]

/-! ## Multiplying out -/

/-- A new predicate-object map shares the other properties of the old one. -/
theorem objectsOf_pairGroup (hp : p ∉ [R2rml.predicateObjectMap, R2rml.predicateMap, R2rml.objectMap])
    (label : String) (pair : String × String) :
    objectsOf (pairGroup parents (g.filter (isShared pom)) label pair) label p =
      g.objectsOf pom p := by
  simp only [List.mem_cons, List.not_mem_nil, or_false, not_or] at hp
  obtain ⟨hlink, hpredicate, hobject⟩ := hp
  have hlinks : objectsOf (parents.map (⟨·, R2rml.predicateObjectMap, label⟩)) label p = [] := by
    apply objectsOf_eq_nil
    intro t ht _
    obtain ⟨y, -, rfl⟩ := List.mem_map.mp ht
    exact Ne.symm hlink
  have hshared : objectsOf ((g.filter (isShared pom)).map fun t => { t with subject := label })
      label p = g.objectsOf pom p := by
    rw [objectsOf, objectsOf, List.filter_map, List.map_map, List.filter_filter]
    congr 1
    apply List.filter_congr
    intro t _
    by_cases htp : t.predicate = p
    · simp [isShared, htp, bne_iff_ne.mpr hpredicate, bne_iff_ne.mpr hobject]
    · simp [beq_false_of_ne htp]
  rw [pairGroup, pairTriples, objectsOf_append, hlinks, objectsOf_cons_self, objectsOf_cons_self,
    if_neg (Ne.symm hpredicate), if_neg (Ne.symm hobject), hshared, List.nil_append]

/-- A triples map that is multiplied out hands its declaration on together with its subject map. -/
theorem SubjectOnce.multiplyOut (hg : g.SubjectOnce) (hbefore : g.Before supply)
    (hparents : ∀ y ∈ parents, supply.Older y)
    (hlimit : (g.multiplyOut parents pom supply).2.last < UInt64.size) :
    (g.multiplyOut parents pom supply).1.SubjectOnce := by
  have hp : R2rml.subjectMap ≠ R2rml.predicateObjectMap := by decide
  by_cases hsingle : g.Single pom
  · rw [multiplyOut_of_single hsingle]
    exact hg
  · intro x hx
    have ht := mem_subjectsWith.mp hx
    rw [multiplyOut_of_not_single hsingle] at ht
    rcases List.mem_append.mp ht with ht | ht
    · obtain ⟨hold, habout⟩ := List.mem_filter.mp ht
      have hne : x ≠ pom := by
        rintro rfl
        simp [isAbout] at habout
      rw [objectsOf_eq_plain hp, plain_multiplyOut (hbefore _ hold).1 hne hlimit,
        ← objectsOf_eq_plain hp]
      exact hg x (mem_subjectsWith.mpr hold)
    · obtain ⟨i, pair, hi, ht⟩ := mem_numbered.mp ht
      rcases of_mem_pairGroup (List.mem_of_getElem? hi) ht with ⟨y, -, heq⟩ | ⟨hlabel, hold⟩
      · exact absurd (congrArg Triple.predicate heq) (by decide : Rdf.type ≠ R2rml.predicateObjectMap)
      · obtain rfl : x = Label.ofNat (supply.last + 1 + i) := hlabel
        rw [multiplyOut_of_not_single hsingle] at hlimit ⊢
        rw [objectsOf_new hp hbefore _ (hbefore.pairGroup hparents pom) hlimit hi,
          objectsOf_pairGroup (by decide)]
        exact hg pom (mem_subjectsWith.mpr hold)

theorem SubjectOnce.multiplyOutAll (hg : g.SubjectOnce) (hstart : start.Before supply)
    (hbefore : g.Before supply)
    (hlimit : (multiplyOutAll start poms g supply).2.last < UInt64.size) :
    (multiplyOutAll start poms g supply).1.SubjectOnce := by
  apply multiplyOutAll_induct (motive := fun _ g _ => g.SubjectOnce) _ hstart hbefore hg hlimit
  intro pom others g supply hbefore hparents hlimit hg
  exact hg.multiplyOut hbefore hparents hlimit

/-! ## Separation -/

theorem SubjectOnce.separate (hg : g.SubjectOnce)
    (hnames : ∀ x ∈ g.newNames triplesMap, g.objectsOf x R2rml.subjectMap = []) :
    (g.separate triplesMap).SubjectOnce := by
  intro x hx
  by_cases hnew : x ∈ g.newNames triplesMap
  · obtain ⟨k, subjectMap, source, pom, hk⟩ := exists_objectsOf_separate_new hnew
    rw [hk, hnames x hnew, List.nil_append]
    exact k.length_subjectMaps_separatedTriples subjectMap source x pom
  · rw [objectsOf_separate_old hnew (.inr (by decide))]
    exact hg x ((mem_triplesMaps_separate.mp hx).resolve_right hnew)

theorem SubjectOnce.foldl_separate (hg : g.SubjectOnce)
    (hnames : NamesFree R2rml.subjectMap g maps) : (maps.foldl Graph.separate g).SubjectOnce := by
  induction maps generalizing g with
  | nil => exact hg
  | cons triplesMap later ih => exact ih (hg.separate hnames.1) hnames.2

/-! ## Sub-graphs -/

theorem SubjectOnce.reachable (hg : g.SubjectOnce) (root : String) :
    (g.reachable root).SubjectOnce := by
  intro x hx
  have hdeclared := mem_subjectsWith.mpr (mem_of_mem_reachable (mem_subjectsWith.mp hx))
  exact Nat.le_trans (length_objectsOf_reachable_le (by decide)) (hg x hdeclared)

/-- The triples maps of the sub-graphs have one subject map at most, provided that no triples map has
a constant subject beside another subject, and that no name has a subject map when separation gives
it. -/
theorem subjectOnce_of_normalize {seed : UInt32} {subs : List Graph}
    (hlimit : (g.spellOut (g.supply seed)).2.last < UInt64.size)
    (h : g.normalize seed = .ok subs)
    (hconstant : ∀ x ∈ g.triplesMaps, (g.objectsOf x R2rml.subject).length ≤ 1 ∧
      (g.objectsOf x R2rml.subject ≠ [] → g.objectsOf x R2rml.subjectMap = []))
    (hnames : NamesFree R2rml.subjectMap (g.spellMaps (g.supply seed)).1
      (g.spellMaps (g.supply seed)).1.triplesMaps) :
    ∀ sub ∈ subs, sub.SubjectOnce := by
  have hbefore : g.Before (g.supply seed) := before_of_le (Nat.le_max_left _ _)
  have hterms := Nat.lt_of_le_of_lt (last_le_multiplyOutAll _ _ _ _) hlimit
  have hstart : (g.spellTerms (g.supply seed)).1.SubjectOnce := by
    rw [subjectOnce_spellTerms_iff hbefore hterms]
    intro x hx
    have hfull := ambiguousMap?_eq_none_iff.mp (normalize_eq_ok_iff.mp h).1 x hx
    obtain ⟨hone, halone⟩ := hconstant x hx
    by_cases hnone : g.objectsOf x R2rml.subject = []
    · rw [hnone, List.length_nil]
      exact hfull
    · rw [halone hnone, List.length_nil]
      omega
  have hspelled := hbefore.expandClasses.expandConstants
  have hmaps : (g.spellMaps (g.supply seed)).1.SubjectOnce :=
    hstart.multiplyOutAll hspelled hspelled hlimit
  intro sub hsub
  obtain ⟨root, -, heq, -⟩ := exists_root_of_normalize hlimit h hsub
  rw [heq]
  exact (hmaps.foldl_separate hnames).reachable root

/-- A triples map with a predicate-object map, and what else is said about it. -/
def mappingWith (others : Graph) : Graph :=
  [⟨"http://e/t", Rdf.type, R2rml.triplesMap⟩, ⟨"http://e/t", R2rml.predicateObjectMap, "b2"⟩,
    ⟨"b2", R2rml.predicate, "http://e/p"⟩, ⟨"b2", R2rml.object, "o"⟩] ++ others

/-- A constant subject, a second predicate-object map and a taken name without a subject map. -/
def constantSubject : Graph :=
  [⟨"http://e/t", R2rml.subject, "http://e/s"⟩, ⟨"http://e/t", R2rml.predicateObjectMap, "b3"⟩,
    ⟨"b3", R2rml.predicate, "http://e/q"⟩, ⟨"b3", R2rml.object, "o"⟩, ⟨"b3", R2rml.object, "u"⟩,
    ⟨"http://e/t_1", Rdf.type, R2rml.triplesMap⟩]

set_option maxRecDepth 100000 in
theorem subjectOnce_constantSubject : ∃ subs,
    (mappingWith constantSubject).normalize 7 = .ok subs ∧ subs.length = 4 ∧
      ∀ sub ∈ subs, sub.SubjectOnce := by
  have hsubs : ∃ subs, (mappingWith constantSubject).normalize 7 = .ok subs ∧ subs.length = 4 := by
    simp only [normalize_eq_ok_iff]
    exact ⟨_, ⟨by decide +kernel, by decide +kernel, rfl⟩, by decide +kernel⟩
  obtain ⟨subs, hsubs, hlength⟩ := hsubs
  exact ⟨subs, hsubs, hlength, subjectOnce_of_normalize (by decide +kernel) hsubs
    (by decide +kernel) (by decide +kernel)⟩

set_option maxRecDepth 100000 in
/-- The check lets a constant subject beside a subject map pass, and the two become two subject
maps. -/
theorem constant_beside_subjectMap : ¬∀ (g : Graph) (seed : UInt32) (subs : List Graph),
    g.normalize seed = .ok subs → ∀ sub ∈ subs, sub.SubjectOnce := by
  intro h
  let g := mappingWith [⟨"http://e/t", R2rml.subjectMap, "b1"⟩, ⟨"http://e/t", R2rml.subject, "s"⟩]
  have hok : g.normalize 7 = .ok (g.spellOut (g.supply 7)).1.subGraphs :=
    normalize_eq_ok_iff.mpr ⟨by decide +kernel, by decide +kernel, rfl⟩
  have honce := h g 7 _ hok ((g.spellOut (g.supply 7)).1.reachable "http://e/t") (by decide +kernel)
    "http://e/t" (by decide +kernel)
  exact absurd honce (by decide +kernel)

set_option maxRecDepth 100000 in
/-- A taken name that has a subject map is given the one of its new triples map too. -/
example : ∃ sub ∈ ((mappingWith [⟨"http://e/t", R2rml.subjectMap, "b1"⟩,
    ⟨"http://e/t", R2rml.predicateObjectMap, "b2"⟩, ⟨"http://e/t_1", Rdf.type, R2rml.triplesMap⟩,
    ⟨"http://e/t_1", R2rml.subjectMap, "b1"⟩]).spellOut ⟨9⟩).1.subGraphs,
    (sub.objectsOf "http://e/t_1" R2rml.subjectMap).length = 2 := by
  decide +kernel

end RmlAlgebra.Graph
