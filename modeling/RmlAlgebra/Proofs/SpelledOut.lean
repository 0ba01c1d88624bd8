import RmlAlgebra.Proofs.Separation

/-! # What the rewrites establish

After the first two expansions no abbreviation is left, and the later rewrites only reuse predicates
that are there. After the third expansion every predicate-object map that something links to has one
predicate map and one object map at most. This holds for any graph: a map may be the parent of other
maps or of itself, and it then keeps links but no properties once it is multiplied out.
-/

namespace RmlAlgebra.Graph

variable {g start : Graph} {supply : Supply} {parents poms others : List String} {x p pom : String}

/-! ## Abbreviations -/

/-- The properties that are short for others. -/
def abbreviations : List String :=
  [R2rml.class_, R2rml.subject, R2rml.predicate, R2rml.object, R2rml.graph, R2rml.datatype,
    R2rml.language]

/-- Whether a graph says everything in full. -/
def Unabbreviated (g : Graph) : Prop :=
  ∀ t ∈ g, t.predicate ∉ abbreviations

theorem isClass_or_isShortcut {t : Triple} (h : t.predicate ∈ abbreviations) :
    isClass t = true ∨ isShortcut t = true := by
  have hall : ∀ p ∈ abbreviations, (p == R2rml.class_) = true ∨ (shortcut? p).isSome = true := by
    decide
  exact hall _ h

/-- The expansion of classes leaves no class, and that of constants no shortcut. -/
theorem unabbreviated_spellTerms (g : Graph) (supply : Supply) :
    (g.spellTerms supply).1.Unabbreviated := by
  have hclassWords : ∀ p ∈ [R2rml.predicateObjectMap, R2rml.predicate, R2rml.object],
      (p == R2rml.class_) = false := by decide
  have hmapWords : ∀ a ∈ shortcuts, a.2 ∉ abbreviations := by decide
  intro t ht habbreviation
  rcases mem_expandConstants.mp ht with ⟨hclasses, hshort⟩ | ⟨i, u, hi, hgroup⟩
  · have hclass : isClass t = true :=
      (isClass_or_isShortcut habbreviation).resolve_right (by simp [hshort])
    rcases mem_expandClasses.mp hclasses with ⟨-, hnot⟩ | ⟨i, owner, -, hgroup⟩
    · exact Bool.false_ne_true (hnot.symm.trans hclass)
    · simp only [classGroup, List.mem_cons, List.not_mem_nil, or_false] at hgroup
      rcases hgroup with rfl | rfl | rfl <;>
        exact Bool.false_ne_true ((hclassWords _ (by simp)).symm.trans hclass)
  · obtain ⟨s, hs, -⟩ := exists_of_mem_constants (List.mem_of_getElem? hi)
    simp only [constantGroup, List.mem_cons, List.not_mem_nil, or_false] at hgroup
    rcases hgroup with rfl | rfl
    · exact hmapWords _ (mem_shortcuts hs) habbreviation
    · exact absurd habbreviation (by decide : R2rml.constant ∉ abbreviations)

theorem Unabbreviated.multiplyOut (hg : g.Unabbreviated) :
    (g.multiplyOut parents pom supply).1.Unabbreviated := by
  by_cases hsingle : g.Single pom
  · rw [multiplyOut_of_single hsingle]
    exact hg
  · rw [multiplyOut_of_not_single hsingle]
    intro t ht
    rcases List.mem_append.mp ht with ht | ht
    · exact hg t (List.mem_filter.mp ht).1
    · obtain ⟨i, pair, hi, ht⟩ := mem_numbered.mp ht
      rcases of_mem_pairGroup (List.mem_of_getElem? hi) ht with ⟨y, -, rfl⟩ | ⟨-, hold⟩
      · exact (by decide : R2rml.predicateObjectMap ∉ abbreviations)
      · exact hg ⟨pom, t.predicate, t.object⟩ hold

theorem Unabbreviated.multiplyOutAll (hg : g.Unabbreviated) :
    (multiplyOutAll start poms g supply).1.Unabbreviated := by
  induction poms generalizing g supply with
  | nil => exact hg
  | cons pom others ih => exact ih hg.multiplyOut

/-- The rewrites leave nothing abbreviated. -/
theorem unabbreviated_spellOut (g : Graph) (supply : Supply) :
    (g.spellOut supply).1.Unabbreviated := by
  have hwords : ∀ p ∈ separatedPredicates, p ∉ abbreviations := by decide
  intro t ht
  rcases mem_of_mem_foldl_separate ht with ht | ⟨-, hp⟩
  · exact (unabbreviated_spellTerms g supply).multiplyOutAll t ht
  · exact hwords _ hp

/-! ## Pairs -/

/-- Whether every predicate-object map that is linked to stands for one pair at most. -/
def Paired (g : Graph) : Prop :=
  ∀ t ∈ g, isPredicateObjectMap t = true → g.Single t.object

/-- A map that was multiplied out has no properties left. -/
theorem single_multiplyOut_self (hpom : supply.Older pom)
    (hlimit : (g.multiplyOut parents pom supply).2.last < UInt64.size) :
    (g.multiplyOut parents pom supply).1.Single pom := by
  by_cases hsingle : g.Single pom
  · rw [multiplyOut_of_single hsingle]
    exact hsingle
  · rw [multiplyOut_of_not_single hsingle] at hlimit ⊢
    have hkept : plain (g.filter (!isAbout pom ·)) pom = [] := by
      apply plain_eq_nil
      intro t ht hs
      have habout := (List.mem_filter.mp ht).2
      simp [isAbout, hs] at habout
    rw [single_iff, plain_append, hkept, plain_pairGroups hpom hlimit]
    simp

/-- The properties of a new map beside its pair are neither predicate maps nor object maps. -/
theorem length_objectsOf_pairGroup (hp : p ∈ [R2rml.predicateMap, R2rml.objectMap])
    (label : String) (pair : String × String) :
    (objectsOf (pairGroup parents (g.filter (isShared pom)) label pair) label p).length = 1 := by
  have hlinks : objectsOf (parents.map (⟨·, R2rml.predicateObjectMap, label⟩)) label p = [] := by
    have hall : ∀ q ∈ [R2rml.predicateMap, R2rml.objectMap], R2rml.predicateObjectMap ≠ q := by
      decide
    apply objectsOf_eq_nil
    intro t ht _
    obtain ⟨y, -, rfl⟩ := List.mem_map.mp ht
    exact hall p hp
  have hshared : objectsOf ((g.filter (isShared pom)).map fun t => { t with subject := label })
      label p = [] := by
    apply objectsOf_eq_nil
    rintro u hu - rfl
    obtain ⟨t, ht, rfl⟩ := List.mem_map.mp hu
    have hshare := (List.mem_filter.mp ht).2
    rw [isShared] at hshare
    simp only [List.mem_cons, List.not_mem_nil, or_false] at hp
    rcases hp with hp | hp <;> simp [hp] at hshare
  have hgroup : pairGroup parents (g.filter (isShared pom)) label pair =
      parents.map (⟨·, R2rml.predicateObjectMap, label⟩) ++
        ([⟨label, R2rml.predicateMap, pair.1⟩, ⟨label, R2rml.objectMap, pair.2⟩] ++
          (g.filter (isShared pom)).map fun t => { t with subject := label }) := rfl
  have hne : R2rml.predicateMap ≠ R2rml.objectMap := by decide
  rw [hgroup, objectsOf_append, objectsOf_append, hlinks, hshared]
  simp only [List.mem_cons, List.not_mem_nil, or_false] at hp
  rcases hp with rfl | rfl
  · simp [objectsOf, hne.symm]
  · simp [objectsOf, hne]

/-- A new map has the predicate map and the object map of its pair and no others. -/
theorem single_multiplyOut_new (hg : g.Before supply) (hparents : ∀ y ∈ parents, supply.Older y)
    (hsingle : ¬g.Single pom)
    (hlimit : (g.multiplyOut parents pom supply).2.last < UInt64.size) {i : Nat}
    {pair : String × String} (hi : (g.pairs pom)[i]? = some pair) :
    (g.multiplyOut parents pom supply).1.Single (Label.ofNat (supply.last + 1 + i)) := by
  rw [multiplyOut_of_not_single hsingle] at hlimit ⊢
  have hgroup := hg.pairGroup hparents pom
  constructor
  · rw [objectsOf_new (by decide) hg _ hgroup hlimit hi]
    exact Nat.le_of_eq (length_objectsOf_pairGroup (by decide) _ pair)
  · rw [objectsOf_new (by decide) hg _ hgroup hlimit hi]
    exact Nat.le_of_eq (length_objectsOf_pairGroup (by decide) _ pair)

section Step

variable (hlimit : (g.multiplyOut parents pom supply).2.last < UInt64.size)
  (hpom : supply.Older pom)
include hlimit hpom

/-- Multiplying out one map takes it off the list of those that may have several pairs. -/
theorem single_multiplyOut_old (hx : supply.Older x) (h : x ∈ pom :: others ∨ g.Single x) :
    x ∈ others ∨ (g.multiplyOut parents pom supply).1.Single x := by
  by_cases hne : x = pom
  · subst hne
    exact .inr (single_multiplyOut_self hpom hlimit)
  · rw [single_iff, plain_multiplyOut hx hne hlimit, ← single_iff]
    exact h.imp_left fun hmem => (List.mem_cons.mp hmem).resolve_left hne

theorem single_multiplyOut (hg : g.Before supply) (hparents : ∀ y ∈ parents, supply.Older y)
    (h : ∀ t ∈ g, isPredicateObjectMap t = true → t.object ∈ pom :: others ∨ g.Single t.object) :
    ∀ t ∈ (g.multiplyOut parents pom supply).1, isPredicateObjectMap t = true →
      t.object ∈ others ∨ (g.multiplyOut parents pom supply).1.Single t.object := by
  have hold (t : Triple) (ht : t ∈ g) (hlink : isPredicateObjectMap t = true) :=
    single_multiplyOut_old hlimit hpom (hg t ht).2 (h t ht hlink)
  intro t ht hlink
  by_cases hsingle : g.Single pom
  · rw [multiplyOut_of_single hsingle] at ht
    exact hold t ht hlink
  · rw [multiplyOut_of_not_single hsingle] at ht
    rcases List.mem_append.mp ht with ht | ht
    · exact hold t (List.mem_filter.mp ht).1 hlink
    · obtain ⟨i, pair, hi, ht⟩ := mem_numbered.mp ht
      rcases of_mem_pairGroup (List.mem_of_getElem? hi) ht with ⟨y, -, rfl⟩ | ⟨-, hcopied⟩
      · exact .inr (single_multiplyOut_new hg hparents hsingle hlimit hi)
      · -- A map that links to maps itself hands these links on to its copies.
        exact hold ⟨pom, t.predicate, t.object⟩ hcopied hlink

end Step

/-- What multiplying out one map after the other establishes, if each step takes it from the maps
still to come to those after. At every step the parents and the graph are older than the new labels. -/
theorem multiplyOutAll_induct {motive : List String → Graph → Supply → Prop}
    (hstep : ∀ (pom : String) (others : List String) (g : Graph) (supply : Supply),
      g.Before supply → (∀ y ∈ start.subjectsWith R2rml.predicateObjectMap pom, supply.Older y) →
      (g.multiplyOut (start.subjectsWith R2rml.predicateObjectMap pom) pom supply).2.last <
        UInt64.size →
      motive (pom :: others) g supply →
      motive others (g.multiplyOut (start.subjectsWith R2rml.predicateObjectMap pom) pom supply).1
        (g.multiplyOut (start.subjectsWith R2rml.predicateObjectMap pom) pom supply).2)
    (hstart : start.Before supply) (hg : g.Before supply) (h : motive poms g supply)
    (hlimit : (multiplyOutAll start poms g supply).2.last < UInt64.size) :
    motive [] (multiplyOutAll start poms g supply).1 (multiplyOutAll start poms g supply).2 := by
  induction poms generalizing g supply with
  | nil => exact h
  | cons pom others ih =>
      have hfirst := Nat.lt_of_le_of_lt (last_le_multiplyOutAll start others _ _) hlimit
      have hle := g.last_le_multiplyOut (start.subjectsWith R2rml.predicateObjectMap pom) pom supply
      have hparents : ∀ y ∈ start.subjectsWith R2rml.predicateObjectMap pom, supply.Older y :=
        fun y hy => (hstart _ (mem_subjectsWith.mp hy)).1
      refine ih ?_ (hg.multiplyOut hparents pom) (hstep pom others g supply hg hparents hfirst h)
        hlimit
      exact fun t ht => ⟨(hstart t ht).1.mono hle, (hstart t ht).2.mono hle⟩

/-- While the maps of a list are multiplied out, those that may have several pairs are the ones
still to come. -/
theorem paired_multiplyOutAll (hstart : start.Before supply)
    (hpoms : ∀ pom ∈ poms, supply.Older pom) (hg : g.Before supply)
    (h : ∀ t ∈ g, isPredicateObjectMap t = true → t.object ∈ poms ∨ g.Single t.object)
    (hlimit : (multiplyOutAll start poms g supply).2.last < UInt64.size) :
    (multiplyOutAll start poms g supply).1.Paired := by
  have hrun := multiplyOutAll_induct (motive := fun poms g supply =>
    (∀ pom ∈ poms, supply.Older pom) ∧
      ∀ t ∈ g, isPredicateObjectMap t = true → t.object ∈ poms ∨ g.Single t.object)
    (fun pom others g supply hg hparents hlimit hpoms => ?_) hstart hg ⟨hpoms, h⟩ hlimit
  · exact fun t ht hlink => (hrun.2 t ht hlink).resolve_left List.not_mem_nil
  · obtain ⟨hpoms, h⟩ := hpoms
    rw [List.forall_mem_cons] at hpoms
    refine ⟨fun x hx => (hpoms.2 x hx).mono (last_le_multiplyOut _ _ _ _), ?_⟩
    exact single_multiplyOut hlimit hpoms.1 hg hparents h

theorem paired_expandPredicateObjectMaps (hbefore : g.Before supply)
    (hlimit : (g.expandPredicateObjectMaps supply).2.last < UInt64.size) :
    (g.expandPredicateObjectMaps supply).1.Paired := by
  apply paired_multiplyOutAll hbefore _ hbefore _ hlimit
  · intro pom hpom
    obtain ⟨parent, ht⟩ := mem_predicateObjectMaps.mp hpom
    exact (hbefore _ ht).2
  · rintro ⟨s, p, o⟩ ht hlink
    obtain rfl := isPredicateObjectMap_iff.mp hlink
    exact .inl (mem_predicateObjectMaps.mpr ⟨s, ht⟩)

theorem paired_spellMaps (hle : g.highestLabel ≤ supply.last)
    (hlimit : (g.spellMaps supply).2.last < UInt64.size) : (g.spellMaps supply).1.Paired :=
  paired_expandPredicateObjectMaps (before_of_le hle).expandClasses.expandConstants hlimit

/-! ## Separation -/

/-- Separation changes nothing but the properties of triples maps. -/
theorem objectsOf_separate (hp : p ∉ separatedPredicates) (triplesMap x : String) :
    (g.separate triplesMap).objectsOf x p = g.objectsOf x p := by
  by_cases hle : (g.objectsOf triplesMap R2rml.predicateObjectMap).length ≤ 1
  · rw [separate_of_le hle]
  · have hlink : p ≠ R2rml.predicateObjectMap := by
      rintro rfl
      exact hp (by decide)
    have hnew : objectsOf (separatedFrom triplesMap (g.firstObject? triplesMap R2rml.subjectMap)
        (g.firstObject? triplesMap Rml.logicalSource) 1
        (g.objectsOf triplesMap R2rml.predicateObjectMap) g) x p = [] := by
      apply objectsOf_eq_nil
      rintro t ht - rfl
      exact hp (of_mem_separatedFrom ht).2
    rw [separate_of_lt (by omega), objectsOf_append, objectsOf_filter_isLinkOf (.inr hlink), hnew,
      List.append_nil]

/-- A new triples map links to the predicate-object map that it was made for. -/
theorem object_of_mem_separatedTriples {subjectMap source : Option String} {name : String}
    {t : Triple} (h : t ∈ g.separatedTriples subjectMap source name pom)
    (hlink : isPredicateObjectMap t = true) : t.object = pom := by
  have hp := isPredicateObjectMap_iff.mp hlink
  have hall : ∀ q ∈ [Rdf.type, R2rml.subjectMap, R2rml.parentTriplesMap, R2rml.joinCondition,
      Rml.logicalSource], q ≠ R2rml.predicateObjectMap := by decide
  have hproperty {q : String} {object : Option String} (hq : q ≠ R2rml.predicateObjectMap) :
      t ∉ property name q object := fun ht => hq ((of_mem_property ht).2.1.symm.trans hp)
  rw [separatedTriples, List.mem_append, List.mem_cons, List.mem_singleton] at h
  rcases h with (rfl | h) | rfl
  · exact absurd hp (hall _ (by simp))
  · split at h
    · simp only [List.mem_cons, List.mem_append, List.mem_map] at h
      rcases h with rfl | (h | h) | ⟨y, -, rfl⟩
      · exact absurd hp (hall _ (by simp))
      · exact absurd h (hproperty (hall _ (by simp)))
      · exact absurd h (hproperty (hall _ (by simp)))
      · exact absurd hp (hall _ (by simp))
    · rcases List.mem_append.mp h with h | h
      · exact absurd h (hproperty (hall _ (by simp)))
      · exact absurd h (hproperty (hall _ (by simp)))
  · rfl

theorem object_of_mem_separatedFrom {triplesMap : String} {subjectMap source : Option String}
    {number : Nat} {t : Triple} (h : t ∈ separatedFrom triplesMap subjectMap source number poms g)
    (hlink : isPredicateObjectMap t = true) : t.object ∈ poms := by
  induction poms generalizing number g with
  | nil => exact absurd h List.not_mem_nil
  | cons pom others ih =>
      rcases List.mem_append.mp h with h | h
      · exact List.mem_cons.mpr (.inl (object_of_mem_separatedTriples h hlink))
      · exact List.mem_cons_of_mem _ (ih h)

/-- Separation moves links and makes no new ones. -/
theorem exists_link_of_mem_separate {triplesMap : String} {t : Triple}
    (h : t ∈ g.separate triplesMap) (hlink : isPredicateObjectMap t = true) :
    ∃ u ∈ g, isPredicateObjectMap u = true ∧ u.object = t.object := by
  by_cases hle : (g.objectsOf triplesMap R2rml.predicateObjectMap).length ≤ 1
  · rw [separate_of_le hle] at h
    exact ⟨t, h, hlink, rfl⟩
  · rw [separate_of_lt (by omega)] at h
    rcases List.mem_append.mp h with h | h
    · exact ⟨t, (List.mem_filter.mp h).1, hlink, rfl⟩
    · exact ⟨_, mem_objectsOf.mp (object_of_mem_separatedFrom h hlink), beq_self_eq_true _, rfl⟩

theorem Paired.separate (hg : g.Paired) (triplesMap : String) : (g.separate triplesMap).Paired := by
  intro t ht hlink
  obtain ⟨u, hu, hlinkU, ho⟩ := exists_link_of_mem_separate ht hlink
  rw [Single, objectsOf_separate (by decide), objectsOf_separate (by decide), ← ho]
  exact hg u hu hlinkU

theorem Paired.foldl_separate (hg : g.Paired) (maps : List String) :
    (maps.foldl Graph.separate g).Paired := by
  induction maps generalizing g with
  | nil => exact hg
  | cons triplesMap others ih => exact ih (hg.separate triplesMap)

/-- After the rewrites no linked predicate-object map stands for more than one pair. -/
theorem paired_spellOut (hle : g.highestLabel ≤ supply.last)
    (hlimit : (g.spellOut supply).2.last < UInt64.size) : (g.spellOut supply).1.Paired :=
  (paired_spellMaps hle hlimit).foldl_separate _

end RmlAlgebra.Graph
