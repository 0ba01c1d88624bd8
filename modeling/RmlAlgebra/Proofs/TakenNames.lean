import RmlAlgebra.Proofs.Separation
import RmlAlgebra.Proofs.Traversal

/-! # Names that are taken

The triples maps that separation makes are named after the one that they come from and numbered, and
nothing keeps a mapping from using such a name itself. The new link then joins the links that the
name has. If the turn of that triples map is still to come, it hands over all of them. If its turn is
over, it keeps several links, and its sub-graph follows the first one only.
-/

namespace RmlAlgebra.Graph

variable {g : Graph} {triplesMap pom x : String} {maps later : List String}

/-! ## All turns -/

/-- Whether every triples map has one predicate-object map at most. -/
def LinkedOnce (g : Graph) : Prop :=
  ∀ x ∈ g.triplesMaps, (g.objectsOf x R2rml.predicateObjectMap).length ≤ 1

/-- Whether every name that is taken when a turn gives it belongs to a triples map whose own turn is
still to come. -/
def NamesApart : Graph → List String → Prop
  | _, [] => True
  | g, triplesMap :: later =>
      (∀ x ∈ g.newNames triplesMap, g.objectsOf x R2rml.predicateObjectMap ≠ [] → x ∈ later) ∧
        (g.separate triplesMap).NamesApart later

instance : (g : Graph) → (maps : List String) → Decidable (g.NamesApart maps)
  | _, [] => inferInstanceAs (Decidable True)
  | g, triplesMap :: later =>
      have := instDecidableNamesApart (g.separate triplesMap) later
      inferInstanceAs (Decidable (_ ∧ _))

theorem mem_triplesMaps_foldl_separate (hx : x ∈ g.triplesMaps) (maps : List String) :
    x ∈ (maps.foldl separate g).triplesMaps := by
  induction maps generalizing g with
  | nil => exact hx
  | cons triplesMap later ih => exact ih (mem_triplesMaps_separate.mpr (.inl hx))

/-- Without a turn of its own a triples map loses no link. -/
theorem length_links_le_foldl_separate (hx : x ∉ maps) :
    (g.objectsOf x R2rml.predicateObjectMap).length ≤
      ((maps.foldl separate g).objectsOf x R2rml.predicateObjectMap).length := by
  induction maps generalizing g with
  | nil => exact Nat.le_refl _
  | cons triplesMap later ih =>
      rw [List.mem_cons, not_or] at hx
      refine Nat.le_trans ?_ (ih hx.2)
      by_cases hnew : x ∈ g.newNames triplesMap
      · rw [length_links_separate_new hnew]
        exact Nat.le_succ _
      · exact Nat.le_of_eq (by rw [objectsOf_separate_old hnew (.inl hx.1)])

theorem namesApart_of_linkedOnce (h : (maps.foldl separate g).LinkedOnce) : g.NamesApart maps := by
  induction maps generalizing g with
  | nil => trivial
  | cons triplesMap later ih =>
      refine ⟨fun x hx htaken => Decidable.byContradiction fun hover => ?_, ih h⟩
      -- Without a turn to come the name keeps its old link beside the new one.
      have hdeclared : x ∈ ((triplesMap :: later).foldl separate g).triplesMaps :=
        mem_triplesMaps_foldl_separate (mem_triplesMaps_separate.mpr (.inr hx)) later
      have hle : ((g.separate triplesMap).objectsOf x R2rml.predicateObjectMap).length ≤ 1 :=
        Nat.le_trans (length_links_le_foldl_separate hover) (h x hdeclared)
      have hpos := List.length_pos_iff.mpr htaken
      rw [length_links_separate_new hx] at hle
      omega

theorem NamesApart.linkedOnce (hnames : g.NamesApart maps)
    (h : ∀ x ∈ g.triplesMaps,
      x ∈ maps ∨ (g.objectsOf x R2rml.predicateObjectMap).length ≤ 1) :
    (maps.foldl separate g).LinkedOnce := by
  induction maps generalizing g with
  | nil => exact fun x hx => (h x hx).resolve_left List.not_mem_nil
  | cons triplesMap later ih => exact ih hnames.2 (linkedOnce_separate hnames.1 h)

/-- Separation leaves one predicate-object map at most to each triples map just when no turn gives a
name that is taken by a triples map whose own turn is over. -/
theorem linkedOnce_separatePredicateObjectMaps_iff :
    g.separatePredicateObjectMaps.LinkedOnce ↔ g.NamesApart g.triplesMaps :=
  ⟨namesApart_of_linkedOnce, fun h => h.linkedOnce fun _ hx => .inl hx⟩

/-- A graph gives each triples map one predicate-object map at most just when no sub-graph drops one
of its root. -/
theorem linkedOnce_iff_reachable : g.LinkedOnce ↔ ∀ root ∈ g.triplesMaps,
    (g.reachable root).objectsOf root R2rml.predicateObjectMap =
      g.objectsOf root R2rml.predicateObjectMap := by
  simp only [objectsOf_reachable_root]
  constructor
  · exact fun h root hroot => List.take_of_length_le (h root hroot)
  · intro h x hx
    rw [← h x hx, List.length_take]
    exact Nat.min_le_left _ _

/-! ## Names that are free -/

/-- Whether no name has a property when a turn gives it. -/
def NamesFree (p : String) : Graph → List String → Prop
  | _, [] => True
  | g, triplesMap :: later =>
      (∀ x ∈ g.newNames triplesMap, g.objectsOf x p = []) ∧
        NamesFree p (g.separate triplesMap) later

instance (p : String) : (g : Graph) → (maps : List String) → Decidable (NamesFree p g maps)
  | _, [] => inferInstanceAs (Decidable True)
  | g, triplesMap :: later =>
      have := instDecidableNamesFree p (g.separate triplesMap) later
      inferInstanceAs (Decidable (_ ∧ _))

theorem NamesFree.namesApart (h : NamesFree R2rml.predicateObjectMap g maps) : g.NamesApart maps := by
  induction maps generalizing g with
  | nil => trivial
  | cons triplesMap later ih => exact ⟨fun x hx htaken => absurd (h.1 x hx) htaken, ih h.2⟩

/-- If the names that the listed triples maps would give now are not in use, the same holds after the
turn of the first one. -/
theorem unused_separate
    (h : ∀ y ∈ triplesMap :: later, ∀ x ∈ g.newNames y, ∀ p, g.objectsOf x p = []) :
    ∀ y ∈ later, ∀ x ∈ (g.separate triplesMap).newNames y, ∀ p,
      (g.separate triplesMap).objectsOf x p = [] := by
  rw [List.forall_mem_cons] at h
  by_cases hle : (g.objectsOf triplesMap R2rml.predicateObjectMap).length ≤ 1
  · rw [separate_of_le hle]
    exact h.2
  · intro y hy x hx p
    have hseveral := (mem_newNames.mp hx).1
    have hother : y ≠ triplesMap := by
      rintro rfl
      exact absurd hseveral (Nat.not_lt.mpr length_links_separate_self)
    -- A name that was just given has one link, and its turn will give no names.
    have hold : y ∉ g.newNames triplesMap := by
      intro hnew
      rw [length_links_separate_new hnew, h.1 y hnew, List.length_nil] at hseveral
      omega
    have hsame : (g.separate triplesMap).newNames y = g.newNames y := by
      rw [newNames, newNames, objectsOf_separate_old hold (.inl hother)]
    rw [hsame] at hx
    have hunused := h.2 y hy x hx
    have hne : x ≠ triplesMap := by
      rintro rfl
      rw [hunused, List.length_nil] at hle
      omega
    rw [objectsOf_separate_old (fun hmem => hother (eq_of_mem_newNames hx hmem)) (.inl hne), hunused]

theorem namesFree_of_unused (p : String)
    (h : ∀ y ∈ maps, ∀ x ∈ g.newNames y, ∀ p, g.objectsOf x p = []) : NamesFree p g maps := by
  induction maps generalizing g with
  | nil => trivial
  | cons triplesMap later ih =>
      exact ⟨fun x hx => h triplesMap List.mem_cons_self x hx p, ih (unused_separate h)⟩

/-! ## Mappings without numbered names -/

/-- Whether no subject of a mapping is numbered after a triples map or a label. -/
def Unnumbered (g : Graph) : Prop :=
  ∀ t ∈ g, ∀ y n, y ∈ g.triplesMaps ∨ isLabel y = true → t.subject ≠ separatedName y n

/-- Multiplying out adds properties of new labels, and links of the parents to them. -/
theorem of_mem_multiplyOut {parents : List String} {supply : Supply} {t : Triple}
    (h : t ∈ (g.multiplyOut parents pom supply).1) :
    t ∈ g ∨ isLabel t.subject = true ∨ isPredicateObjectMap t = true ∧ t.subject ∈ parents := by
  by_cases hsingle : g.Single pom
  · rw [multiplyOut_of_single hsingle] at h
    exact .inl h
  · rw [multiplyOut_of_not_single hsingle] at h
    rcases List.mem_append.mp h with h | h
    · exact .inl (List.mem_filter.mp h).1
    · obtain ⟨i, pair, hi, h⟩ := mem_numbered.mp h
      rcases of_mem_pairGroup (List.mem_of_getElem? hi) h with ⟨y, hy, rfl⟩ | ⟨hs, -⟩
      · exact .inr (.inr ⟨beq_self_eq_true _, hy⟩)
      · exact .inr (.inl (hs ▸ Label.isLabel_ofNat _))

theorem of_mem_multiplyOutAll {start : Graph} {poms : List String} {supply : Supply} {t : Triple}
    (h : t ∈ (multiplyOutAll start poms g supply).1) :
    t ∈ g ∨ isLabel t.subject = true ∨
      isPredicateObjectMap t = true ∧ ∃ u ∈ start, u.subject = t.subject := by
  induction poms generalizing g supply with
  | nil => exact .inl h
  | cons pom others ih =>
      rcases ih h with h | h
      · rcases of_mem_multiplyOut h with h | h | ⟨hlink, h⟩
        · exact .inl h
        · exact .inr (.inl h)
        · exact .inr (.inr ⟨hlink, _, mem_subjectsWith.mp h, rfl⟩)
      · exact .inr h

/-- The expansions declare no triples maps but labels. -/
theorem mem_triplesMaps_of_spellMaps {supply : Supply} (h : x ∈ (g.spellMaps supply).1.triplesMaps) :
    x ∈ g.triplesMaps ∨ isLabel x = true := by
  rcases of_mem_multiplyOutAll (mem_subjectsWith.mp h) with h | h | ⟨h, -⟩
  · have hterms : (g.spellTerms supply).1.triplesMaps = g.triplesMaps := triplesMaps_spellTerms
    exact .inl (hterms ▸ mem_subjectsWith.mpr h)
  · exact .inr h
  · exact absurd (isPredicateObjectMap_iff.mp h)
      (show ¬Rdf.type = R2rml.predicateObjectMap by decide)

theorem subject_of_mem_expandClasses {supply : Supply} {t : Triple}
    (h : t ∈ (g.expandClasses supply).1) :
    isLabel t.subject = true ∨ ∃ u ∈ g, u.subject = t.subject := by
  rcases mem_expandClasses.mp h with ⟨h, -⟩ | ⟨i, owner, hi, h⟩
  · exact .inr ⟨t, h, rfl⟩
  · simp only [classGroup, List.mem_cons, List.not_mem_nil, or_false] at h
    rcases h with rfl | rfl | rfl
    · exact .inr (exists_of_mem_owned (List.mem_of_getElem? hi)).1
    · exact .inl (Label.isLabel_ofNat _)
    · exact .inl (Label.isLabel_ofNat _)

theorem subject_of_mem_expandConstants {supply : Supply} {t : Triple}
    (h : t ∈ (g.expandConstants supply).1) :
    isLabel t.subject = true ∨ ∃ u ∈ g, u.subject = t.subject := by
  rcases mem_expandConstants.mp h with ⟨h, -⟩ | ⟨i, u, hi, h⟩
  · exact .inr ⟨t, h, rfl⟩
  · obtain ⟨s, -, hmem⟩ := exists_of_mem_constants (List.mem_of_getElem? hi)
    simp only [constantGroup, List.mem_cons, List.not_mem_nil, or_false] at h
    rcases h with rfl | rfl
    · exact .inr ⟨_, hmem, rfl⟩
    · exact .inl (Label.isLabel_ofNat _)

/-- The expansions give properties to labels and to the subjects of the mapping. -/
theorem subject_of_mem_spellMaps {supply : Supply} {t : Triple} (h : t ∈ (g.spellMaps supply).1) :
    isLabel t.subject = true ∨ ∃ u ∈ g, u.subject = t.subject := by
  have hterms {u : Triple} (hu : u ∈ (g.spellTerms supply).1) :
      isLabel u.subject = true ∨ ∃ v ∈ g, v.subject = u.subject := by
    rcases subject_of_mem_expandConstants hu with hlabel | ⟨v, hv, hs⟩
    · exact .inl hlabel
    · exact hs ▸ subject_of_mem_expandClasses hv
  rcases of_mem_multiplyOutAll h with h | h | ⟨-, u, hu, hs⟩
  · exact hterms h
  · exact .inl h
  · exact hs ▸ hterms hu

/-- If the mapping numbers no subject, a name has no property when it is given. -/
theorem Unnumbered.namesFree (hg : g.Unnumbered) (p : String) (supply : Supply) :
    NamesFree p (g.spellMaps supply).1 (g.spellMaps supply).1.triplesMaps := by
  apply namesFree_of_unused
  intro y hy x hx p
  obtain ⟨-, i, -, rfl⟩ := mem_newNames.mp hx
  apply objectsOf_eq_nil
  intro t ht hs
  rcases subject_of_mem_spellMaps ht with hlabel | ⟨u, hu, hsubject⟩
  · rw [hs, isLabel_separatedName] at hlabel
    cases hlabel
  · exact absurd (hsubject.trans hs) (hg u hu y (1 + i) (mem_triplesMaps_of_spellMaps hy))

/-! ## Spelled out mappings -/

/-- After the rewrites each triples map has one predicate-object map at most just when no turn gives
a name that is taken by a triples map whose own turn is over, and just when no sub-graph drops a
predicate-object map of its root. A mapping that numbers no subject is always left in this form. -/
theorem linkedOnce_spellOut_iff (g : Graph) (supply : Supply) :
    ((g.spellOut supply).1.LinkedOnce ↔
      (g.spellMaps supply).1.NamesApart (g.spellMaps supply).1.triplesMaps) ∧
    ((g.spellOut supply).1.LinkedOnce ↔
      ∀ root ∈ (g.spellOut supply).1.triplesMaps,
        ((g.spellOut supply).1.reachable root).objectsOf root R2rml.predicateObjectMap =
          (g.spellOut supply).1.objectsOf root R2rml.predicateObjectMap) ∧
    (g.Unnumbered → (g.spellOut supply).1.LinkedOnce) := by
  have hiff : (g.spellOut supply).1.LinkedOnce ↔
      (g.spellMaps supply).1.NamesApart (g.spellMaps supply).1.triplesMaps := by
    rw [spellOut_eq]
    exact linkedOnce_separatePredicateObjectMaps_iff
  refine ⟨hiff, linkedOnce_iff_reachable, fun hg => ?_⟩
  exact hiff.mpr (hg.namesFree R2rml.predicateObjectMap supply).namesApart

/-- A triples map with two predicate-object maps and another one that is numbered after it, in either
order. -/
def numberedMapping (first second : String) : Graph :=
  [⟨first, Rdf.type, R2rml.triplesMap⟩, ⟨second, Rdf.type, R2rml.triplesMap⟩,
    ⟨"http://e/t", R2rml.subjectMap, "b1"⟩, ⟨"b1", R2rml.template, "http://e/{i}"⟩,
    ⟨"http://e/t", R2rml.predicateObjectMap, "b2"⟩, ⟨"http://e/t", R2rml.predicateObjectMap, "b3"⟩,
    ⟨"b2", R2rml.predicate, "http://e/p"⟩, ⟨"b2", R2rml.object, "o"⟩,
    ⟨"b3", R2rml.predicate, "http://e/q"⟩, ⟨"b3", R2rml.object, "o"⟩,
    ⟨"http://e/t_1", R2rml.predicateObjectMap, "b4"⟩, ⟨"b4", R2rml.predicate, "http://e/r"⟩,
    ⟨"b4", R2rml.object, "o"⟩]

set_option maxRecDepth 100000 in
/-- A name that is taken does no harm as long as its own turn is still to come. -/
theorem linkedOnce_numberedMapping :
    ((numberedMapping "http://e/t" "http://e/t_1").spellOut ⟨9⟩).1.LinkedOnce ∧
      ¬(numberedMapping "http://e/t" "http://e/t_1").Unnumbered := by
  refine ⟨(linkedOnce_spellOut_iff _ ⟨9⟩).1.mpr (by decide +kernel), ?_⟩
  intro h
  exact h ⟨"http://e/t_1", R2rml.predicateObjectMap, "b4"⟩ (by decide +kernel) "http://e/t" 1
    (.inl (by decide +kernel)) (by decide +kernel)

set_option maxRecDepth 100000 in
/-- If the triples map with the taken name comes first, it is left with two predicate-object maps. -/
theorem takenName_linked_twice : ¬∀ (g : Graph) (seed : UInt32), g.ambiguousMap? = none →
    (g.spellOut (g.supply seed)).2.last < UInt64.size →
      (g.spellOut (g.supply seed)).1.LinkedOnce := by
  intro h
  have hlinked := h (numberedMapping "http://e/t_1" "http://e/t") 0 (by decide +kernel)
    (by decide +kernel) "http://e/t_1" (by decide +kernel)
  exact absurd hlinked (by decide +kernel)

end RmlAlgebra.Graph
