import RmlAlgebra.Proofs.TermRules

/-! # How a mapping hangs together

Once the terms of a well shaped mapping are spelled out, triples maps lead to predicate-object maps,
these lead to predicate maps and object maps, and only from an object map does a link lead back to a
triples map. New predicate-object maps and separated triples maps take the place of old ones and
copy their properties, so all later graphs hang together in the same way.
-/

namespace RmlAlgebra.Graph

variable {g : Graph} {supply : Supply} {pom : String}

/-- What holds for the links of a mapping whose terms are spelled out. -/
structure Arranged (g : Graph) : Prop where
  spelled : g.Spelled
  subject : ∀ x ∈ g.triplesMaps, ∃ o, ⟨x, R2rml.subjectMap, o⟩ ∈ g
  owner : ∀ t ∈ g, isPredicateObjectMap t = true → t.subject ∈ g.triplesMaps
  node : ∀ t ∈ g, isPredicateObjectMap t = true → isNode t.object = true
  link : ∀ t ∈ g, isPredicateObjectMap t = true → ∀ u ∈ g, isLink u = true →
    u.object = t.object → isPredicateObjectMap u = true
  undeclared : ∀ t ∈ g, isPredicateObjectMap t = true → t.object ∉ g.triplesMaps
  noParent : ∀ t ∈ g, isPredicateObjectMap t = true → ∀ u ∈ g, u.subject = t.object →
    u.predicate ≠ R2rml.parentTriplesMap
  term : ∀ t ∈ g, t.predicate = R2rml.predicateMap ∨ t.predicate = R2rml.objectMap →
    ∃ u ∈ g, isPredicateObjectMap u = true ∧ u.object = t.subject
  joined : ∀ t ∈ g, isLink t = true → t.object ∈ g.triplesMaps →
    t.subject ∉ g.triplesMaps ∧
      ∀ u ∈ g, isLink u = true → u.object = t.subject → u.predicate = R2rml.objectMap

/-- A link to a predicate-object map is followed. -/
theorem Arranged.isLink (hg : g.Arranged) {t : Triple} (ht : t ∈ g)
    (hlink : isPredicateObjectMap t = true) : isLink t = true := by
  have hvalue : valuePredicates.contains R2rml.predicateObjectMap = false := by decide
  rw [Graph.isLink, hg.node t ht hlink, isPredicateObjectMap_iff.mp hlink, hvalue]
  rfl

/-- A triples map is no predicate-object map. -/
theorem Arranged.ne_of_mem_triplesMaps (hg : g.Arranged) {t : Triple} (ht : t ∈ g)
    (hlink : isPredicateObjectMap t = true) {x : String} (hx : x ∈ g.triplesMaps) :
    x ≠ t.object := by
  rintro rfl
  exact hg.undeclared t ht hlink hx

/-! ## Classes and constants -/

/-- The triples of a mapping whose terms are spelled out. -/
inductive TermTriple (g : Graph) (supply : Supply) : Triple → Prop
  | old {t : Triple} (h : t ∈ g) : TermTriple g supply t
  | classLink {i : Nat} {owner : String × String}
      (h : (g.owned (g.filter isClass))[i]? = some owner) :
      TermTriple g supply ⟨owner.1, R2rml.predicateObjectMap, Label.ofNat (supply.last + 1 + i)⟩
  | termMap {n : Nat} {x s q value : String} (hlow : (g.expandClasses supply).2.last < n)
      (hhigh : n ≤ (g.spellTerms supply).2.last) (hs : shortcut? s = some q)
      (h : ⟨x, s, value⟩ ∈ (g.expandClasses supply).1) : TermTriple g supply ⟨x, q, Label.ofNat n⟩
  | constant {x s value : String} (n : Nat) (h : ⟨x, s, value⟩ ∈ (g.expandClasses supply).1) :
      TermTriple g supply ⟨Label.ofNat n, R2rml.constant, value⟩

theorem termTriple_of_mem {t : Triple} (h : t ∈ (g.spellTerms supply).1) :
    TermTriple g supply t := by
  have hlast : (g.spellTerms supply).2.last = (g.expandClasses supply).2.last +
      (constants (g.expandClasses supply).1).length := by
    rw [spellTerms, expandConstants_eq]
  rcases mem_expandConstants.mp h with ⟨hmem, hshort⟩ | ⟨i, u, hi, ht⟩
  · rcases mem_expandClasses.mp hmem with ⟨hmem, -⟩ | ⟨i, owner, hi, ht⟩
    · exact .old hmem
    · simp only [classGroup, List.mem_cons, List.not_mem_nil, or_false] at ht
      rcases ht with rfl | rfl | rfl
      · exact .classLink hi
      · exact absurd hshort (show ¬(shortcut? R2rml.predicate).isSome = false by decide)
      · exact absurd hshort (show ¬(shortcut? R2rml.object).isSome = false by decide)
  · have hlength := (List.getElem?_eq_some_iff.mp hi).1
    obtain ⟨s, hs, hmem⟩ := exists_of_mem_constants (List.mem_of_getElem? hi)
    simp only [constantGroup, List.mem_cons, List.not_mem_nil, or_false] at ht
    rcases ht with rfl | rfl
    · exact .termMap (by omega) (by omega) hs hmem
    · exact .constant _ hmem

/-- The labels of predicate-object maps for classes come before those of term maps. -/
theorem classLabel_le (supply : Supply) {i : Nat} {owner : String × String}
    (hi : (g.owned (g.filter isClass))[i]? = some owner) :
    supply.last + 1 + i ≤ (g.expandClasses supply).2.last := by
  have hlength := (List.getElem?_eq_some_iff.mp hi).1
  rw [expandClasses_eq]
  simp only
  omega

section NewLabels

variable (hle : g.highestLabel ≤ supply.last)
  (hlimit : (g.spellTerms supply).2.last < UInt64.size) {x : String}
include hle hlimit

theorem ne_classLabel {i : Nat} {owner : String × String}
    (hi : (g.owned (g.filter isClass))[i]? = some owner) (hx : g.Mentions x) :
    x ≠ Label.ofNat (supply.last + 1 + i) := by
  rintro rfl
  have hclass := classLabel_le supply hi
  have hterms : (g.expandClasses supply).2.last ≤ (g.spellTerms supply).2.last :=
    last_le_expandConstants _ _
  exact not_mentions_ofNat (by omega) (by omega) hx

theorem ne_termLabel {n : Nat} (hlow : (g.expandClasses supply).2.last < n)
    (hhigh : n ≤ (g.spellTerms supply).2.last) (hx : g.Mentions x) : x ≠ Label.ofNat n := by
  rintro rfl
  have hclasses := last_le_expandClasses g supply
  exact not_mentions_ofNat (by omega) (by omega) hx

end NewLabels

theorem mentions_expandClasses {x : String} (h : (g.expandClasses supply).1.Mentions x) :
    g.Mentions x ∨ isLabel x = true ∨ x = Rdf.type := by
  obtain ⟨t, ht, hx⟩ := h
  rcases mem_expandClasses.mp ht with ⟨ht, -⟩ | ⟨i, owner, hi, ht⟩
  · exact .inl ⟨t, ht, hx⟩
  · obtain ⟨⟨u, hu, hs⟩, v, hv, ho⟩ := exists_of_mem_owned (List.mem_of_getElem? hi)
    have hlabel := Label.isLabel_ofNat (supply.last + 1 + i)
    simp only [classGroup, List.mem_cons, List.not_mem_nil, or_false] at ht
    rcases ht with rfl | rfl | rfl
    · rcases hx with rfl | rfl
      · exact .inl ⟨u, hu, .inl hs⟩
      · exact .inr (.inl hlabel)
    · rcases hx with rfl | rfl
      · exact .inr (.inl hlabel)
      · exact .inr (.inr rfl)
    · rcases hx with rfl | rfl
      · exact .inr (.inl hlabel)
      · exact .inl ⟨v, (List.mem_filter.mp hv).1, .inr ho⟩

/-- Spelling out terms brings in new labels and the name of the type property. -/
theorem mentions_spellTerms {x : String} (h : (g.spellTerms supply).1.Mentions x) :
    g.Mentions x ∨ isLabel x = true ∨ x = Rdf.type := by
  obtain ⟨t, ht, hx⟩ := h
  cases termTriple_of_mem ht with
  | old h => exact .inl ⟨t, h, hx⟩
  | classLink hi =>
      rcases hx with rfl | rfl
      · obtain ⟨u, hu, hs⟩ := (exists_of_mem_owned (List.mem_of_getElem? hi)).1
        exact .inl ⟨u, hu, .inl hs⟩
      · exact .inr (.inl (Label.isLabel_ofNat _))
  | termMap _ _ _ h =>
      rcases hx with rfl | rfl
      · exact mentions_expandClasses ⟨_, h, .inl rfl⟩
      · exact .inr (.inl (Label.isLabel_ofNat _))
  | constant n h =>
      rcases hx with rfl | rfl
      · exact .inr (.inl (Label.isLabel_ofNat n))
      · exact mentions_expandClasses ⟨_, h, .inr rfl⟩

/-- The object of a shortcut's term map is the new label of that map. -/
theorem exists_termMap {x s q value : String} (hs : shortcut? s = some q)
    (h : ⟨x, s, value⟩ ∈ g) : ∃ label, ⟨x, q, label⟩ ∈ (g.expandConstants supply).1 := by
  have hmem : ⟨x, q, value⟩ ∈ g.constants :=
    List.mem_filterMap.mpr ⟨_, h, by rw [hs, Option.map_some]⟩
  obtain ⟨i, hi⟩ := List.mem_iff_getElem?.mp hmem
  exact ⟨_, mem_expandConstants.mpr (.inr ⟨i, _, hi, List.mem_cons_self⟩)⟩

theorem ne_parentTriplesMap {s q : String} (h : shortcut? s = some q) :
    q ≠ R2rml.parentTriplesMap := by
  have hall : ∀ a ∈ shortcuts, a.2 ≠ R2rml.parentTriplesMap := by decide
  exact hall _ (mem_shortcuts h)

theorem not_isLink_constant (x value : String) : ¬isLink ⟨x, R2rml.constant, value⟩ = true := by
  have hvalue : valuePredicates.contains R2rml.constant = true := by decide
  rw [isLink, hvalue, Bool.not_true, Bool.and_false]
  exact Bool.false_ne_true

namespace WellShaped

variable (hg : g.WellShaped)
include hg

theorem exists_subjectMap {x : String} (hx : x ∈ g.triplesMaps) :
    ∃ o, ⟨x, R2rml.subjectMap, o⟩ ∈ (g.spellTerms supply).1 := by
  obtain ⟨t, ht⟩ := List.length_eq_one_iff.mp (hg.subject x hx)
  have hmem : t ∈ g.filter fun t => t.subject == x &&
      (t.predicate == R2rml.subjectMap || t.predicate == R2rml.subject) := by
    rw [ht]
    exact List.mem_singleton_self t
  obtain ⟨s, p, o⟩ := t
  simp only [List.mem_filter, Bool.and_eq_true, Bool.or_eq_true, beq_iff_eq] at hmem
  obtain ⟨hmem, rfl, hp⟩ := hmem
  have hkept : ⟨s, p, o⟩ ∈ (g.expandClasses supply).1 := by
    refine mem_expandClasses.mpr (.inl ⟨hmem, ?_⟩)
    rcases hp with rfl | rfl
    · exact (by decide : (R2rml.subjectMap == R2rml.class_) = false)
    · exact (by decide : (R2rml.subject == R2rml.class_) = false)
  rcases hp with rfl | rfl
  · have hshort : (shortcut? R2rml.subjectMap).isSome = false := by decide
    exact ⟨o, mem_expandConstants.mpr (.inl ⟨hkept, hshort⟩)⟩
  · exact exists_termMap (by decide) hkept

/-- The term maps for shortcuts of predicate-object maps. -/
theorem term_of_shortcut {x s q value : String} (hs : shortcut? s = some q)
    (hq : q = R2rml.predicateMap ∨ q = R2rml.objectMap)
    (h : ⟨x, s, value⟩ ∈ (g.expandClasses supply).1) :
    ∃ parent, ⟨parent, R2rml.predicateObjectMap, x⟩ ∈ (g.spellTerms supply).1 := by
  rcases mem_expandClasses.mp h with ⟨hmem, -⟩ | ⟨i, owner, hi, hmem⟩
  · have hall : ∀ a ∈ shortcuts, a.2 = R2rml.predicateMap ∨ a.2 = R2rml.objectMap →
        a.1 ∈ [R2rml.predicateMap, R2rml.predicate, R2rml.objectMap, R2rml.object] := by decide
    obtain ⟨⟨parent, p, o⟩, hu, hlink, rfl⟩ := hg.term _ hmem (hall _ (mem_shortcuts hs) hq)
    obtain rfl := isPredicateObjectMap_iff.mp hlink
    exact ⟨parent, mem_spellTerms_link.mpr (.inl hu)⟩
  · have hx : x = Label.ofNat (supply.last + 1 + i) := by
      simp only [classGroup, List.mem_cons, List.not_mem_nil, or_false, Triple.mk.injEq] at hmem
      rcases hmem with ⟨-, rfl, -⟩ | ⟨hx, -⟩ | ⟨hx, -⟩
      · have hnone : shortcut? R2rml.predicateObjectMap = none := by decide
        rw [hnone] at hs
        cases hs
      · exact hx
      · exact hx
    exact ⟨owner.1, mem_spellTerms_link.mpr (.inr ⟨i, owner, hi, rfl, hx⟩)⟩

/-- A predicate map or an object map still belongs to a predicate-object map. -/
theorem term_spellTerms {t : Triple} (ht : t ∈ (g.spellTerms supply).1)
    (hp : t.predicate = R2rml.predicateMap ∨ t.predicate = R2rml.objectMap) :
    ∃ parent, ⟨parent, R2rml.predicateObjectMap, t.subject⟩ ∈ (g.spellTerms supply).1 := by
  cases termTriple_of_mem ht with
  | old ht =>
      have hmem : t.predicate ∈ [R2rml.predicateMap, R2rml.predicate, R2rml.objectMap,
          R2rml.object] := by rcases hp with hp | hp <;> simp [hp]
      obtain ⟨⟨parent, p, o⟩, hu, hlink, rfl⟩ := hg.term t ht hmem
      obtain rfl := isPredicateObjectMap_iff.mp hlink
      exact ⟨parent, mem_spellTerms_link.mpr (.inl hu)⟩
  | classLink =>
      exact absurd hp (show ¬(R2rml.predicateObjectMap = R2rml.predicateMap ∨
        R2rml.predicateObjectMap = R2rml.objectMap) by decide)
  | termMap hlow hhigh hs h => exact hg.term_of_shortcut hs hp h
  | constant =>
      exact absurd hp (show ¬(R2rml.constant = R2rml.predicateMap ∨
        R2rml.constant = R2rml.objectMap) by decide)

variable (hle : g.highestLabel ≤ supply.last)
  (hlimit : (g.spellTerms supply).2.last < UInt64.size)
include hle hlimit

/-- Only links to predicate-object maps lead to a predicate-object map. -/
theorem link_spellTerms {s o : String}
    (ht : ⟨s, R2rml.predicateObjectMap, o⟩ ∈ (g.spellTerms supply).1) {u : Triple}
    (hu : u ∈ (g.spellTerms supply).1) (hlink : isLink u = true) (ho : u.object = o) :
    isPredicateObjectMap u = true := by
  rcases mem_spellTerms_link.mp ht with ht | ⟨i, owner, hi, rfl, rfl⟩
  · cases termTriple_of_mem hu with
    | old hu => exact hg.link _ ht (beq_self_eq_true _) u hu ho
    | classLink => exact beq_self_eq_true _
    | termMap hlow hhigh =>
        exact absurd ho.symm (ne_termLabel hle hlimit hlow hhigh ⟨_, ht, .inr rfl⟩)
    | constant => exact absurd hlink (not_isLink_constant _ _)
  · cases termTriple_of_mem hu with
    | old hu => exact absurd ho (ne_classLabel hle hlimit hi ⟨_, hu, .inr rfl⟩)
    | classLink => exact beq_self_eq_true _
    | termMap hlow hhigh =>
        have heq := Label.ofNat_injective ho
        have hclass := classLabel_le supply hi
        omega
    | constant => exact absurd hlink (not_isLink_constant _ _)

/-- A predicate-object map joins nothing. -/
theorem noParent_spellTerms {s o : String}
    (ht : ⟨s, R2rml.predicateObjectMap, o⟩ ∈ (g.spellTerms supply).1) {u : Triple}
    (hu : u ∈ (g.spellTerms supply).1) (hs : u.subject = o) :
    u.predicate ≠ R2rml.parentTriplesMap := by
  cases termTriple_of_mem hu with
  | old hu =>
      rcases mem_spellTerms_link.mp ht with ht | ⟨i, owner, hi, rfl, rfl⟩
      · intro hp
        have hparent : u.object ∈ g.objectsOf o R2rml.parentTriplesMap := by
          rw [mem_objectsOf, ← hp, ← hs]
          exact hu
        rw [hg.noParent _ ht (beq_self_eq_true _)] at hparent
        exact absurd hparent List.not_mem_nil
      · exact absurd hs (ne_classLabel hle hlimit hi ⟨_, hu, .inl rfl⟩)
  | classLink => exact (by decide : R2rml.predicateObjectMap ≠ R2rml.parentTriplesMap)
  | termMap hlow hhigh hshort => exact ne_parentTriplesMap hshort
  | constant => exact (by decide : R2rml.constant ≠ R2rml.parentTriplesMap)

/-- Links lead back to a triples map from object maps only. -/
theorem joined_spellTerms {t : Triple} (ht : t ∈ (g.spellTerms supply).1) (hlink : isLink t = true)
    (ho : t.object ∈ g.triplesMaps) :
    t.subject ∉ g.triplesMaps ∧ ∀ u ∈ (g.spellTerms supply).1, isLink u = true →
      u.object = t.subject → u.predicate = R2rml.objectMap := by
  have hmentions := mentions_of_mem_triplesMaps ho
  cases termTriple_of_mem ht with
  | old ht =>
      obtain ⟨-, u, hu, hp, hs⟩ := hg.joined t ht ho
      have hsubject : g.Mentions t.subject := ⟨t, ht, .inl rfl⟩
      refine ⟨?_, ?_⟩
      · intro hdecl
        have hparent := (hg.joined u hu (hs ▸ hdecl)).1
        rw [hp] at hparent
        exact absurd hparent (by decide)
      · intro v hv hlinkV hov
        cases termTriple_of_mem hv with
        | old hv => exact hg.object u hu hp v hv (hov.trans hs.symm)
        | classLink hi => exact absurd hov.symm (ne_classLabel hle hlimit hi hsubject)
        | termMap hlow hhigh =>
            exact absurd hov.symm (ne_termLabel hle hlimit hlow hhigh hsubject)
        | constant => exact absurd hlinkV (not_isLink_constant _ _)
  | classLink hi => exact absurd rfl (ne_classLabel hle hlimit hi hmentions)
  | termMap hlow hhigh => exact absurd rfl (ne_termLabel hle hlimit hlow hhigh hmentions)
  | constant => exact absurd hlink (not_isLink_constant _ _)

theorem arranged_spellTerms : (g.spellTerms supply).1.Arranged := by
  have hdeclared : (g.spellTerms supply).1.triplesMaps = g.triplesMaps := triplesMaps_spellTerms
  constructor
  case spelled => exact spelled_spellTerms
  case subject =>
    intro x hx
    exact hg.exists_subjectMap (hdeclared ▸ hx)
  case owner =>
    rintro ⟨s, p, o⟩ ht hlink
    obtain rfl := isPredicateObjectMap_iff.mp hlink
    rw [hdeclared]
    rcases mem_spellTerms_link.mp ht with ht | ⟨i, owner, hi, rfl, rfl⟩
    · exact hg.owner _ ht hlink
    · exact hg.mem_triplesMaps_of_mem_owned (List.mem_of_getElem? hi)
  case node =>
    rintro ⟨s, p, o⟩ ht hlink
    obtain rfl := isPredicateObjectMap_iff.mp hlink
    rcases mem_spellTerms_link.mp ht with ht | ⟨i, owner, hi, rfl, rfl⟩
    · exact hg.node _ ht hlink
    · simp [isNode, Label.isLabel_ofNat]
  case link =>
    rintro ⟨s, p, o⟩ ht hlink u hu hlinkU ho
    obtain rfl := isPredicateObjectMap_iff.mp hlink
    exact hg.link_spellTerms hle hlimit ht hu hlinkU ho
  case undeclared =>
    rintro ⟨s, p, o⟩ ht hlink
    obtain rfl := isPredicateObjectMap_iff.mp hlink
    rw [hdeclared]
    intro ho
    rcases mem_spellTerms_link.mp ht with ht | ⟨i, owner, hi, rfl, rfl⟩
    · have hparent : R2rml.predicateObjectMap ≠ R2rml.parentTriplesMap := by decide
      exact hparent (hg.joined _ ht ho).1
    · exact ne_classLabel hle hlimit hi (mentions_of_mem_triplesMaps ho) rfl
  case noParent =>
    rintro ⟨s, p, o⟩ ht hlink u hu hs
    obtain rfl := isPredicateObjectMap_iff.mp hlink
    exact hg.noParent_spellTerms hle hlimit ht hu hs
  case term =>
    intro t ht hp
    obtain ⟨parent, hparent⟩ := hg.term_spellTerms ht hp
    exact ⟨_, hparent, beq_self_eq_true _, rfl⟩
  case joined =>
    intro t ht hlink ho
    rw [hdeclared] at ho ⊢
    exact hg.joined_spellTerms hle hlimit ht hlink ho

end WellShaped

/-! ## Multiplying out -/

/-- The triples of a graph `k` in which one predicate-object map of `g` is multiplied out. -/
inductive PairTriple (g k : Graph) (pom : String) : Triple → Prop
  | old {t : Triple} (h : t ∈ g) (hnot : isAbout pom t = false) : PairTriple g k pom t
  | link {y label : String} (hlabel : isLabel label = true) (hnew : ¬g.Mentions label)
      (h : ⟨y, R2rml.predicateObjectMap, pom⟩ ∈ g) :
      PairTriple g k pom ⟨y, R2rml.predicateObjectMap, label⟩
  | copy {label p o : String} (hlabel : isLabel label = true) (hnew : ¬g.Mentions label)
      (h : ⟨pom, p, o⟩ ∈ g)
      (hlinks : ∀ y, ⟨y, R2rml.predicateObjectMap, pom⟩ ∈ g →
        ⟨y, R2rml.predicateObjectMap, label⟩ ∈ k) : PairTriple g k pom ⟨label, p, o⟩

theorem pairTriple_of_mem (hg : g.Before supply) (hsingle : ¬g.Single pom)
    (hlimit : (g.multiplyOut (g.subjectsWith R2rml.predicateObjectMap pom) pom supply).2.last <
      UInt64.size) {t : Triple}
    (ht : t ∈ (g.multiplyOut (g.subjectsWith R2rml.predicateObjectMap pom) pom supply).1) :
    PairTriple g (g.multiplyOut (g.subjectsWith R2rml.predicateObjectMap pom) pom supply).1 pom
      t := by
  rw [multiplyOut_of_not_single hsingle] at ht hlimit ⊢
  rcases List.mem_append.mp ht with ht | ht
  · obtain ⟨hmem, hnot⟩ := List.mem_filter.mp ht
    exact .old hmem (by simpa using hnot)
  · obtain ⟨i, pair, hi, ht⟩ := mem_numbered.mp ht
    have hlength := (List.getElem?_eq_some_iff.mp hi).1
    have hnew : ¬g.Mentions (Label.ofNat (supply.last + 1 + i)) := by
      rintro ⟨u, hu, hs | ho⟩
      · exact (hg u hu).1 _ (by omega) (by simp only at hlimit; omega) hs
      · exact (hg u hu).2 _ (by omega) (by simp only at hlimit; omega) ho
    rcases of_mem_pairGroup (List.mem_of_getElem? hi) ht with ⟨y, hy, rfl⟩ | ⟨hs, hold⟩
    · exact .link (Label.isLabel_ofNat _) hnew (mem_subjectsWith.mp hy)
    · obtain ⟨s, p, o⟩ := t
      subst hs
      refine .copy (Label.isLabel_ofNat _) hnew hold ?_
      intro y hy
      refine List.mem_append_right _ (mem_numbered.mpr ⟨i, pair, hi, ?_⟩)
      exact List.mem_append_left _ (List.mem_map.mpr ⟨y, mem_subjectsWith.mpr hy, rfl⟩)

/-- Taking new predicate-object maps for an old one keeps the arrangement. -/
theorem Arranged.pairs (hg : g.Arranged) {k : Graph} {parent : String}
    (hparent : ⟨parent, R2rml.predicateObjectMap, pom⟩ ∈ g)
    (hdeclared : k.triplesMaps = g.triplesMaps) (hkept : ∀ t ∈ g, isAbout pom t = false → t ∈ k)
    (hcases : ∀ t ∈ k, PairTriple g k pom t) : k.Arranged := by
  have hpom : pom ∉ g.triplesMaps := hg.undeclared _ hparent (beq_self_eq_true _)
  have hnone {o : String} : ⟨pom, R2rml.predicateObjectMap, o⟩ ∉ g := fun h =>
    hpom (hg.owner _ h (beq_self_eq_true _))
  constructor
  case spelled =>
    intro t ht
    cases hcases t ht with
    | old h => exact hg.spelled t h
    | link _ _ h => exact (hg.spelled _ h :)
    | copy _ _ h => exact (hg.spelled _ h :)
  case subject =>
    intro x hx
    rw [hdeclared] at hx
    obtain ⟨o, ho⟩ := hg.subject x hx
    have hne : x ≠ pom := fun h => hpom (h ▸ hx)
    have hp : R2rml.subjectMap ≠ R2rml.predicateObjectMap := by decide
    exact ⟨o, hkept _ ho (by simp [isAbout, hne, hp])⟩
  case owner =>
    intro t ht hlink
    rw [hdeclared]
    cases hcases t ht with
    | old h => exact hg.owner t h hlink
    | link _ _ h => exact (hg.owner _ h (beq_self_eq_true _) :)
    | copy _ _ h =>
        obtain rfl := isPredicateObjectMap_iff.mp hlink
        exact absurd h hnone
  case node =>
    intro t ht hlink
    cases hcases t ht with
    | old h => exact hg.node t h hlink
    | link hlabel => simp [isNode, hlabel]
    | copy _ _ h => exact (hg.node _ h hlink :)
  case link =>
    intro t ht hlink u hu hlinkU ho
    cases hcases t ht with
    | old h =>
        cases hcases u hu with
        | old hu => exact hg.link t h hlink u hu hlinkU ho
        | link => exact beq_self_eq_true _
        | copy _ _ hold => exact (hg.link t h hlink _ hold hlinkU ho :)
    | link _ hnew _ =>
        cases hcases u hu with
        | old hu => exact absurd ⟨u, hu, .inr ho⟩ hnew
        | link => exact beq_self_eq_true _
        | copy _ _ hold => exact absurd ⟨_, hold, .inr ho⟩ hnew
    | copy _ _ h =>
        obtain rfl := isPredicateObjectMap_iff.mp hlink
        exact absurd h hnone
  case undeclared =>
    intro t ht hlink
    rw [hdeclared]
    cases hcases t ht with
    | old h => exact hg.undeclared t h hlink
    | link _ hnew _ => exact fun hx => hnew (mentions_of_mem_triplesMaps hx)
    | copy _ _ h => exact (hg.undeclared _ h hlink :)
  case noParent =>
    intro t ht hlink u hu hs
    have hp : R2rml.predicateObjectMap ≠ R2rml.parentTriplesMap := by decide
    cases hcases t ht with
    | old h =>
        cases hcases u hu with
        | old hu => exact hg.noParent t h hlink u hu hs
        | link => exact hp
        | copy _ hnew => exact absurd ⟨t, h, .inr hs.symm⟩ hnew
    | link _ hnew _ =>
        cases hcases u hu with
        | old hu => exact absurd ⟨u, hu, .inl hs⟩ hnew
        | link => exact hp
        | copy _ _ hold => exact (hg.noParent _ hparent (beq_self_eq_true _) _ hold rfl :)
    | copy _ _ h =>
        obtain rfl := isPredicateObjectMap_iff.mp hlink
        exact absurd h hnone
  case term =>
    intro t ht hp
    cases hcases t ht with
    | old h hnot =>
        obtain ⟨u, hu, hlink, ho⟩ := hg.term t h hp
        refine ⟨u, hkept u hu ?_, hlink, ho⟩
        have hs : t.subject ≠ pom := by
          rintro rfl
          simp [isAbout] at hnot
        have howner : u.subject ≠ pom := fun hs => hpom (hs ▸ hg.owner u hu hlink)
        simp [isAbout, howner, ho, hs]
    | link =>
        exact absurd hp (show ¬(R2rml.predicateObjectMap = R2rml.predicateMap ∨
          R2rml.predicateObjectMap = R2rml.objectMap) by decide)
    | copy _ _ _ hlinks => exact ⟨_, hlinks parent hparent, beq_self_eq_true _, rfl⟩
  case joined =>
    intro t ht hlink ho
    rw [hdeclared] at ho ⊢
    cases hcases t ht with
    | old h =>
        obtain ⟨hs, hinto⟩ := hg.joined t h hlink ho
        refine ⟨hs, ?_⟩
        intro u hu hlinkU hou
        cases hcases u hu with
        | old hu => exact hinto u hu hlinkU hou
        | link _ hnew _ => exact absurd ⟨t, h, .inl hou.symm⟩ hnew
        | copy _ _ hold => exact (hinto _ hold hlinkU hou :)
    | link _ hnew _ => exact absurd (mentions_of_mem_triplesMaps ho) hnew
    | copy _ _ h =>
        -- A predicate-object map is reached from its triples maps, so it is no object map.
        have hinto := (hg.joined _ h hlink ho).2 _ hparent
          (hg.isLink hparent (beq_self_eq_true _)) rfl
        exact absurd hinto (show ¬R2rml.predicateObjectMap = R2rml.objectMap by decide)

/-- Multiplying out brings in new labels only. -/
theorem mentions_multiplyOut (hbefore : g.Before supply)
    (hlimit : (g.multiplyOut (g.subjectsWith R2rml.predicateObjectMap pom) pom supply).2.last <
      UInt64.size) {x : String}
    (h : (g.multiplyOut (g.subjectsWith R2rml.predicateObjectMap pom) pom supply).1.Mentions x) :
    g.Mentions x ∨ isLabel x = true := by
  by_cases hsingle : g.Single pom
  · rw [multiplyOut_of_single hsingle] at h
    exact .inl h
  · obtain ⟨t, ht, hx⟩ := h
    cases pairTriple_of_mem hbefore hsingle hlimit ht with
    | old h => exact .inl ⟨t, h, hx⟩
    | link hlabel _ h =>
        rcases hx with rfl | rfl
        · exact .inl ⟨_, h, .inl rfl⟩
        · exact .inr hlabel
    | copy hlabel _ h =>
        rcases hx with rfl | rfl
        · exact .inr hlabel
        · exact .inl ⟨_, h, .inr rfl⟩

theorem Arranged.multiplyOut (hg : g.Arranged) (hbefore : g.Before supply)
    {parent : String} (hparent : ⟨parent, R2rml.predicateObjectMap, pom⟩ ∈ g)
    (hlimit : (g.multiplyOut (g.subjectsWith R2rml.predicateObjectMap pom) pom supply).2.last <
      UInt64.size) :
    (g.multiplyOut (g.subjectsWith R2rml.predicateObjectMap pom) pom supply).1.Arranged := by
  by_cases hsingle : g.Single pom
  · rw [multiplyOut_of_single hsingle]
    exact hg
  · apply hg.pairs hparent
    · exact triplesMaps_multiplyOut (hg.undeclared _ hparent (beq_self_eq_true _))
    · intro t ht hnot
      rw [multiplyOut_of_not_single hsingle]
      exact List.mem_append_left _ (List.mem_filter.mpr ⟨ht, by rw [hnot]; rfl⟩)
    · intro t ht
      exact pairTriple_of_mem hbefore hsingle hlimit ht

/-! ## Separation -/

/-- The properties that a separated triples map copies. -/
def copiedPredicates : List String :=
  [R2rml.subjectMap, Rml.logicalSource, R2rml.predicateObjectMap]

/-- The triples of a graph `k` in which one triples map of `g` is separated. -/
inductive SeparatedTriple (g k : Graph) (triplesMap : String) : Triple → Prop
  | old {t : Triple} (h : t ∈ g) (hnot : isLinkOf triplesMap t = false) :
      SeparatedTriple g k triplesMap t
  | declared {name : String} (hnew : ¬g.Mentions name) :
      SeparatedTriple g k triplesMap ⟨name, Rdf.type, R2rml.triplesMap⟩
  | copy {name p o : String} (hdeclared : name ∈ k.triplesMaps) (hp : p ∈ copiedPredicates)
      (h : ⟨triplesMap, p, o⟩ ∈ g) : SeparatedTriple g k triplesMap ⟨name, p, o⟩

/-- How a graph `k` in which one triples map of `g` is separated is related to `g`. -/
structure SeparatedGraph (g k : Graph) (triplesMap : String) : Prop where
  kept : ∀ t ∈ g, isLinkOf triplesMap t = false → t ∈ k
  triple : ∀ t ∈ k, SeparatedTriple g k triplesMap t
  link : ∀ y, ⟨triplesMap, R2rml.predicateObjectMap, y⟩ ∈ g →
    ∃ name, ⟨name, R2rml.predicateObjectMap, y⟩ ∈ k
  subject : ∀ x ∈ k.triplesMaps, x ∉ g.triplesMaps → ∃ o, ⟨x, R2rml.subjectMap, o⟩ ∈ k

namespace SeparatedGraph

variable {k : Graph} {triplesMap : String} (h : SeparatedGraph g k triplesMap)
include h

theorem mem_triplesMaps {x : String} (hx : x ∈ g.triplesMaps) : x ∈ k.triplesMaps := by
  have htype : (Rdf.type == R2rml.predicateObjectMap) = false := by decide
  exact mem_subjectsWith.mpr (h.kept _ (mem_subjectsWith.mp hx) (by simp [isLinkOf, htype]))

/-- A declared triples map is an old one or new to the old graph. -/
theorem of_mem_triplesMaps {x : String} (hx : x ∈ k.triplesMaps) :
    x ∈ g.triplesMaps ∨ ¬g.Mentions x := by
  generalize ht : (⟨x, Rdf.type, R2rml.triplesMap⟩ : Triple) = t
  have hmem : t ∈ k := ht ▸ mem_subjectsWith.mp hx
  cases h.triple t hmem with
  | old hold => exact .inl (mem_subjectsWith.mpr (ht ▸ hold))
  | declared hnew =>
      cases ht
      exact .inr hnew
  | copy _ hp =>
      cases ht
      exact absurd hp (by decide)

/-- Every triple has a predicate and an object of an old triple. Its subject is that of the old
triple, unless the old triple belongs to the separated triples map. -/
theorem exists_old (htm : triplesMap ∈ g.triplesMaps) {t : Triple} (ht : t ∈ k) :
    ∃ s, ⟨s, t.predicate, t.object⟩ ∈ g ∧ (s = t.subject ∨ s = triplesMap) := by
  cases h.triple t ht with
  | old hold => exact ⟨t.subject, hold, .inl rfl⟩
  | declared => exact ⟨triplesMap, mem_subjectsWith.mp htm, .inr rfl⟩
  | copy _ _ hold => exact ⟨triplesMap, hold, .inr rfl⟩

/-- Taking separated triples maps for an old one keeps the arrangement. -/
theorem arranged (hg : g.Arranged) (htm : triplesMap ∈ g.triplesMaps) : k.Arranged := by
  constructor
  case spelled =>
    intro t ht
    obtain ⟨s, hold, -⟩ := h.exists_old htm ht
    exact (hg.spelled _ hold :)
  case subject =>
    intro x hx
    by_cases hold : x ∈ g.triplesMaps
    · obtain ⟨o, ho⟩ := hg.subject x hold
      have hp : (R2rml.subjectMap == R2rml.predicateObjectMap) = false := by decide
      exact ⟨o, h.kept _ ho (by simp [isLinkOf, hp])⟩
    · exact h.subject x hx hold
  case owner =>
    intro t ht hlink
    cases h.triple t ht with
    | old hold => exact h.mem_triplesMaps (hg.owner t hold hlink)
    | declared =>
        exact absurd hlink (show ¬(Rdf.type == R2rml.predicateObjectMap) = true by decide)
    | copy hdeclared => exact hdeclared
  case node =>
    intro t ht hlink
    obtain ⟨s, hold, -⟩ := h.exists_old htm ht
    exact (hg.node _ hold hlink :)
  case link =>
    intro t ht hlink u hu hlinkU ho
    obtain ⟨s, hold, -⟩ := h.exists_old htm ht
    obtain ⟨s', hold', -⟩ := h.exists_old htm hu
    exact (hg.link _ hold hlink _ hold' hlinkU ho :)
  case undeclared =>
    intro t ht hlink hx
    obtain ⟨s, hold, -⟩ := h.exists_old htm ht
    rcases h.of_mem_triplesMaps hx with hx | hnew
    · exact hg.undeclared _ hold hlink hx
    · exact hnew ⟨_, hold, .inr rfl⟩
  case noParent =>
    intro t ht hlink u hu hs
    obtain ⟨s, hold, -⟩ := h.exists_old htm ht
    cases h.triple u hu with
    | old hu => exact hg.noParent _ hold hlink u hu hs
    | declared => exact (by decide : Rdf.type ≠ R2rml.parentTriplesMap)
    | copy _ hp =>
        have hall : ∀ p ∈ copiedPredicates, p ≠ R2rml.parentTriplesMap := by decide
        exact hall _ hp
  case term =>
    intro t ht hp
    cases h.triple t ht with
    | old hold =>
        obtain ⟨⟨s, p, o⟩, hu, hlink, rfl⟩ := hg.term t hold hp
        obtain rfl := isPredicateObjectMap_iff.mp hlink
        by_cases hs : s = triplesMap
        · obtain ⟨name, hname⟩ := h.link t.subject (hs ▸ hu)
          exact ⟨_, hname, beq_self_eq_true _, rfl⟩
        · exact ⟨_, h.kept _ hu (by simp [isLinkOf, hs]), hlink, rfl⟩
    | declared =>
        exact absurd hp (show ¬(Rdf.type = R2rml.predicateMap ∨ Rdf.type = R2rml.objectMap) by
          decide)
    | copy _ hmem =>
        have hall : ∀ p ∈ copiedPredicates, ¬(p = R2rml.predicateMap ∨ p = R2rml.objectMap) := by
          decide
        exact absurd hp (hall _ hmem)
  case joined =>
    intro t ht hlink ho
    obtain ⟨s, hold, hs⟩ := h.exists_old htm ht
    have hobject : t.object ∈ g.triplesMaps := by
      rcases h.of_mem_triplesMaps ho with ho | hnew
      · exact ho
      · exact absurd ⟨_, hold, .inr rfl⟩ hnew
    obtain ⟨hnot, hinto⟩ := hg.joined _ hold hlink hobject
    -- The separated triples map is declared, so the link comes from elsewhere.
    obtain rfl : s = t.subject := hs.resolve_right fun hs => hnot (hs ▸ htm)
    refine ⟨?_, ?_⟩
    · intro hx
      rcases h.of_mem_triplesMaps hx with hx | hnew
      · exact hnot hx
      · exact hnew ⟨_, hold, .inl rfl⟩
    · intro u hu hlinkU hou
      obtain ⟨s', hold', -⟩ := h.exists_old htm hu
      exact (hinto _ hold' hlinkU hou :)

end SeparatedGraph

end RmlAlgebra.Graph
