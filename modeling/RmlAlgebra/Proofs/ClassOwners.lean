import RmlAlgebra.Proofs.TermRules

/-! # Who keeps a class

A class becomes a predicate-object map of a single node, the subject of the first triple that leads to
the node with the class. Whatever the predicate of that triple is, no other node is given the class.
So a triples map keeps the classes of its subject map if nothing else leads there before.
-/

namespace RmlAlgebra.Graph

variable {g : Graph} {supply : Supply} {owner class_ pom : String}

/-- Whether a predicate-object map of a node states a class. -/
structure StatesClass (g : Graph) (owner class_ pom : String) : Prop where
  link : ⟨owner, R2rml.predicateObjectMap, pom⟩ ∈ g
  predicate : ⟨pom, R2rml.predicate, Rdf.type⟩ ∈ g
  object : ⟨pom, R2rml.object, class_⟩ ∈ g

/-- The node that the classes of a node are given to. -/
def classOwner? (g : Graph) (x : String) : Option String :=
  (g.find? (·.object == x)).map Triple.subject

theorem mem_owned_iff :
    (owner, class_) ∈ g.owned (g.filter isClass) ↔
      ∃ x, ⟨x, R2rml.class_, class_⟩ ∈ g ∧ g.classOwner? x = some owner := by
  simp only [owned, List.mem_filterMap, List.mem_filter, Option.map_eq_some_iff, classOwner?,
    isClass, beq_iff_eq, Prod.mk.injEq]
  constructor
  · rintro ⟨⟨x, p, c⟩, ⟨hmem, rfl⟩, t, ht, rfl, rfl⟩
    exact ⟨x, hmem, t, ht, rfl⟩
  · rintro ⟨x, hmem, t, ht, rfl⟩
    exact ⟨⟨x, R2rml.class_, class_⟩, ⟨hmem, rfl⟩, t, ht, rfl, rfl⟩

/-- Only one triple leads to the map of a class. -/
theorem mem_classGroup_link {label : String} {x : String × String} :
    ⟨owner, R2rml.predicateObjectMap, pom⟩ ∈ classGroup label x ↔ owner = x.1 ∧ pom = label := by
  have hpredicate : R2rml.predicateObjectMap ≠ R2rml.predicate := by decide
  have hobject : R2rml.predicateObjectMap ≠ R2rml.object := by decide
  simp [classGroup, hpredicate, hobject]

theorem mem_classGroup_object {label : String} {x : String × String} :
    ⟨pom, R2rml.object, class_⟩ ∈ classGroup label x ↔ pom = label ∧ class_ = x.2 := by
  have hlink : R2rml.object ≠ R2rml.predicateObjectMap := by decide
  have hpredicate : R2rml.object ≠ R2rml.predicate := by decide
  simp [classGroup, hlink, hpredicate]

/-- A new map that states a class was made for it. -/
theorem mem_owned_of_statesClass (hpom : ¬g.Mentions pom)
    (h : (g.expandClasses supply).1.StatesClass owner class_ pom) :
    (owner, class_) ∈ g.owned (g.filter isClass) := by
  rcases mem_expandClasses.mp h.link with ⟨hold, -⟩ | ⟨i, x, hx, hlink⟩
  · exact absurd ⟨_, hold, .inr rfl⟩ hpom
  rcases mem_expandClasses.mp h.object with ⟨hold, -⟩ | ⟨j, y, hy, hobject⟩
  · exact absurd ⟨_, hold, .inl rfl⟩ hpom
  obtain ⟨rfl, hlabel⟩ := mem_classGroup_link.mp hlink
  obtain ⟨hlabel', rfl⟩ := mem_classGroup_object.mp hobject
  -- Both triples mention the same label, so they stand in the same group.
  have hij : i = j := by
    have hnumbers := Label.ofNat_injective (hlabel.symm.trans hlabel')
    omega
  subst hij
  obtain rfl : x = y := Option.some.inj (hx.symm.trans hy)
  exact List.mem_of_getElem? hx

theorem exists_statesClass
    (hfresh : ∀ n, supply.last < n → n ≤ (g.expandClasses supply).2.last →
      ¬g.Mentions (Label.ofNat n))
    (h : (owner, class_) ∈ g.owned (g.filter isClass)) :
    ∃ pom, ¬g.Mentions pom ∧ (g.expandClasses supply).1.StatesClass owner class_ pom := by
  obtain ⟨i, hi⟩ := List.mem_iff_getElem?.mp h
  have hlength := (List.getElem?_eq_some_iff.mp hi).1
  have hmem (t : Triple) (ht : t ∈ classGroup (Label.ofNat (supply.last + 1 + i)) (owner, class_)) :
      t ∈ (g.expandClasses supply).1 := mem_expandClasses.mpr (.inr ⟨i, _, hi, ht⟩)
  refine ⟨Label.ofNat (supply.last + 1 + i), hfresh _ (by omega) ?_, ?_, ?_, ?_⟩
  · rw [expandClasses_eq]
    simp only
    omega
  · exact hmem _ (by simp [classGroup])
  · exact hmem _ (by simp [classGroup])
  · exact hmem _ (by simp [classGroup])

/-- If all that leads to a node comes from one other, that one owns its classes. -/
theorem classOwner?_eq {x p : String} (h : ⟨owner, p, x⟩ ∈ g)
    (honly : ∀ t ∈ g, t.object = x → t.subject = owner) : g.classOwner? x = some owner := by
  rw [classOwner?, Option.map_eq_some_iff]
  have hsome : (g.find? (·.object == x)).isSome = true := by
    rw [List.find?_isSome]
    exact ⟨_, h, beq_self_eq_true _⟩
  obtain ⟨t, ht⟩ := Option.isSome_iff_exists.mp hsome
  have hobject : t.object = x := by simpa using List.find?_some ht
  exact ⟨t, ht, honly t (List.mem_of_find?_eq_some ht) hobject⟩

/-- A node is given a class exactly if it is the first to lead to a node with that class. A triples
map keeps the classes of a subject map that nothing else leads to, and no class is left. -/
theorem class_kept_iff (g : Graph) (supply : Supply) (triplesMap class_ : String)
    (hfresh : ∀ n, supply.last < n → n ≤ (g.expandClasses supply).2.last →
      ¬g.Mentions (Label.ofNat n)) :
    ((∃ pom, ¬g.Mentions pom ∧ (g.expandClasses supply).1.StatesClass triplesMap class_ pom) ↔
      ∃ x, ⟨x, R2rml.class_, class_⟩ ∈ g ∧ g.classOwner? x = some triplesMap) ∧
    (∀ subjectMap, ⟨triplesMap, R2rml.subjectMap, subjectMap⟩ ∈ g →
      ⟨subjectMap, R2rml.class_, class_⟩ ∈ g →
      (∀ t ∈ g, t.object = subjectMap → t.subject = triplesMap) →
      ∃ pom, ¬g.Mentions pom ∧ (g.expandClasses supply).1.StatesClass triplesMap class_ pom) ∧
    ∀ t ∈ (g.expandClasses supply).1, t.predicate ≠ R2rml.class_ := by
  refine ⟨⟨?_, ?_⟩, ?_, ?_⟩
  · rintro ⟨pom, hpom, hstates⟩
    exact mem_owned_iff.mp (mem_owned_of_statesClass hpom hstates)
  · exact fun h => exists_statesClass hfresh (mem_owned_iff.mpr h)
  · intro subjectMap hsm hclass honly
    have howner := classOwner?_eq hsm honly
    exact exists_statesClass hfresh (mem_owned_iff.mpr ⟨subjectMap, hclass, howner⟩)
  · intro t ht hclass
    exact Bool.false_ne_true ((isClass_expandClasses ht).symm.trans (beq_iff_eq.mpr hclass))

/-- A triples map with two classes, and what is said before. -/
def classMapping (before : Graph) : Graph :=
  before ++ [⟨"http://e/t", Rdf.type, R2rml.triplesMap⟩,
    ⟨"http://e/t", Rml.logicalSource, "http://e/l"⟩,
    ⟨"http://e/t", R2rml.subjectMap, "http://e/s"⟩, ⟨"http://e/l", Rml.source, "f"⟩,
    ⟨"http://e/s", R2rml.template, "\x7bi\x7d"⟩, ⟨"http://e/s", R2rml.class_, "http://e/c"⟩,
    ⟨"http://e/s", R2rml.class_, "b4"⟩]

/-- The labels of a supply that starts at the highest label are new. -/
theorem fresh_of_highestLabel_le (hle : g.highestLabel ≤ supply.last)
    (hlimit : (g.expandClasses supply).2.last < UInt64.size) (n : Nat) (hn : supply.last < n)
    (hlast : n ≤ (g.expandClasses supply).2.last) : ¬g.Mentions (Label.ofNat n) :=
  not_mentions_ofNat (by omega) (by omega)

theorem class_kept_classMapping :
    (∃ pom, ¬(classMapping []).Mentions pom ∧
      ((classMapping []).expandClasses ⟨4⟩).1.StatesClass "http://e/t" "b4" pom) ∧
      ∀ t ∈ ((classMapping []).expandClasses ⟨4⟩).1, t.predicate ≠ R2rml.class_ := by
  have hkept := class_kept_iff (classMapping []) ⟨4⟩ "http://e/t" "b4"
    (fresh_of_highestLabel_le (by decide +kernel) (by decide +kernel))
  exact ⟨hkept.2.1 "http://e/s" (by decide) (by decide) (by decide), hkept.2.2⟩

/-- Any triple that leads to a subject map takes its classes away from the triples map. -/
theorem class_taken_by_other_triple :
    ¬∀ (g : Graph) (supply : Supply) (triplesMap subjectMap class_ : String),
      (∀ n, supply.last < n → n ≤ (g.expandClasses supply).2.last → ¬g.Mentions (Label.ofNat n)) →
      ⟨triplesMap, R2rml.subjectMap, subjectMap⟩ ∈ g → ⟨subjectMap, R2rml.class_, class_⟩ ∈ g →
      ∃ pom, ¬g.Mentions pom ∧ (g.expandClasses supply).1.StatesClass triplesMap class_ pom := by
  intro h
  let g := classMapping [⟨"http://e/x", "http://e/y", "http://e/s"⟩]
  obtain ⟨pom, -, hstates⟩ := h g ⟨4⟩ "http://e/t" "http://e/s" "http://e/c"
    (fresh_of_highestLabel_le (by decide +kernel) (by decide +kernel)) (by decide) (by decide)
  have hnone : (g.expandClasses ⟨4⟩).1.objectsOf "http://e/t" R2rml.predicateObjectMap = [] := by
    decide +kernel
  exact absurd (mem_objectsOf.mpr hstates.link) (by rw [hnone]; exact List.not_mem_nil)

/-- Of two triples maps with the same subject map only the first keeps its class. -/
example : ((classMapping [⟨"http://e/u", R2rml.subjectMap, "http://e/s"⟩]).expandClasses
    ⟨4⟩).1.objectsOf "http://e/t" R2rml.predicateObjectMap = [] := by
  decide +kernel

end RmlAlgebra.Graph
