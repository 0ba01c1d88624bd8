import RmlAlgebra.Normal
import RmlAlgebra.Proofs.Removal

/-! # What the rewrites remove and add

Each rewrite deletes all triples with a certain property and appends new ones. The terms of the new
triples are terms of the graph in their old place, new labels, names of separated triples maps, or
words of the vocabulary. A property of terms that holds for the last three and for a mapping graph
therefore holds for all its sub-graphs.
-/

namespace RmlAlgebra

namespace Graph

/-! ## Groups of new triples -/

/-- A group of triples for each element, made with the names of consecutive numbers. -/
def numbered {α : Type} (name : Nat → String) (group : String → α → List Triple) :
    Nat → List α → List Triple
  | _, [] => []
  | n, a :: others => group (name n) a ++ numbered name group (n + 1) others

/-- A group of triples for each element, made with the labels that follow a supply. -/
abbrev labelled {α : Type} (group : String → α → List Triple) (supply : Supply) (xs : List α) :
    List Triple :=
  numbered Label.ofNat group (supply.last + 1) xs

theorem mem_numbered {α : Type} {name : Nat → String} {group : String → α → List Triple} {n : Nat}
    {xs : List α} {t : Triple} : t ∈ numbered name group n xs ↔
      ∃ (i : Nat) (a : α), xs[i]? = some a ∧ t ∈ group (name (n + i)) a := by
  induction xs generalizing n with
  | nil => simp [numbered]
  | cons a others ih =>
      have hnext (i : Nat) : n + 1 + i = n + (i + 1) := by omega
      rw [numbered, List.mem_append, ih]
      constructor
      · rintro (ht | ⟨i, b, hb, ht⟩)
        · exact ⟨0, a, rfl, ht⟩
        · exact ⟨i + 1, b, hb, hnext i ▸ ht⟩
      · rintro ⟨i, b, hb, ht⟩
        cases i with
        | zero => exact .inl (Option.some.inj hb ▸ ht)
        | succ i => exact .inr ⟨i, b, hb, hnext i ▸ ht⟩

/-! ## The rewrites in closed form -/

/-- The owners of the given classes, with the classes that they own. -/
def owned (g : Graph) (classes : List Triple) : List (String × String) :=
  classes.filterMap fun t =>
    (g.find? (·.object == t.subject)).map fun owner => (owner.subject, t.object)

/-- The predicate-object map for a class. -/
def classGroup (pom : String) (x : String × String) : List Triple :=
  [⟨x.1, R2rml.predicateObjectMap, pom⟩, ⟨pom, R2rml.predicate, Rdf.type⟩,
    ⟨pom, R2rml.object, x.2⟩]

theorem classMaps_eq (g : Graph) (classes : List Triple) (supply : Supply) :
    g.classMaps classes supply =
      (labelled classGroup supply (g.owned classes),
        ⟨supply.last + (g.owned classes).length⟩) := by
  induction classes generalizing supply with
  | nil => rfl
  | cons t others ih =>
      rw [classMaps]
      cases howner : g.find? (·.object == t.subject) with
      | none => simp [ih, owned, howner]
      | some owner =>
          have hlast (n : Nat) : supply.last + 1 + n = supply.last + (n + 1) := by omega
          simp [ih, owned, howner, numbered, classGroup, Supply.next, hlast]

/-- The shortcut properties and the properties that lead to their term maps. -/
def shortcuts : List (String × String) :=
  [(R2rml.subject, R2rml.subjectMap), (R2rml.predicate, R2rml.predicateMap),
    (R2rml.object, R2rml.objectMap), (R2rml.graph, R2rml.graphMap),
    (R2rml.datatype, R2rml.datatypeMap), (R2rml.language, R2rml.languageMap)]

theorem mem_shortcuts {p q : String} (h : shortcut? p = some q) : (p, q) ∈ shortcuts := by
  unfold shortcut? at h
  split at h
  · next hp => cases h; subst hp; decide
  split at h
  · next hp => cases h; subst hp; decide
  split at h
  · next hp => cases h; subst hp; decide
  split at h
  · next hp => cases h; subst hp; decide
  split at h
  · next hp => cases h; subst hp; decide
  split at h
  · next hp => cases h; subst hp; decide
  · cases h

/-- The shortcuts of a graph, each with the property that leads to a term map. -/
def constants (g : Graph) : List Triple :=
  g.filterMap fun t => (shortcut? t.predicate).map fun q => { t with predicate := q }

/-- The term map for a shortcut. -/
def constantGroup (label : String) (t : Triple) : List Triple :=
  [⟨t.subject, t.predicate, label⟩, ⟨label, R2rml.constant, t.object⟩]

theorem constantMaps_eq (g : Graph) (supply : Supply) :
    constantMaps g supply =
      (labelled constantGroup supply g.constants, ⟨supply.last + g.constants.length⟩) := by
  induction g generalizing supply with
  | nil => rfl
  | cons t others ih =>
      rw [constantMaps]
      cases hshort : shortcut? t.predicate with
      | none => simp [ih, constants, hshort]
      | some q =>
          have hlast (n : Nat) : supply.last + 1 + n = supply.last + (n + 1) := by omega
          simp [ih, constants, hshort, numbered, constantGroup, Supply.next, hlast]

def pairGroup (parents : List String) (shared : List Triple) (pom : String)
    (pair : String × String) : List Triple :=
  pairTriples parents shared pair.1 pair.2 pom

theorem pairMaps_eq (parents : List String) (shared : List Triple) (pairs : List (String × String))
    (supply : Supply) :
    pairMaps parents shared pairs supply =
      (labelled (pairGroup parents shared) supply pairs, ⟨supply.last + pairs.length⟩) := by
  induction pairs generalizing supply with
  | nil => rfl
  | cons pair others ih =>
      have hlast (n : Nat) : supply.last + 1 + n = supply.last + (n + 1) := by omega
      simp [pairMaps, ih, numbered, pairGroup, Supply.next, hlast]

def isClass (t : Triple) : Bool :=
  t.predicate == R2rml.class_

def isShortcut (t : Triple) : Bool :=
  (shortcut? t.predicate).isSome

theorem expandClasses_eq (g : Graph) (supply : Supply) :
    g.expandClasses supply =
      (g.filter (!isClass ·) ++ labelled classGroup supply (g.owned (g.filter isClass)),
        ⟨supply.last + (g.owned (g.filter isClass)).length⟩) := by
  rw [← removeEach_filter isClass g, expandClasses]
  simp only [classMaps_eq]
  rfl

theorem expandConstants_eq (g : Graph) (supply : Supply) :
    g.expandConstants supply =
      (g.filter (!isShortcut ·) ++ labelled constantGroup supply g.constants,
        ⟨supply.last + g.constants.length⟩) := by
  rw [← removeEach_filter isShortcut g, expandConstants]
  simp only [constantMaps_eq]
  rfl

/-- The pairs of predicate maps and object maps that a predicate-object map stands for. -/
def pairs (g : Graph) (pom : String) : List (String × String) :=
  (g.objectsOf pom R2rml.predicateMap).flatMap fun p =>
    (g.objectsOf pom R2rml.objectMap).map fun o => (p, o)

theorem mem_pairs {g : Graph} {pom : String} {pair : String × String} :
    pair ∈ g.pairs pom ↔
      pair.1 ∈ g.objectsOf pom R2rml.predicateMap ∧ pair.2 ∈ g.objectsOf pom R2rml.objectMap := by
  obtain ⟨p, o⟩ := pair
  simp [pairs]

def isShared (pom : String) (t : Triple) : Bool :=
  t.subject == pom && t.predicate != R2rml.predicateMap && t.predicate != R2rml.objectMap

/-- A map that is not multiplied out. -/
def Single (g : Graph) (pom : String) : Prop :=
  (g.objectsOf pom R2rml.predicateMap).length ≤ 1 ∧ (g.objectsOf pom R2rml.objectMap).length ≤ 1

instance (g : Graph) (pom : String) : Decidable (g.Single pom) :=
  inferInstanceAs (Decidable (_ ∧ _))

theorem multiplyOut_of_single {g : Graph} {pom : String} (h : g.Single pom) (parents : List String)
    (supply : Supply) : g.multiplyOut parents pom supply = (g, supply) := by
  simp [multiplyOut, h.1, h.2]

theorem multiplyOut_of_not_single {g : Graph} {pom : String} (h : ¬g.Single pom)
    (parents : List String) (supply : Supply) :
    g.multiplyOut parents pom supply =
      (g.filter (!isAbout pom ·) ++
          labelled (pairGroup parents (g.filter (isShared pom))) supply (g.pairs pom),
        ⟨supply.last + (g.pairs pom).length⟩) := by
  have hshared : (g.filter (isAbout pom)).filter (isShared pom) = g.filter (isShared pom) := by
    rw [List.filter_filter]
    apply List.filter_congr
    intro t _
    by_cases hs : t.subject = pom <;> simp [isShared, isAbout, hs]
  have hguard : ((g.objectsOf pom R2rml.predicateMap).length ≤ 1 &&
      (g.objectsOf pom R2rml.objectMap).length ≤ 1) = false := by
    rw [Bool.eq_false_iff]
    intro hle
    exact h (by simpa [Single] using hle)
  rw [← removeEach_filter (isAbout pom) g, ← hshared, multiplyOut, if_neg (by simp [hguard])]
  simp only [pairMaps_eq]
  rfl

def isLinkOf (triplesMap : String) (t : Triple) : Bool :=
  t.subject == triplesMap && t.predicate == R2rml.predicateObjectMap

theorem map_objectsOf (g : Graph) (subject predicate : String) :
    (g.objectsOf subject predicate).map (⟨subject, predicate, ·⟩) =
      g.filter fun t => t.subject == subject && t.predicate == predicate := by
  rw [objectsOf, List.map_map]
  refine (List.map_congr_left ?_).trans (List.map_id _)
  rintro ⟨s, p, o⟩ ht
  have heq : s = subject ∧ p = predicate := by simpa using (List.mem_filter.mp ht).2
  simp [heq.1, heq.2]

/-- The triples of the new triples maps for the listed predicate-object maps. Each is made from a
graph that holds the ones before. -/
def separatedFrom (triplesMap : String) (subjectMap source : Option String) :
    Nat → List String → Graph → List Triple
  | _, [], _ => []
  | number, pom :: others, g =>
      let new := g.separatedTriples subjectMap source (separatedName triplesMap number) pom
      new ++ separatedFrom triplesMap subjectMap source (number + 1) others (g ++ new)

theorem addSeparated_eq (triplesMap : String) (subjectMap source : Option String) (number : Nat)
    (poms : List String) (g : Graph) :
    addSeparated triplesMap subjectMap source number poms g =
      g ++ separatedFrom triplesMap subjectMap source number poms g := by
  induction poms generalizing number g with
  | nil => simp [addSeparated, separatedFrom]
  | cons pom others ih => simp [addSeparated, separatedFrom, ih]

theorem separate_of_le {g : Graph} {triplesMap : String}
    (h : (g.objectsOf triplesMap R2rml.predicateObjectMap).length ≤ 1) :
    g.separate triplesMap = g := by
  simp [separate, h]

theorem separate_of_lt {g : Graph} {triplesMap : String}
    (h : 1 < (g.objectsOf triplesMap R2rml.predicateObjectMap).length) :
    g.separate triplesMap = g.filter (!isLinkOf triplesMap ·) ++
      separatedFrom triplesMap (g.firstObject? triplesMap R2rml.subjectMap)
        (g.firstObject? triplesMap Rml.logicalSource) 1
        (g.objectsOf triplesMap R2rml.predicateObjectMap) g := by
  have hlinks : (g.objectsOf triplesMap R2rml.predicateObjectMap).map
      (⟨triplesMap, R2rml.predicateObjectMap, ·⟩) = g.filter (isLinkOf triplesMap) :=
    map_objectsOf g triplesMap R2rml.predicateObjectMap
  rw [separate, if_neg (by omega)]
  dsimp only
  rw [addSeparated_eq, hlinks, removeEach_filter_append]

/-! ## Supplies -/

theorem last_le_multiplyOut (g : Graph) (parents : List String) (pom : String) (supply : Supply) :
    supply.last ≤ (g.multiplyOut parents pom supply).2.last := by
  by_cases hsingle : g.Single pom
  · exact Nat.le_of_eq (by rw [multiplyOut_of_single hsingle])
  · rw [multiplyOut_of_not_single hsingle]
    exact Nat.le_add_right _ _

theorem last_le_multiplyOutAll (start : Graph) (poms : List String) (g : Graph) (supply : Supply) :
    supply.last ≤ (multiplyOutAll start poms g supply).2.last := by
  induction poms generalizing g supply with
  | nil => exact Nat.le_refl _
  | cons pom others ih =>
      exact Nat.le_trans (g.last_le_multiplyOut _ pom supply) (ih _ _)

end Graph

/-! ## Terms -/

/-- What the terms of a graph may be, place by place. -/
structure Shape where
  subject : String → Prop
  predicate : String → Prop
  object : String → Prop

namespace Shape

/-- Whether the terms of a graph are as a shape says. -/
def Fits (k : Shape) (g : Graph) : Prop :=
  ∀ t ∈ g, k.subject t.subject ∧ k.predicate t.predicate ∧ k.object t.object

/-- The predicates of the triples that the rewrites add. -/
def addedPredicates : List String :=
  [Rdf.type, R2rml.predicateObjectMap, R2rml.subjectMap, R2rml.predicateMap, R2rml.objectMap,
    R2rml.graphMap, R2rml.datatypeMap, R2rml.languageMap, R2rml.predicate, R2rml.object,
    R2rml.constant, R2rml.parentTriplesMap, R2rml.joinCondition, Rml.logicalSource]

/-- A shape that the rewrites cannot break. -/
structure Stable (k : Shape) : Prop where
  subjectLabel : ∀ n, k.subject (Label.ofNat n)
  objectLabel : ∀ n, k.object (Label.ofNat n)
  separated : ∀ triplesMap n, k.subject triplesMap → k.subject (Graph.separatedName triplesMap n)
  addedPredicate : ∀ p ∈ addedPredicates, k.predicate p
  type : k.object Rdf.type
  triplesMap : k.object R2rml.triplesMap

variable {k : Shape} {g h : Graph}

theorem fits_cons {s p o : String} :
    k.Fits (⟨s, p, o⟩ :: g) ↔ (k.subject s ∧ k.predicate p ∧ k.object o) ∧ k.Fits g :=
  List.forall_mem_cons

theorem fits_nil : k.Fits [] :=
  fun _ ht => absurd ht List.not_mem_nil

theorem fits_append : k.Fits (g ++ h) ↔ k.Fits g ∧ k.Fits h := by
  simp only [Fits, List.forall_mem_append]

theorem Fits.filter (hg : k.Fits g) (p : Triple → Bool) : k.Fits (g.filter p) :=
  fun t ht => hg t (List.mem_filter.mp ht).1

theorem Fits.object_of_mem (hg : k.Fits g) {subject predicate object : String}
    (ho : object ∈ g.objectsOf subject predicate) : k.object object :=
  (hg _ (Graph.mem_objectsOf.mp ho)).2.2

theorem Fits.object_of_first (hg : k.Fits g) {subject predicate object : String}
    (ho : g.firstObject? subject predicate = some object) : k.object object :=
  hg.object_of_mem (List.mem_of_head? ho)

theorem fits_property {subject predicate : String} {object : Option String}
    (hs : k.subject subject) (hp : k.predicate predicate)
    (ho : ∀ o, object = some o → k.object o) : k.Fits (Graph.property subject predicate object) := by
  intro t ht
  simp only [Graph.property, List.mem_map, Option.mem_toList] at ht
  obtain ⟨o, heq, rfl⟩ := ht
  exact ⟨hs, hp, ho o heq⟩

theorem fits_labelled {α : Type} {group : String → α → List Triple} {xs : List α}
    (h : ∀ n, ∀ a ∈ xs, k.Fits (group (Label.ofNat n) a)) (supply : Supply) :
    k.Fits (Graph.labelled group supply xs) := by
  intro t ht
  obtain ⟨i, a, ha, ht⟩ := Graph.mem_numbered.mp ht
  exact h _ a (List.mem_of_getElem? ha) t ht

theorem Stable.classGroup (hk : k.Stable) (n : Nat) {x : String × String} (howner : k.subject x.1)
    (hclass : k.object x.2) : k.Fits (Graph.classGroup (Label.ofNat n) x) := by
  refine fits_cons.mpr ⟨?_, fits_cons.mpr ⟨?_, fits_cons.mpr ⟨?_, fits_nil⟩⟩⟩
  · exact ⟨howner, hk.addedPredicate _ (by decide), hk.objectLabel _⟩
  · exact ⟨hk.subjectLabel _, hk.addedPredicate _ (by decide), hk.type⟩
  · exact ⟨hk.subjectLabel _, hk.addedPredicate _ (by decide), hclass⟩

theorem Stable.expandClasses (hk : k.Stable) (hg : k.Fits g) (supply : Supply) :
    k.Fits (g.expandClasses supply).1 := by
  rw [Graph.expandClasses_eq]
  refine fits_append.mpr ⟨hg.filter _, fits_labelled (fun n x hx => ?_) supply⟩
  obtain ⟨t, ht, hx⟩ := List.mem_filterMap.mp hx
  obtain ⟨owner, howner, rfl⟩ := Option.map_eq_some_iff.mp hx
  exact hk.classGroup n (hg owner (List.mem_of_find?_eq_some howner)).1 (hg.filter _ t ht).2.2

theorem addedPredicates_of_shortcut? {p q : String} (h : Graph.shortcut? p = some q) :
    q ∈ addedPredicates := by
  have hall : ∀ x ∈ Graph.shortcuts, x.2 ∈ addedPredicates := by decide
  exact hall _ (Graph.mem_shortcuts h)

theorem Stable.expandConstants (hk : k.Stable) (hg : k.Fits g) (supply : Supply) :
    k.Fits (g.expandConstants supply).1 := by
  rw [Graph.expandConstants_eq]
  refine fits_append.mpr ⟨hg.filter _, fits_labelled (fun n x hx => ?_) supply⟩
  obtain ⟨t, ht, hx⟩ := List.mem_filterMap.mp hx
  obtain ⟨q, hq, rfl⟩ := Option.map_eq_some_iff.mp hx
  have hmap := hk.addedPredicate _ (addedPredicates_of_shortcut? hq)
  refine fits_cons.mpr ⟨?_, fits_cons.mpr ⟨?_, fits_nil⟩⟩
  · exact ⟨(hg t ht).1, hmap, hk.objectLabel _⟩
  · exact ⟨hk.subjectLabel _, hk.addedPredicate _ (by decide), (hg t ht).2.2⟩

theorem Stable.pairGroup (hk : k.Stable) {parents : List String} {shared : List Triple}
    (hparents : ∀ x ∈ parents, k.subject x) (hshared : k.Fits shared) (n : Nat)
    {pair : String × String} (hpair : k.object pair.1 ∧ k.object pair.2) :
    k.Fits (Graph.pairGroup parents shared (Label.ofNat n) pair) := by
  refine fits_append.mpr ⟨?_, fits_cons.mpr ⟨?_, fits_cons.mpr ⟨?_, ?_⟩⟩⟩
  · intro u hu
    obtain ⟨x, hx, rfl⟩ := List.mem_map.mp hu
    have hp := hk.addedPredicate R2rml.predicateObjectMap (by decide)
    exact ⟨hparents x hx, hp, hk.objectLabel _⟩
  · exact ⟨hk.subjectLabel _, hk.addedPredicate _ (by decide), hpair.1⟩
  · exact ⟨hk.subjectLabel _, hk.addedPredicate _ (by decide), hpair.2⟩
  · intro u hu
    obtain ⟨t, ht, rfl⟩ := List.mem_map.mp hu
    exact ⟨hk.subjectLabel _, (hshared t ht).2⟩

theorem Stable.multiplyOut (hk : k.Stable) (hg : k.Fits g) {parents : List String}
    (hparents : ∀ x ∈ parents, k.subject x) (pom : String) (supply : Supply) :
    k.Fits (g.multiplyOut parents pom supply).1 := by
  by_cases hsingle : g.Single pom
  · rw [Graph.multiplyOut_of_single hsingle]
    exact hg
  · rw [Graph.multiplyOut_of_not_single hsingle]
    refine fits_append.mpr ⟨hg.filter _, fits_labelled (fun n pair hpair => ?_) supply⟩
    apply hk.pairGroup hparents (hg.filter _)
    have hmem := Graph.mem_pairs.mp hpair
    exact ⟨hg.object_of_mem hmem.1, hg.object_of_mem hmem.2⟩

theorem Stable.multiplyOutAll (hk : k.Stable) {start : Graph} (hstart : k.Fits start)
    (poms : List String) (hg : k.Fits g) (supply : Supply) :
    k.Fits (Graph.multiplyOutAll start poms g supply).1 := by
  induction poms generalizing g supply with
  | nil => exact hg
  | cons pom others ih =>
      rw [Graph.multiplyOutAll]
      apply ih
      apply hk.multiplyOut hg
      intro x hx
      exact (hstart _ (Graph.mem_subjectsWith.mp hx)).1

theorem Stable.separatedTriples (hk : k.Stable) (hg : k.Fits g) {subjectMap source : Option String}
    (hsm : ∀ o, subjectMap = some o → k.object o) (hsrc : ∀ o, source = some o → k.object o)
    {name pom : String} (hname : k.subject name) (hpom : k.object pom) :
    k.Fits (g.separatedTriples subjectMap source name pom) := by
  have hproperty {p : String} (hp : p ∈ addedPredicates) {object : Option String}
      (ho : ∀ o, object = some o → k.object o) : k.Fits (Graph.property name p object) :=
    fits_property hname (hk.addedPredicate _ hp) ho
  have htype := hk.addedPredicate Rdf.type (by decide)
  have hlink : k.Fits [⟨name, R2rml.predicateObjectMap, pom⟩] :=
    fits_cons.mpr ⟨⟨hname, hk.addedPredicate _ (by decide), hpom⟩, fits_nil⟩
  refine fits_cons.mpr ⟨⟨hname, htype, hk.triplesMap⟩, fits_append.mpr ⟨?_, hlink⟩⟩
  cases hparent : g.firstObject? pom R2rml.parentTriplesMap with
  | none =>
      exact fits_append.mpr ⟨hproperty (by decide) hsm, hproperty (by decide) hsrc⟩
  | some parent =>
      have hparentLink := hk.addedPredicate R2rml.parentTriplesMap (by decide)
      refine fits_cons.mpr ⟨⟨hname, hparentLink, hg.object_of_first hparent⟩, ?_⟩
      refine fits_append.mpr ⟨fits_append.mpr ⟨?_, ?_⟩, ?_⟩
      · exact hproperty (by decide) fun o ho => hg.object_of_first ho
      · exact hproperty (by decide) fun o ho => hg.object_of_first ho
      · intro t ht
        obtain ⟨o, ho, rfl⟩ := List.mem_map.mp ht
        have hp := hk.addedPredicate R2rml.joinCondition (by decide)
        exact ⟨hname, hp, hg.object_of_mem ho⟩

theorem Stable.separatedFrom (hk : k.Stable) {triplesMap : String} (htm : k.subject triplesMap)
    {subjectMap source : Option String} (hsm : ∀ o, subjectMap = some o → k.object o)
    (hsrc : ∀ o, source = some o → k.object o) (number : Nat) {poms : List String}
    (hpoms : ∀ pom ∈ poms, k.object pom) (hg : k.Fits g) :
    k.Fits (Graph.separatedFrom triplesMap subjectMap source number poms g) := by
  induction poms generalizing number g with
  | nil => simp [Graph.separatedFrom, Fits]
  | cons pom others ih =>
      have hnew := hk.separatedTriples hg hsm hsrc (hk.separated triplesMap number htm)
        (hpoms pom List.mem_cons_self)
      have hothers := ih (number + 1) (fun x hx => hpoms x (List.mem_cons_of_mem _ hx))
        (fits_append.mpr ⟨hg, hnew⟩)
      exact fits_append.mpr ⟨hnew, hothers⟩

theorem Stable.separate (hk : k.Stable) (hg : k.Fits g) {triplesMap : String}
    (htm : k.subject triplesMap) : k.Fits (g.separate triplesMap) := by
  by_cases hle : (g.objectsOf triplesMap R2rml.predicateObjectMap).length ≤ 1
  · rw [Graph.separate_of_le hle]
    exact hg
  · rw [Graph.separate_of_lt (by omega)]
    refine fits_append.mpr ⟨hg.filter _, ?_⟩
    exact hk.separatedFrom htm (fun o ho => hg.object_of_first ho)
      (fun o ho => hg.object_of_first ho) 1 (fun pom hpom => hg.object_of_mem hpom) hg

theorem Stable.separatePredicateObjectMaps (hk : k.Stable) (hg : k.Fits g) :
    k.Fits (Graph.separatePredicateObjectMaps g) := by
  have hmaps : ∀ x ∈ g.triplesMaps, k.subject x :=
    fun x hx => (hg _ (Graph.mem_subjectsWith.mp hx)).1
  unfold Graph.separatePredicateObjectMaps
  generalize g.triplesMaps = maps at hmaps
  induction maps generalizing g with
  | nil => exact hg
  | cons x others ih =>
      exact ih (hk.separate hg (hmaps x List.mem_cons_self))
        fun y hy => hmaps y (List.mem_cons_of_mem _ hy)

/-- The rewrites keep every stable shape. -/
theorem Stable.spellOut (hk : k.Stable) (hg : k.Fits g) (supply : Supply) :
    k.Fits (g.spellOut supply).1 := by
  have hclasses := hk.expandClasses hg supply
  have hconstants := hk.expandConstants hclasses (g.expandClasses supply).2
  exact hk.separatePredicateObjectMaps (hk.multiplyOutAll hconstants _ hconstants _)

end Shape

end RmlAlgebra
