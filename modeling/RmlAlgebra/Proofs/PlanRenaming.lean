import RmlAlgebra.Plan
import RmlAlgebra.Proofs.Renaming

/-! # Plans without names

An expression is made of values, which are the objects of a few properties; nodes only lead to them.
A renaming that keeps all values therefore keeps the plan of a graph. Only errors name nodes, so the
two plans are compared as options.
-/

namespace RmlAlgebra

section Options

variable {ε α β : Type}

theorem toOption_bind_congr {x x' : Except ε α} {f f' : α → Except ε β} (r : α → α)
    (hx : x'.toOption = x.toOption.map r) (hf : ∀ a, (f' (r a)).toOption = (f a).toOption) :
    (x' >>= f').toOption = (x >>= f).toOption := by
  cases x with
  | error cause =>
      cases x' with
      | error cause' => rfl
      | ok a => cases hx
  | ok a =>
      cases x' with
      | error cause' => cases hx
      | ok a' =>
          have ha : a' = r a := Option.some.inj hx
          subst ha
          exact hf a

theorem toOption_bind_congr_id {x x' : Except ε α} {f f' : α → Except ε β}
    (hx : x'.toOption = x.toOption) (hf : ∀ a, (f' a).toOption = (f a).toOption) :
    (x' >>= f').toOption = (x >>= f).toOption :=
  toOption_bind_congr id (by simpa using hx) hf

end Options

namespace Graph

/-- A renaming that keeps the objects of all properties whose objects are values. -/
def KeepsValues (ρ : Renaming) (g : Graph) : Prop :=
  ∀ t ∈ g, valuePredicates.contains t.predicate = true → ρ t.object = t.object

variable {ρ : Renaming} {g : Graph}

/-! ## Queries -/

theorem objectsOf_value (h : KeepsValues ρ g) {p : String} (hp : valuePredicates.contains p = true)
    (x : String) : (g.rename ρ).objectsOf (ρ x) p = g.objectsOf x p := by
  rw [objectsOf_rename]
  apply ρ.map_of_fixed
  intro o ho
  exact h _ (mem_objectsOf.mp ho) hp

theorem singleObject?_rename (x p : String) :
    (g.rename ρ).singleObject? (ρ x) p = (g.singleObject? x p).map ρ := by
  rw [singleObject?, objectsOf_rename, singleObject?]
  match g.objectsOf x p with
  | [] => rfl
  | [_] => rfl
  | _ :: _ :: _ => rfl

theorem singleObject?_value (h : KeepsValues ρ g) {p : String}
    (hp : valuePredicates.contains p = true) (x : String) :
    (g.rename ρ).singleObject? (ρ x) p = g.singleObject? x p := by
  rw [singleObject?, objectsOf_value h hp, singleObject?]

theorem toOption_required (x p : String) : (g.required x p).toOption = g.firstObject? x p := by
  unfold required
  cases g.firstObject? x p <;> rfl

theorem required_rename (x p : String) :
    ((g.rename ρ).required (ρ x) p).toOption = (g.required x p).toOption.map ρ := by
  rw [toOption_required, toOption_required, firstObject?_rename]

theorem required_value (h : KeepsValues ρ g) {p : String} (hp : valuePredicates.contains p = true)
    (x : String) : ((g.rename ρ).required (ρ x) p).toOption = (g.required x p).toOption := by
  rw [toOption_required, toOption_required, firstObject?, objectsOf_value h hp, firstObject?]

theorem countPredicate_rename (p : String) : (g.rename ρ).countPredicate p = g.countPredicate p := by
  simp [countPredicate, rename, Triple.rename, Function.comp_def]

theorem sources_rename (h : KeepsValues ρ g) : (g.rename ρ).sources = g.sources := by
  have hfilter : (g.rename ρ).filter (fun t => (none : Option String).all (· == t.subject) &&
      (some Rml.source).all (· == t.predicate)) =
      rename ρ (g.filter fun t => Rml.source == t.predicate) :=
    g.filter_rename ρ fun t => by simp [Triple.rename]
  rw [sources, objects, hfilter, sources, objects, rename, List.map_map]
  simp only [Option.all_none, Option.all_some, Bool.true_and]
  apply List.map_congr_left
  intro t ht
  obtain ⟨hmem, hp⟩ := List.mem_filter.mp ht
  have hp : Rml.source = t.predicate := by simpa using hp
  exact h t hmem (hp ▸ by decide)

theorem root_rename : (g.rename ρ).root.toOption = g.root.toOption.map ρ := by
  have howners : (g.rename ρ).subjects R2rml.subjectMap none =
      (g.subjects R2rml.subjectMap none).map ρ := by
    rw [subjects, g.filter_rename ρ (q := fun t => t.predicate == R2rml.subjectMap &&
      (none : Option String).all (· == t.object)) fun _ => rfl, subjects, rename, List.map_map,
      List.map_map]
    rfl
  have hfind (owners : List String) :
      (owners.map ρ).find? (fun o =>
        ((g.rename ρ).objectsOf o R2rml.predicateObjectMap).length == 1) =
      (owners.find? fun o => (g.objectsOf o R2rml.predicateObjectMap).length == 1).map ρ := by
    rw [List.find?_map]
    congr 2
    funext o
    simp [objectsOf_rename]
  unfold root
  rw [howners]
  cases howner : g.subjects R2rml.subjectMap none with
  | nil => rfl
  | cons owner others =>
      have hcons := hfind (owner :: others)
      rw [List.map_cons] at hcons ⊢
      simp only
      rw [hcons]
      cases (owner :: others).find? fun o =>
        (g.objectsOf o R2rml.predicateObjectMap).length == 1 <;> rfl

/-! ## Term maps -/

theorem termMap_rename (h : KeepsValues ρ g) (node : String) (type : TermType) :
    (g.rename ρ).termMap (ρ node) type = g.termMap node type := by
  rw [termMap, singleObject?_value h (by decide), singleObject?_value h (by decide),
    singleObject?_value h (by decide), termMap]

theorem subjectMap_rename (h : KeepsValues ρ g) (node : String) :
    (g.rename ρ).subjectMap (ρ node) = g.subjectMap node := by
  rw [subjectMap, singleObject?_value h (by decide), termMap_rename h, subjectMap]

theorem inferredTermMap_rename (h : KeepsValues ρ g) (node : String) :
    (g.rename ρ).inferredTermMap (ρ node) = g.inferredTermMap node := by
  rw [inferredTermMap, termMap_rename h, inferredTermMap]

theorem objectTerm_rename (h : KeepsValues ρ g) (node : String) :
    (g.rename ρ).objectTerm (ρ node) = g.objectTerm node := by
  rw [objectTerm, singleObject?_value h (by decide), inferredTermMap_rename h, objectTerm]
  simp only [termMap_rename h]

theorem graphOf?_rename (h : KeepsValues ρ g) (owner : String) :
    (g.rename ρ).graphOf? (ρ owner) = g.graphOf? owner := by
  rw [graphOf?, singleObject?_rename, graphOf?]
  cases g.singleObject? owner R2rml.graphMap with
  | none => rfl
  | some node =>
      simp only [Option.map_some, Option.bind_eq_bind, Option.bind_some]
      rw [termMap_rename h]

theorem graphMaps_rename (h : KeepsValues ρ g) (subjectNode pom : String) :
    (g.rename ρ).graphMaps (ρ subjectNode) (ρ pom) = g.graphMaps subjectNode pom := by
  rw [graphMaps, List.filterMap_cons, List.filterMap_cons, graphOf?_rename h, graphOf?_rename h]
  rfl

theorem predicateMap_rename (h : KeepsValues ρ g) (pom : String) :
    ((g.rename ρ).predicateMap (ρ pom)).toOption = (g.predicateMap pom).toOption := by
  apply toOption_bind_congr ρ (required_rename pom R2rml.predicateMap)
  intro node
  rw [termMap_rename h]

theorem objectLanguage_rename (h : KeepsValues ρ g) (node : String) :
    ((g.rename ρ).objectLanguage (ρ node)).toOption = (g.objectLanguage node).toOption := by
  rw [objectLanguage, singleObject?_rename, objectLanguage]
  cases g.singleObject? node R2rml.languageMap with
  | none => rfl
  | some languageMap =>
      exact toOption_bind_congr_id (required_value h (by decide) languageMap) fun _ => rfl

theorem objectDatatype_rename (h : KeepsValues ρ g) (node : String) :
    ((g.rename ρ).objectDatatype (ρ node)).toOption = (g.objectDatatype node).toOption := by
  rw [objectDatatype, singleObject?_rename, objectDatatype]
  cases g.singleObject? node R2rml.datatypeMap with
  | none => rfl
  | some datatypeMap =>
      exact toOption_bind_congr_id (required_value h (by decide) datatypeMap) fun _ => rfl

theorem objectMap_rename (h : KeepsValues ρ g) (pom : String) :
    ((g.rename ρ).objectMap (ρ pom)).toOption = (g.objectMap pom).toOption := by
  apply toOption_bind_congr ρ (required_rename pom R2rml.objectMap)
  intro node
  apply toOption_bind_congr_id (objectLanguage_rename h node)
  intro language
  apply toOption_bind_congr_id (objectDatatype_rename h node)
  intro datatype
  rw [objectTerm_rename h]

theorem joinColumns_rename (h : KeepsValues ρ g) (node : String) :
    ((g.rename ρ).joinColumns (ρ node)).toOption = (g.joinColumns node).toOption := by
  rw [joinColumns, singleObject?_rename, joinColumns]
  cases g.singleObject? node R2rml.joinCondition with
  | none => rfl
  | some condition =>
      apply toOption_bind_congr_id (required_value h (by decide) condition)
      intro child
      exact toOption_bind_congr_id (required_value h (by decide) condition) fun _ => rfl

theorem referencing_rename (h : KeepsValues ρ g) (pom : String) :
    ((g.rename ρ).referencing (ρ pom)).toOption = (g.referencing pom).toOption := by
  apply toOption_bind_congr ρ (required_rename pom R2rml.objectMap)
  intro node
  apply toOption_bind_congr_id (joinColumns_rename h node)
  intro columns
  apply toOption_bind_congr ρ (required_rename node R2rml.parentTriplesMap)
  intro parent
  apply toOption_bind_congr ρ (required_rename parent Rml.logicalSource)
  intro logicalSource
  apply toOption_bind_congr_id (required_value h (by decide) logicalSource)
  intro source
  apply toOption_bind_congr ρ (required_rename parent R2rml.subjectMap)
  intro parentSubject
  rw [inferredTermMap_rename h]

/-! ## Plans -/

theorem planSource_rename (h : KeepsValues ρ g) :
    (g.rename ρ).planSource.toOption = g.planSource.toOption := by
  unfold planSource
  rw [sources_rename h]
  cases g.sources.head? with
  | none => rfl
  | some source =>
      apply toOption_bind_congr ρ root_rename
      intro root
      apply toOption_bind_congr ρ (required_rename root R2rml.predicateObjectMap)
      intro pom
      apply toOption_bind_congr ρ (required_rename root R2rml.subjectMap)
      intro subjectNode
      rw [subjectMap_rename h]
      apply toOption_bind_congr_id rfl
      intro subject
      apply toOption_bind_congr_id (predicateMap_rename h pom)
      intro predicate
      apply toOption_bind_congr_id (objectMap_rename h pom)
      intro object
      rw [graphMaps_rename h]

theorem planJoin_rename (h : KeepsValues ρ g) :
    (g.rename ρ).planJoin.toOption = g.planJoin.toOption := by
  apply toOption_bind_congr ρ root_rename
  intro root
  apply toOption_bind_congr ρ (required_rename root R2rml.predicateObjectMap)
  intro pom
  apply toOption_bind_congr ρ (required_rename root R2rml.subjectMap)
  intro subjectNode
  rw [subjectMap_rename h]
  apply toOption_bind_congr_id rfl
  intro subject
  apply toOption_bind_congr_id (predicateMap_rename h pom)
  intro predicate
  apply toOption_bind_congr_id (referencing_rename h pom)
  intro referencing
  rw [graphMaps_rename h, sources_rename h]

/-- Renaming nodes does not change a plan. -/
theorem plan_rename (h : KeepsValues ρ g) : (g.rename ρ).plan.toOption = g.plan.toOption := by
  unfold plan
  rw [countPredicate_rename]
  split
  · exact planJoin_rename h
  · exact planSource_rename h

end Graph

end RmlAlgebra
