import RmlAlgebra.Proofs.FreshLabel
import RmlAlgebra.Proofs.Rewriting

/-! # Renaming blank nodes

Names of blank nodes have no meaning: every query, every rewrite and the traversal give the renamed
result for a renamed graph. A rewrite takes its new labels from a supply, so a renaming has to carry
the labels of one supply to those of the other. Names of separated triples maps are made from the
names of others, which therefore have to keep theirs.
-/

namespace RmlAlgebra

/-- A renaming of labels. All other texts keep their names. -/
structure Renaming where
  apply : String → String
  injective : ∀ {x y : String}, apply x = apply y → x = y
  label : ∀ x, isLabel (apply x) = isLabel x
  other : ∀ x, isLabel x = false → apply x = x

namespace Renaming

instance : CoeFun Renaming fun _ => String → String :=
  ⟨apply⟩

variable (ρ : Renaming)

theorem apply_inj {x y : String} : ρ x = ρ y ↔ x = y :=
  ⟨ρ.injective, congrArg ρ⟩

theorem beq_apply (x y : String) : (ρ x == ρ y) = (x == y) := by
  rw [Bool.eq_iff_iff, beq_iff_eq, beq_iff_eq, ρ.apply_inj]

theorem isNode_apply (x : String) : isNode (ρ x) = isNode x := by
  cases h : isLabel x with
  | true => simp [isNode, ρ.label, h]
  | false => rw [ρ.other x h]

theorem map_of_fixed {xs : List String} (h : ∀ x ∈ xs, ρ x = x) : xs.map ρ = xs :=
  (List.map_congr_left h).trans (List.map_id xs)

theorem apply_type : ρ Rdf.type = Rdf.type :=
  ρ.other _ (by decide)

theorem apply_triplesMap : ρ R2rml.triplesMap = R2rml.triplesMap :=
  ρ.other _ (by decide)

end Renaming

def Triple.rename (ρ : Renaming) (t : Triple) : Triple :=
  ⟨ρ t.subject, t.predicate, ρ t.object⟩

namespace Graph

def rename (ρ : Renaming) (g : Graph) : Graph :=
  g.map (Triple.rename ρ)

variable (ρ : Renaming) (g : Graph)

theorem rename_append (h : Graph) : rename ρ (g ++ h) = rename ρ g ++ rename ρ h :=
  List.map_append

theorem rename_cons (t : Triple) : rename ρ (t :: g) = t.rename ρ :: rename ρ g :=
  rfl

theorem rename_of_fixed {g : Graph} (h : ∀ t ∈ g, ρ t.subject = t.subject ∧ ρ t.object = t.object) :
    g.rename ρ = g := by
  refine (List.map_congr_left fun t ht => ?_).trans (List.map_id g)
  simp [Triple.rename, h t ht]

/-! ## Queries -/

theorem filter_rename {p q : Triple → Bool} (h : ∀ t, p (t.rename ρ) = q t) :
    (g.rename ρ).filter p = rename ρ (g.filter q) := by
  rw [rename, List.filter_map]
  exact congrArg (rename ρ) (List.filter_congr fun t _ => h t)

theorem objectsOf_rename (x p : String) :
    (g.rename ρ).objectsOf (ρ x) p = (g.objectsOf x p).map ρ := by
  rw [objectsOf, g.filter_rename ρ (q := fun t => t.subject == x && t.predicate == p)]
  · simp only [rename, objectsOf, List.map_map]
    rfl
  · intro t
    simp [Triple.rename, ρ.beq_apply]

theorem subjectsWith_rename (p o : String) :
    (g.rename ρ).subjectsWith p (ρ o) = (g.subjectsWith p o).map ρ := by
  rw [subjectsWith, subjects,
    g.filter_rename ρ (q := fun t => t.predicate == p && (some o).all (· == t.object))]
  · simp only [rename, subjectsWith, subjects, List.map_map]
    rfl
  · intro t
    simp [Triple.rename, ρ.beq_apply]

theorem firstObject?_rename (x p : String) :
    (g.rename ρ).firstObject? (ρ x) p = (g.firstObject? x p).map ρ := by
  simp [firstObject?, objectsOf_rename, List.head?_map]

theorem triplesMaps_rename : (g.rename ρ).triplesMaps = g.triplesMaps.map ρ := by
  have h := g.subjectsWith_rename ρ Rdf.type R2rml.triplesMap
  rwa [ρ.apply_triplesMap] at h

/-! ## Rewrites -/

/-- A renaming that carries the labels which follow `a` to those which follow `b`, the first
`count` of them. -/
def Carries (count a b : Nat) : Prop :=
  ∀ i, 0 < i → i ≤ count → ρ (Label.ofNat (a + i)) = Label.ofNat (b + i)

/-- A result with `i` or more labels of its supply behind it, and the renamed result with as many
labels of the other supply behind it. -/
def Renamed (a b i : Nat) (result renamed : List Triple × Supply) : Prop :=
  ∃ j, i ≤ j ∧ result.2 = ⟨a + j⟩ ∧ renamed = (rename ρ result.1, ⟨b + j⟩)

variable {ρ g} {count a b : Nat}

/-- Groups are renamed together with their labels. -/
theorem rename_labelled {α β : Type} {group : String → α → List Triple}
    {group' : String → β → List Triple} {f : α → β}
    (hgroup : ∀ label x, rename ρ (group label x) = group' (ρ label) (f x))
    (hρ : Carries ρ count a b) {i : Nat} {xs : List α} (hi : i + xs.length ≤ count) :
    rename ρ (labelled group ⟨a + i⟩ xs) = labelled group' ⟨b + i⟩ (xs.map f) := by
  induction xs generalizing i with
  | nil => rfl
  | cons x others ih =>
      rw [List.length_cons] at hi
      have hlabel : ρ (Label.ofNat (a + i + 1)) = Label.ofNat (b + i + 1) :=
        hρ (i + 1) (by omega) (by omega)
      have hothers : rename ρ (labelled group ⟨a + (i + 1)⟩ others) =
          labelled group' ⟨b + (i + 1)⟩ (others.map f) := ih (by omega)
      simp only [labelled, List.map_cons, numbered, rename_append, hgroup, hlabel]
      rw [Nat.add_assoc a, Nat.add_assoc b, hothers]

/-- A rewrite that drops triples and appends groups of new ones. -/
theorem Renamed.filter_labelled {α β : Type} {group : String → α → List Triple}
    {group' : String → β → List Triple} {f : α → β} {p q : Triple → Bool}
    (hp : ∀ t, q (t.rename ρ) = p t)
    (hgroup : ∀ label x, rename ρ (group label x) = group' (ρ label) (f x))
    (hρ : Carries ρ count a b) {i : Nat} {xs : List α} (hcount : a + i + xs.length ≤ a + count) :
    Renamed ρ a b i (g.filter p ++ labelled group ⟨a + i⟩ xs, ⟨a + i + xs.length⟩)
      ((rename ρ g).filter q ++ labelled group' ⟨b + i⟩ (xs.map f),
        ⟨b + i + (xs.map f).length⟩) := by
  refine ⟨i + xs.length, by omega, by rw [Nat.add_assoc], ?_⟩
  rw [g.filter_rename ρ hp, ← rename_labelled hgroup hρ (by omega), rename_append, List.length_map,
    Nat.add_assoc]

theorem owned_rename (classes : List Triple) :
    (g.rename ρ).owned (rename ρ classes) = (g.owned classes).map (Prod.map ρ ρ) := by
  have hfind (t : Triple) : (g.rename ρ).find? (·.object == ρ t.subject) =
      (g.find? (·.object == t.subject)).map (Triple.rename ρ) := by
    rw [rename, List.find?_map]
    congr 2
    funext u
    exact ρ.beq_apply u.object t.subject
  simp only [owned, rename, List.filterMap_map, List.map_filterMap]
  congr 1
  funext t
  rw [Function.comp_apply, Triple.rename, ← rename, hfind]
  cases g.find? (·.object == t.subject) <;> rfl

theorem renamed_expandClasses (hρ : Carries ρ count a b) {i : Nat}
    (hcount : (g.expandClasses ⟨a + i⟩).2.last ≤ a + count) :
    Renamed ρ a b i (g.expandClasses ⟨a + i⟩) ((g.rename ρ).expandClasses ⟨b + i⟩) := by
  rw [expandClasses_eq] at hcount
  rw [expandClasses_eq, expandClasses_eq, g.filter_rename ρ (p := isClass) fun _ => rfl,
    owned_rename]
  refine Renamed.filter_labelled (fun _ => rfl) (fun label x => ?_) hρ hcount
  simp [classGroup, rename, Triple.rename, ρ.apply_type]

theorem constants_rename : (g.rename ρ).constants = g.constants.map (Triple.rename ρ) := by
  simp only [constants, rename, List.filterMap_map, List.map_filterMap]
  congr 1
  funext t
  cases hq : shortcut? t.predicate <;> simp [Triple.rename, hq]

theorem renamed_expandConstants (hρ : Carries ρ count a b) {i : Nat}
    (hcount : (g.expandConstants ⟨a + i⟩).2.last ≤ a + count) :
    Renamed ρ a b i (g.expandConstants ⟨a + i⟩) ((g.rename ρ).expandConstants ⟨b + i⟩) := by
  rw [expandConstants_eq] at hcount
  rw [expandConstants_eq, expandConstants_eq, constants_rename]
  exact Renamed.filter_labelled (fun _ => rfl) (fun _ _ => rfl) hρ hcount

theorem isAbout_rename (pom : String) (t : Triple) :
    isAbout (ρ pom) (t.rename ρ) = isAbout pom t := by
  simp [isAbout, Triple.rename, ρ.beq_apply]

theorem isShared_rename (pom : String) (t : Triple) :
    isShared (ρ pom) (t.rename ρ) = isShared pom t := by
  simp [isShared, Triple.rename, ρ.beq_apply]

theorem pairs_rename (pom : String) :
    (g.rename ρ).pairs (ρ pom) = (g.pairs pom).map (Prod.map ρ ρ) := by
  simp [pairs, objectsOf_rename, List.map_flatMap, List.flatMap_map, Function.comp_def]

theorem single_rename_iff {pom : String} : (g.rename ρ).Single (ρ pom) ↔ g.Single pom := by
  simp [Single, objectsOf_rename]

theorem renamed_multiplyOut (hρ : Carries ρ count a b) (parents : List String) (pom : String)
    {i : Nat} (hcount : (g.multiplyOut parents pom ⟨a + i⟩).2.last ≤ a + count) :
    Renamed ρ a b i (g.multiplyOut parents pom ⟨a + i⟩)
      ((g.rename ρ).multiplyOut (parents.map ρ) (ρ pom) ⟨b + i⟩) := by
  by_cases hsingle : g.Single pom
  · rw [multiplyOut_of_single hsingle, multiplyOut_of_single (single_rename_iff.mpr hsingle)]
    exact ⟨i, Nat.le_refl i, rfl, rfl⟩
  · rw [multiplyOut_of_not_single hsingle] at hcount
    rw [multiplyOut_of_not_single hsingle,
      multiplyOut_of_not_single (mt single_rename_iff.mp hsingle), pairs_rename,
      g.filter_rename ρ (isShared_rename pom)]
    refine Renamed.filter_labelled (fun t => ?_) (fun label pair => ?_) hρ hcount
    · rw [isAbout_rename]
    · simp [pairGroup, pairTriples, rename, Triple.rename, Function.comp_def]

theorem renamed_multiplyOutAll (hρ : Carries ρ count a b) (start : Graph) (poms : List String)
    {i : Nat} (hcount : (multiplyOutAll start poms g ⟨a + i⟩).2.last ≤ a + count) :
    Renamed ρ a b i (multiplyOutAll start poms g ⟨a + i⟩)
      (multiplyOutAll (start.rename ρ) (poms.map ρ) (g.rename ρ) ⟨b + i⟩) := by
  induction poms generalizing g i with
  | nil => exact ⟨i, Nat.le_refl i, rfl, rfl⟩
  | cons pom others ih =>
      simp only [multiplyOutAll, List.map_cons, subjectsWith_rename] at hcount ⊢
      have hfirst := Nat.le_trans (last_le_multiplyOutAll start others _ _) hcount
      obtain ⟨j, hij, hlast, hrenamed⟩ := renamed_multiplyOut hρ _ pom hfirst
      rw [hlast] at hcount
      rw [hlast, hrenamed]
      obtain ⟨k, hjk, hrest⟩ := ih hcount
      exact ⟨k, Nat.le_trans hij hjk, hrest⟩

/-! ## Separation -/

theorem apply_separatedName (triplesMap : String) (n : Nat) :
    ρ (separatedName triplesMap n) = separatedName triplesMap n := by
  apply ρ.other
  rw [Bool.eq_false_iff]
  intro hlabel
  have hmark : '_' ∈ (separatedName triplesMap n).toList := by
    rw [toList_separatedName]
    simp
  rcases Label.isDigit_of_mem_label hlabel hmark with h | h <;> simp at h

theorem rename_property (x p : String) (o : Option String) :
    rename ρ (property x p o) = property (ρ x) p (o.map ρ) := by
  cases o <;> rfl

theorem rename_separatedTriples (subjectMap source : Option String) (name pom : String) :
    rename ρ (g.separatedTriples subjectMap source name pom) =
      (g.rename ρ).separatedTriples (subjectMap.map ρ) (source.map ρ) (ρ name) (ρ pom) := by
  have hlink : rename ρ [⟨name, R2rml.predicateObjectMap, pom⟩] =
      [⟨ρ name, R2rml.predicateObjectMap, ρ pom⟩] := rfl
  rw [separatedTriples, separatedTriples, firstObject?_rename]
  cases hparent : g.firstObject? pom R2rml.parentTriplesMap with
  | none =>
      simp only [Option.map_none]
      rw [rename_append, rename_cons, rename_append, rename_property, rename_property, hlink,
        Triple.rename, ρ.apply_triplesMap]
  | some parent =>
      simp only [Option.map_some]
      rw [rename_append, rename_cons, rename_cons, rename_append, rename_append, rename_property,
        rename_property, hlink, firstObject?_rename, firstObject?_rename, objectsOf_rename]
      simp [rename, Triple.rename, ρ.apply_triplesMap, Function.comp_def]

theorem rename_separatedFrom (triplesMap : String) (subjectMap source : Option String) (n : Nat)
    (poms : List String) :
    rename ρ (separatedFrom triplesMap subjectMap source n poms g) =
      separatedFrom triplesMap (subjectMap.map ρ) (source.map ρ) n (poms.map ρ) (g.rename ρ) := by
  induction poms generalizing n g with
  | nil => rfl
  | cons pom others ih =>
      rw [separatedFrom, List.map_cons, separatedFrom, rename_append, ih, rename_append,
        rename_separatedTriples, apply_separatedName]

theorem rename_separate {triplesMap : String} (h : ρ triplesMap = triplesMap) :
    (g.rename ρ).separate triplesMap = (g.separate triplesMap).rename ρ := by
  have hpoms : (g.rename ρ).objectsOf triplesMap R2rml.predicateObjectMap =
      (g.objectsOf triplesMap R2rml.predicateObjectMap).map ρ := by
    have heq := g.objectsOf_rename ρ triplesMap R2rml.predicateObjectMap
    rwa [h] at heq
  have hfirst (p : String) :
      (g.rename ρ).firstObject? triplesMap p = (g.firstObject? triplesMap p).map ρ := by
    have heq := g.firstObject?_rename ρ triplesMap p
    rwa [h] at heq
  have hlinks (t : Triple) : (!isLinkOf triplesMap (t.rename ρ)) = !isLinkOf triplesMap t := by
    have heq := ρ.beq_apply t.subject triplesMap
    rw [h] at heq
    simp [isLinkOf, Triple.rename, heq]
  by_cases hle : (g.objectsOf triplesMap R2rml.predicateObjectMap).length ≤ 1
  · rw [separate_of_le hle, separate_of_le (by simpa [hpoms] using hle)]
  · have hlt : 1 < (g.objectsOf triplesMap R2rml.predicateObjectMap).length := by omega
    rw [separate_of_lt hlt, separate_of_lt (by simpa [hpoms] using hlt), hpoms, hfirst, hfirst,
      g.filter_rename ρ hlinks, rename_append, rename_separatedFrom]

theorem rename_foldl_separate {triplesMaps : List String}
    (h : ∀ triplesMap ∈ triplesMaps, ρ triplesMap = triplesMap) :
    triplesMaps.foldl separate (g.rename ρ) = (triplesMaps.foldl separate g).rename ρ := by
  induction triplesMaps generalizing g with
  | nil => rfl
  | cons triplesMap others ih =>
      rw [List.forall_mem_cons] at h
      rw [List.foldl_cons, List.foldl_cons, rename_separate h.1, ih h.2]

theorem rename_separatePredicateObjectMaps
    (h : ∀ triplesMap ∈ g.triplesMaps, ρ triplesMap = triplesMap) :
    (g.rename ρ).separatePredicateObjectMaps = g.separatePredicateObjectMaps.rename ρ := by
  rw [separatePredicateObjectMaps, triplesMaps_rename, ρ.map_of_fixed h, rename_foldl_separate h,
    separatePredicateObjectMaps]

/-! ## Traversal -/

theorem rename_keepFirst (found : Bool) (ts : List Triple) :
    keepFirst found (rename ρ ts) = rename ρ (keepFirst found ts) := by
  induction ts generalizing found with
  | nil => rfl
  | cons t others ih =>
      have hsame : isPredicateObjectMap (t.rename ρ) = isPredicateObjectMap t := rfl
      rw [rename_cons, keepFirst, keepFirst, hsame]
      by_cases hpom : isPredicateObjectMap t = true
      · cases found with
        | true => simp [hpom, ih]
        | false => simp [hpom, ih, rename_cons]
      · simp [hpom, ih, rename_cons]

def Walk.rename (ρ : Renaming) (w : Walk) : Walk :=
  ⟨w.visited.map ρ, w.found, Graph.rename ρ w.triples⟩

theorem contains_map_apply (xs : List String) (x : String) :
    (xs.map ρ).contains (ρ x) = xs.contains x := by
  rw [Bool.eq_iff_iff, List.contains_iff_mem, List.contains_iff_mem, List.mem_map]
  constructor
  · rintro ⟨y, hy, heq⟩
    rwa [← ρ.injective heq]
  · exact fun hx => ⟨x, hx, rfl⟩

theorem visit_rename (w : Walk) (node : String) :
    (g.rename ρ).visit (w.rename ρ) (ρ node) =
      ((g.visit w node).1.rename ρ, (g.visit w node).2.map ρ) := by
  have hkept : keepFirst w.found ((g.rename ρ).filter (·.subject == ρ node)) =
      rename ρ (keepFirst w.found (g.filter (·.subject == node))) := by
    rw [g.filter_rename ρ (q := (·.subject == node)), rename_keepFirst]
    intro t
    exact ρ.beq_apply t.subject node
  have hvisited : w.visited.map ρ ++ [ρ node] = (w.visited ++ [node]).map ρ := by simp
  have hany (ts : List Triple) :
      (rename ρ ts).any isPredicateObjectMap = ts.any isPredicateObjectMap := by
    rw [rename, List.any_map]
    rfl
  simp only [visit, Walk.rename]
  rw [hkept, hvisited, hany, rename_append]
  congr 1
  rw [filter_rename ρ (q := fun t => isLink t && !(w.visited ++ [node]).contains t.object)]
  · simp [rename, Triple.rename, Function.comp_def]
  · intro t
    simp only [isLink, Triple.rename, ρ.isNode_apply, contains_map_apply]

theorem walkFrom_rename (fuel : Nat) (stack : List String) (w : Walk) :
    (g.rename ρ).walkFrom fuel (stack.map ρ) (w.rename ρ) =
      (g.walkFrom fuel stack w).rename ρ := by
  induction fuel generalizing stack w with
  | zero => rfl
  | succ fuel ih =>
      cases stack with
      | nil => rfl
      | cons node stack =>
          have hseen : (w.rename ρ).visited.contains (ρ node) = w.visited.contains node :=
            contains_map_apply w.visited node
          rw [List.map_cons, walkFrom, walkFrom, hseen]
          by_cases hv : w.visited.contains node = true
          · rw [if_pos hv, if_pos hv, ih]
          · rw [if_neg hv, if_neg hv, visit_rename]
            dsimp only
            rw [← List.map_reverse, ← List.map_append, ih]

theorem reachable_rename (root : String) :
    (g.rename ρ).reachable (ρ root) = (g.reachable root).rename ρ := by
  have hlength : (g.rename ρ).length = g.length := List.length_map _
  have hwalk : (g.rename ρ).walkFrom (g.length + 1) [ρ root] ⟨[], false, []⟩ =
      (g.walk root).rename ρ := walkFrom_rename (g.length + 1) [root] ⟨[], false, []⟩
  rw [reachable, walk, hlength]
  exact congrArg Walk.triples hwalk

theorem isComplete_rename : (g.rename ρ).isComplete = g.isComplete := by
  simp [isComplete, countPredicate, rename, Triple.rename, Function.comp_def]

theorem subGraphs_rename : (g.rename ρ).subGraphs = g.subGraphs.map (rename ρ) := by
  have hreachable : (g.rename ρ).reachable ∘ ρ = rename ρ ∘ g.reachable :=
    funext fun root => reachable_rename root
  have hcomplete : isComplete ∘ rename ρ = isComplete := funext fun _ => isComplete_rename
  rw [subGraphs, triplesMaps_rename, List.map_map, hreachable, ← List.map_map, List.filter_map,
    hcomplete, subGraphs]

end Graph

end RmlAlgebra
