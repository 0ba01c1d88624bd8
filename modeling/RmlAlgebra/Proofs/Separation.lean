import RmlAlgebra.Proofs.NewLabels

/-! # What separation adds

Every triple that separation adds is a property of a new triples map and leads to a node. All other
nodes keep their properties, and a triples map that is taken apart only loses its links to
predicate-object maps. A name that is given while it is in use keeps its properties beside those of
the new triples map.
-/

namespace RmlAlgebra.Graph

variable {g : Graph} {triplesMap name pom : String} {subjectMap source : Option String}

/-- The properties of separated triples maps. -/
def separatedPredicates : List String :=
  [Rdf.type, R2rml.predicateObjectMap, R2rml.subjectMap, R2rml.parentTriplesMap,
    R2rml.joinCondition, Rml.logicalSource]

theorem of_mem_property {x p : String} {object : Option String} {t : Triple}
    (h : t ∈ property x p object) : t.subject = x ∧ t.predicate = p ∧ object = some t.object := by
  obtain ⟨o, ho, rfl⟩ := List.mem_map.mp h
  exact ⟨rfl, rfl, Option.mem_toList.mp ho⟩

theorem of_mem_separatedTriples {t : Triple}
    (h : t ∈ g.separatedTriples subjectMap source name pom) :
    t.subject = name ∧ t.predicate ∈ separatedPredicates := by
  have hproperty {p : String} {object : Option String} (hp : p ∈ separatedPredicates)
      (ht : t ∈ property name p object) :
      t.subject = name ∧ t.predicate ∈ separatedPredicates :=
    ⟨(of_mem_property ht).1, (of_mem_property ht).2.1 ▸ hp⟩
  rw [separatedTriples, List.mem_append, List.mem_cons, List.mem_singleton] at h
  rcases h with (rfl | h) | rfl
  · simp [separatedPredicates]
  · split at h
    · simp only [List.mem_cons, List.mem_append, List.mem_map] at h
      rcases h with rfl | (h | h) | ⟨x, -, rfl⟩
      · simp [separatedPredicates]
      · exact hproperty (by decide) h
      · exact hproperty (by decide) h
      · simp [separatedPredicates]
    · rcases List.mem_append.mp h with h | h
      · exact hproperty (by decide) h
      · exact hproperty (by decide) h
  · simp [separatedPredicates]

/-- The new triples are properties of the numbered triples maps. -/
theorem of_mem_separatedFrom {number : Nat} {poms : List String} {t : Triple}
    (h : t ∈ separatedFrom triplesMap subjectMap source number poms g) :
    (∃ n, number ≤ n ∧ n < number + poms.length ∧ t.subject = separatedName triplesMap n) ∧
      t.predicate ∈ separatedPredicates := by
  induction poms generalizing number g with
  | nil => simp [separatedFrom] at h
  | cons pom others ih =>
      rw [List.length_cons]
      rcases List.mem_append.mp h with h | h
      · obtain ⟨hs, hp⟩ := of_mem_separatedTriples h
        exact ⟨⟨number, by omega, by omega, hs⟩, hp⟩
      · obtain ⟨⟨n, hlow, hhigh, hs⟩, hp⟩ := ih h
        exact ⟨⟨n, by omega, by omega, hs⟩, hp⟩

/-- A separated graph holds no other triples than the old ones and properties of new triples maps. -/
theorem mem_of_mem_separate {t : Triple} (h : t ∈ g.separate triplesMap) :
    t ∈ g ∨ (∃ n, t.subject = separatedName triplesMap n) ∧ t.predicate ∈ separatedPredicates := by
  by_cases hle : (g.objectsOf triplesMap R2rml.predicateObjectMap).length ≤ 1
  · rw [separate_of_le hle] at h
    exact .inl h
  · rw [separate_of_lt (by omega)] at h
    rcases List.mem_append.mp h with h | h
    · exact .inl (List.mem_filter.mp h).1
    · obtain ⟨⟨n, -, -, hs⟩, hp⟩ := of_mem_separatedFrom h
      exact .inr ⟨⟨n, hs⟩, hp⟩

theorem mem_of_mem_foldl_separate {maps : List String} {t : Triple} (h : t ∈ maps.foldl separate g) :
    t ∈ g ∨ (∃ triplesMap n, t.subject = separatedName triplesMap n) ∧
      t.predicate ∈ separatedPredicates := by
  induction maps generalizing g with
  | nil => exact .inl h
  | cons x others ih =>
      rcases ih h with h | h
      · rcases mem_of_mem_separate h with h | ⟨⟨n, hs⟩, hp⟩
        · exact .inl h
        · exact .inr ⟨⟨x, n, hs⟩, hp⟩
      · exact .inr h

/-! ## Names -/

/-- The text before the last low line of a name. -/
def numberedAfter (name : String) : String :=
  String.ofList ((name.toList.reverse.dropWhile (· != '_')).drop 1).reverse

/-- A separated triples map is numbered after the one that it comes from. -/
theorem numberedAfter_separatedName (triplesMap : String) (n : Nat) :
    numberedAfter (separatedName triplesMap n) = triplesMap := by
  have hdigits : ∀ c ∈ (Nat.toDigits 10 n).reverse, (c != '_') = true := by
    intro c hc
    have hdigit := Text.isDigit_of_mem_toDigits (List.mem_reverse.mp hc)
    rw [bne_iff_ne]
    rintro rfl
    exact absurd hdigit (by decide)
  have hdrop : ((Nat.toDigits 10 n).reverse ++ '_' :: triplesMap.toList.reverse).dropWhile
      (· != '_') = '_' :: triplesMap.toList.reverse := by
    rw [List.dropWhile_append_of_pos hdigits]
    rfl
  rw [numberedAfter, toList_separatedName, List.reverse_append, List.reverse_cons,
    List.append_assoc, List.singleton_append, hdrop]
  simp

theorem separatedName_inj {a b : String} {m n : Nat} (h : separatedName a m = separatedName b n) :
    a = b ∧ m = n := by
  have hname : a = b := by
    rw [← numberedAfter_separatedName a m, h, numberedAfter_separatedName]
  have hdigits : Nat.toDigits 10 m = Nat.toDigits 10 n := by
    have hlist := congrArg String.toList h
    rw [toList_separatedName, toList_separatedName, hname] at hlist
    simpa using hlist
  refine ⟨hname, ?_⟩
  rw [← Text.decimalValue_toDigits m, hdigits, Text.decimalValue_toDigits]

theorem isLabel_separatedName (triplesMap : String) (n : Nat) :
    isLabel (separatedName triplesMap n) = false := by
  rw [Bool.eq_false_iff]
  intro hlabel
  have hmark : '_' ∈ (separatedName triplesMap n).toList := by simp [toList_separatedName]
  exact absurd (Label.isDigit_of_mem_label hlabel hmark) (by decide)

/-! ## The properties of a new triples map -/

variable {x p : String} {later : List String}

theorem objectsOf_cons_self (g : Graph) (x p q object : String) :
    objectsOf (⟨x, p, object⟩ :: g) x q =
      if p = q then object :: g.objectsOf x q else g.objectsOf x q := by
  by_cases h : p = q <;> simp [objectsOf, h]

theorem objectsOf_nil (x p : String) : objectsOf [] x p = [] :=
  rfl

theorem objectsOf_map_self (x p q : String) (objects : List String) :
    objectsOf (objects.map (⟨x, p, ·⟩)) x q = if p = q then objects else [] := by
  induction objects with
  | nil => simp [objectsOf_nil]
  | cons object others ih =>
      rw [List.map_cons, objectsOf_cons_self, ih]
      split <;> rfl

theorem objectsOf_property (x p q : String) (object : Option String) :
    objectsOf (property x p object) x q = if p = q then object.toList else [] :=
  objectsOf_map_self x p q object.toList

theorem objectsOf_cons_append (g : Graph) (x p q object : String) :
    objectsOf (⟨x, p, object⟩ :: g) x q = (if p = q then [object] else []) ++ g.objectsOf x q := by
  rw [objectsOf_cons_self]
  split <;> rfl

/-- The properties of a new triples map without a parent. -/
theorem objectsOf_separatedTriples_of_none (h : g.firstObject? pom R2rml.parentTriplesMap = none)
    (subjectMap source : Option String) (name q : String) :
    objectsOf (g.separatedTriples subjectMap source name pom) name q =
      (if Rdf.type = q then [R2rml.triplesMap] else []) ++
        (if R2rml.subjectMap = q then subjectMap.toList else []) ++
        (if Rml.logicalSource = q then source.toList else []) ++
        (if R2rml.predicateObjectMap = q then [pom] else []) := by
  simp only [separatedTriples, h, objectsOf_append, objectsOf_cons_append, objectsOf_property,
    objectsOf_nil, List.append_nil, List.append_assoc]

/-- The properties of a new triples map with a parent. -/
theorem objectsOf_separatedTriples_of_some {parent : String}
    (h : g.firstObject? pom R2rml.parentTriplesMap = some parent)
    (subjectMap source : Option String) (name q : String) :
    objectsOf (g.separatedTriples subjectMap source name pom) name q =
      (if Rdf.type = q then [R2rml.triplesMap] else []) ++
        (if R2rml.parentTriplesMap = q then [parent] else []) ++
        (if Rml.logicalSource = q then (g.firstObject? parent Rml.logicalSource).toList else []) ++
        (if R2rml.subjectMap = q then (g.firstObject? parent R2rml.subjectMap).toList else []) ++
        (if R2rml.joinCondition = q then g.objectsOf pom R2rml.joinCondition else []) ++
        (if R2rml.predicateObjectMap = q then [pom] else []) := by
  simp only [separatedTriples, h, objectsOf_append, objectsOf_cons_append, objectsOf_property,
    objectsOf_map_self, objectsOf_nil, List.append_nil, List.append_assoc]

/-- A new triples map has one predicate-object map. -/
theorem links_separatedTriples (g : Graph) (subjectMap source : Option String) (name pom : String) :
    objectsOf (g.separatedTriples subjectMap source name pom) name R2rml.predicateObjectMap =
      [pom] := by
  cases hparent : g.firstObject? pom R2rml.parentTriplesMap with
  | none => simp +decide [objectsOf_separatedTriples_of_none hparent]
  | some parent => simp +decide [objectsOf_separatedTriples_of_some hparent]

/-- A new triples map has one subject map at most. -/
theorem length_subjectMaps_separatedTriples (g : Graph) (subjectMap source : Option String)
    (name pom : String) :
    (objectsOf (g.separatedTriples subjectMap source name pom) name R2rml.subjectMap).length ≤ 1 := by
  have hoption (object : Option String) : object.toList.length ≤ 1 := by cases object <;> simp
  cases hparent : g.firstObject? pom R2rml.parentTriplesMap with
  | none => simp +decide [objectsOf_separatedTriples_of_none hparent, hoption]
  | some parent => simp +decide [objectsOf_separatedTriples_of_some hparent, hoption]

theorem objectsOf_separatedFrom_eq_nil {number : Nat} {poms : List String}
    (h : ∀ n, number ≤ n → n < number + poms.length → separatedName triplesMap n ≠ x) :
    objectsOf (separatedFrom triplesMap subjectMap source number poms g) x p = [] := by
  apply objectsOf_eq_nil
  intro t ht hs
  obtain ⟨⟨n, hlow, hhigh, hname⟩, -⟩ := of_mem_separatedFrom ht
  exact absurd (hname.symm.trans hs) (h n hlow hhigh)

/-- Of the new triples, those of one name are made for one predicate-object map. -/
theorem exists_objectsOf_separatedFrom (g : Graph) (triplesMap : String)
    (subjectMap source : Option String) (number : Nat) {i : Nat} {poms : List String}
    (hi : poms[i]? = some pom) : ∃ k : Graph, ∀ p,
      objectsOf (separatedFrom triplesMap subjectMap source number poms g)
          (separatedName triplesMap (number + i)) p =
        objectsOf (k.separatedTriples subjectMap source (separatedName triplesMap (number + i)) pom)
          (separatedName triplesMap (number + i)) p := by
  induction poms generalizing number i g with
  | nil => cases hi
  | cons first others ih =>
      cases i with
      | zero =>
          obtain rfl : first = pom := Option.some.inj hi
          refine ⟨g, fun p => ?_⟩
          rw [Nat.add_zero, separatedFrom, objectsOf_append, objectsOf_separatedFrom_eq_nil,
            List.append_nil]
          intro n hlow _ hname
          have hnumber := (separatedName_inj hname).2
          omega
      | succ i =>
          obtain ⟨k, hk⟩ := ih
            (g ++ g.separatedTriples subjectMap source (separatedName triplesMap number) first)
            (number + 1) hi
          refine ⟨k, fun p => ?_⟩
          have hfirst : objectsOf (g.separatedTriples subjectMap source
              (separatedName triplesMap number) first)
              (separatedName triplesMap (number + 1 + i)) p = [] := by
            apply objectsOf_eq_nil
            intro t ht hs
            have hname := (of_mem_separatedTriples ht).1
            have hnumber := (separatedName_inj (hname.symm.trans hs)).2
            omega
          have hnext : number + (i + 1) = number + 1 + i := by omega
          rw [hnext, separatedFrom, objectsOf_append, hfirst, List.nil_append, hk]

/-! ## One turn -/

/-- The names that the turn of a triples map gives. -/
def newNames (g : Graph) (triplesMap : String) : List String :=
  let poms := g.objectsOf triplesMap R2rml.predicateObjectMap
  if poms.length ≤ 1 then [] else (List.range' 1 poms.length).map (separatedName triplesMap)

theorem mem_newNames : x ∈ g.newNames triplesMap ↔
    1 < (g.objectsOf triplesMap R2rml.predicateObjectMap).length ∧
      ∃ i < (g.objectsOf triplesMap R2rml.predicateObjectMap).length,
        x = separatedName triplesMap (1 + i) := by
  rw [newNames]
  split
  · next hle => simp [Nat.not_lt.mpr hle]
  · next hlt =>
      simp only [List.mem_map, List.mem_range', Nat.one_mul]
      constructor
      · rintro ⟨n, ⟨i, hi, rfl⟩, rfl⟩
        exact ⟨by omega, i, hi, rfl⟩
      · rintro ⟨-, i, hi, rfl⟩
        exact ⟨1 + i, ⟨i, hi, rfl⟩, rfl⟩

/-- No triples map is numbered after itself. -/
theorem separatedName_ne (triplesMap : String) (n : Nat) : separatedName triplesMap n ≠ triplesMap := by
  intro h
  have hlength := congrArg (fun name => name.toList.length) h
  simp only [toList_separatedName, List.length_append, List.length_cons] at hlength
  omega

/-- A name is given in the turn of one triples map only. -/
theorem eq_of_mem_newNames {k : Graph} {other : String} (h : x ∈ g.newNames triplesMap)
    (hother : x ∈ k.newNames other) : triplesMap = other := by
  obtain ⟨-, i, -, rfl⟩ := mem_newNames.mp h
  obtain ⟨-, j, -, hname⟩ := mem_newNames.mp hother
  exact (separatedName_inj hname).1

theorem objectsOf_filter_eq {keep : Triple → Bool}
    (h : ∀ t ∈ g, t.subject = x → t.predicate = p → keep t = true) :
    objectsOf (g.filter keep) x p = g.objectsOf x p := by
  rw [objectsOf, objectsOf, List.filter_filter]
  congr 1
  apply List.filter_congr
  intro t ht
  by_cases hown : t.subject = x ∧ t.predicate = p
  · rw [h t ht hown.1 hown.2, Bool.and_true]
  · have hother : (t.subject == x && t.predicate == p) = false := by
      rw [Bool.eq_false_iff, ne_eq, Bool.and_eq_true, beq_iff_eq, beq_iff_eq]
      exact hown
    rw [hother, Bool.false_and]

/-- A triples map that is taken apart loses its links and nothing else. -/
theorem objectsOf_filter_isLinkOf
    (h : x ≠ triplesMap ∨ p ≠ R2rml.predicateObjectMap) :
    objectsOf (g.filter (!isLinkOf triplesMap ·)) x p = g.objectsOf x p := by
  apply objectsOf_filter_eq
  rintro t - rfl rfl
  rcases h with hne | hne <;> simp [isLinkOf, hne]

theorem objectsOf_separate_old (hx : x ∉ g.newNames triplesMap)
    (h : x ≠ triplesMap ∨ p ≠ R2rml.predicateObjectMap) :
    (g.separate triplesMap).objectsOf x p = g.objectsOf x p := by
  by_cases hle : (g.objectsOf triplesMap R2rml.predicateObjectMap).length ≤ 1
  · rw [separate_of_le hle]
  · rw [separate_of_lt (by omega), objectsOf_append, objectsOf_filter_isLinkOf h,
      objectsOf_separatedFrom_eq_nil, List.append_nil]
    intro n hlow hhigh hname
    refine hx (mem_newNames.mpr ⟨by omega, n - 1, by omega, ?_⟩)
    rw [Nat.add_sub_cancel' hlow, hname]

/-- A triples map with several links has none left after its turn. -/
theorem links_separate_self (h : 1 < (g.objectsOf triplesMap R2rml.predicateObjectMap).length) :
    (g.separate triplesMap).objectsOf triplesMap R2rml.predicateObjectMap = [] := by
  have hkept : objectsOf (g.filter (!isLinkOf triplesMap ·)) triplesMap R2rml.predicateObjectMap =
      [] := by
    apply objectsOf_eq_nil
    intro t ht hs hp
    have hnot := (List.mem_filter.mp ht).2
    simp [isLinkOf, hs, hp] at hnot
  rw [separate_of_lt h, objectsOf_append, hkept, objectsOf_separatedFrom_eq_nil, List.nil_append]
  exact fun n _ _ => separatedName_ne triplesMap n

theorem length_links_separate_self :
    ((g.separate triplesMap).objectsOf triplesMap R2rml.predicateObjectMap).length ≤ 1 := by
  by_cases hle : (g.objectsOf triplesMap R2rml.predicateObjectMap).length ≤ 1
  · rw [separate_of_le hle]
    exact hle
  · rw [links_separate_self (by omega)]
    exact Nat.zero_le 1

/-- A new triples map has what its name had before and the properties that it was made with. -/
theorem exists_objectsOf_separate_new (hx : x ∈ g.newNames triplesMap) :
    ∃ (k : Graph) (subjectMap source : Option String) (pom : String), ∀ p,
      (g.separate triplesMap).objectsOf x p =
        g.objectsOf x p ++ objectsOf (k.separatedTriples subjectMap source x pom) x p := by
  obtain ⟨hlt, i, hi, rfl⟩ := mem_newNames.mp hx
  obtain ⟨k, hk⟩ := g.exists_objectsOf_separatedFrom triplesMap
    (g.firstObject? triplesMap R2rml.subjectMap) (g.firstObject? triplesMap Rml.logicalSource) 1
    (List.getElem?_eq_getElem hi)
  refine ⟨k, g.firstObject? triplesMap R2rml.subjectMap, g.firstObject? triplesMap Rml.logicalSource,
    (g.objectsOf triplesMap R2rml.predicateObjectMap)[i], fun p => ?_⟩
  rw [separate_of_lt hlt, objectsOf_append, hk,
    objectsOf_filter_isLinkOf (.inl (separatedName_ne triplesMap (1 + i)))]

theorem length_links_separate_new (hx : x ∈ g.newNames triplesMap) :
    ((g.separate triplesMap).objectsOf x R2rml.predicateObjectMap).length =
      (g.objectsOf x R2rml.predicateObjectMap).length + 1 := by
  obtain ⟨k, subjectMap, source, pom, hk⟩ := exists_objectsOf_separate_new hx
  rw [hk, links_separatedTriples, List.length_append, List.length_singleton]

theorem mem_triplesMaps_iff : x ∈ g.triplesMaps ↔ R2rml.triplesMap ∈ g.objectsOf x Rdf.type := by
  rw [triplesMaps, mem_subjectsWith, mem_objectsOf]

/-- A turn declares the triples maps that it names and no others. -/
theorem mem_triplesMaps_separate : x ∈ (g.separate triplesMap).triplesMaps ↔
    x ∈ g.triplesMaps ∨ x ∈ g.newNames triplesMap := by
  by_cases hx : x ∈ g.newNames triplesMap
  · obtain ⟨k, subjectMap, source, pom, hk⟩ := exists_objectsOf_separate_new hx
    have hdeclared : R2rml.triplesMap ∈
        objectsOf (k.separatedTriples subjectMap source x pom) x Rdf.type :=
      mem_objectsOf.mpr (List.mem_append_left _ List.mem_cons_self)
    simp only [hx, or_true, iff_true]
    rw [mem_triplesMaps_iff, hk]
    exact List.mem_append_right _ hdeclared
  · simp only [hx, or_false]
    rw [mem_triplesMaps_iff, mem_triplesMaps_iff, objectsOf_separate_old hx (.inr (by decide))]

/-- While the turns last, the triples maps that may have several links are those still to come. -/
theorem linkedOnce_separate (hnames : ∀ x ∈ g.newNames triplesMap,
      g.objectsOf x R2rml.predicateObjectMap ≠ [] → x ∈ later)
    (h : ∀ x ∈ g.triplesMaps,
      x ∈ triplesMap :: later ∨ (g.objectsOf x R2rml.predicateObjectMap).length ≤ 1) :
    ∀ x ∈ (g.separate triplesMap).triplesMaps,
      x ∈ later ∨ ((g.separate triplesMap).objectsOf x R2rml.predicateObjectMap).length ≤ 1 := by
  intro x hx
  by_cases hnew : x ∈ g.newNames triplesMap
  · by_cases htaken : g.objectsOf x R2rml.predicateObjectMap = []
    · refine .inr (Nat.le_of_eq ?_)
      rw [length_links_separate_new hnew, htaken, List.length_nil]
    · exact .inl (hnames x hnew htaken)
  · have hold := (mem_triplesMaps_separate.mp hx).resolve_right hnew
    by_cases hself : x = triplesMap
    · subst hself
      exact .inr length_links_separate_self
    · rw [objectsOf_separate_old hnew (.inl hself)]
      exact (h x hold).imp_left fun hmem => (List.mem_cons.mp hmem).resolve_left hself

/-! ## Maps without parents -/

/-- The triples of a new triples map for a predicate-object map that names no parent. -/
def separatedGroup (subjectMap source : Option String) (name pom : String) : List Triple :=
  ⟨name, Rdf.type, R2rml.triplesMap⟩ ::
    (property name R2rml.subjectMap subjectMap ++ property name Rml.logicalSource source) ++
    [⟨name, R2rml.predicateObjectMap, pom⟩]

theorem mem_separatedGroup {t : Triple} : t ∈ separatedGroup subjectMap source name pom ↔
    t = ⟨name, Rdf.type, R2rml.triplesMap⟩ ∨
      t ∈ property name R2rml.subjectMap subjectMap ∨ t ∈ property name Rml.logicalSource source ∨
      t = ⟨name, R2rml.predicateObjectMap, pom⟩ := by
  simp [separatedGroup]

/-- If no predicate-object map names a parent, the new triples maps are made alike. -/
theorem separatedFrom_eq {number : Nat} {poms : List String}
    (h : ∀ pom ∈ poms, ∀ o, ⟨pom, R2rml.parentTriplesMap, o⟩ ∉ g) :
    separatedFrom triplesMap subjectMap source number poms g =
      numbered (separatedName triplesMap) (separatedGroup subjectMap source) number poms := by
  induction poms generalizing number g with
  | nil => rfl
  | cons pom others ih =>
      rw [List.forall_mem_cons] at h
      have hnone : g.firstObject? pom R2rml.parentTriplesMap = none := by
        rw [firstObject?, List.head?_eq_none_iff, List.eq_nil_iff_forall_not_mem]
        intro o ho
        exact h.1 o (mem_objectsOf.mp ho)
      have hnew : g.separatedTriples subjectMap source (separatedName triplesMap number) pom =
          separatedGroup subjectMap source (separatedName triplesMap number) pom := by
        rw [separatedTriples, hnone, separatedGroup]
      rw [separatedFrom]
      simp only [hnew]
      rw [ih, numbered]
      intro x hx o ho
      rcases List.mem_append.mp ho with ho | ho
      · exact h.2 x hx o ho
      · have hall : ∀ p ∈ [Rdf.type, R2rml.subjectMap, Rml.logicalSource,
            R2rml.predicateObjectMap], R2rml.parentTriplesMap ≠ p := by decide
        rcases mem_separatedGroup.mp ho with heq | hp | hp | heq
        · exact hall _ (by simp) (congrArg Triple.predicate heq)
        · exact hall _ (by simp) (of_mem_property hp).2.1
        · exact hall _ (by simp) (of_mem_property hp).2.1
        · exact hall _ (by simp) (congrArg Triple.predicate heq)

end RmlAlgebra.Graph
