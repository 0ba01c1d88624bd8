import RmlAlgebra.Proofs.Separation

/-! # Separation moves links

A turn of separation drops the links of one triples map and gives each of their objects to a new
triples map, so the objects of all links stay the same. The list of turns is that of the declarations
before the first one and may name a triples map twice. As long as the new names are not in use, each
triples map is taken apart once, with the properties that it and the parents have in the graph at the
start.
-/

namespace RmlAlgebra.Graph

variable {g k : Graph} {triplesMap pom x p : String} {subjectMap source : Option String}
  {done : List String}

/-! ## What every separation keeps -/

/-- Whether a triple links a declared triples map to a predicate-object map. -/
def isOwnLink (g : Graph) (t : Triple) : Bool :=
  isPredicateObjectMap t && g.triplesMaps.contains t.subject

/-- The objects of all links to predicate-object maps. -/
def linkObjects (g : Graph) : List String :=
  (g.filter isPredicateObjectMap).map Triple.object

theorem linkObjects_append (g k : Graph) : linkObjects (g ++ k) = g.linkObjects ++ k.linkObjects := by
  rw [linkObjects, List.filter_append, List.map_append, linkObjects, linkObjects]

theorem linkObjects_eq_objectsOf (h : ∀ t ∈ g, t.subject = x) :
    g.linkObjects = g.objectsOf x R2rml.predicateObjectMap := by
  rw [linkObjects, objectsOf]
  congr 1
  apply List.filter_congr
  intro t ht
  rw [h t ht, beq_self_eq_true, Bool.true_and, isPredicateObjectMap]

/-- The new triples maps are given the listed predicate-object maps, one each. -/
theorem linkObjects_separatedFrom (triplesMap : String) (subjectMap source : Option String)
    (number : Nat) (poms : List String) (g : Graph) :
    linkObjects (separatedFrom triplesMap subjectMap source number poms g) = poms := by
  induction poms generalizing number g with
  | nil => rfl
  | cons pom others ih =>
      rw [separatedFrom, linkObjects_append, ih,
        linkObjects_eq_objectsOf fun t ht => (of_mem_separatedTriples ht).1, links_separatedTriples]
      rfl

/-- A turn hands over the objects of the links that it drops. -/
theorem linkObjects_separate (g : Graph) (triplesMap : String) :
    (g.separate triplesMap).linkObjects.Perm g.linkObjects := by
  by_cases hle : (g.objectsOf triplesMap R2rml.predicateObjectMap).length ≤ 1
  · rw [separate_of_le hle]
  · have hdropped : g.objectsOf triplesMap R2rml.predicateObjectMap =
        linkObjects (g.filter (isLinkOf triplesMap)) := by
      rw [objectsOf, linkObjects, List.filter_filter]
      congr 1
      apply List.filter_congr
      intro t _
      rw [isLinkOf, isPredicateObjectMap]
      cases t.predicate == R2rml.predicateObjectMap <;> simp
    have hsplit : (g.filter (isLinkOf triplesMap) ++ g.filter (!isLinkOf triplesMap ·)).Perm g :=
      List.filter_append_perm _ g
    rw [separate_of_lt (by omega), linkObjects_append, linkObjects_separatedFrom, hdropped,
      ← linkObjects_append]
    exact ((List.perm_append_comm.trans hsplit).filter _).map _

/-- A graph whose links may have moved from declared triples maps to numbered ones. -/
structure Moved (g s : Graph) : Prop where
  /-- What is left of the graph, with all that is no link of a triples map, and what is new. -/
  triples : ∃ kept added : Graph, s = kept ++ added ∧ kept.Sublist g ∧
    kept.filter (!g.isOwnLink ·) = g.filter (!g.isOwnLink ·) ∧
    ∀ t ∈ added, ∃ triplesMap ∈ g.triplesMaps, ∃ n, 0 < n ∧ t.subject = separatedName triplesMap n
  links : s.linkObjects.Perm g.linkObjects

theorem Moved.refl (g : Graph) : g.Moved g where
  triples := ⟨g, [], (List.append_nil g).symm, List.Sublist.refl g, rfl, fun _ ht => nomatch ht⟩
  links := List.Perm.refl _

/-- One turn of a declared triples map. -/
theorem Moved.separate (h : g.Moved k) (hdeclared : triplesMap ∈ g.triplesMaps) :
    g.Moved (k.separate triplesMap) where
  triples := by
    by_cases hle : (k.objectsOf triplesMap R2rml.predicateObjectMap).length ≤ 1
    · rw [separate_of_le hle]
      exact h.triples
    · obtain ⟨kept, added, rfl, hsub, hkept, hadded⟩ := h.triples
      rw [separate_of_lt (by omega), List.filter_append, List.append_assoc]
      refine ⟨_, _, rfl, List.filter_sublist.trans hsub, ?_, ?_⟩
      · -- the links that are dropped are those of a declared triples map
        rw [← hkept, List.filter_filter]
        apply List.filter_congr
        intro t _
        by_cases hlink : isLinkOf triplesMap t = true
        · have hown : g.isOwnLink t = true := by
            rw [isLinkOf, Bool.and_eq_true, beq_iff_eq, beq_iff_eq] at hlink
            rw [isOwnLink, Bool.and_eq_true, isPredicateObjectMap_iff, List.contains_iff_mem, hlink.1]
            exact ⟨hlink.2, hdeclared⟩
          rw [hown, Bool.not_true, Bool.false_and]
        · rw [Bool.not_eq_true] at hlink
          rw [hlink, Bool.not_false, Bool.and_true]
      · intro t ht
        rcases List.mem_append.mp ht with ht | ht
        · exact hadded t (List.mem_filter.mp ht).1
        · obtain ⟨⟨n, hlow, -, hs⟩, -⟩ := of_mem_separatedFrom ht
          exact ⟨triplesMap, hdeclared, n, hlow, hs⟩
  links := (linkObjects_separate k triplesMap).trans h.links

theorem Moved.foldl_separate {maps : List String} (h : g.Moved k)
    (hmaps : ∀ x ∈ maps, x ∈ g.triplesMaps) : g.Moved (maps.foldl Graph.separate k) := by
  induction maps generalizing k with
  | nil => exact h
  | cons x others ih =>
      rw [List.forall_mem_cons] at hmaps
      exact ih (h.separate hmaps.1) hmaps.2

theorem moved_separatePredicateObjectMaps (g : Graph) : g.Moved g.separatePredicateObjectMaps :=
  (Moved.refl g).foldl_separate fun _ hx => hx

/-! ## Names that are not in use -/

/-- No name that separation may give is a subject or an object of the graph. -/
def NamesUnused (g : Graph) : Prop :=
  ∀ triplesMap ∈ g.triplesMaps, ∀ n, 0 < n → ¬g.Mentions (separatedName triplesMap n)

/-- It is enough that no term is numbered after a triples map. -/
theorem namesUnused_of_forall (h : ∀ t ∈ g, numberedAfter t.subject ∉ g.triplesMaps ∧
    numberedAfter t.object ∉ g.triplesMaps) : g.NamesUnused := by
  rintro triplesMap hmap n - ⟨t, ht, hs | ho⟩
  · exact (h t ht).1 (by rwa [hs, numberedAfter_separatedName])
  · exact (h t ht).2 (by rwa [ho, numberedAfter_separatedName])

/-- A graph in which the nodes of another have their properties, apart from links. -/
def KeepsProperties (g k : Graph) : Prop :=
  ∀ x p, g.Mentions x → p ≠ R2rml.predicateObjectMap → k.objectsOf x p = g.objectsOf x p

theorem mentions_of_mem_objectsOf (h : x ∈ g.objectsOf pom p) : g.Mentions x :=
  ⟨_, mem_objectsOf.mp h, .inr rfl⟩

theorem KeepsProperties.firstObject? (h : g.KeepsProperties k) (hx : g.Mentions x)
    (hp : p ≠ R2rml.predicateObjectMap) : k.firstObject? x p = g.firstObject? x p := by
  rw [Graph.firstObject?, Graph.firstObject?, h x p hx hp]

/-- A new triples map is made of properties of nodes of the graph. -/
theorem KeepsProperties.separatedTriples (h : g.KeepsProperties k) (hpom : g.Mentions pom)
    (subjectMap source : Option String) (name : String) :
    k.separatedTriples subjectMap source name pom =
      g.separatedTriples subjectMap source name pom := by
  rw [Graph.separatedTriples, Graph.separatedTriples, h.firstObject? hpom (by decide),
    h pom R2rml.joinCondition hpom (by decide)]
  cases hparent : g.firstObject? pom R2rml.parentTriplesMap with
  | none => rfl
  | some parent =>
      have hmentions : g.Mentions parent := mentions_of_mem_objectsOf (List.mem_of_head? hparent)
      simp only
      rw [h.firstObject? hmentions (by decide), h.firstObject? hmentions (by decide)]

theorem KeepsProperties.append {new : Graph} (h : g.KeepsProperties k)
    (hnew : ∀ t ∈ new, ¬g.Mentions t.subject) : g.KeepsProperties (k ++ new) := by
  intro x p hx hp
  have hnone : new.objectsOf x p = [] := by
    apply objectsOf_eq_nil
    rintro t ht rfl
    exact absurd hx (hnew t ht)
  rw [objectsOf_append, hnone, List.append_nil, h x p hx hp]

/-- The new triples maps do not depend on each other. -/
theorem KeepsProperties.separatedFrom {number : Nat} {poms : List String} (h : g.KeepsProperties k)
    (hpoms : ∀ pom ∈ poms, g.Mentions pom)
    (hnames : ∀ n, number ≤ n → ¬g.Mentions (separatedName triplesMap n)) :
    Graph.separatedFrom triplesMap subjectMap source number poms k =
      numbered (separatedName triplesMap) (g.separatedTriples subjectMap source) number poms := by
  induction poms generalizing number k with
  | nil => rfl
  | cons pom others ih =>
      rw [List.forall_mem_cons] at hpoms
      rw [Graph.separatedFrom, numbered]
      simp only [h.separatedTriples hpoms.1]
      rw [ih (h.append ?_) hpoms.2 fun n hn => hnames n (by omega)]
      intro t ht
      rw [(of_mem_separatedTriples ht).1]
      exact hnames number (Nat.le_refl number)

/-! ## The separated graph -/

/-- The triples of the new triples maps that one is taken apart into. -/
def successors (g : Graph) (triplesMap : String) : Graph :=
  numbered (separatedName triplesMap)
    (g.separatedTriples (g.firstObject? triplesMap R2rml.subjectMap)
      (g.firstObject? triplesMap Rml.logicalSource))
    1 (g.objectsOf triplesMap R2rml.predicateObjectMap)

/-- The graph in which the listed triples maps are taken apart. -/
def takenApart (g : Graph) (done : List String) : Graph :=
  g.filter (fun t => !done.any (isLinkOf · t)) ++ done.flatMap g.successors

theorem exists_of_mem_successors {t : Triple} (h : t ∈ g.successors triplesMap) :
    ∃ n, 0 < n ∧ t.subject = separatedName triplesMap n := by
  obtain ⟨i, pom, -, ht⟩ := mem_numbered.mp h
  exact ⟨1 + i, by omega, (of_mem_separatedTriples ht).1⟩

section Unused

variable (hnames : g.NamesUnused) (hdone : ∀ x ∈ done, x ∈ g.triplesMaps)
include hnames hdone

/-- The nodes of the graph keep their properties, apart from the links of what is taken apart. -/
theorem objectsOf_takenApart (hx : g.Mentions x) (p : String) : (g.takenApart done).objectsOf x p =
    if x ∈ done ∧ p = R2rml.predicateObjectMap then [] else g.objectsOf x p := by
  have hnew : objectsOf (done.flatMap g.successors) x p = [] := by
    apply objectsOf_eq_nil
    rintro t ht rfl
    obtain ⟨y, hy, ht⟩ := List.mem_flatMap.mp ht
    obtain ⟨n, hn, hs⟩ := exists_of_mem_successors ht
    exact absurd (hs ▸ hx) (hnames y (hdone y hy) n hn)
  rw [takenApart, objectsOf_append, hnew, List.append_nil]
  split
  · next hlinks =>
      apply objectsOf_eq_nil
      rintro t ht hs hp
      have hkept := (List.mem_filter.mp ht).2
      rw [Bool.not_eq_true', List.any_eq_false] at hkept
      apply hkept x hlinks.1
      rw [isLinkOf, hs, hp, hlinks.2, beq_self_eq_true, beq_self_eq_true, Bool.true_and]
  · next hother =>
      apply objectsOf_filter_eq
      rintro t - rfl rfl
      rw [Bool.not_eq_true', List.any_eq_false]
      intro y hy hlink
      rw [isLinkOf, Bool.and_eq_true, beq_iff_eq, beq_iff_eq] at hlink
      exact hother ⟨hlink.1 ▸ hy, hlink.2⟩

theorem keepsProperties_takenApart : g.KeepsProperties (g.takenApart done) := by
  intro x p hx hp
  rw [objectsOf_takenApart hnames hdone hx, if_neg fun h => hp h.2]

/-- A turn takes a triples map apart that has several links and had no turn before. -/
theorem separate_takenApart (hdeclared : triplesMap ∈ g.triplesMaps) (hturn : triplesMap ∉ done)
    (hlt : 1 < (g.objectsOf triplesMap R2rml.predicateObjectMap).length) :
    (g.takenApart done).separate triplesMap = g.takenApart (done ++ [triplesMap]) := by
  have hmentions : g.Mentions triplesMap := mentions_of_mem_triplesMaps hdeclared
  have hlinks : (g.takenApart done).objectsOf triplesMap R2rml.predicateObjectMap =
      g.objectsOf triplesMap R2rml.predicateObjectMap := by
    rw [objectsOf_takenApart hnames hdone hmentions, if_neg fun h => hturn h.1]
  have hkeeps := keepsProperties_takenApart hnames hdone
  have hold : (done.flatMap g.successors).filter (!isLinkOf triplesMap ·) =
      done.flatMap g.successors := by
    rw [List.filter_eq_self]
    intro t ht
    obtain ⟨y, hy, ht⟩ := List.mem_flatMap.mp ht
    obtain ⟨n, hn, hs⟩ := exists_of_mem_successors ht
    have hne : t.subject ≠ triplesMap := by
      rintro rfl
      exact hnames y (hdone y hy) n hn (hs ▸ hmentions)
    rw [isLinkOf, beq_false_of_ne hne, Bool.false_and, Bool.not_false]
  have hfilter : (g.filter (fun t => !done.any (isLinkOf · t))).filter (!isLinkOf triplesMap ·) =
      g.filter fun t => !(done ++ [triplesMap]).any (isLinkOf · t) := by
    rw [List.filter_filter]
    apply List.filter_congr
    intro t _
    rw [List.any_append, List.any_cons, List.any_nil, Bool.or_false, Bool.not_or, Bool.and_comm]
  have hnew : separatedFrom triplesMap
      ((g.takenApart done).firstObject? triplesMap R2rml.subjectMap)
      ((g.takenApart done).firstObject? triplesMap Rml.logicalSource) 1
      (g.objectsOf triplesMap R2rml.predicateObjectMap) (g.takenApart done) =
      g.successors triplesMap := by
    rw [hkeeps.firstObject? hmentions (by decide), hkeeps.firstObject? hmentions (by decide)]
    exact hkeeps.separatedFrom (fun pom hpom => mentions_of_mem_objectsOf hpom)
      fun n hn => hnames triplesMap hdeclared n hn
  rw [separate_of_lt (by rw [hlinks]; exact hlt), hlinks, hnew, takenApart, List.filter_append, hold,
    hfilter, takenApart, List.flatMap_append, List.flatMap_singleton, List.append_assoc]

/-- Any other turn changes nothing. -/
theorem separate_takenApart_self (hdeclared : triplesMap ∈ g.triplesMaps)
    (hturn : triplesMap ∈ done ∨ (g.objectsOf triplesMap R2rml.predicateObjectMap).length ≤ 1) :
    (g.takenApart done).separate triplesMap = g.takenApart done := by
  apply separate_of_le
  rw [objectsOf_takenApart hnames hdone (mentions_of_mem_triplesMaps hdeclared)]
  split
  · exact Nat.zero_le 1
  · next hkept => exact hturn.resolve_left fun hdone => hkept ⟨hdone, rfl⟩

end Unused

/-- The triples maps that are taken apart when the listed ones have had their turn. -/
structure Turns (g : Graph) (visited done : List String) : Prop where
  nodup : done.Nodup
  mem : ∀ x, x ∈ done ↔ x ∈ visited ∧ 1 < (g.objectsOf x R2rml.predicateObjectMap).length

theorem Turns.stay {visited : List String} (h : g.Turns visited done)
    (hturn : triplesMap ∈ done ∨ (g.objectsOf triplesMap R2rml.predicateObjectMap).length ≤ 1) :
    g.Turns (visited ++ [triplesMap]) done where
  nodup := h.nodup
  mem x := by
    rw [List.mem_append, List.mem_singleton]
    constructor
    · intro hx
      exact ⟨.inl ((h.mem x).mp hx).1, ((h.mem x).mp hx).2⟩
    · rintro ⟨hx | rfl, hlt⟩
      · exact (h.mem x).mpr ⟨hx, hlt⟩
      · exact hturn.resolve_right (by omega)

theorem Turns.next {visited : List String} (h : g.Turns visited done) (hturn : triplesMap ∉ done)
    (hlt : 1 < (g.objectsOf triplesMap R2rml.predicateObjectMap).length) :
    g.Turns (visited ++ [triplesMap]) (done ++ [triplesMap]) where
  nodup := by
    rw [List.nodup_append]
    refine ⟨h.nodup, List.pairwise_singleton _ _, ?_⟩
    rintro a ha b hb rfl
    exact hturn (List.mem_singleton.mp hb ▸ ha)
  mem x := by
    rw [List.mem_append, List.mem_append, List.mem_singleton, h.mem]
    constructor
    · rintro (⟨hx, hlong⟩ | rfl)
      · exact ⟨.inl hx, hlong⟩
      · exact ⟨.inr rfl, hlt⟩
    · rintro ⟨hx | rfl, hlong⟩
      · exact .inl ⟨hx, hlong⟩
      · exact .inr rfl

/-- All turns, one after the other. The list of declarations may name a triples map again. -/
theorem Turns.foldl_separate (hnames : g.NamesUnused) {visited maps : List String}
    (h : g.Turns visited done) (hmaps : ∀ x ∈ visited ++ maps, x ∈ g.triplesMaps) :
    ∃ all, g.Turns (visited ++ maps) all ∧
      maps.foldl separate (g.takenApart done) = g.takenApart all := by
  -- what is visited grows with each turn, what is done only with those that take a map apart
  induction maps generalizing visited done with
  | nil => exact ⟨done, by rwa [List.append_nil], rfl⟩
  | cons x others ih =>
      have hdone : ∀ y ∈ done, y ∈ g.triplesMaps :=
        fun y hy => hmaps y (List.mem_append_left _ ((h.mem y).mp hy).1)
      have hx : x ∈ g.triplesMaps := hmaps x (List.mem_append_right _ List.mem_cons_self)
      rw [List.append_cons] at hmaps ⊢
      rw [List.foldl_cons]
      by_cases hturn : x ∈ done ∨ (g.objectsOf x R2rml.predicateObjectMap).length ≤ 1
      · rw [separate_takenApart_self hnames hdone hx hturn]
        exact ih (h.stay hturn) hmaps
      · obtain ⟨hfirst, hlt⟩ := not_or.mp hturn
        rw [separate_takenApart hnames hdone hx hfirst (by omega)]
        exact ih (h.next hfirst (by omega)) hmaps

/-- If the new names are not in use, separation takes each triples map with several links apart. -/
theorem exists_separatePredicateObjectMaps_eq (hnames : g.NamesUnused) :
    ∃ all, g.Turns g.triplesMaps all ∧ g.separatePredicateObjectMaps = g.takenApart all := by
  have hstart : g.Turns [] [] := ⟨List.nodup_nil, fun x => by simp⟩
  have hg : g.takenApart [] = g := by simp [takenApart]
  obtain ⟨all, hall, heq⟩ := hstart.foldl_separate hnames
    fun x (hx : x ∈ [] ++ g.triplesMaps) => hx
  rw [hg] at heq
  exact ⟨all, hall, heq⟩

/-! ## The new triples maps -/

theorem objectsOf_flatMap (f : String → Graph) (done : List String) (x p : String) :
    objectsOf (done.flatMap f) x p = done.flatMap fun y => (f y).objectsOf x p := by
  simp [objectsOf, List.filter_flatMap, List.map_flatMap]

/-- If one element of a list without repetitions gives something, that is what there is. -/
theorem flatMap_eq_of_nodup {f : String → List String} (hnodup : done.Nodup) (hx : x ∈ done)
    (h : ∀ y ∈ done, y ≠ x → f y = []) : done.flatMap f = f x := by
  induction done with
  | nil => cases hx
  | cons y others ih =>
      obtain ⟨hy, hothers⟩ := List.nodup_cons.mp hnodup
      rw [List.forall_mem_cons] at h
      rw [List.flatMap_cons]
      rcases List.mem_cons.mp hx with rfl | hx
      · have hnone : others.flatMap f = [] := by
          rw [List.flatMap_eq_nil_iff]
          intro z hz
          exact h.2 z hz fun hzx => hy (hzx ▸ hz)
        rw [hnone, List.append_nil]
      · rw [h.1 (fun hyx => hy (hyx ▸ hx)), List.nil_append, ih hothers hx h.2]

theorem objectsOf_successors {i : Nat}
    (hi : (g.objectsOf triplesMap R2rml.predicateObjectMap)[i]? = some pom) (p : String) :
    (g.successors triplesMap).objectsOf (separatedName triplesMap (1 + i)) p =
      objectsOf (g.separatedTriples (g.firstObject? triplesMap R2rml.subjectMap)
        (g.firstObject? triplesMap Rml.logicalSource) (separatedName triplesMap (1 + i)) pom)
        (separatedName triplesMap (1 + i)) p := by
  rw [objectsOf, successors, filter_numbered, numbered_eq hi, objectsOf]
  intro j other _ hji
  rw [List.filter_eq_nil_iff]
  intro t ht hown
  rw [Bool.and_eq_true, beq_iff_eq] at hown
  have hnumbers := (separatedName_inj ((of_mem_separatedTriples ht).1.symm.trans hown.1)).2
  omega

/-- A new name has the properties that its triples map was made with, and nothing else. -/
theorem objectsOf_takenApart_new (hnames : g.NamesUnused) {visited : List String}
    (h : g.Turns visited done) (hvisited : ∀ x ∈ visited, x ∈ g.triplesMaps)
    (htaken : triplesMap ∈ done) {i : Nat}
    (hi : (g.objectsOf triplesMap R2rml.predicateObjectMap)[i]? = some pom) (p : String) :
    (g.takenApart done).objectsOf (separatedName triplesMap (1 + i)) p =
      objectsOf (g.separatedTriples (g.firstObject? triplesMap R2rml.subjectMap)
        (g.firstObject? triplesMap Rml.logicalSource) (separatedName triplesMap (1 + i)) pom)
        (separatedName triplesMap (1 + i)) p := by
  have hdeclared := hvisited triplesMap ((h.mem triplesMap).mp htaken).1
  have hold : objectsOf (g.filter fun t => !done.any (isLinkOf · t))
      (separatedName triplesMap (1 + i)) p = [] := by
    apply objectsOf_eq_nil
    intro t ht hs
    have hunused := hnames triplesMap hdeclared (1 + i) (by omega)
    exact absurd ⟨t, (List.mem_filter.mp ht).1, .inl hs⟩ hunused
  rw [takenApart, objectsOf_append, hold, List.nil_append, objectsOf_flatMap,
    flatMap_eq_of_nodup h.nodup htaken, objectsOf_successors hi]
  intro y _ hy
  apply objectsOf_eq_nil
  intro t ht hs
  obtain ⟨n, -, hname⟩ := exists_of_mem_successors ht
  exact absurd (separatedName_inj (hname.symm.trans hs)).1 hy

/-- The triples map whose subject map and source a new one takes over: the parent that its
predicate-object map names, or the one that it comes from. -/
def ownerOf (g : Graph) (triplesMap pom : String) : String :=
  (g.firstObject? pom R2rml.parentTriplesMap).getD triplesMap

/-- A name that has become a triples map for one predicate-object map of another. -/
structure Successor (g : Graph) (triplesMap pom : String) (s : Graph) (name : String) : Prop where
  declared : s.objectsOf name Rdf.type = [R2rml.triplesMap]
  link : s.objectsOf name R2rml.predicateObjectMap = [pom]
  subjectMap : s.objectsOf name R2rml.subjectMap =
    (g.firstObject? (g.ownerOf triplesMap pom) R2rml.subjectMap).toList
  source : s.objectsOf name Rml.logicalSource =
    (g.firstObject? (g.ownerOf triplesMap pom) Rml.logicalSource).toList
  parent : s.objectsOf name R2rml.parentTriplesMap =
    (g.firstObject? pom R2rml.parentTriplesMap).toList
  joinConditions : s.objectsOf name R2rml.joinCondition =
    if (g.firstObject? pom R2rml.parentTriplesMap).isSome then g.objectsOf pom R2rml.joinCondition
    else []
  others : ∀ p ∉ separatedPredicates, s.objectsOf name p = []

theorem successor_separatedTriples (g : Graph) (triplesMap pom name : String) :
    g.Successor triplesMap pom (g.separatedTriples (g.firstObject? triplesMap R2rml.subjectMap)
      (g.firstObject? triplesMap Rml.logicalSource) name pom) name := by
  have hothers (p : String) (hp : p ∉ separatedPredicates) :
      objectsOf (g.separatedTriples (g.firstObject? triplesMap R2rml.subjectMap)
        (g.firstObject? triplesMap Rml.logicalSource) name pom) name p = [] := by
    apply objectsOf_eq_nil
    rintro t ht - rfl
    exact hp (of_mem_separatedTriples ht).2
  cases hparent : g.firstObject? pom R2rml.parentTriplesMap with
  | none =>
      have howner : g.ownerOf triplesMap pom = triplesMap := by
        rw [ownerOf, hparent, Option.getD_none]
      have hobjects := objectsOf_separatedTriples_of_none hparent
        (g.firstObject? triplesMap R2rml.subjectMap) (g.firstObject? triplesMap Rml.logicalSource) name
      exact {
        declared := by simp +decide [hobjects]
        link := links_separatedTriples ..
        subjectMap := by simp +decide [hobjects, howner]
        source := by simp +decide [hobjects, howner]
        parent := by simp +decide [hobjects, hparent]
        joinConditions := by simp +decide [hobjects, hparent]
        others := hothers }
  | some parent =>
      have howner : g.ownerOf triplesMap pom = parent := by
        rw [ownerOf, hparent, Option.getD_some]
      have hobjects := objectsOf_separatedTriples_of_some hparent
        (g.firstObject? triplesMap R2rml.subjectMap) (g.firstObject? triplesMap Rml.logicalSource) name
      exact {
        declared := by simp +decide [hobjects]
        link := links_separatedTriples ..
        subjectMap := by simp +decide [hobjects, howner]
        source := by simp +decide [hobjects, howner]
        parent := by simp +decide [hobjects, hparent]
        joinConditions := by simp +decide [hobjects, hparent]
        others := hothers }

theorem Successor.of_objectsOf_eq {s made : Graph} {name : String}
    (h : g.Successor triplesMap pom made name)
    (heq : ∀ p, s.objectsOf name p = made.objectsOf name p) :
    g.Successor triplesMap pom s name where
  declared := (heq _).trans h.declared
  link := (heq _).trans h.link
  subjectMap := (heq _).trans h.subjectMap
  source := (heq _).trans h.source
  parent := (heq _).trans h.parent
  joinConditions := (heq _).trans h.joinConditions
  others p hp := (heq p).trans (h.others p hp)

/-- A graph in which each triples map with several predicate-object maps has handed them over. -/
structure HandedOver (g s : Graph) : Prop where
  kept : ∀ triplesMap ∈ g.triplesMaps, (g.objectsOf triplesMap R2rml.predicateObjectMap).length ≤ 1 →
    s.objectsOf triplesMap R2rml.predicateObjectMap =
      g.objectsOf triplesMap R2rml.predicateObjectMap
  emptied : ∀ triplesMap ∈ g.triplesMaps,
    1 < (g.objectsOf triplesMap R2rml.predicateObjectMap).length →
      s.objectsOf triplesMap R2rml.predicateObjectMap = []
  successors : ∀ triplesMap ∈ g.triplesMaps,
    1 < (g.objectsOf triplesMap R2rml.predicateObjectMap).length → ∀ (i : Nat) (pom : String),
      (g.objectsOf triplesMap R2rml.predicateObjectMap)[i]? = some pom →
        g.Successor triplesMap pom s (separatedName triplesMap (1 + i))

theorem handedOver_separatePredicateObjectMaps (hnames : g.NamesUnused) :
    g.HandedOver g.separatePredicateObjectMaps := by
  obtain ⟨all, hall, heq⟩ := exists_separatePredicateObjectMaps_eq hnames
  have hdeclared : ∀ x ∈ all, x ∈ g.triplesMaps := fun x hx => ((hall.mem x).mp hx).1
  rw [heq]
  refine ⟨?_, ?_, ?_⟩
  · intro triplesMap hmap hle
    rw [objectsOf_takenApart hnames hdeclared (mentions_of_mem_triplesMaps hmap), if_neg]
    rintro ⟨htaken, -⟩
    have hlt := ((hall.mem triplesMap).mp htaken).2
    omega
  · intro triplesMap hmap hlt
    rw [objectsOf_takenApart hnames hdeclared (mentions_of_mem_triplesMaps hmap), if_pos]
    exact ⟨(hall.mem triplesMap).mpr ⟨hmap, hlt⟩, rfl⟩
  · intro triplesMap hmap hlt i pom hi
    have htaken := (hall.mem triplesMap).mpr ⟨hmap, hlt⟩
    exact (g.successor_separatedTriples triplesMap pom _).of_objectsOf_eq
      (objectsOf_takenApart_new hnames hall (fun _ hx => hx) htaken hi)

/-- **Separation.** The triples that are no links of declared triples maps stay in place, the others may
move to numbered triples maps, and the links lead to the same objects as often as before. If the new
names are not in use, exactly the triples maps with several links hand them over, each to a new
triples map of its own. -/
theorem links_separatePredicateObjectMaps (g : Graph) :
    g.Moved g.separatePredicateObjectMaps ∧
      (g.NamesUnused → g.HandedOver g.separatePredicateObjectMaps) ∧
      ∀ (a b : String) (m n : Nat), separatedName a m = separatedName b n → a = b ∧ m = n :=
  ⟨g.moved_separatePredicateObjectMaps, handedOver_separatePredicateObjectMaps,
    fun _ _ _ _ => separatedName_inj⟩

/-- A mapping with a triples map that is declared twice and has two predicate-object maps, of which the
second names a parent. -/
def staffMapping : Graph :=
  [⟨"staff", Rdf.type, R2rml.triplesMap⟩, ⟨"staff", Rml.logicalSource, "people_file"⟩,
    ⟨"staff", R2rml.subjectMap, "person"⟩, ⟨"staff", R2rml.predicateObjectMap, "name"⟩,
    ⟨"firms", Rdf.type, R2rml.triplesMap⟩, ⟨"firms", Rml.logicalSource, "register_file"⟩,
    ⟨"firms", R2rml.subjectMap, "firm"⟩, ⟨"firms", R2rml.predicateObjectMap, "name"⟩,
    ⟨"staff", Rdf.type, R2rml.triplesMap⟩, ⟨"staff", R2rml.predicateObjectMap, "employer"⟩,
    ⟨"employer", R2rml.parentTriplesMap, "firms"⟩, ⟨"employer", R2rml.joinCondition, "by_id"⟩,
    ⟨"employer", R2rml.joinCondition, "by_city"⟩]

set_option maxRecDepth 100000 in
theorem links_staffMapping : staffMapping.NamesUnused ∧
    staffMapping.Moved staffMapping.separatePredicateObjectMaps ∧
    staffMapping.HandedOver staffMapping.separatePredicateObjectMaps ∧
    staffMapping.Successor "staff" "employer" staffMapping.separatePredicateObjectMaps "staff_2" := by
  have hnames : staffMapping.NamesUnused := namesUnused_of_forall (by decide +kernel)
  have hlinks := links_separatePredicateObjectMaps staffMapping
  have hsecond := (hlinks.2.1 hnames).successors "staff" (by decide +kernel) (by decide +kernel) 1
    "employer" (by decide +kernel)
  exact ⟨hnames, hlinks.1, hlinks.2.1 hnames, hsecond⟩

end RmlAlgebra.Graph
