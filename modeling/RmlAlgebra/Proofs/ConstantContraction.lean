import RmlAlgebra.Proofs.NewLabels

/-! # Constants and back

A shortcut is spelled out by two triples that meet in a new label: one leads to it, the other gives its
constant. Nothing else mentions the label, so the two triples can be found again and contracted to the
shortcut that they stand for. Spelling out constants therefore loses nothing but the place of the
shortcuts among the other triples.
-/

namespace RmlAlgebra.Graph

variable {g : Graph} {supply : Supply} {label : String} {t : Triple} {i : Nat}

/-! ## Shortcuts and term maps -/

/-- The property that leads to the term map of a shortcut. -/
def termMapProperty (p : String) : String :=
  (shortcuts.lookup p).getD p

/-- The shortcut that a property which leads to a term map stands for. -/
def shortcutProperty (q : String) : String :=
  ((shortcuts.map Prod.swap).lookup q).getD q

/-- The shortcuts of a graph, in order. -/
def abbreviated (g : Graph) : List Triple :=
  g.filter fun t => (shortcuts.map Prod.fst).contains t.predicate

theorem shortcut?_eq_lookup (p : String) : shortcut? p = shortcuts.lookup p := by
  have hstep (q r : String) (others : List (String × String)) :
      ((q, r) :: others).lookup p = if p = q then some r else others.lookup p := by
    by_cases h : p = q
    · simp [h]
    · simp [List.lookup_cons, beq_false_of_ne h, h]
  simp only [shortcut?, shortcuts, hstep, List.lookup_nil]

theorem isShortcut_eq (t : Triple) :
    isShortcut t = (shortcuts.map Prod.fst).contains t.predicate := by
  rw [isShortcut, shortcut?_eq_lookup, Bool.eq_iff_iff, List.lookup_isSome_iff, List.contains_iff_mem,
    List.mem_map]
  simp only [beq_iff_eq, eq_comm (a := t.predicate)]

theorem mem_abbreviated : t ∈ g.abbreviated ↔ t ∈ g ∧ t.predicate ∈ shortcuts.map Prod.fst := by
  rw [abbreviated, List.mem_filter, List.contains_iff_mem]

theorem constants_eq (g : Graph) :
    g.constants = g.abbreviated.map fun t => { t with predicate := termMapProperty t.predicate } := by
  induction g with
  | nil => rfl
  | cons t others ih =>
      have hmember := isShortcut_eq t
      rw [isShortcut] at hmember
      rw [constants, List.filterMap_cons, abbreviated, List.filter_cons, ← hmember]
      cases hq : shortcut? t.predicate with
      | none => exact ih
      | some q =>
          have hproperty : termMapProperty t.predicate = q := by
            rw [termMapProperty, ← shortcut?_eq_lookup, hq, Option.getD_some]
          rw [Option.isSome_some, if_pos rfl, List.map_cons, hproperty]
          exact congrArg _ ih

/-- The two triples that spell out a shortcut. -/
def spelledPair (label : String) (t : Triple) : List Triple :=
  [⟨t.subject, termMapProperty t.predicate, label⟩, ⟨label, R2rml.constant, t.object⟩]

theorem numbered_map {α β : Type} (name : Nat → String) (group : String → β → List Triple) (f : α → β)
    (n : Nat) (xs : List α) :
    numbered name group n (xs.map f) = numbered name (fun label a => group label (f a)) n xs := by
  induction xs generalizing n with
  | nil => rfl
  | cons a others ih => rw [List.map_cons, numbered, numbered, ih]

theorem labelled_eq_zipWith {α : Type} (group : String → α → List Triple) (supply : Supply)
    (xs : List α) :
    labelled group supply xs = (List.zipWith group (supply.take xs.length).1 xs).flatten := by
  induction xs generalizing supply with
  | nil => rfl
  | cons a others ih => exact congrArg _ (ih ⟨supply.last + 1⟩)

/-- The triples that are no shortcuts stay, and the shortcuts are spelled out one after the other. -/
theorem expandConstants_eq_spelled (g : Graph) (supply : Supply) :
    g.expandConstants supply =
      (g.filter (fun t => !(shortcuts.map Prod.fst).contains t.predicate) ++
          labelled spelledPair supply g.abbreviated,
        (supply.take g.abbreviated.length).2) := by
  have hkept : g.filter (!isShortcut ·) =
      g.filter fun t => !(shortcuts.map Prod.fst).contains t.predicate :=
    List.filter_congr fun t _ => by rw [isShortcut_eq]
  rw [expandConstants_eq, hkept, constants_eq, labelled, numbered_map, List.length_map,
    Supply.take_eq]
  rfl

/-- The properties that spell out a shortcut are no labels. -/
theorem isLabel_predicate_of_mem_spelledPair {u : Triple} (ht : t.predicate ∈ shortcuts.map Prod.fst)
    (hu : u ∈ spelledPair label t) : isLabel u.predicate = false := by
  have hall : ∀ p ∈ shortcuts.map Prod.fst, isLabel (termMapProperty p) = false := by decide
  rw [spelledPair, List.mem_cons, List.mem_singleton] at hu
  rcases hu with rfl | rfl
  · exact hall _ ht
  · show isLabel R2rml.constant = false
    decide

/-! ## Where a label occurs -/

/-- Whether a text is the subject or the object of a triple. -/
def occursIn (label : String) (t : Triple) : Bool :=
  t.subject == label || t.object == label

theorem occursIn_iff : occursIn label t = true ↔ t.subject = label ∨ t.object = label := by
  rw [occursIn, Bool.or_eq_true, beq_iff_eq, beq_iff_eq]

theorem occursIn_of_mem_spelledPair {u : Triple} (h : u ∈ spelledPair label t) :
    occursIn label u = true := by
  rw [spelledPair, List.mem_cons, List.mem_singleton] at h
  rcases h with rfl | rfl
  · exact occursIn_iff.mpr (.inr rfl)
  · exact occursIn_iff.mpr (.inl rfl)

/-- The labels that spelling out the constants of a graph takes from a supply. -/
def constantLabels (g : Graph) (supply : Supply) : List String :=
  (supply.take g.abbreviated.length).1

theorem constantLabels_eq (g : Graph) (supply : Supply) : g.constantLabels supply =
    (List.range' (supply.last + 1) g.abbreviated.length).map Label.ofNat := by
  rw [constantLabels, Supply.take_eq]

theorem getElem?_constantLabels (supply : Supply) (hi : g.abbreviated[i]? = some t) :
    (g.constantLabels supply)[i]? = some (Label.ofNat (supply.last + 1 + i)) := by
  have hlength := (List.getElem?_eq_some_iff.mp hi).1
  rw [constantLabels_eq, List.getElem?_map, List.getElem?_range' hlength, Nat.one_mul]
  rfl

section Fresh

variable (hfresh : ∀ label ∈ g.constantLabels supply, ¬g.Mentions label)
include hfresh

/-- The triples of the graph itself have none of the new labels. -/
theorem occursIn_eq_false (ht : t ∈ g) (hlabel : label ∈ g.constantLabels supply) :
    occursIn label t = false := by
  rw [Bool.eq_false_iff]
  intro hoccurs
  exact hfresh label hlabel ⟨t, ht, occursIn_iff.mp hoccurs⟩

/-- Of two shortcuts each has a label of its own. -/
theorem occursIn_spelledPair_of_ne {j : Nat} {u v : Triple} (hi : g.abbreviated[i]? = some t)
    (hj : g.abbreviated[j]? = some u) (hne : j ≠ i)
    (hv : v ∈ spelledPair (Label.ofNat (supply.last + 1 + j)) u) :
    occursIn (Label.ofNat (supply.last + 1 + i)) v = false := by
  have hlabel := List.mem_of_getElem? (getElem?_constantLabels supply hi)
  have hold : ¬(u.subject = Label.ofNat (supply.last + 1 + i) ∨
      u.object = Label.ofNat (supply.last + 1 + i)) := by
    rw [← occursIn_iff, Bool.not_eq_true]
    exact occursIn_eq_false hfresh (mem_abbreviated.mp (List.mem_of_getElem? hj)).1 hlabel
  have hlabels : Label.ofNat (supply.last + 1 + j) ≠ Label.ofNat (supply.last + 1 + i) := by
    intro heq
    have hnumbers := Label.ofNat_injective heq
    omega
  rw [Bool.eq_false_iff, ne_eq, occursIn_iff]
  rw [spelledPair, List.mem_cons, List.mem_singleton] at hv
  rcases hv with rfl | rfl
  · rintro (h | h)
    · exact hold (.inl h)
    · exact hlabels h
  · rintro (h | h)
    · exact hlabels h
    · exact hold (.inr h)

/-- A new label occurs in the two triples of its shortcut and nowhere else. -/
theorem filter_occursIn_expandConstants (hi : g.abbreviated[i]? = some t) :
    (g.expandConstants supply).1.filter (occursIn (Label.ofNat (supply.last + 1 + i))) =
      spelledPair (Label.ofNat (supply.last + 1 + i)) t := by
  have hlabel := List.mem_of_getElem? (getElem?_constantLabels supply hi)
  rw [expandConstants_eq_spelled]
  simp only
  rw [List.filter_append, List.filter_eq_nil_iff.mpr, List.nil_append, filter_numbered,
    numbered_eq hi, List.filter_eq_self.mpr fun u => occursIn_of_mem_spelledPair]
  · -- the pairs of the other shortcuts have other labels
    intro j u hj hne
    rw [List.filter_eq_nil_iff]
    intro v hv
    rw [occursIn_spelledPair_of_ne hfresh hi hj hne hv]
    exact Bool.false_ne_true
  · intro u hu
    rw [occursIn_eq_false hfresh (List.mem_filter.mp hu).1 hlabel]
    exact Bool.false_ne_true

end Fresh

/-! ## Contraction -/

/-- The shortcut that two triples spell out. -/
def contractPair : List Triple → List Triple
  | [link, value] => [⟨link.subject, shortcutProperty link.predicate, value.object⟩]
  | others => others

/-- Contract the triples at each of the given labels to a shortcut. -/
def contract (g : Graph) (labels : List String) : Graph :=
  g.filter (fun t => labels.all fun label => !occursIn label t) ++
    labels.flatMap fun label => contractPair (g.filter (occursIn label))

theorem contractPair_spelledPair (ht : t.predicate ∈ shortcuts.map Prod.fst) (label : String) :
    contractPair (spelledPair label t) = [t] := by
  have hall : ∀ p ∈ shortcuts.map Prod.fst, shortcutProperty (termMapProperty p) = p := by decide
  rw [spelledPair, contractPair]
  simp only [hall _ ht]

/-- What is made of each label of a supply, as groups that the supply numbers. -/
theorem flatMap_take {α : Type} (f : String → List Triple) (supply : Supply) (xs : List α) :
    (supply.take xs.length).1.flatMap f = labelled (fun label _ => f label) supply xs := by
  induction xs generalizing supply with
  | nil => rfl
  | cons a others ih => exact congrArg _ (ih ⟨supply.last + 1⟩)

section Fresh

variable (hfresh : ∀ label ∈ g.constantLabels supply, ¬g.Mentions label)
include hfresh

/-- The triples away from the new labels are those that are no shortcuts. -/
theorem filter_unlabelled_expandConstants : (g.expandConstants supply).1.filter
      (fun t => (g.constantLabels supply).all fun label => !occursIn label t) =
    g.filter fun t => !(shortcuts.map Prod.fst).contains t.predicate := by
  rw [expandConstants_eq_spelled]
  simp only
  rw [List.filter_append, List.filter_eq_self.mpr, filter_numbered, numbered_eq_nil,
    List.append_nil]
  · intro i t hi
    have hlabel := List.mem_of_getElem? (getElem?_constantLabels supply hi)
    rw [List.filter_eq_nil_iff]
    intro u hu hall
    have hnone := List.all_eq_true.mp hall _ hlabel
    rw [occursIn_of_mem_spelledPair hu] at hnone
    cases hnone
  · intro t ht
    rw [List.all_eq_true]
    intro label hlabel
    rw [occursIn_eq_false hfresh (List.mem_filter.mp ht).1 hlabel, Bool.not_false]

/-- The triples at the new labels stand for the shortcuts, one after the other. -/
theorem flatMap_contractPair_expandConstants : (g.constantLabels supply).flatMap
      (fun label => contractPair ((g.expandConstants supply).1.filter (occursIn label))) =
    g.abbreviated := by
  have hpairs (i : Nat) (t : Triple) (hi : g.abbreviated[i]? = some t) :
      (contractPair ((g.expandConstants supply).1.filter
        (occursIn (Label.ofNat (supply.last + 1 + i))))).flatMap (fun u => [u]) = [t] := by
    rw [filter_occursIn_expandConstants hfresh hi, List.flatMap_singleton',
      contractPair_spelledPair (mem_abbreviated.mp (List.mem_of_getElem? hi)).2]
  have hall : (labelled (fun label _ => contractPair
      ((g.expandConstants supply).1.filter (occursIn label))) supply g.abbreviated).flatMap
      (fun u => [u]) = g.abbreviated.flatMap fun t => [t] := flatMap_numbered hpairs
  rw [List.flatMap_singleton', List.flatMap_singleton'] at hall
  rw [constantLabels, flatMap_take]
  exact hall

end Fresh

/-- What a graph is when its shortcuts are spelled out with a list of labels. -/
structure SpelledWith (g : Graph) (labels : List String) (spelled : Graph) : Prop where
  nodup : labels.Nodup
  length : labels.length = g.abbreviated.length
  triples : spelled = g.filter (fun t => !(shortcuts.map Prod.fst).contains t.predicate) ++
    (List.zipWith spelledPair labels g.abbreviated).flatten
  occurs : ∀ entry ∈ labels.zip g.abbreviated,
    spelled.filter (occursIn entry.1) = spelledPair entry.1 entry.2
  predicates : ∀ t ∈ spelled, t.predicate ∈ labels → t ∈ g
  contracts : (spelled.contract labels).Perm g

/-- **Constants.** Spelling out the shortcuts of a graph keeps the other triples as they are and adds,
in the order of the shortcuts, two triples each. If the graph does not mention the labels that this
takes, they are the only triples with their label, and contracting them gives the graph back up to the
order of its triples. -/
theorem spelledWith_expandConstants (g : Graph) (supply : Supply)
    (hfresh : ∀ label ∈ g.constantLabels supply, ¬g.Mentions label) :
    g.SpelledWith (g.constantLabels supply) (g.expandConstants supply).1 ∧
      (g.expandConstants supply).2 = (supply.take g.abbreviated.length).2 := by
  refine ⟨⟨?_, ?_, ?_, ?_, ?_, ?_⟩, ?_⟩
  · rw [constantLabels_eq]
    exact Label.nodup_map_ofNat _ _
  · rw [constantLabels_eq, List.length_map, List.length_range']
  · rw [expandConstants_eq_spelled, labelled_eq_zipWith, constantLabels]
  · rintro ⟨label, t⟩ hentry
    obtain ⟨i, hi⟩ := List.mem_iff_getElem?.mp hentry
    obtain ⟨hlabel, ht⟩ := List.getElem?_zip_eq_some.mp hi
    obtain rfl : label = Label.ofNat (supply.last + 1 + i) :=
      Option.some.inj (hlabel.symm.trans (getElem?_constantLabels supply ht))
    exact filter_occursIn_expandConstants hfresh ht
  · intro t ht hlabel
    rw [constantLabels_eq] at hlabel
    obtain ⟨n, -, hn⟩ := List.mem_map.mp hlabel
    rw [expandConstants_eq_spelled] at ht
    rcases List.mem_append.mp ht with ht | ht
    · exact (List.mem_filter.mp ht).1
    · obtain ⟨i, u, hu, ht⟩ := mem_numbered.mp ht
      have hnot := isLabel_predicate_of_mem_spelledPair
        (mem_abbreviated.mp (List.mem_of_getElem? hu)).2 ht
      rw [← hn, Label.isLabel_ofNat] at hnot
      cases hnot
  · rw [contract, filter_unlabelled_expandConstants hfresh, flatMap_contractPair_expandConstants hfresh]
    exact List.perm_append_comm.trans (List.filter_append_perm _ g)
  · rw [expandConstants_eq_spelled]

/-- A mapping with a repeated shortcut, labels of its own and literals that look like labels. -/
def shortcutMapping : Graph :=
  [⟨"people", R2rml.subject, "b6"⟩, ⟨"people", Rdf.type, R2rml.triplesMap⟩,
    ⟨"b5", R2rml.object, "b007"⟩, ⟨"people", R2rml.predicateObjectMap, "b5"⟩,
    ⟨"people", R2rml.subject, "b6"⟩, ⟨"b5", R2rml.predicate, "b08"⟩]

set_option maxRecDepth 100000 in
theorem spelledWith_shortcutMapping : shortcutMapping.SpelledWith ["b7", "b8", "b9", "b10"]
      (shortcutMapping.expandConstants ⟨6⟩).1 ∧
    (shortcutMapping.expandConstants ⟨6⟩).2 = ⟨10⟩ := by
  have hlabels : shortcutMapping.constantLabels ⟨6⟩ = ["b7", "b8", "b9", "b10"] := by decide +kernel
  have hsupply : (Supply.take shortcutMapping.abbreviated.length ⟨6⟩).2 = ⟨10⟩ := by decide +kernel
  have hspelled := spelledWith_expandConstants shortcutMapping ⟨6⟩ (by decide +kernel)
  rw [hlabels, hsupply] at hspelled
  exact hspelled

end RmlAlgebra.Graph
