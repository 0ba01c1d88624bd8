import RmlAlgebra.Proofs.FreshLabel
import RmlAlgebra.Proofs.Rewriting

/-! # Old nodes and new labels

The expansions add their triples in groups, one for each new label. A group talks about its own label
and about nodes that were there before. So the properties of an old node are found group by group,
and those of a new label in a single group.
-/

namespace RmlAlgebra

namespace Text

theorem pairwise_insertSorted {text : String} {texts : List String} (h : texts.Pairwise (· < ·)) :
    (insertSorted text texts).Pairwise (· < ·) := by
  induction texts with
  | nil => simp [insertSorted]
  | cons head others ih =>
      rw [insertSorted]
      obtain ⟨hhead, hothers⟩ := List.pairwise_cons.mp h
      split
      · next hlt =>
          refine List.pairwise_cons.mpr ⟨?_, h⟩
          rw [List.forall_mem_cons]
          exact ⟨hlt, fun x hx => String.lt_trans hlt (hhead x hx)⟩
      · next hge =>
          split
          · exact h
          · next hne =>
              have hlt : head < text := by
                rw [← String.not_le]
                intro hle
                exact hne (String.le_antisymm hle (String.not_lt.mp hge))
              refine List.pairwise_cons.mpr ⟨?_, ih hothers⟩
              intro x hx
              rcases mem_insertSorted.mp hx with rfl | hx
              · exact hlt
              · exact hhead x hx

theorem pairwise_sortedSet (texts : List String) : (sortedSet texts).Pairwise (· < ·) := by
  induction texts with
  | nil => exact List.Pairwise.nil
  | cons head others ih => exact pairwise_insertSorted ih

theorem nodup_of_pairwise_lt {xs : List String} (h : xs.Pairwise (· < ·)) : xs.Nodup := by
  refine h.imp ?_
  rintro a b hlt rfl
  exact String.lt_irrefl a hlt

/-- A sorted set is known by its elements. -/
theorem eq_of_pairwise_lt {xs ys : List String} (hx : xs.Pairwise (· < ·)) (hy : ys.Pairwise (· < ·))
    (h : ∀ x, x ∈ xs ↔ x ∈ ys) : xs = ys := by
  have hperm : xs.Perm ys :=
    (List.perm_ext_iff_of_nodup (nodup_of_pairwise_lt hx) (nodup_of_pairwise_lt hy)).mpr h
  refine hperm.eq_of_pairwise ?_ hx hy
  intro a b _ _ hab hba
  exact absurd (String.lt_trans hab hba) (String.lt_irrefl a)

end Text

/-- The labels of a supply count on from its last one. -/
theorem Supply.take_eq (count : Nat) (supply : Supply) :
    supply.take count =
      ((List.range' (supply.last + 1) count).map Label.ofNat, ⟨supply.last + count⟩) := by
  induction count generalizing supply with
  | zero => rfl
  | succ count ih =>
      have hlast : supply.last + 1 + count = supply.last + (count + 1) := by omega
      simp only [take, next, ih, List.range'_succ, List.map_cons, hlast]

/-- The first labels that a word of 64 bits counts off, and the word behind them. -/
def Label.countOff : Nat → UInt64 → List String × UInt64
  | 0, word => ([], word)
  | count + 1, word =>
      let (labels, last) := countOff count (word + 1)
      (ofNat (word + 1).toNat :: labels, last)

/-- A word that does not overflow hands out the labels of a supply. -/
theorem Supply.take_eq_countOff {count : Nat} {word : UInt64}
    (h : word.toNat + count < UInt64.size) :
    take count ⟨word.toNat⟩ =
      ((Label.countOff count word).1, ⟨(Label.countOff count word).2.toNat⟩) := by
  induction count generalizing word with
  | zero => rfl
  | succ count ih =>
      have hlt : word.toNat + 1 < UInt64.size := by omega
      have hword : (word + 1).toNat = word.toNat + 1 := by
        rw [UInt64.toNat_add, UInt64.toNat_one]
        exact Nat.mod_eq_of_lt hlt
      have hrest := @ih (word + 1) (by omega)
      rw [hword] at hrest
      simp only [take, next, hrest, Label.countOff, hword]

/-- Behind the last word the labels begin again. -/
example : Label.countOff 2 18446744073709551614 = (["b18446744073709551615", "b0"], 0) := by
  decide +kernel

theorem Label.nodup_map_ofNat (n count : Nat) : ((List.range' n count).map ofNat).Nodup := by
  rw [List.nodup_iff_pairwise_ne, List.pairwise_map]
  have hdistinct : (List.range' n count).Nodup := List.nodup_range'
  refine hdistinct.imp ?_
  intro a b hne heq
  exact hne (ofNat_injective heq)

/-- A text that is none of the labels still to come from a supply. -/
def Supply.Older (supply : Supply) (x : String) : Prop :=
  ∀ n, supply.last < n → n < UInt64.size → x ≠ Label.ofNat n

namespace Supply.Older

variable {supply : Supply} {x : String}

theorem mono {next : Supply} (h : supply.Older x) (hle : supply.last ≤ next.last) : next.Older x :=
  fun n hlow => h n (by omega)

theorem ofNat {n : Nat} (h : n ≤ supply.last) : supply.Older (Label.ofNat n) := by
  intro m hlow _ heq
  have hnm := Label.ofNat_injective heq
  omega

theorem of_not_isLabel (h : isLabel x = false) : supply.Older x := by
  rintro n - - rfl
  rw [Label.isLabel_ofNat] at h
  cases h

end Supply.Older

namespace Graph

variable {g : Graph} {supply : Supply} {x p : String} {α β : Type}

/-! ## Queries -/

theorem isPredicateObjectMap_iff {t : Triple} :
    isPredicateObjectMap t = true ↔ t.predicate = R2rml.predicateObjectMap := by
  rw [isPredicateObjectMap, beq_iff_eq]

theorem isPredicateObjectMap_eq_false {s o : String} (hp : p ≠ R2rml.predicateObjectMap) :
    isPredicateObjectMap ⟨s, p, o⟩ = false :=
  beq_false_of_ne hp

theorem objectsOf_eq_nil (h : ∀ t ∈ g, t.subject = x → t.predicate ≠ p) : g.objectsOf x p = [] := by
  rw [List.eq_nil_iff_forall_not_mem]
  intro o ho
  exact h _ (mem_objectsOf.mp ho) rfl rfl

theorem objectsOf_append (g h : Graph) (x p : String) :
    objectsOf (g ++ h) x p = g.objectsOf x p ++ h.objectsOf x p := by
  simp [objectsOf]

theorem mentions_of_mem_triplesMaps (h : x ∈ g.triplesMaps) : g.Mentions x :=
  ⟨_, mem_subjectsWith.mp h, .inl rfl⟩

/-- The triples of a node, apart from its links to predicate-object maps. -/
def plain (g : Graph) (x : String) : List Triple :=
  (g.filter (·.subject == x)).filter (!isPredicateObjectMap ·)

theorem mem_plain {t : Triple} :
    t ∈ g.plain x ↔ t ∈ g ∧ t.subject = x ∧ isPredicateObjectMap t = false := by
  simp only [plain, List.mem_filter, beq_iff_eq, Bool.not_eq_true', and_assoc]

theorem plain_append (g h : Graph) (x : String) : plain (g ++ h) x = g.plain x ++ h.plain x := by
  simp [plain]

theorem plain_eq_nil (h : ∀ t ∈ g, t.subject = x → isPredicateObjectMap t = true) :
    g.plain x = [] := by
  rw [List.eq_nil_iff_forall_not_mem]
  intro t ht
  obtain ⟨hmem, hs, hplain⟩ := mem_plain.mp ht
  rw [h t hmem hs] at hplain
  cases hplain

theorem plain_filter (keep : Triple → Bool) (g : Graph) (x : String) :
    plain (g.filter keep) x = (g.plain x).filter keep := by
  simp only [plain, List.filter_filter]
  apply List.filter_congr
  intro t _
  ac_rfl

theorem plain_filter_eq {keep : Triple → Bool}
    (h : ∀ t ∈ g, t.subject = x → isPredicateObjectMap t = false → keep t = true) :
    plain (g.filter keep) x = g.plain x := by
  rw [plain_filter, List.filter_eq_self]
  intro t ht
  obtain ⟨hmem, hs, hplain⟩ := mem_plain.mp ht
  exact h t hmem hs hplain

theorem objectsOf_eq_plain (hp : p ≠ R2rml.predicateObjectMap) (g : Graph) (x : String) :
    g.objectsOf x p = ((g.plain x).filter (·.predicate == p)).map Triple.object := by
  rw [objectsOf, plain, List.filter_filter, List.filter_filter]
  congr 1
  apply List.filter_congr
  intro t _
  by_cases htp : t.predicate = p
  · have hplain : isPredicateObjectMap t = false := beq_false_of_ne (htp ▸ hp)
    simp [htp, hplain]
  · have hother : (t.predicate == p) = false := beq_false_of_ne htp
    simp [hother]

theorem length_objectsOf_eq_countP (g : Graph) (x p : String) :
    (g.objectsOf x p).length = g.countP fun t => t.subject == x && t.predicate == p := by
  rw [objectsOf, List.length_map, List.countP_eq_length_filter]

theorem length_objectsOf (hp : p ≠ R2rml.predicateObjectMap) (g : Graph) (x : String) :
    (g.objectsOf x p).length = ((g.plain x).map Triple.predicate).count p := by
  rw [objectsOf_eq_plain hp, List.length_map, List.count, List.countP_map,
    List.countP_eq_length_filter]
  rfl

theorem single_iff {pom : String} : g.Single pom ↔
    ((g.plain pom).map Triple.predicate).count R2rml.predicateMap ≤ 1 ∧
      ((g.plain pom).map Triple.predicate).count R2rml.objectMap ≤ 1 := by
  rw [Single, length_objectsOf (by decide), length_objectsOf (by decide)]

/-- A rewrite that leaves all declarations of triples maps alone. -/
theorem triplesMaps_filter_append {keep : Triple → Bool} {added : Graph}
    (hkeep : ∀ t ∈ g, t.predicate = Rdf.type → t.object = R2rml.triplesMap → keep t = true)
    (hadded : ∀ t ∈ added, t.predicate = Rdf.type → t.object ≠ R2rml.triplesMap) :
    triplesMaps (g.filter keep ++ added) = g.triplesMaps := by
  have hnew : added.triplesMaps = [] := by
    rw [List.eq_nil_iff_forall_not_mem]
    intro x hx
    exact hadded _ (mem_subjectsWith.mp hx) rfl rfl
  have happend : triplesMaps (g.filter keep ++ added) =
      triplesMaps (g.filter keep) ++ added.triplesMaps := by
    simp [triplesMaps, subjectsWith, subjects]
  rw [happend, hnew, List.append_nil, triplesMaps, subjectsWith, subjects, List.filter_filter]
  refine congrArg (List.map _) (List.filter_congr ?_)
  intro t ht
  by_cases hp : t.predicate = Rdf.type
  · by_cases ho : t.object = R2rml.triplesMap
    · simp [hp, ho, hkeep t ht hp ho]
    · simp [Ne.symm ho]
  · simp [hp]

/-! ## Groups -/

variable {name : Nat → String} {group : String → α → List Triple} {n : Nat} {xs : List α}

theorem filter_numbered (keep : Triple → Bool) (name : Nat → String)
    (group : String → α → List Triple) (n : Nat) (xs : List α) :
    (numbered name group n xs).filter keep =
      numbered name (fun label a => (group label a).filter keep) n xs := by
  induction xs generalizing n with
  | nil => rfl
  | cons a others ih => rw [numbered, List.filter_append, ih, numbered]

theorem plain_numbered (name : Nat → String) (group : String → α → List Triple) (n : Nat)
    (xs : List α) (x : String) : plain (numbered name group n xs) x =
      numbered name (fun label a => plain (group label a) x) n xs := by
  rw [plain, filter_numbered, filter_numbered]
  rfl

/-- What a function makes of new triples, group by group. -/
theorem flatMap_numbered {f : Triple → List β} {found : α → List β}
    (h : ∀ (i : Nat) (a : α), xs[i]? = some a → (group (name (n + i)) a).flatMap f = found a) :
    (numbered name group n xs).flatMap f = xs.flatMap found := by
  induction xs generalizing n with
  | nil => rfl
  | cons a others ih =>
      have hfirst : (group (name n) a).flatMap f = found a := h 0 a rfl
      have hothers : (numbered name group (n + 1) others).flatMap f = others.flatMap found := by
        apply ih
        intro i b hb
        have hnext : n + 1 + i = n + (i + 1) := by omega
        rw [hnext]
        exact h (i + 1) b hb
      rw [numbered, List.flatMap_append, hfirst, hothers, List.flatMap_cons]

theorem numbered_eq_nil (h : ∀ (i : Nat) (a : α), xs[i]? = some a → group (name (n + i)) a = []) :
    numbered name group n xs = [] := by
  rw [List.eq_nil_iff_forall_not_mem]
  intro t ht
  obtain ⟨i, a, ha, ht⟩ := mem_numbered.mp ht
  rw [h i a ha] at ht
  exact absurd ht List.not_mem_nil

/-- If all groups but one are empty, that one is what there is. -/
theorem numbered_eq {i : Nat} {a : α} (ha : xs[i]? = some a)
    (h : ∀ (j : Nat) (b : α), xs[j]? = some b → j ≠ i → group (name (n + j)) b = []) :
    numbered name group n xs = group (name (n + i)) a := by
  induction xs generalizing n i with
  | nil => cases ha
  | cons c others ih =>
      have hnext (j : Nat) : n + 1 + j = n + (j + 1) := by omega
      rw [numbered]
      cases i with
      | zero =>
          cases ha
          have hothers : numbered name group (n + 1) others = [] := by
            apply numbered_eq_nil
            intro j b hb
            rw [hnext]
            exact h (j + 1) b hb (by omega)
          rw [hothers, List.append_nil]
          rfl
      | succ i =>
          have hfirst : group (name n) c = [] := h 0 c rfl (by omega)
          have hothers : numbered name group (n + 1) others = group (name (n + 1 + i)) a := by
            apply ih ha
            intro j b hb hji
            rw [hnext]
            exact h (j + 1) b hb (by omega)
          rw [hfirst, hothers, hnext, List.nil_append]

/-- The triples of a new name stand in its own group. -/
theorem plain_append_numbered {i : Nat} {a : α} (ha : xs[i]? = some a)
    (hold : ∀ t ∈ g, t.subject ≠ name (n + i))
    (hothers : ∀ (j : Nat) (b : α), xs[j]? = some b → j ≠ i →
      ∀ t ∈ group (name (n + j)) b, t.subject ≠ name (n + i)) :
    plain (g ++ numbered name group n xs) (name (n + i)) =
      plain (group (name (n + i)) a) (name (n + i)) := by
  have hnone : plain g (name (n + i)) = [] := plain_eq_nil fun t ht hs => absurd hs (hold t ht)
  rw [plain_append, hnone, List.nil_append, plain_numbered]
  apply numbered_eq ha
  intro j b hb hji
  exact plain_eq_nil fun t ht hs => absurd hs (hothers j b hb hji t ht)

/-- Whether all terms of a graph are older than a supply. -/
def Before (g : Graph) (supply : Supply) : Prop :=
  ∀ t ∈ g, supply.Older t.subject ∧ supply.Older t.object

theorem before_of_le (hle : g.highestLabel ≤ supply.last) : g.Before supply := by
  have hold (x : String) (hx : g.Mentions x) : supply.Older x := by
    rintro n hlow hhigh rfl
    exact not_mentions_ofNat (by omega) hhigh hx
  intro t ht
  exact ⟨hold _ ⟨t, ht, .inl rfl⟩, hold _ ⟨t, ht, .inr rfl⟩⟩

/-- A group that talks about its own label and about texts that are older than a supply. -/
def Grounded (group : String → α → List Triple) (supply : Supply) (xs : List α) : Prop :=
  ∀ label, ∀ a ∈ xs, ∀ t ∈ group label a,
    (t.subject = label ∨ supply.Older t.subject) ∧ (t.object = label ∨ supply.Older t.object)

theorem Before.rewrite (hg : g.Before supply) (keep : Triple → Bool)
    (hgroup : Grounded group supply xs) :
    Before (g.filter keep ++ labelled group supply xs) ⟨supply.last + xs.length⟩ := by
  have hle : supply.last ≤ (⟨supply.last + xs.length⟩ : Supply).last := Nat.le_add_right _ _
  intro t ht
  rcases List.mem_append.mp ht with ht | ht
  · have hold := hg t (List.mem_filter.mp ht).1
    exact ⟨hold.1.mono hle, hold.2.mono hle⟩
  · obtain ⟨i, a, ha, ht⟩ := mem_numbered.mp ht
    have hi := (List.getElem?_eq_some_iff.mp ha).1
    have hlabel : Supply.Older ⟨supply.last + xs.length⟩ (Label.ofNat (supply.last + 1 + i)) :=
      .ofNat (by simp only; omega)
    have hterm (y : String) (hy : y = Label.ofNat (supply.last + 1 + i) ∨ supply.Older y) :
        Supply.Older ⟨supply.last + xs.length⟩ y := by
      rcases hy with rfl | hy
      · exact hlabel
      · exact hy.mono hle
    have hboth := hgroup _ a (List.mem_of_getElem? ha) t ht
    exact ⟨hterm _ hboth.1, hterm _ hboth.2⟩

/-- The triples of a new label stand in its own group. -/
theorem plain_new (hg : g.Before supply) (keep : Triple → Bool) (hgroup : Grounded group supply xs)
    (hlimit : supply.last + xs.length < UInt64.size) {i : Nat} {a : α} (ha : xs[i]? = some a) :
    plain (g.filter keep ++ labelled group supply xs) (Label.ofNat (supply.last + 1 + i)) =
      plain (group (Label.ofNat (supply.last + 1 + i)) a) (Label.ofNat (supply.last + 1 + i)) := by
  have hi := (List.getElem?_eq_some_iff.mp ha).1
  apply plain_append_numbered ha
  · intro t ht
    exact (hg t (List.mem_filter.mp ht).1).1 _ (by omega) (by omega)
  · intro j b hb hji t ht hs
    rcases (hgroup _ b (List.mem_of_getElem? hb) t ht).1 with hown | hold
    · have hlabels := Label.ofNat_injective (hown.symm.trans hs)
      omega
    · exact hold _ (by omega) (by omega) hs

theorem objectsOf_new (hp : p ≠ R2rml.predicateObjectMap) (hg : g.Before supply)
    (keep : Triple → Bool) (hgroup : Grounded group supply xs)
    (hlimit : supply.last + xs.length < UInt64.size) {i : Nat} {a : α} (ha : xs[i]? = some a) :
    objectsOf (g.filter keep ++ labelled group supply xs) (Label.ofNat (supply.last + 1 + i)) p =
      objectsOf (group (Label.ofNat (supply.last + 1 + i)) a)
        (Label.ofNat (supply.last + 1 + i)) p := by
  rw [objectsOf_eq_plain hp, plain_new hg keep hgroup hlimit ha, ← objectsOf_eq_plain hp]

/-! ## Classes -/

theorem exists_of_mem_owned {classes : List Triple} {owner : String × String}
    (h : owner ∈ g.owned classes) :
    (∃ t ∈ g, t.subject = owner.1) ∧ ∃ t ∈ classes, t.object = owner.2 := by
  obtain ⟨t, ht, howner⟩ := List.mem_filterMap.mp h
  obtain ⟨u, hu, rfl⟩ := Option.map_eq_some_iff.mp howner
  exact ⟨⟨u, List.mem_of_find?_eq_some hu, rfl⟩, ⟨t, ht, rfl⟩⟩

theorem mem_expandClasses {t : Triple} :
    t ∈ (g.expandClasses supply).1 ↔ (t ∈ g ∧ isClass t = false) ∨
      ∃ (i : Nat) (owner : String × String), (g.owned (g.filter isClass))[i]? = some owner ∧
        t ∈ classGroup (Label.ofNat (supply.last + 1 + i)) owner := by
  rw [expandClasses_eq, List.mem_append, List.mem_filter, mem_numbered, Bool.not_eq_true']

theorem Before.classGroup (hg : g.Before supply) :
    Grounded classGroup supply (g.owned (g.filter isClass)) := by
  intro label owner howner t ht
  obtain ⟨⟨u, hu, hs⟩, v, hv, ho⟩ := exists_of_mem_owned howner
  simp only [Graph.classGroup, List.mem_cons, List.not_mem_nil, or_false] at ht
  rcases ht with rfl | rfl | rfl
  · exact ⟨.inr (hs ▸ (hg u hu).1), .inl rfl⟩
  · exact ⟨.inl rfl, .inr (.of_not_isLabel (show isLabel Rdf.type = false by decide))⟩
  · exact ⟨.inl rfl, .inr (ho ▸ (hg v (List.mem_filter.mp hv).1).2)⟩

theorem Before.expandClasses (hg : g.Before supply) :
    Before (g.expandClasses supply).1 (g.expandClasses supply).2 := by
  rw [expandClasses_eq]
  exact hg.rewrite _ hg.classGroup

theorem plain_classGroup (label : String) (owner : String × String) :
    plain (classGroup label owner) label =
      [⟨label, R2rml.predicate, Rdf.type⟩, ⟨label, R2rml.object, owner.2⟩] := by
  have hlink (s o : String) : isPredicateObjectMap ⟨s, R2rml.predicateObjectMap, o⟩ = true :=
    beq_self_eq_true _
  have hpredicate (s o : String) : isPredicateObjectMap ⟨s, R2rml.predicate, o⟩ = false :=
    isPredicateObjectMap_eq_false (by decide)
  have hobject (s o : String) : isPredicateObjectMap ⟨s, R2rml.object, o⟩ = false :=
    isPredicateObjectMap_eq_false (by decide)
  by_cases hs : owner.1 = label <;>
    simp [plain, classGroup, hlink, hpredicate, hobject, hs]

/-- The predicate-object map of a class has the two properties of its group. -/
theorem plain_classMap (hg : g.Before supply)
    (hlimit : (g.expandClasses supply).2.last < UInt64.size) {i : Nat} {owner : String × String}
    (hi : (g.owned (g.filter isClass))[i]? = some owner) :
    plain (g.expandClasses supply).1 (Label.ofNat (supply.last + 1 + i)) =
      [⟨Label.ofNat (supply.last + 1 + i), R2rml.predicate, Rdf.type⟩,
        ⟨Label.ofNat (supply.last + 1 + i), R2rml.object, owner.2⟩] := by
  rw [expandClasses_eq] at hlimit ⊢
  rw [plain_new hg _ hg.classGroup hlimit hi, plain_classGroup]

/-- An old node keeps its properties apart from classes. -/
theorem plain_expandClasses (hx : supply.Older x)
    (hlimit : (g.expandClasses supply).2.last < UInt64.size) :
    plain (g.expandClasses supply).1 x = (g.plain x).filter (!isClass ·) := by
  rw [expandClasses_eq] at hlimit ⊢
  have hnew : plain (labelled classGroup supply (g.owned (g.filter isClass))) x = [] := by
    rw [plain_numbered]
    apply numbered_eq_nil
    intro i owner hi
    have hlength := (List.getElem?_eq_some_iff.mp hi).1
    have hlabel := hx (supply.last + 1 + i) (by omega) (by simp only at hlimit; omega)
    apply plain_eq_nil
    intro t ht hs
    simp only [classGroup, List.mem_cons, List.not_mem_nil, or_false] at ht
    rcases ht with rfl | rfl | rfl
    · exact beq_self_eq_true _
    · exact absurd hs.symm hlabel
    · exact absurd hs.symm hlabel
  rw [plain_append, hnew, List.append_nil, plain_filter]

/-! ## Constants -/

theorem exists_of_mem_constants {t : Triple} (h : t ∈ g.constants) :
    ∃ s, shortcut? s = some t.predicate ∧ ⟨t.subject, s, t.object⟩ ∈ g := by
  obtain ⟨u, hu, ht⟩ := List.mem_filterMap.mp h
  obtain ⟨q, hq, rfl⟩ := Option.map_eq_some_iff.mp ht
  exact ⟨u.predicate, hq, hu⟩

theorem mem_expandConstants {t : Triple} :
    t ∈ (g.expandConstants supply).1 ↔ (t ∈ g ∧ isShortcut t = false) ∨
      ∃ (i : Nat) (u : Triple), g.constants[i]? = some u ∧
        t ∈ constantGroup (Label.ofNat (supply.last + 1 + i)) u := by
  rw [expandConstants_eq, List.mem_append, List.mem_filter, mem_numbered, Bool.not_eq_true']

theorem Before.constantGroup (hg : g.Before supply) : Grounded constantGroup supply g.constants := by
  intro label u hu t ht
  obtain ⟨s, -, hmem⟩ := exists_of_mem_constants hu
  simp only [Graph.constantGroup, List.mem_cons, List.not_mem_nil, or_false] at ht
  rcases ht with rfl | rfl
  · exact ⟨.inr (hg _ hmem).1, .inl rfl⟩
  · exact ⟨.inl rfl, .inr (hg _ hmem).2⟩

theorem Before.expandConstants (hg : g.Before supply) :
    Before (g.expandConstants supply).1 (g.expandConstants supply).2 := by
  rw [expandConstants_eq]
  exact hg.rewrite _ hg.constantGroup

theorem isPredicateObjectMap_of_mem_constants {t : Triple} (h : t ∈ g.constants) :
    isPredicateObjectMap t = false := by
  obtain ⟨s, hs, -⟩ := exists_of_mem_constants h
  have hall : ∀ a ∈ shortcuts, a.2 ≠ R2rml.predicateObjectMap := by decide
  exact beq_false_of_ne (hall _ (mem_shortcuts hs))

/-- The shortcuts of a node are found in its own triples. -/
theorem plain_constants (g : Graph) (x : String) : plain g.constants x = constants (g.plain x) := by
  induction g with
  | nil => rfl
  | cons t others ih =>
      have hcons : constants (t :: others) = constants [t] ++ constants others := by
        rw [constants, constants, constants, ← List.filterMap_append]
        rfl
      have hplain : plain (t :: others) x = plain [t] x ++ plain others x :=
        plain_append [t] others x
      have hsplit (ts us : List Triple) : constants (ts ++ us) = constants ts ++ constants us :=
        List.filterMap_append
      have hsingle : plain (constants [t]) x = constants (plain [t] x) := by
        cases hq : shortcut? t.predicate with
        | none =>
            have hnone : constants [t] = [] := by simp [constants, hq]
            rw [hnone]
            by_cases hs : (t.subject == x) = true <;>
              by_cases hp : isPredicateObjectMap t = true <;> simp [plain, constants, hs, hp, hq]
        | some q =>
            have hall : ∀ a ∈ shortcuts, a.1 ≠ R2rml.predicateObjectMap ∧
                a.2 ≠ R2rml.predicateObjectMap := by decide
            have hne := hall _ (mem_shortcuts hq)
            have hold : isPredicateObjectMap t = false := beq_false_of_ne hne.1
            have hnew : isPredicateObjectMap { t with predicate := q } = false :=
              beq_false_of_ne hne.2
            by_cases hs : (t.subject == x) = true <;> simp [plain, constants, hq, hs, hold, hnew]
      rw [hcons, plain_append, hsingle, ih, hplain, hsplit]

/-- The new triples of an old node: one for each of its shortcuts. -/
theorem map_plain_constantGroups {ts : List Triple} {f value : Triple → β} (hx : supply.Older x)
    (hlimit : supply.last + ts.length < UInt64.size)
    (hts : ∀ t ∈ ts, isPredicateObjectMap t = false)
    (h : ∀ (i : Nat) (t : Triple), ts[i]? = some t →
      f ⟨t.subject, t.predicate, Label.ofNat (supply.last + 1 + i)⟩ = value t) :
    (plain (labelled constantGroup supply ts) x).map f = (plain ts x).map value := by
  have hsingles (us : List Triple) :
      us.flatMap (fun t => (plain [t] x).map value) = (plain us x).map value := by
    induction us with
    | nil => rfl
    | cons t others ih =>
        rw [List.flatMap_cons, ih, ← List.map_append, ← plain_append]
        rfl
  rw [← hsingles, plain_numbered, List.map_eq_flatMap]
  apply flatMap_numbered
  intro i t ht
  rw [← List.map_eq_flatMap]
  have hi := (List.getElem?_eq_some_iff.mp ht).1
  have hlabel : Label.ofNat (supply.last + 1 + i) ≠ x :=
    (hx _ (by omega) (by omega)).symm
  have hp := hts t (List.mem_of_getElem? ht)
  have hlink (o : String) : isPredicateObjectMap ⟨t.subject, t.predicate, o⟩ = false := hp
  by_cases hs : t.subject = x
  · subst hs
    simp [plain, constantGroup, hlabel, hp, h i t ht, hlink]
  · simp [plain, constantGroup, hs, hlabel]

/-- The triples of an old node when its shortcuts are spelled out. -/
theorem map_plain_expandConstants {f value : Triple → β} (hx : supply.Older x)
    (hlimit : (g.expandConstants supply).2.last < UInt64.size)
    (h : ∀ (i : Nat) (t : Triple), g.constants[i]? = some t →
      f ⟨t.subject, t.predicate, Label.ofNat (supply.last + 1 + i)⟩ = value t) :
    (plain (g.expandConstants supply).1 x).map f =
      ((g.plain x).filter (!isShortcut ·)).map f ++ (constants (g.plain x)).map value := by
  rw [expandConstants_eq] at hlimit ⊢
  rw [plain_append, List.map_append, plain_filter, ← plain_constants]
  rw [map_plain_constantGroups hx hlimit (fun t => isPredicateObjectMap_of_mem_constants) h]

theorem predicates_expandConstants (hx : supply.Older x)
    (hlimit : (g.expandConstants supply).2.last < UInt64.size) :
    (plain (g.expandConstants supply).1 x).map Triple.predicate =
      ((g.plain x).filter (!isShortcut ·)).map Triple.predicate ++
        (constants (g.plain x)).map Triple.predicate :=
  map_plain_expandConstants hx hlimit fun _ _ _ => rfl

/-- The constant of a new term map is the object of its shortcut. -/
theorem objectsOf_constant (hg : g.Before supply)
    (hlimit : (g.expandConstants supply).2.last < UInt64.size) {i : Nat} {t : Triple}
    (hi : g.constants[i]? = some t) :
    objectsOf (g.expandConstants supply).1 (Label.ofNat (supply.last + 1 + i)) R2rml.constant =
      [t.object] := by
  rw [expandConstants_eq] at hlimit ⊢
  have hne : t.subject ≠ Label.ofNat (supply.last + 1 + i) := by
    have hlength := (List.getElem?_eq_some_iff.mp hi).1
    obtain ⟨s, -, hmem⟩ := exists_of_mem_constants (List.mem_of_getElem? hi)
    exact (hg _ hmem).1 _ (by omega) (by simp only at hlimit; omega)
  rw [objectsOf_new (by decide) hg _ hg.constantGroup hlimit hi]
  simp [objectsOf, constantGroup, hne]

/-! ## Multiplying out -/

/-- A new predicate-object map is linked from the parents and has properties of the old one. -/
theorem of_mem_pairGroup {parents : List String} {pom label : String} {pair : String × String}
    (hpair : pair ∈ g.pairs pom) {t : Triple}
    (ht : t ∈ pairGroup parents (g.filter (isShared pom)) label pair) :
    (∃ y ∈ parents, t = ⟨y, R2rml.predicateObjectMap, label⟩) ∨
      t.subject = label ∧ ⟨pom, t.predicate, t.object⟩ ∈ g := by
  obtain ⟨hp, ho⟩ := mem_pairs.mp hpair
  simp only [pairGroup, pairTriples, List.mem_append, List.mem_cons, List.mem_map, List.mem_filter,
    isShared, Bool.and_eq_true, beq_iff_eq] at ht
  rcases ht with ⟨y, hy, rfl⟩ | rfl | rfl | ⟨u, ⟨hu, ⟨hs, -⟩, -⟩, rfl⟩
  · exact .inl ⟨y, hy, rfl⟩
  · exact .inr ⟨rfl, mem_objectsOf.mp hp⟩
  · exact .inr ⟨rfl, mem_objectsOf.mp ho⟩
  · exact .inr ⟨rfl, hs ▸ hu⟩

theorem Before.pairGroup (hg : g.Before supply) {parents : List String}
    (hparents : ∀ y ∈ parents, supply.Older y) (pom : String) :
    Grounded (pairGroup parents (g.filter (isShared pom))) supply (g.pairs pom) := by
  intro label pair hpair t ht
  rcases of_mem_pairGroup hpair ht with ⟨y, hy, rfl⟩ | ⟨hs, hold⟩
  · exact ⟨.inr (hparents y hy), .inl rfl⟩
  · exact ⟨.inl hs, .inr (hg _ hold).2⟩

theorem Before.multiplyOut (hg : g.Before supply) {parents : List String}
    (hparents : ∀ y ∈ parents, supply.Older y) (pom : String) :
    Before (g.multiplyOut parents pom supply).1 (g.multiplyOut parents pom supply).2 := by
  by_cases hsingle : g.Single pom
  · rw [multiplyOut_of_single hsingle]
    exact hg
  · rw [multiplyOut_of_not_single hsingle]
    exact hg.rewrite _ (hg.pairGroup hparents pom)

/-- The new maps give an old node nothing but links. -/
theorem plain_pairGroups {parents : List String} {pom : String} (hx : supply.Older x)
    (hlimit : supply.last + (g.pairs pom).length < UInt64.size) :
    plain (labelled (pairGroup parents (g.filter (isShared pom))) supply (g.pairs pom)) x = [] := by
  rw [plain_numbered]
  apply numbered_eq_nil
  intro i pair hi
  have hlength := (List.getElem?_eq_some_iff.mp hi).1
  have hlabel := hx (supply.last + 1 + i) (by omega) (by omega)
  apply plain_eq_nil
  intro t ht hs
  rcases of_mem_pairGroup (List.mem_of_getElem? hi) ht with ⟨y, -, rfl⟩ | ⟨hown, -⟩
  · exact beq_self_eq_true _
  · exact absurd (hs.symm.trans hown) hlabel

/-- Multiplying out one map leaves the properties of all other old nodes as they are, apart from
links to predicate-object maps. -/
theorem plain_multiplyOut {parents : List String} {pom : String} (hx : supply.Older x)
    (hpom : x ≠ pom) (hlimit : (g.multiplyOut parents pom supply).2.last < UInt64.size) :
    plain (g.multiplyOut parents pom supply).1 x = g.plain x := by
  by_cases hsingle : g.Single pom
  · rw [multiplyOut_of_single hsingle]
  · rw [multiplyOut_of_not_single hsingle] at hlimit ⊢
    rw [plain_append, plain_pairGroups hx hlimit, List.append_nil, plain_filter_eq]
    intro t _ hs hplain
    have hlink : (t.predicate == R2rml.predicateObjectMap) = false := hplain
    simp [isAbout, hs, hpom, hlink]

/-- A map that is single stays so while others are multiplied out, and need not be visited. -/
theorem multiplyOutAll_filter (start : Graph) (keep : String → Bool) {poms : List String}
    (h : ∀ pom ∈ poms, keep pom = false → g.Single pom ∧ supply.Older pom)
    (hlimit : (multiplyOutAll start poms g supply).2.last < UInt64.size) :
    multiplyOutAll start poms g supply = multiplyOutAll start (poms.filter keep) g supply := by
  induction poms generalizing g supply with
  | nil => rfl
  | cons pom others ih =>
      rw [List.forall_mem_cons] at h
      by_cases hkeep : keep pom = true
      · rw [List.filter_cons_of_pos hkeep, multiplyOutAll, multiplyOutAll]
        simp only [multiplyOutAll] at hlimit ⊢
        apply ih ?_ hlimit
        intro x hx hskip
        have hne : x ≠ pom := by
          rintro rfl
          rw [hkeep] at hskip
          cases hskip
        obtain ⟨hsingle, hold⟩ := h.2 x hx hskip
        have hfirst := Nat.lt_of_le_of_lt (last_le_multiplyOutAll start others _ _) hlimit
        refine ⟨?_, hold.mono (last_le_multiplyOut _ _ _ _)⟩
        rw [single_iff, plain_multiplyOut hold hne hfirst, ← single_iff]
        exact hsingle
      · have hskip : keep pom = false := by simpa using hkeep
        simp only [multiplyOutAll, multiplyOut_of_single (h.1 hskip).1] at hlimit
        rw [List.filter_cons_of_neg hkeep, multiplyOutAll, multiplyOut_of_single (h.1 hskip).1]
        exact ih h.2 hlimit

/-- Multiplying out a map that is no triples map neither adds nor drops declarations. -/
theorem triplesMaps_multiplyOut {parents : List String} {pom : String} (h : pom ∉ g.triplesMaps) :
    (g.multiplyOut parents pom supply).1.triplesMaps = g.triplesMaps := by
  have hpom : ⟨pom, Rdf.type, R2rml.triplesMap⟩ ∉ g := fun ht => h (mem_subjectsWith.mpr ht)
  have hne : Rdf.type ≠ R2rml.predicateObjectMap := by decide
  by_cases hsingle : g.Single pom
  · rw [multiplyOut_of_single hsingle]
  · rw [multiplyOut_of_not_single hsingle]
    apply triplesMaps_filter_append
    · rintro ⟨s, p, o⟩ ht rfl rfl
      have hs : s ≠ pom := fun hs => hpom (hs ▸ ht)
      simp [isAbout, hne, hs]
    · intro t ht hp ho
      obtain ⟨i, pair, hi, ht⟩ := mem_numbered.mp ht
      rcases of_mem_pairGroup (List.mem_of_getElem? hi) ht with ⟨y, -, rfl⟩ | ⟨-, hold⟩
      · exact hne hp.symm
      · rw [hp, ho] at hold
        exact hpom hold

theorem triplesMaps_multiplyOutAll (start : Graph) {poms : List String}
    (h : ∀ pom ∈ poms, pom ∉ g.triplesMaps) :
    (multiplyOutAll start poms g supply).1.triplesMaps = g.triplesMaps := by
  induction poms generalizing g supply with
  | nil => rfl
  | cons pom others ih =>
      rw [List.forall_mem_cons] at h
      have hfirst : (g.multiplyOut (start.subjectsWith R2rml.predicateObjectMap pom) pom
          supply).1.triplesMaps = g.triplesMaps := triplesMaps_multiplyOut h.1
      rw [multiplyOutAll]
      simp only
      rw [ih (by rw [hfirst]; exact h.2), hfirst]

/-! ## Classes and constants together -/

/-- The first two expansions, one after the other. -/
def spellTerms (g : Graph) (supply : Supply) : Graph × Supply :=
  Graph.expandConstants (g.expandClasses supply).1 (g.expandClasses supply).2

theorem last_le_expandClasses (g : Graph) (supply : Supply) :
    supply.last ≤ (g.expandClasses supply).2.last := by
  rw [expandClasses_eq]
  exact Nat.le_add_right _ _

theorem last_le_expandConstants (g : Graph) (supply : Supply) :
    supply.last ≤ (g.expandConstants supply).2.last := by
  rw [expandConstants_eq]
  exact Nat.le_add_right _ _

/-- The links to predicate-object maps are the old ones and one for each class. -/
theorem mem_spellTerms_link {y : String} :
    ⟨x, R2rml.predicateObjectMap, y⟩ ∈ (g.spellTerms supply).1 ↔
      ⟨x, R2rml.predicateObjectMap, y⟩ ∈ g ∨
      ∃ (i : Nat) (owner : String × String), (g.owned (g.filter isClass))[i]? = some owner ∧
        x = owner.1 ∧ y = Label.ofNat (supply.last + 1 + i) := by
  have hclass (s o : String) : isClass ⟨s, R2rml.predicateObjectMap, o⟩ = false := by
    show (R2rml.predicateObjectMap == R2rml.class_) = false
    decide
  have hshort (s o : String) : isShortcut ⟨s, R2rml.predicateObjectMap, o⟩ = false := by
    show (shortcut? R2rml.predicateObjectMap).isSome = false
    decide
  have hconstants (k : Graph) (label : String) (t : Triple) (ht : t ∈ k.constants) :
      ⟨x, R2rml.predicateObjectMap, y⟩ ∉ constantGroup label t := by
    obtain ⟨u, -, hu⟩ := List.mem_filterMap.mp ht
    obtain ⟨q, hq, rfl⟩ := Option.map_eq_some_iff.mp hu
    have hall : ∀ a ∈ shortcuts, R2rml.predicateObjectMap ≠ a.2 := by decide
    have hne := hall _ (mem_shortcuts hq)
    have hconstant : R2rml.predicateObjectMap ≠ R2rml.constant := by decide
    simp [constantGroup, hne, hconstant]
  rw [spellTerms, mem_expandConstants, mem_expandClasses, hclass, hshort]
  simp only [and_true]
  constructor
  · rintro ((h | ⟨i, owner, hi, h⟩) | ⟨i, t, hi, h⟩)
    · exact .inl h
    · have h1 : R2rml.predicateObjectMap ≠ R2rml.predicate := by decide
      have h2 : R2rml.predicateObjectMap ≠ R2rml.object := by decide
      simp only [classGroup, List.mem_cons, Triple.mk.injEq, h1, h2, List.not_mem_nil, or_false,
        false_and, and_false, true_and] at h
      exact .inr ⟨i, owner, hi, h⟩
    · exact absurd h (hconstants _ _ t (List.mem_of_getElem? hi))
  · rintro (h | ⟨i, owner, hi, rfl, rfl⟩)
    · exact .inl (.inl h)
    · exact .inl (.inr ⟨i, owner, hi, List.mem_cons_self⟩)

/-- The first two expansions declare no triples map and drop no declaration. -/
theorem triplesMaps_spellTerms : (g.spellTerms supply).1.triplesMaps = g.triplesMaps := by
  have hclasses : (g.expandClasses supply).1.triplesMaps = g.triplesMaps := by
    rw [expandClasses_eq]
    apply triplesMaps_filter_append
    · intro t _ hp _
      have hne : Rdf.type ≠ R2rml.class_ := by decide
      simp [isClass, hp, hne]
    · intro t ht hp
      obtain ⟨i, owner, -, ht⟩ := mem_numbered.mp ht
      have hall : ∀ q ∈ [R2rml.predicateObjectMap, R2rml.predicate, R2rml.object],
          q ≠ Rdf.type := by decide
      simp only [classGroup, List.mem_cons, List.not_mem_nil, or_false] at ht
      rcases ht with rfl | rfl | rfl <;> exact absurd hp (hall _ (by simp))
  rw [spellTerms, expandConstants_eq, ← hclasses]
  apply triplesMaps_filter_append
  · intro t _ hp _
    have hnone : shortcut? Rdf.type = none := by decide
    simp [isShortcut, hp, hnone]
  · intro t ht hp
    obtain ⟨i, u, hu, ht⟩ := mem_numbered.mp ht
    obtain ⟨v, -, hv⟩ := List.mem_filterMap.mp (List.mem_of_getElem? hu)
    obtain ⟨q, hq, rfl⟩ := Option.map_eq_some_iff.mp hv
    have hall : ∀ s ∈ shortcuts, s.2 ≠ Rdf.type := by decide
    simp only [constantGroup, List.mem_cons, List.not_mem_nil, or_false] at ht
    rcases ht with rfl | rfl
    · exact absurd hp (hall _ (mem_shortcuts hq))
    · exact absurd hp (by decide : R2rml.constant ≠ Rdf.type)

/-- The map of a class has one predicate map and one object map. -/
theorem single_classMap (hg : g.Before supply)
    (hlimit : (g.spellTerms supply).2.last < UInt64.size) {i : Nat} {owner : String × String}
    (hi : (g.owned (g.filter isClass))[i]? = some owner) :
    (g.spellTerms supply).1.Single (Label.ofNat (supply.last + 1 + i)) := by
  have hlength := (List.getElem?_eq_some_iff.mp hi).1
  have hclasses := Nat.lt_of_le_of_lt (last_le_expandConstants _ _) hlimit
  have hold : (g.expandClasses supply).2.Older (Label.ofNat (supply.last + 1 + i)) := by
    apply Supply.Older.ofNat
    rw [expandClasses_eq]
    simp only
    omega
  have hpredicates : (plain (g.spellTerms supply).1 (Label.ofNat (supply.last + 1 + i))).map
      Triple.predicate = [R2rml.predicateMap, R2rml.objectMap] := by
    rw [spellTerms, predicates_expandConstants hold hlimit, plain_classMap hg hclasses hi]
    rfl
  rw [single_iff, hpredicates]
  decide

theorem mem_predicateObjectMaps {pom : String} :
    pom ∈ g.predicateObjectMaps ↔ ∃ parent, ⟨parent, R2rml.predicateObjectMap, pom⟩ ∈ g := by
  simp only [predicateObjectMaps, Text.mem_sortedSet, List.mem_map, List.mem_filter, beq_iff_eq]
  constructor
  · rintro ⟨⟨s, p, o⟩, ⟨ht, rfl⟩, rfl⟩
    exact ⟨s, ht⟩
  · rintro ⟨parent, ht⟩
    exact ⟨_, ⟨ht, rfl⟩, rfl⟩

theorem nodup_predicateObjectMaps (g : Graph) : g.predicateObjectMaps.Nodup :=
  Text.nodup_of_pairwise_lt (Text.pairwise_sortedSet _)

/-- All three expansions, one after the other. -/
def spellMaps (g : Graph) (supply : Supply) : Graph × Supply :=
  expandPredicateObjectMaps (g.spellTerms supply).1 (g.spellTerms supply).2

theorem spellOut_eq (g : Graph) (supply : Supply) :
    g.spellOut supply =
      ((g.spellMaps supply).1.separatePredicateObjectMaps, (g.spellMaps supply).2) :=
  rfl

/-- Only the old predicate-object maps are multiplied out. -/
theorem spellMaps_eq (g : Graph) (supply : Supply) (hle : g.highestLabel ≤ supply.last)
    (hlimit : (g.spellMaps supply).2.last < UInt64.size) :
    g.spellMaps supply =
      multiplyOutAll (g.spellTerms supply).1 g.predicateObjectMaps (g.spellTerms supply).1
        (g.spellTerms supply).2 := by
  have hterms := Nat.lt_of_le_of_lt (last_le_multiplyOutAll _ _ _ _) hlimit
  have hvisited : (g.spellTerms supply).1.predicateObjectMaps.filter
      g.predicateObjectMaps.contains = g.predicateObjectMaps := by
    apply Text.eq_of_pairwise_lt ((Text.pairwise_sortedSet _).filter _) (Text.pairwise_sortedSet _)
    intro pom
    rw [List.mem_filter, List.contains_iff_mem]
    refine ⟨And.right, fun hpom => ⟨?_, hpom⟩⟩
    obtain ⟨parent, ht⟩ := mem_predicateObjectMaps.mp hpom
    exact mem_predicateObjectMaps.mpr ⟨parent, mem_spellTerms_link.mpr (.inl ht)⟩
  rw [spellMaps, expandPredicateObjectMaps,
    multiplyOutAll_filter _ g.predicateObjectMaps.contains _ hlimit, hvisited]
  intro pom hpom hnew
  obtain ⟨parent, ht⟩ := mem_predicateObjectMaps.mp hpom
  rcases mem_spellTerms_link.mp ht with ht | ⟨i, owner, hi, -, rfl⟩
  · rw [List.contains_iff_mem.mpr (mem_predicateObjectMaps.mpr ⟨parent, ht⟩)] at hnew
    cases hnew
  · have hlength := (List.getElem?_eq_some_iff.mp hi).1
    refine ⟨single_classMap (before_of_le hle) hterms hi, Supply.Older.ofNat ?_⟩
    refine Nat.le_trans ?_ (last_le_expandConstants _ _)
    rw [expandClasses_eq]
    simp only
    omega

theorem triplesMaps_spellMaps (hle : g.highestLabel ≤ supply.last)
    (hlimit : (g.spellMaps supply).2.last < UInt64.size)
    (hdeclared : ∀ pom ∈ g.predicateObjectMaps, pom ∉ g.triplesMaps) :
    (g.spellMaps supply).1.triplesMaps = g.triplesMaps := by
  rw [spellMaps_eq g supply hle hlimit, triplesMaps_multiplyOutAll _ (by rwa [triplesMaps_spellTerms]),
    triplesMaps_spellTerms]

end Graph

end RmlAlgebra
