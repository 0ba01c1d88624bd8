import RmlAlgebra.Proofs.NewLabels

/-! # The labels that are handed out

The expansions drop triples and add new ones in groups. For each group they take the next label of the
supply, and all other texts of the group are known: they are subjects or objects of the graph at the
start, labels that were taken before, or the predicate of class membership. So the labels count up from
where the supply begins, and a supply that begins above the labels of the graph hands out none of its
texts.
-/

namespace RmlAlgebra.Graph

variable {g k : Graph} {supply next : Supply} {labels : List String} {x : String} {α : Type}

/-- A text of a graph, one of some labels, or the predicate of class membership. -/
def Known (g : Graph) (labels : List String) (x : String) : Prop :=
  g.Mentions x ∨ x ∈ labels ∨ x = Rdf.type

theorem Known.append (h : g.Known labels x) (more : List String) : g.Known (labels ++ more) x :=
  h.imp_right fun hlabel => hlabel.imp_left (List.mem_append_left more)

/-- A rewriting of a graph that takes labels from a supply, one for each group of new triples. -/
inductive Takes (g : Graph) (supply : Supply) : List String → Graph → Supply → Prop
  | start : Takes g supply [] g supply
  | drop {labels : List String} {k : Graph} {next : Supply} (keep : Triple → Bool)
      (before : Takes g supply labels k next) : Takes g supply labels (k.filter keep) next
  | take {labels : List String} {k : Graph} {next : Supply} {new : Graph}
      (before : Takes g supply labels k next) (used : new.Mentions next.next.1)
      (known : ∀ x, new.Mentions x → x = next.next.1 ∨ g.Known labels x) :
      Takes g supply (labels ++ [next.next.1]) (k ++ new) next.next.2

namespace Takes

theorem known_of_mentions (h : g.Takes supply labels k next) (hx : k.Mentions x) :
    g.Known labels x := by
  induction h with
  | start => exact .inl hx
  | drop keep before ih =>
      obtain ⟨t, ht, hterm⟩ := hx
      exact ih ⟨t, (List.mem_filter.mp ht).1, hterm⟩
  | take before used known ih =>
      obtain ⟨t, ht, hterm⟩ := hx
      rcases List.mem_append.mp ht with ht | ht
      · exact (ih ⟨t, ht, hterm⟩).append _
      · rcases known x ⟨t, ht, hterm⟩ with rfl | hknown
        · exact .inr (.inl (List.mem_append_right _ List.mem_cons_self))
        · exact hknown.append _

/-- The labels count up, and the supply knows how many there were. -/
theorem eq_take (h : g.Takes supply labels k next) : supply.take labels.length = (labels, next) := by
  rw [Supply.take_eq]
  induction h with
  | start => rfl
  | drop keep before ih => exact ih
  | @take labels k next new before used known ih =>
      obtain ⟨hlabels, rfl⟩ := Prod.mk.inj ih
      have hlast : supply.last + 1 + labels.length = supply.last + labels.length + 1 := by omega
      rw [List.length_append, List.length_singleton, List.range'_concat, List.map_append, hlabels,
        Nat.one_mul, List.map_singleton, hlast, Supply.next, Nat.add_assoc]

/-- A block of new groups, one for each element of a list. -/
theorem labelled {group : String → α → List Triple} {xs : List α} (h : g.Takes supply labels k next)
    (hused : ∀ label, ∀ a ∈ xs, Mentions (group label a) label)
    (hknown : ∀ label, ∀ a ∈ xs, ∀ x, Mentions (group label a) x → x = label ∨ g.Known labels x) :
    ∃ more, g.Takes supply (labels ++ more) (k ++ Graph.labelled group next xs)
      ⟨next.last + xs.length⟩ := by
  induction xs generalizing labels k next with
  | nil =>
      refine ⟨[], ?_⟩
      rw [List.append_nil, Graph.labelled, numbered, List.append_nil]
      exact h
  | cons a others ih =>
      have hfirst := h.take (hused _ a List.mem_cons_self) (hknown _ a List.mem_cons_self)
      -- for the groups that follow, the first label is one of those taken before
      obtain ⟨more, hmore⟩ := ih hfirst (fun label b hb => hused label b (List.mem_cons_of_mem a hb))
        fun label b hb x hx =>
          (hknown label b (List.mem_cons_of_mem a hb) x hx).imp_right (Known.append · _)
      refine ⟨next.next.1 :: more, ?_⟩
      have hlast : next.next.2.last + others.length = next.last + (a :: others).length := by
        rw [Supply.next, List.length_cons]
        simp only
        omega
      rw [hlast, List.append_assoc, List.append_assoc] at hmore
      exact hmore

theorem expandClasses (h : g.Takes supply labels k next) :
    ∃ more, g.Takes supply (labels ++ more) (k.expandClasses next).1 (k.expandClasses next).2 := by
  rw [expandClasses_eq]
  apply (h.drop _).labelled
  · intro label owner _
    exact ⟨_, List.mem_cons_self, .inr rfl⟩
  · rintro label owner howner x ⟨t, ht, hterm⟩
    obtain ⟨⟨u, hu, hs⟩, v, hv, ho⟩ := exists_of_mem_owned howner
    simp only [classGroup, List.mem_cons, List.not_mem_nil, or_false] at ht
    rcases ht with rfl | rfl | rfl <;> rcases hterm with rfl | rfl
    · exact .inr (h.known_of_mentions ⟨u, hu, .inl hs⟩)
    · exact .inl rfl
    · exact .inl rfl
    · exact .inr (.inr (.inr rfl))
    · exact .inl rfl
    · exact .inr (h.known_of_mentions ⟨v, (List.mem_filter.mp hv).1, .inr ho⟩)

theorem expandConstants (h : g.Takes supply labels k next) :
    ∃ more, g.Takes supply (labels ++ more) (k.expandConstants next).1
      (k.expandConstants next).2 := by
  rw [expandConstants_eq]
  apply (h.drop _).labelled
  · intro label u _
    exact ⟨_, List.mem_cons_self, .inr rfl⟩
  · rintro label u hu x ⟨t, ht, hterm⟩
    obtain ⟨q, -, hmem⟩ := exists_of_mem_constants hu
    simp only [constantGroup, List.mem_cons, List.not_mem_nil, or_false] at ht
    rcases ht with rfl | rfl <;> rcases hterm with rfl | rfl
    · exact .inr (h.known_of_mentions ⟨_, hmem, .inl rfl⟩)
    · exact .inl rfl
    · exact .inl rfl
    · exact .inr (h.known_of_mentions ⟨_, hmem, .inr rfl⟩)

theorem multiplyOut {parents : List String} (h : g.Takes supply labels k next)
    (hparents : ∀ y ∈ parents, g.Known labels y) (pom : String) :
    ∃ more, g.Takes supply (labels ++ more) (k.multiplyOut parents pom next).1
      (k.multiplyOut parents pom next).2 := by
  by_cases hsingle : k.Single pom
  · rw [multiplyOut_of_single hsingle]
    exact ⟨[], by rwa [List.append_nil]⟩
  · rw [multiplyOut_of_not_single hsingle]
    apply (h.drop _).labelled
    · intro label pair _
      exact ⟨_, List.mem_append_right _ List.mem_cons_self, .inl rfl⟩
    · rintro label pair hpair x ⟨t, ht, hterm⟩
      rcases of_mem_pairGroup hpair ht with ⟨y, hy, rfl⟩ | ⟨hs, hold⟩ <;> rcases hterm with rfl | rfl
      · exact .inr (hparents _ hy)
      · exact .inl rfl
      · exact .inl hs
      · exact .inr (h.known_of_mentions ⟨_, hold, .inr rfl⟩)

/-- The parents are looked up in the graph at the start, so their texts stay known. -/
theorem multiplyOutAll {start : Graph} {poms : List String} (h : g.Takes supply labels k next)
    (hstart : ∀ y, start.Mentions y → g.Known labels y) :
    ∃ more, g.Takes supply (labels ++ more) (Graph.multiplyOutAll start poms k next).1
      (Graph.multiplyOutAll start poms k next).2 := by
  induction poms generalizing labels k next with
  | nil => exact ⟨[], by rwa [List.append_nil]⟩
  | cons pom others ih =>
      have hparents (y : String) (hy : y ∈ start.subjectsWith R2rml.predicateObjectMap pom) :
          g.Known labels y := hstart y ⟨_, mem_subjectsWith.mp hy, .inl rfl⟩
      obtain ⟨first, hfirst⟩ := h.multiplyOut hparents pom
      obtain ⟨more, hmore⟩ := ih hfirst fun y hy => (hstart y hy).append first
      rw [List.append_assoc] at hmore
      exact ⟨first ++ more, hmore⟩

end Takes

/-- What the three expansions take from a supply. -/
theorem exists_takes_spellMaps (g : Graph) (supply : Supply) :
    ∃ labels, g.Takes supply labels (g.spellMaps supply).1 (g.spellMaps supply).2 := by
  have hstart : g.Takes supply [] g supply := .start
  obtain ⟨classes, hclasses⟩ := hstart.expandClasses
  obtain ⟨constants, hconstants⟩ := hclasses.expandConstants
  obtain ⟨pairs, hpairs⟩ := hconstants.multiplyOutAll fun y => hconstants.known_of_mentions
  exact ⟨_, hpairs⟩

/-- **Fresh labels.** The expansions of a graph hand out labels that count up from the highest label of
the graph or from the seed, whichever is higher. As long as their numbers stay in range, none of them
is a text of the graph. -/
theorem fresh_labels_spellOut (g : Graph) (seed : UInt32)
    (hlimit : (g.spellOut (g.supply seed)).2.last < UInt64.size) :
    ∃ labels, g.Takes (g.supply seed) labels (g.spellMaps (g.supply seed)).1
        (g.spellMaps (g.supply seed)).2 ∧
      g.spellOut (g.supply seed) = ((g.spellMaps (g.supply seed)).1.separatePredicateObjectMaps,
        (g.spellMaps (g.supply seed)).2) ∧
      (g.spellOut (g.supply seed)).2.last = max g.highestLabel seed.toNat + labels.length ∧
      labels = (List.range' (max g.highestLabel seed.toNat + 1) labels.length).map Label.ofNat ∧
      labels.Nodup ∧ ∀ label ∈ labels, ¬g.Mentions label := by
  obtain ⟨labels, htakes⟩ := g.exists_takes_spellMaps (g.supply seed)
  have htake := htakes.eq_take
  rw [Supply.take_eq] at htake
  obtain ⟨hlabels, hnext⟩ := Prod.mk.inj htake
  have hcount : (g.spellOut (g.supply seed)).2.last = max g.highestLabel seed.toNat + labels.length :=
    (congrArg Supply.last hnext).symm
  refine ⟨labels, htakes, spellOut_eq g _, hcount, hlabels.symm, ?_, ?_⟩
  · rw [← hlabels]
    exact Label.nodup_map_ofNat _ _
  · intro label hlabel
    rw [← hlabels] at hlabel
    obtain ⟨n, hn, rfl⟩ := List.mem_map.mp hlabel
    rw [List.mem_range'_1] at hn
    have hlow : max g.highestLabel seed.toNat + 1 ≤ n := hn.1
    have hhigh : n < max g.highestLabel seed.toNat + 1 + labels.length := hn.2
    exact not_mentions_ofNat (by omega) (by omega)

/-- A mapping with a class that reads like a label, a label with leading zeros and one whose number is
too large to be counted. -/
def labelledMapping : Graph :=
  [⟨"people", R2rml.subjectMap, "b4"⟩, ⟨"b4", R2rml.class_, "b12"⟩,
    ⟨"people", R2rml.predicateObjectMap, "b0007"⟩, ⟨"b0007", R2rml.predicate, "p"⟩,
    ⟨"b0007", R2rml.predicate, "b013"⟩, ⟨"b0007", R2rml.object, "b99999999999999999999"⟩]

set_option maxRecDepth 100000 in
theorem fresh_labels_labelledMapping :
    labelledMapping.Takes ⟨13⟩ ["b14", "b15", "b16", "b17", "b18", "b19", "b20", "b21"]
      (labelledMapping.spellMaps ⟨13⟩).1 ⟨21⟩ ∧
    ∀ label ∈ ["b14", "b15", "b16", "b17", "b18", "b19", "b20", "b21"],
      ¬labelledMapping.Mentions label := by
  have hsupply : labelledMapping.supply 5 = ⟨13⟩ := by decide +kernel
  have hstart : max labelledMapping.highestLabel (UInt32.toNat 5) = 13 := by decide +kernel
  have hend : (labelledMapping.spellMaps ⟨13⟩).2 = ⟨21⟩ := by decide +kernel
  have hfresh := fresh_labels_spellOut labelledMapping 5 (by rw [hsupply, spellOut_eq, hend]; decide)
  rw [hsupply, hstart, spellOut_eq, hend] at hfresh
  obtain ⟨labels, htakes, -, hcount, hlabels, -, hnew⟩ := hfresh
  have hlength : labels.length = 8 := by
    simp only at hcount
    omega
  have hlist : (List.range' 14 8).map Label.ofNat =
      ["b14", "b15", "b16", "b17", "b18", "b19", "b20", "b21"] := by decide +kernel
  rw [hlength, hlist] at hlabels
  rw [hlabels] at htakes hnew
  exact ⟨htakes, hnew⟩

end RmlAlgebra.Graph
