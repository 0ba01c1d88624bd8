import RmlAlgebra.Proofs.CanonicalForm

/-! # Normalizing a sub-graph again

A canonical graph has nothing to spell out. The traversal of a sub-graph from its root replays the
traversal that it came from: at every node it finds the triples that were kept there, and so it keeps
them all and goes on to the same nodes. A sub-graph is therefore among its own sub-graphs.
-/

namespace RmlAlgebra.Graph

variable {g k : Graph} {root node : String} {stack : List String} {w : Walk} {fuel : Nat}

/-! ## Replaying a traversal -/

theorem keepFirst_keepFirst (found : Bool) (ts : List Triple) :
    keepFirst found (keepFirst found ts) = keepFirst found ts := by
  induction ts generalizing found with
  | nil => rfl
  | cons t others ih =>
      by_cases hp : isPredicateObjectMap t = true
      · cases found with
        | true => simp [keepFirst, hp, ih]
        | false => simp [keepFirst, hp, ih]
      · simp [keepFirst, hp, ih]

/-- A visit depends on what the node keeps and on nothing else. -/
theorem visit_eq (h : k.filter (·.subject == node) = g.keptAt w node) :
    k.visit w node = g.visit w node := by
  have hkept : keepFirst w.found (k.filter (·.subject == node)) =
      keepFirst w.found (g.filter (·.subject == node)) := by
    rw [h, keptAt, keepFirst_keepFirst]
  simp only [visit, hkept]

/-- At the end of a traversal, the triples of a node are those that its visit kept. -/
theorem filter_walkFrom (hv : w.visited.contains node = false)
    (hw : ∀ t ∈ w.triples, t.subject ∈ w.visited) :
    (g.walkFrom fuel stack (g.visit w node).1).triples.filter (·.subject == node) =
      g.keptAt w node := by
  have hnode : node ∉ w.visited := by simpa using hv
  obtain ⟨rest, heq, hrest⟩ := g.walkFrom_triples fuel stack (g.visit w node).1
  have hbefore : w.triples.filter (·.subject == node) = [] := by
    rw [List.filter_eq_nil_iff]
    intro t ht hs
    have hs : t.subject = node := by simpa using hs
    exact hnode (hs ▸ hw t ht)
  have hown : (g.keptAt w node).filter (·.subject == node) = g.keptAt w node := by
    rw [List.filter_eq_self]
    intro t ht
    simpa using (mem_of_mem_keptAt ht).2
  have hafter : rest.filter (·.subject == node) = [] := by
    rw [List.filter_eq_nil_iff]
    intro t ht hs
    have hs : t.subject = node := by simpa using hs
    apply hrest t ht
    rw [hs]
    exact List.mem_append_right _ (List.mem_singleton_self node)
  have hvisit : (g.visit w node).1.triples = w.triples ++ g.keptAt w node := rfl
  rw [heq, hvisit, List.filter_append, List.filter_append, hbefore, hown, hafter]
  simp

/-- With the same fuel, the traversal of what a traversal keeps takes the same steps. -/
theorem walkFrom_replay (hw : ∀ t ∈ w.triples, t.subject ∈ w.visited) :
    (g.walkFrom fuel stack w).triples.walkFrom fuel stack w = g.walkFrom fuel stack w := by
  induction fuel generalizing stack w with
  | zero => rfl
  | succ fuel ih =>
      cases stack with
      | nil => rfl
      | cons node stack =>
          by_cases hv : w.visited.contains node = true
          · rw [walkFrom, if_pos hv, walkFrom, if_pos hv]
            exact ih hw
          · have hnew : w.visited.contains node = false := by simpa using hv
            have hstep : g.walkFrom (fuel + 1) (node :: stack) w =
                g.walkFrom fuel ((g.visit w node).2.reverse ++ stack) (g.visit w node).1 := by
              rw [walkFrom, if_neg hv]
            rw [hstep, walkFrom, if_neg hv]
            -- What is kept later belongs to other nodes, so this one finds just what it kept.
            simp only [visit_eq (filter_walkFrom hnew hw)]
            apply ih
            intro t ht
            rcases List.mem_append.mp ht with ht | ht
            · exact List.mem_append_left _ (hw t ht)
            · rw [(mem_of_mem_keptAt (w := w) ht).2]
              exact List.mem_append_right _ (List.mem_singleton_self node)

/-- Once there is enough fuel, more of it changes nothing. -/
theorem walkFrom_of_le {more : Nat} (h : stack.length + waiting g w ≤ fuel) (hle : fuel ≤ more) :
    g.walkFrom more stack w = g.walkFrom fuel stack w := by
  induction fuel generalizing more stack w with
  | zero =>
      have hstack : stack = [] := List.length_eq_zero_iff.mp (by omega)
      subst hstack
      cases more <;> rfl
  | succ fuel ih =>
      obtain ⟨more, rfl⟩ : ∃ n, more = n + 1 := ⟨more - 1, by omega⟩
      cases stack with
      | nil => rfl
      | cons node stack =>
          rw [walkFrom, walkFrom]
          simp only [List.length_cons] at h
          by_cases hv : w.visited.contains node = true
          · rw [if_pos hv, if_pos hv]
            exact ih (by omega) (by omega)
          · rw [if_neg hv, if_neg hv]
            have hnew : w.visited.contains node = false := by simpa using hv
            have hlinks := g.length_links_le w node
            have hwait := waiting_visit (g := g) hnew
            have hbound : ((g.visit w node).2.reverse ++ stack).length +
                waiting g (g.visit w node).1 ≤ fuel := by
              rw [List.length_append, List.length_reverse]
              omega
            exact ih hbound (by omega)

theorem length_reachable_le (g : Graph) (root : String) : (g.reachable root).length ≤ g.length := by
  -- A visit only moves triples from those that wait to those that are kept.
  have hrun : (g.walk root).triples.length + waiting g (g.walk root) ≤ g.length := by
    apply walk_induct (motive := fun _ w => w.triples.length + waiting g w ≤ g.length)
    · exact fun _ _ _ _ h => h
    · intro node stack w hv h
      have hkept : (g.keptAt w node).length ≤ (g.filter (·.subject == node)).length :=
        length_keepFirst_le _ _
      have hvisit : (g.visit w node).1.triples = w.triples ++ g.keptAt w node := rfl
      have hwait := waiting_visit (g := g) hv
      rw [List.countP_eq_length_filter] at hwait
      rw [hvisit, List.length_append]
      omega
    · simpa using g.waiting_le_length _
  exact Nat.le_trans (Nat.le_add_right _ _) hrun

/-- From its root, a sub-graph is reached as a whole and in the same order. -/
theorem reachable_reachable (g : Graph) (root : String) :
    (g.reachable root).reachable root = g.reachable root := by
  have hlength := g.length_reachable_le root
  have hfuel : [root].length + waiting (g.reachable root) ⟨[], false, []⟩ ≤
      (g.reachable root).length + 1 := by
    have hle := (g.reachable root).waiting_le_length ⟨[], false, []⟩
    rw [List.length_singleton]
    omega
  have hsame : (g.reachable root).walkFrom (g.length + 1) [root] ⟨[], false, []⟩ =
      (g.reachable root).walk root := walkFrom_of_le hfuel (by omega)
  have hreplay : (g.reachable root).walkFrom (g.length + 1) [root] ⟨[], false, []⟩ = g.walk root :=
    walkFrom_replay (by simp)
  rw [reachable, ← hsame, hreplay, reachable]

/-! ## Nothing to spell out -/

theorem Unabbreviated.expandClasses (h : g.Unabbreviated) (supply : Supply) :
    g.expandClasses supply = (g, supply) := by
  have hclass : ∀ t ∈ g, isClass t = false := by
    intro t ht
    rw [Bool.eq_false_iff]
    intro hclass
    have hp : t.predicate = R2rml.class_ := by simpa [isClass] using hclass
    exact h t ht (by rw [hp]; decide)
  have hnone : g.filter isClass = [] := List.filter_eq_nil_iff.mpr fun t ht => by simp [hclass t ht]
  have hall : g.filter (!isClass ·) = g := List.filter_eq_self.mpr fun t ht => by simp [hclass t ht]
  rw [expandClasses_eq, hnone, hall]
  simp [owned, numbered]

theorem Unabbreviated.expandConstants (h : g.Unabbreviated) (supply : Supply) :
    g.expandConstants supply = (g, supply) := by
  have hshort : ∀ t ∈ g, shortcut? t.predicate = none := by
    intro t ht
    cases hq : shortcut? t.predicate with
    | none => rfl
    | some q =>
        have hall : ∀ a ∈ shortcuts, a.1 ∈ abbreviations := by decide
        exact absurd (hall _ (mem_shortcuts hq)) (h t ht)
  have hnone : g.constants = [] :=
    List.filterMap_eq_nil_iff.mpr fun t ht => by rw [hshort t ht, Option.map_none]
  have hall : g.filter (!isShortcut ·) = g :=
    List.filter_eq_self.mpr fun t ht => by simp [isShortcut, hshort t ht]
  rw [expandConstants_eq, hnone, hall]
  simp [numbered]

theorem multiplyOutAll_of_single {start : Graph} {poms : List String}
    (h : ∀ pom ∈ poms, g.Single pom) (supply : Supply) :
    multiplyOutAll start poms g supply = (g, supply) := by
  induction poms with
  | nil => rfl
  | cons pom others ih =>
      rw [List.forall_mem_cons] at h
      rw [multiplyOutAll, multiplyOut_of_single h.1]
      exact ih h.2

theorem Paired.expandPredicateObjectMaps (h : g.Paired) (supply : Supply) :
    g.expandPredicateObjectMaps supply = (g, supply) := by
  apply multiplyOutAll_of_single
  intro pom hpom
  obtain ⟨parent, ht⟩ := mem_predicateObjectMaps.mp hpom
  exact h _ ht (beq_self_eq_true _)

theorem separatePredicateObjectMaps_eq_self
    (h : g.countPredicate R2rml.predicateObjectMap ≤ 1) : g.separatePredicateObjectMaps = g := by
  have hlinks (x : String) : (g.objectsOf x R2rml.predicateObjectMap).length ≤ 1 := by
    refine Nat.le_trans ?_ h
    rw [length_objectsOf_eq_countP]
    exact List.countP_mono_left fun t _ ht => (Bool.and_eq_true_iff.mp ht).2
  unfold separatePredicateObjectMaps
  generalize g.triplesMaps = maps
  induction maps with
  | nil => rfl
  | cons x others ih => rw [List.foldl_cons, separate_of_le (hlinks x), ih]

theorem ambiguousMap?_eq_none_iff : g.ambiguousMap? = none ↔
    ∀ x ∈ g.triplesMaps, (g.objectsOf x R2rml.subjectMap).length ≤ 1 := by
  simp [ambiguousMap?]

theorem Canonical.spellOut (h : g.Canonical) (supply : Supply) :
    g.spellOut supply = (g, supply) := by
  simp only [Graph.spellOut, h.unabbreviated.expandClasses, h.unabbreviated.expandConstants,
    h.paired.expandPredicateObjectMaps, separatePredicateObjectMaps_eq_self h.link]

/-- A sub-graph whose triples maps have one subject map each is a fixed point of normalization: none
of the rewrites changes it or takes a label, and it is among its own sub-graphs. -/
theorem normalize_subGraph {seed second : UInt32} {subs : List Graph}
    (hlimit : (g.spellOut (g.supply seed)).2.last < UInt64.size) (h : g.normalize seed = .ok subs)
    {sub : Graph} (hsub : sub ∈ subs)
    (hone : ∀ x ∈ sub.triplesMaps, (sub.objectsOf x R2rml.subjectMap).length ≤ 1) :
    (∀ supply, sub.expandClasses supply = (sub, supply) ∧
        Graph.expandConstants sub supply = (sub, supply) ∧
        Graph.expandPredicateObjectMaps sub supply = (sub, supply)) ∧
      Graph.separatePredicateObjectMaps sub = sub ∧
      ∃ own, sub.normalize second = .ok own ∧ sub ∈ own := by
  obtain ⟨root, hroot, hreach, hsubgraph⟩ := exists_root_of_normalize hlimit h hsub
  have hdeclared : root ∈ sub.triplesMaps := by
    rw [hreach]
    exact mem_triplesMaps_reachable hroot
  have hself : sub.reachable root = sub := by
    rw [hreach]
    exact reachable_reachable _ root
  have hmem : sub ∈ sub.subGraphs :=
    List.mem_filter.mpr ⟨List.mem_map.mpr ⟨root, hdeclared, hself⟩, hsubgraph.complete⟩
  refine ⟨fun supply => ⟨hsubgraph.unabbreviated.expandClasses supply,
    hsubgraph.unabbreviated.expandConstants supply,
    hsubgraph.paired.expandPredicateObjectMaps supply⟩,
    separatePredicateObjectMaps_eq_self hsubgraph.link, sub.subGraphs, ?_, hmem⟩
  rw [normalize_eq_ok_iff, hsubgraph.spellOut]
  exact ⟨ambiguousMap?_eq_none_iff.mpr hone, List.ne_nil_of_mem hdeclared, rfl⟩

/-- Two triples maps that join each other and share their subject map. -/
def mutualMapping : Graph :=
  [⟨"http://e/A", Rdf.type, R2rml.triplesMap⟩, ⟨"http://e/B", Rdf.type, R2rml.triplesMap⟩,
    ⟨"http://e/A", R2rml.subjectMap, "b1"⟩, ⟨"http://e/B", R2rml.subjectMap, "b1"⟩,
    ⟨"b1", R2rml.template, "http://e/{i}"⟩, ⟨"http://e/A", R2rml.predicateObjectMap, "b2"⟩,
    ⟨"b2", R2rml.predicate, "http://e/p"⟩, ⟨"b2", R2rml.objectMap, "b3"⟩,
    ⟨"b3", R2rml.parentTriplesMap, "http://e/B"⟩, ⟨"http://e/B", R2rml.predicateObjectMap, "b4"⟩,
    ⟨"b4", R2rml.predicate, "http://e/q"⟩, ⟨"b4", R2rml.objectMap, "b5"⟩,
    ⟨"b5", R2rml.parentTriplesMap, "http://e/A"⟩]

set_option maxRecDepth 100000 in
theorem normalize_subGraph_mutualMapping :
    (mutualMapping.spellOut (mutualMapping.supply 7)).2.last < UInt64.size ∧
      ∃ subs, mutualMapping.normalize 7 = .ok subs ∧ ∃ sub ∈ subs, sub.triplesMaps.length = 2 ∧
        (∀ x ∈ sub.triplesMaps, (sub.objectsOf x R2rml.subjectMap).length ≤ 1) ∧
        (∀ supply, sub.expandClasses supply = (sub, supply) ∧
          Graph.expandConstants sub supply = (sub, supply) ∧
          Graph.expandPredicateObjectMaps sub supply = (sub, supply)) ∧
        Graph.separatePredicateObjectMaps sub = sub ∧
        ∃ own, sub.normalize 3 = .ok own ∧ sub ∈ own := by
  have hlimit : (mutualMapping.spellOut (mutualMapping.supply 7)).2.last < UInt64.size := by
    decide +kernel
  have hsubs : ∃ subs, mutualMapping.normalize 7 = .ok subs ∧ ∃ sub ∈ subs,
      sub.triplesMaps.length = 2 ∧
        ∀ x ∈ sub.triplesMaps, (sub.objectsOf x R2rml.subjectMap).length ≤ 1 := by
    simp only [normalize_eq_ok_iff]
    exact ⟨_, ⟨by decide +kernel, by decide +kernel, rfl⟩, by decide +kernel⟩
  obtain ⟨subs, hsubs, sub, hsub, hlength, hone⟩ := hsubs
  exact ⟨hlimit, subs, hsubs, sub, hsub, hlength, hone, normalize_subGraph hlimit hsubs hsub hone⟩

end RmlAlgebra.Graph
