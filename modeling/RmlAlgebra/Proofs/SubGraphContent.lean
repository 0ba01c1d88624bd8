import Mathlib.Data.List.Basic
import RmlAlgebra.Proofs.Traversal

/-! # What a sub-graph holds

A traversal is a loop that takes one node from its stack at a time. Up to every point of the loop, the
kept triples are those of the visited nodes, node after node, without the links to predicate-object
maps after the first. So a sub-graph is known from the nodes in the order of their visits, and these
are the nodes that its own triples lead to from the root.
-/

namespace RmlAlgebra.Graph

variable {g s : Graph} {root node x : String} {nodes stack : List String} {w : Walk} {t : Triple}

/-! ## The loop -/

/-- Take one node from the stack. It is dropped if it was visited before, and visited otherwise. -/
def pop? (g : Graph) : List String × Walk → Option (List String × Walk)
  | ([], _) => none
  | (node :: stack, w) =>
      if w.visited.contains node then some (stack, w)
      else some ((g.visit w node).2.reverse ++ stack, (g.visit w node).1)

/-- What a number of pops leads to. -/
inductive Pops (g : Graph) (start : List String × Walk) : Nat → List String × Walk → Prop where
  | start : Pops g start 0 start
  | pop {n : Nat} {before after : List String × Walk} (h : Pops g start n before)
      (hpop : g.pop? before = some after) : Pops g start (n + 1) after

/-- The loop ends, and with it the traversal. -/
theorem pops_walk (g : Graph) (root : String) :
    ∃ n ≤ g.length + 1, Pops g ([root], ⟨[], false, []⟩) n ([], g.walk root) := by
  -- A pop takes one node from the stack, and a visit puts no more on it than triples stop waiting.
  have hrun : ∃ n, n + ([] : List String).length + waiting g (g.walk root) ≤ g.length + 1 ∧
      Pops g ([root], ⟨[], false, []⟩) n ([], g.walk root) := by
    apply walk_induct (motive := fun stack w => ∃ n, n + stack.length + waiting g w ≤ g.length + 1 ∧
      Pops g ([root], ⟨[], false, []⟩) n (stack, w))
    · rintro node stack w hv ⟨n, hn, hpops⟩
      rw [List.length_cons] at hn
      exact ⟨n + 1, by omega, hpops.pop (if_pos hv)⟩
    · rintro node stack w hv ⟨n, hn, hpops⟩
      have hlinks := g.length_links_le w node
      have hwait := waiting_visit (g := g) hv
      rw [List.length_cons] at hn
      refine ⟨n + 1, ?_, hpops.pop (if_neg (by simpa using hv))⟩
      rw [List.length_append, List.length_reverse]
      omega
    · have hle := g.waiting_le_length ⟨[], false, []⟩
      exact ⟨0, by rw [List.length_singleton]; omega, .start⟩
  obtain ⟨n, hn, hpops⟩ := hrun
  exact ⟨n, by omega, hpops⟩

/-! ## Triples node by node -/

/-- The triples of the given nodes, node after node. -/
def triplesOf (g : Graph) (nodes : List String) : Graph :=
  nodes.flatMap fun x => g.filter (·.subject == x)

theorem mem_triplesOf : t ∈ g.triplesOf nodes ↔ t ∈ g ∧ t.subject ∈ nodes := by
  simp only [triplesOf, List.mem_flatMap, List.mem_filter, beq_iff_eq]
  constructor
  · rintro ⟨x, hx, ht, rfl⟩
    exact ⟨ht, hx⟩
  · rintro ⟨ht, hs⟩
    exact ⟨t.subject, hs, ht, rfl⟩

theorem triplesOf_concat (g : Graph) (nodes : List String) (node : String) :
    g.triplesOf (nodes ++ [node]) = g.triplesOf nodes ++ g.filter (·.subject == node) := by
  simp [triplesOf]

theorem filter_triplesOf (h : nodes.Nodup) (hx : x ∈ nodes) :
    (g.triplesOf nodes).filter (·.subject == x) = g.filter (·.subject == x) := by
  induction nodes with
  | nil => exact absurd hx List.not_mem_nil
  | cons y others ih =>
      obtain ⟨hnot, hothers⟩ := List.nodup_cons.mp h
      have hsplit : g.triplesOf (y :: others) = g.filter (·.subject == y) ++ g.triplesOf others := rfl
      rw [hsplit, List.filter_append]
      by_cases hxy : x = y
      · subst hxy
        have hrest : (g.triplesOf others).filter (·.subject == x) = [] := by
          rw [List.filter_eq_nil_iff]
          intro t ht hs
          exact hnot (beq_iff_eq.mp hs ▸ (mem_triplesOf.mp ht).2)
        rw [hrest, List.append_nil, List.filter_filter]
        simp only [Bool.and_self]
      · have hfirst : (g.filter (·.subject == y)).filter (·.subject == x) = [] := by
          rw [List.filter_eq_nil_iff]
          intro t ht hs
          have hy := (List.mem_filter.mp ht).2
          exact hxy ((beq_iff_eq.mp hs).symm.trans (beq_iff_eq.mp hy))
        rw [hfirst, List.nil_append, ih hothers ((List.mem_cons.mp hx).resolve_left hxy)]

/-- A node that is listed has all its triples among those of the nodes, and no other node has any. -/
theorem count_triplesOf (h : nodes.Nodup) (t : Triple) :
    (g.triplesOf nodes).count t = if t.subject ∈ nodes then g.count t else 0 := by
  split
  · next hmem =>
      have hown (ts : List Triple) : (ts.filter (·.subject == t.subject)).count t = ts.count t :=
        List.count_filter (beq_self_eq_true _)
      rw [← hown, filter_triplesOf h hmem, hown]
  · next hmem =>
      rw [List.count_eq_zero]
      exact fun ht => hmem (mem_triplesOf.mp ht).2

/-- What is left of the triples of some nodes still comes node by node. -/
theorem eq_flatMap_of_sublist (h : nodes.Nodup) (hs : s.Sublist (g.triplesOf nodes)) :
    s = nodes.flatMap fun x => s.filter (·.subject == x) := by
  induction nodes generalizing s with
  | nil => exact List.sublist_nil.mp hs
  | cons y others ih =>
      obtain ⟨hnot, hothers⟩ := List.nodup_cons.mp h
      obtain ⟨own, rest, rfl, hown, hrest⟩ := List.sublist_append_iff.mp hs
      have hfirst : (own ++ rest).filter (·.subject == y) = own := by
        have hsame : own.filter (·.subject == y) = own :=
          List.filter_eq_self.mpr fun t ht => (List.mem_filter.mp (hown.subset ht)).2
        have hnone : rest.filter (·.subject == y) = [] := by
          rw [List.filter_eq_nil_iff]
          intro t ht hy
          exact hnot (beq_iff_eq.mp hy ▸ (mem_triplesOf.mp (hrest.subset ht)).2)
        rw [List.filter_append, hsame, hnone, List.append_nil]
      have hlater : (others.flatMap fun x => (own ++ rest).filter (·.subject == x)) =
          others.flatMap fun x => rest.filter (·.subject == x) := by
        apply List.flatMap_congr
        intro x hx
        have hnone : own.filter (·.subject == x) = [] := by
          rw [List.filter_eq_nil_iff]
          intro t ht hs
          have hy := (List.mem_filter.mp (hown.subset ht)).2
          exact hnot ((beq_iff_eq.mp hy).symm.trans (beq_iff_eq.mp hs) ▸ hx)
        rw [List.filter_append, hnone, List.nil_append]
      rw [List.flatMap_cons, hfirst, hlater, ← ih hothers hrest]

/-! ## Leaving out links -/

theorem keepFirst_append (found : Bool) (ts us : List Triple) :
    keepFirst found (ts ++ us) =
      keepFirst found ts ++ keepFirst (found || ts.any isPredicateObjectMap) us := by
  induction ts generalizing found with
  | nil => simp [keepFirst]
  | cons t others ih =>
      by_cases hp : isPredicateObjectMap t = true
      · cases found <;> simp [keepFirst, hp, ih]
      · simp [keepFirst, hp, ih]

theorem any_keepFirst (found : Bool) (ts : List Triple) :
    (found || (keepFirst found ts).any isPredicateObjectMap) =
      (found || ts.any isPredicateObjectMap) := by
  induction ts generalizing found with
  | nil => rfl
  | cons t others ih =>
      by_cases hp : isPredicateObjectMap t = true
      · cases found <;> simp [keepFirst, hp]
      · simpa [keepFirst, hp] using ih found

theorem count_keepFirst (found : Bool) (ts : List Triple)
    (ht : t.predicate ≠ R2rml.predicateObjectMap) : (keepFirst found ts).count t = ts.count t := by
  have hplain : isPredicateObjectMap t = false := beq_false_of_ne ht
  have hcount (us : List Triple) : (us.filter (!isPredicateObjectMap ·)).count t = us.count t :=
    List.count_filter (by rw [hplain]; rfl)
  rw [← hcount, filter_keepFirst_plain, hcount]

/-! ## The nodes that are reached -/

/-- Whether a property holds at a root and is passed on along the triples of a graph, unless their
objects are values or name no node. -/
def Closed (s : Graph) (root : String) (holds : String → Prop) : Prop :=
  holds root ∧ ∀ t ∈ s, holds t.subject → t.predicate ∉ valuePredicates →
    (isLabel t.object = true ∨ isWebIri t.object = true) → holds t.object

theorem isLink_iff : isLink t = true ↔
    t.predicate ∉ valuePredicates ∧ (isLabel t.object = true ∨ isWebIri t.object = true) := by
  simp [isLink, isNode, and_comm]

theorem Closed.of_append {more : Graph} {holds : String → Prop}
    (h : Closed (s ++ more) root holds) : Closed s root holds :=
  ⟨h.1, fun t ht => h.2 t (List.mem_append_left _ ht)⟩

/-- How far a traversal has come, in terms of the nodes that it has visited. -/
structure Listed (g : Graph) (root : String) (stack : List String) (w : Walk) : Prop where
  head : (w.visited ++ stack).head? = some root
  found : w.found = (g.triplesOf w.visited).any isPredicateObjectMap
  triples : w.triples = keepFirst false (g.triplesOf w.visited)
  least : ∀ holds, Closed w.triples root holds → ∀ x, x ∈ w.visited ∨ x ∈ stack → holds x

theorem Listed.skip (hv : w.visited.contains node = true) (h : Listed g root (node :: stack) w) :
    Listed g root stack w where
  head := by
    have hnode : node ∈ w.visited := by simpa using hv
    obtain ⟨x, others, hvisited⟩ := List.exists_cons_of_ne_nil (List.ne_nil_of_mem hnode)
    have hhead := h.head
    rw [hvisited] at hhead ⊢
    exact hhead
  found := h.found
  triples := h.triples
  least := fun holds hclosed x hx => h.least holds hclosed x (hx.imp id (List.mem_cons_of_mem _))

theorem Listed.visit (h : Listed g root (node :: stack) w) :
    Listed g root ((g.visit w node).2.reverse ++ stack) (g.visit w node).1 := by
  have hvisited : (g.visit w node).1.visited = w.visited ++ [node] := rfl
  have htriples : (g.visit w node).1.triples = w.triples ++ g.keptAt w node := rfl
  have hfound : (g.visit w node).1.found =
      (w.found || (g.keptAt w node).any isPredicateObjectMap) := rfl
  constructor
  · rw [hvisited, ← h.head]
    simp [List.head?_append]
  · rw [hfound, hvisited, triplesOf_concat, List.any_append, ← h.found, keptAt, any_keepFirst]
  · rw [htriples, hvisited, triplesOf_concat, keepFirst_append, ← h.triples, Bool.false_or, ← h.found,
      keptAt]
  · intro holds hclosed
    rw [htriples] at hclosed
    have hold := h.least holds hclosed.of_append
    have hnode : holds node := hold node (.inr List.mem_cons_self)
    rintro x (hx | hx)
    · rcases List.mem_append.mp hx with hx | hx
      · exact hold x (.inl hx)
      · exact List.mem_singleton.mp hx ▸ hnode
    · rcases List.mem_append.mp hx with hx | hx
      · obtain ⟨t, ht, hlink, rfl⟩ := mem_links (List.mem_reverse.mp hx)
        have hnext := isLink_iff.mp hlink
        have hs : holds t.subject := (mem_of_mem_keptAt ht).2 ▸ hnode
        exact hclosed.2 t (List.mem_append_right _ ht) hs hnext.1 hnext.2
      · exact hold x (.inr (List.mem_cons_of_mem _ hx))

theorem listed (g : Graph) (root : String) : Listed g root [] (g.walk root) := by
  apply walk_induct (motive := Listed g root)
  · intro node stack w hv h
    exact h.skip hv
  · intro node stack w _ h
    exact h.visit
  · refine ⟨rfl, rfl, rfl, ?_⟩
    rintro holds hclosed x (hx | hx)
    · exact absurd hx List.not_mem_nil
    · exact List.mem_singleton.mp hx ▸ hclosed.1

/-! ## The whole content -/

/-- What a sub-graph of a graph holds, given the nodes in the order of their visits. -/
structure Content (g : Graph) (root : String) (visited : List String) (s : Graph) : Prop where
  nodup : visited.Nodup
  head : visited.head? = some root
  closed : Closed s root (· ∈ visited)
  least : ∀ holds, Closed s root holds → ∀ x ∈ visited, holds x
  count : ∀ t : Triple, t.predicate ≠ R2rml.predicateObjectMap →
    s.count t = if t.subject ∈ visited then g.count t else 0
  subset : ∀ t ∈ s, t ∈ g
  links : s.countPredicate R2rml.predicateObjectMap =
    if ∃ t ∈ g, t.predicate = R2rml.predicateObjectMap ∧ t.subject ∈ visited then 1 else 0
  first : s.filter isPredicateObjectMap =
    ((g.triplesOf visited).filter isPredicateObjectMap).take 1
  ordered : s = visited.flatMap fun x => s.filter (·.subject == x)
  kept : ∀ x ∈ visited, (s.filter (·.subject == x)).Sublist (g.filter (·.subject == x))

/-- At most one link is left of any number, and one if there are any. -/
theorem countPredicate_keepFirst (g : Graph) (nodes : List String) :
    countPredicate (keepFirst false (g.triplesOf nodes)) R2rml.predicateObjectMap =
      if ∃ t ∈ g, t.predicate = R2rml.predicateObjectMap ∧ t.subject ∈ nodes then 1 else 0 := by
  have hlength : countPredicate (keepFirst false (g.triplesOf nodes)) R2rml.predicateObjectMap =
      (((g.triplesOf nodes).filter isPredicateObjectMap).take 1).length := by
    rw [countPredicate, List.countP_eq_length_filter, ← filter_keepFirst_false]
    rfl
  rw [hlength, List.length_take]
  split
  · next hlink =>
      obtain ⟨t, ht, hp, hs⟩ := hlink
      have hmem : t ∈ (g.triplesOf nodes).filter isPredicateObjectMap :=
        List.mem_filter.mpr ⟨mem_triplesOf.mpr ⟨ht, hs⟩, beq_iff_eq.mpr hp⟩
      have hpos := List.length_pos_of_mem hmem
      omega
  · next hnone =>
      have hnil : (g.triplesOf nodes).filter isPredicateObjectMap = [] := by
        rw [List.filter_eq_nil_iff]
        intro t ht hp
        obtain ⟨hmem, hs⟩ := mem_triplesOf.mp ht
        exact hnone ⟨t, hmem, beq_iff_eq.mp hp, hs⟩
      rw [hnil, List.length_nil, Nat.min_zero]

/-- A traversal ends after as many pops as the graph has triples and one more, at the latest. Its
sub-graph holds the triples of the nodes that it leads to from the root, visit after visit, and of
their links to predicate-object maps the first one only. -/
theorem reachable_content (g : Graph) (root : String) :
    (∃ pops ≤ g.length + 1, Pops g ([root], ⟨[], false, []⟩) pops ([], g.walk root)) ∧
      Content g root (g.walk root).visited (g.reachable root) := by
  have hlisted := listed g root
  have hwalked := walked g root
  have htriples : g.reachable root = keepFirst false (g.triplesOf (g.walk root).visited) :=
    hlisted.triples
  have hsublist : (g.reachable root).Sublist (g.triplesOf (g.walk root).visited) :=
    htriples ▸ keepFirst_sublist false _
  refine ⟨pops_walk g root, hwalked.nodup, ?_, ?_, ?_, ?_, ?_, ?_, ?_, ?_, ?_⟩
  · have hhead := hlisted.head
    rwa [List.append_nil] at hhead
  · refine ⟨mem_visited_root g root, fun t ht _ hp ho => ?_⟩
    exact (hwalked.closed t ht (isLink_iff.mpr ⟨hp, ho⟩)).resolve_right List.not_mem_nil
  · exact fun holds hclosed x hx => hlisted.least holds hclosed x (.inl hx)
  · intro t ht
    rw [htriples, count_keepFirst false _ ht, count_triplesOf hwalked.nodup]
  · exact fun t ht => mem_of_mem_reachable ht
  · rw [htriples, countPredicate_keepFirst]
  · rw [htriples, filter_keepFirst_false]
  · exact eq_flatMap_of_sublist hwalked.nodup hsublist
  · intro x hx
    have hfilter := hsublist.filter (·.subject == x)
    rwa [filter_triplesOf hwalked.nodup hx] at hfilter

end RmlAlgebra.Graph
