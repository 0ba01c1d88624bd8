import RmlAlgebra.Normal.SubGraph

/-! # What a traversal finds

The number of triples bounds the number of nodes that are ever put on the stack, so a traversal ends
with an empty one. An invariant of the single visits therefore holds at the end without any stack:
the links of all kept triples have been followed, every node apart from the root was reached by such
a link, and a visited node has kept its triples, those to predicate-object maps apart. Of these there
is one at most, and a root that has any keeps its first.
-/

namespace RmlAlgebra.Graph

/-! ## The packaged induction -/

/-- How many triples still wait for their subject to be visited. -/
def waiting (g : Graph) (w : Walk) : Nat :=
  g.countP fun t => !w.visited.contains t.subject

theorem waiting_le_length (g : Graph) (w : Walk) : waiting g w ≤ g.length :=
  List.countP_le_length

theorem keepFirst_sublist (found : Bool) (ts : List Triple) : (keepFirst found ts).Sublist ts := by
  induction ts generalizing found with
  | nil => exact .slnil
  | cons t others ih =>
      rw [keepFirst]
      split
      · split
        · exact (ih true).cons t
        · exact (ih true).cons_cons t
      · exact (ih found).cons_cons t

theorem length_keepFirst_le (found : Bool) (ts : List Triple) :
    (keepFirst found ts).length ≤ ts.length :=
  (keepFirst_sublist found ts).length_le

theorem waiting_visit {g : Graph} {w : Walk} {node : String}
    (h : w.visited.contains node = false) :
    g.countP (·.subject == node) + waiting g (g.visit w node).1 = waiting g w := by
  have hvisited : (g.visit w node).1.visited = w.visited ++ [node] := rfl
  unfold waiting
  rw [hvisited]
  clear hvisited
  induction g with
  | nil => rfl
  | cons t others ih =>
      simp only [List.countP_cons]
      by_cases hs : t.subject = node
      · have hlast : (w.visited ++ [node]).contains t.subject = true := by simp [hs]
        have hnew : w.visited.contains t.subject = false := by rw [hs, h]
        rw [hlast, hnew]
        simp [hs] at ih ⊢
        omega
      · have hsame : (w.visited ++ [node]).contains t.subject = w.visited.contains t.subject := by
          simp [hs]
        rw [hsame]
        simp [hs] at ih ⊢
        omega

theorem length_links_le (g : Graph) (w : Walk) (node : String) :
    (g.visit w node).2.length ≤ g.countP (·.subject == node) := by
  have hkept : (keepFirst w.found (g.filter (·.subject == node))).length ≤
      (g.filter (·.subject == node)).length := length_keepFirst_le _ _
  rw [List.countP_eq_length_filter]
  simp only [visit, List.length_map]
  exact Nat.le_trans (List.length_filter_le _ _) hkept

/-- What holds at the start and is kept by every visit holds at the end, when the stack is empty. -/
theorem walkFrom_induct {g : Graph} {motive : List String → Walk → Prop}
    (skip : ∀ node stack w, w.visited.contains node = true → motive (node :: stack) w →
      motive stack w)
    (visit : ∀ node stack w, w.visited.contains node = false → motive (node :: stack) w →
      motive ((g.visit w node).2.reverse ++ stack) (g.visit w node).1)
    (fuel : Nat) (stack : List String) (w : Walk) (hfuel : stack.length + waiting g w ≤ fuel)
    (h : motive stack w) : motive [] (g.walkFrom fuel stack w) := by
  induction fuel generalizing stack w with
  | zero =>
      have hstack : stack = [] := List.length_eq_zero_iff.mp (by omega)
      subst hstack
      exact h
  | succ fuel ih =>
      cases stack with
      | nil => exact h
      | cons node stack =>
          rw [walkFrom]
          simp only [List.length_cons] at hfuel
          by_cases hv : w.visited.contains node = true
          · rw [if_pos hv]
            exact ih stack w (by omega) (skip node stack w hv h)
          · rw [if_neg hv]
            have hv : w.visited.contains node = false := by simpa using hv
            have hlinks := g.length_links_le w node
            have hwait := waiting_visit (g := g) hv
            refine ih ((g.visit w node).2.reverse ++ stack) (g.visit w node).1 ?_
              (visit node stack w hv h)
            simp only [List.length_append, List.length_reverse]
            omega

theorem walk_induct {g : Graph} {root : String} {motive : List String → Walk → Prop}
    (skip : ∀ node stack w, w.visited.contains node = true → motive (node :: stack) w →
      motive stack w)
    (visit : ∀ node stack w, w.visited.contains node = false → motive (node :: stack) w →
      motive ((g.visit w node).2.reverse ++ stack) (g.visit w node).1)
    (h : motive [root] ⟨[], false, []⟩) : motive [] (g.walk root) := by
  apply walkFrom_induct skip visit _ _ _ _ h
  have hle := g.waiting_le_length ⟨[], false, []⟩
  simp only [List.length_singleton]
  omega

/-! ## Kept triples -/

theorem filter_keepFirst_plain (found : Bool) (ts : List Triple) :
    (keepFirst found ts).filter (!isPredicateObjectMap ·) =
      ts.filter (!isPredicateObjectMap ·) := by
  induction ts generalizing found with
  | nil => rfl
  | cons t others ih =>
      rw [keepFirst]
      by_cases hp : isPredicateObjectMap t = true
      · cases found <;> simp [hp, ih]
      · simp [hp, ih]

theorem filter_keepFirst_true (ts : List Triple) :
    (keepFirst true ts).filter isPredicateObjectMap = [] := by
  induction ts with
  | nil => rfl
  | cons t others ih =>
      rw [keepFirst]
      by_cases hp : isPredicateObjectMap t = true
      · simp [hp, ih]
      · simp [hp, ih]

theorem filter_keepFirst_false (ts : List Triple) :
    (keepFirst false ts).filter isPredicateObjectMap =
      (ts.filter isPredicateObjectMap).take 1 := by
  induction ts with
  | nil => rfl
  | cons t others ih =>
      rw [keepFirst]
      by_cases hp : isPredicateObjectMap t = true
      · simp [hp, filter_keepFirst_true]
      · simp [hp, ih]

theorem mem_of_mem_keepFirst {found : Bool} {ts : List Triple} {t : Triple}
    (h : t ∈ keepFirst found ts) : t ∈ ts :=
  (keepFirst_sublist found ts).subset h

/-- The triples that a visit keeps. -/
def keptAt (g : Graph) (w : Walk) (node : String) : List Triple :=
  keepFirst w.found (g.filter (·.subject == node))

theorem mem_of_mem_keptAt {g : Graph} {w : Walk} {node : String} {t : Triple}
    (h : t ∈ g.keptAt w node) : t ∈ g ∧ t.subject = node := by
  simpa using List.mem_filter.mp (mem_of_mem_keepFirst h)

theorem mem_links {g : Graph} {w : Walk} {node x : String} (h : x ∈ (g.visit w node).2) :
    ∃ t ∈ g.keptAt w node, isLink t = true ∧ t.object = x := by
  simp only [visit, List.mem_map, List.mem_filter, Bool.and_eq_true] at h
  obtain ⟨t, ⟨ht, hlink, -⟩, rfl⟩ := h
  exact ⟨t, ht, hlink, rfl⟩

/-! ## The invariant -/

/-- How far a traversal from a root has come, with the nodes on its stack. -/
structure Walked (g : Graph) (root : String) (stack : List String) (w : Walk) : Prop where
  nodup : w.visited.Nodup
  start : root ∈ w.visited ∨ root ∈ stack
  mem : ∀ t ∈ w.triples, t ∈ g ∧ t.subject ∈ w.visited
  plain : ∀ x ∈ w.visited,
    (w.triples.filter (·.subject == x)).filter (!isPredicateObjectMap ·) =
      (g.filter (·.subject == x)).filter (!isPredicateObjectMap ·)
  single : (w.triples.filter isPredicateObjectMap).length = if w.found then 1 else 0
  closed : ∀ t ∈ w.triples, isLink t = true → t.object ∈ w.visited ∨ t.object ∈ stack
  reached : ∀ x, x ∈ w.visited ∨ x ∈ stack →
    x = root ∨ ∃ t ∈ w.triples, isLink t = true ∧ t.object = x

variable {g : Graph} {root node : String} {stack : List String} {w : Walk}

theorem Walked.skip (hv : w.visited.contains node = true) (h : Walked g root (node :: stack) w) :
    Walked g root stack w where
  nodup := h.nodup
  start := by
    have hnode : node ∈ w.visited := by simpa using hv
    rcases h.start with hs | hs
    · exact .inl hs
    · rcases List.mem_cons.mp hs with rfl | hs
      · exact .inl hnode
      · exact .inr hs
  mem := h.mem
  plain := h.plain
  single := h.single
  closed := by
    intro t ht hlink
    have hnode : node ∈ w.visited := by simpa using hv
    rcases h.closed t ht hlink with hc | hc
    · exact .inl hc
    · rcases List.mem_cons.mp hc with hc | hc
      · exact .inl (hc ▸ hnode)
      · exact .inr hc
  reached := fun x hx => h.reached x (hx.imp id (List.mem_cons_of_mem _))

theorem Walked.plain_visit (hv : w.visited.contains node = false)
    (h : Walked g root (node :: stack) w) : ∀ x ∈ w.visited ++ [node],
    ((w.triples ++ g.keptAt w node).filter (·.subject == x)).filter (!isPredicateObjectMap ·) =
      (g.filter (·.subject == x)).filter (!isPredicateObjectMap ·) := by
  have hnode : node ∉ w.visited := by simpa using hv
  intro x hx
  rw [List.filter_append]
  by_cases hxn : x = node
  · -- A new node has no triples yet, and its own are all kept or lead to maps.
    subst hxn
    have hold : w.triples.filter (·.subject == x) = [] := by
      apply List.filter_eq_nil_iff.mpr
      intro t ht hs
      have hs : t.subject = x := by simpa using hs
      exact hnode (hs ▸ (h.mem t ht).2)
    have hnew : (g.keptAt w x).filter (·.subject == x) = g.keptAt w x := by
      apply List.filter_eq_self.mpr
      intro t ht
      simpa using (mem_of_mem_keptAt ht).2
    rw [hold, hnew, List.nil_append, keptAt, filter_keepFirst_plain]
  · have hnew : (g.keptAt w node).filter (·.subject == x) = [] := by
      apply List.filter_eq_nil_iff.mpr
      intro t ht hs
      have hs : t.subject = x := by simpa using hs
      exact hxn (hs ▸ (mem_of_mem_keptAt ht).2)
    have hxv : x ∈ w.visited := by
      rcases List.mem_append.mp hx with hx | hx
      · exact hx
      · exact absurd (List.mem_singleton.mp hx) hxn
    rw [hnew, List.append_nil, h.plain x hxv]

theorem length_filter_of_le_one {p : Triple → Bool} {ts : List Triple}
    (h : (ts.filter p).length ≤ 1) : (ts.filter p).length = if ts.any p then 1 else 0 := by
  by_cases hany : ts.any p = true
  · obtain ⟨t, ht, hp⟩ := List.any_eq_true.mp hany
    have hpos : 0 < (ts.filter p).length :=
      List.length_pos_of_mem (List.mem_filter.mpr ⟨ht, hp⟩)
    rw [if_pos hany]
    omega
  · have hnone : ts.filter p = [] := by
      apply List.filter_eq_nil_iff.mpr
      intro t ht hp
      exact hany (List.any_eq_true.mpr ⟨t, ht, hp⟩)
    simp [hany, hnone]

theorem Walked.single_visit (h : Walked g root (node :: stack) w) :
    ((w.triples ++ g.keptAt w node).filter isPredicateObjectMap).length =
      if (w.found || (g.keptAt w node).any isPredicateObjectMap) then 1 else 0 := by
  rw [List.filter_append, List.length_append, h.single]
  cases hf : w.found with
  | true => simp [keptAt, hf, filter_keepFirst_true]
  | false =>
      have hle : ((g.keptAt w node).filter isPredicateObjectMap).length ≤ 1 := by
        rw [keptAt, hf, filter_keepFirst_false, List.length_take]
        omega
      simp [length_filter_of_le_one hle]

theorem Walked.visit (hv : w.visited.contains node = false)
    (h : Walked g root (node :: stack) w) :
    Walked g root ((g.visit w node).2.reverse ++ stack) (g.visit w node).1 where
  nodup := by
    have hnode : node ∉ w.visited := by simpa using hv
    have hnodup := h.nodup
    simp only [Graph.visit, List.nodup_append, List.nodup_cons, List.not_mem_nil]
    simp only [not_false_eq_true, List.nodup_nil, and_self, List.mem_singleton, true_and]
    refine ⟨hnodup, ?_⟩
    rintro x hx y rfl rfl
    exact hnode hx
  start := by
    rcases h.start with hs | hs
    · exact .inl (List.mem_append_left _ hs)
    · rcases List.mem_cons.mp hs with rfl | hs
      · exact .inl (List.mem_append_right _ (List.mem_singleton_self _))
      · exact .inr (List.mem_append_right _ hs)
  mem := by
    intro t ht
    rcases List.mem_append.mp ht with ht | ht
    · exact ⟨(h.mem t ht).1, List.mem_append_left _ (h.mem t ht).2⟩
    · obtain ⟨hmem, hs⟩ := mem_of_mem_keptAt (w := w) ht
      exact ⟨hmem, List.mem_append_right _ (List.mem_singleton.mpr hs)⟩
  plain := h.plain_visit hv
  single := h.single_visit
  closed := by
    intro t ht hlink
    rcases List.mem_append.mp ht with ht | ht
    · rcases h.closed t ht hlink with hc | hc
      · exact .inl (List.mem_append_left _ hc)
      · rcases List.mem_cons.mp hc with hc | hc
        · exact .inl (List.mem_append_right _ (List.mem_singleton.mpr hc))
        · exact .inr (List.mem_append_right _ hc)
    · by_cases hseen : t.object ∈ w.visited ++ [node]
      · exact .inl hseen
      · apply Or.inr
        apply List.mem_append_left
        rw [List.mem_reverse]
        refine List.mem_map.mpr ⟨t, List.mem_filter.mpr ⟨ht, ?_⟩, rfl⟩
        have hnot : (w.visited ++ [node]).contains t.object = false := by
          simpa using hseen
        rw [hlink, hnot]
        rfl
  reached := by
    have hold (x : String) (hx : x ∈ w.visited ∨ x ∈ node :: stack) :
        x = root ∨ ∃ t ∈ (g.visit w node).1.triples, isLink t = true ∧ t.object = x := by
      rcases h.reached x hx with rfl | ⟨t, ht, hlink, ho⟩
      · exact .inl rfl
      · exact .inr ⟨t, List.mem_append_left _ ht, hlink, ho⟩
    rintro x (hx | hx)
    · rcases List.mem_append.mp hx with hx | hx
      · exact hold x (.inl hx)
      · exact hold x (.inr (List.mem_singleton.mp hx ▸ List.mem_cons_self))
    · rcases List.mem_append.mp hx with hx | hx
      · obtain ⟨t, ht, hlink, ho⟩ := mem_links (List.mem_reverse.mp hx)
        exact .inr ⟨t, List.mem_append_right _ ht, hlink, ho⟩
      · exact hold x (.inr (List.mem_cons_of_mem _ hx))

theorem walked_start (g : Graph) (root : String) : Walked g root [root] ⟨[], false, []⟩ := by
  constructor
  · exact List.nodup_nil
  · exact .inr (List.mem_singleton_self _)
  · simp
  · simp
  · simp
  · simp
  · simp

/-- The invariant of a whole traversal. -/
theorem walked (g : Graph) (root : String) : Walked g root [] (g.walk root) := by
  apply walk_induct (motive := Walked g root)
  · intro node stack w hv h
    exact h.skip hv
  · intro node stack w hv h
    exact h.visit hv
  · exact walked_start g root

theorem mem_visited_root (g : Graph) (root : String) : root ∈ (g.walk root).visited :=
  (walked g root).start.resolve_right List.not_mem_nil

theorem mem_of_mem_reachable {t : Triple} (h : t ∈ g.reachable root) : t ∈ g :=
  ((walked g root).mem t h).1

/-- What is still to be kept are triples of nodes that are still to be visited. -/
theorem walkFrom_triples (g : Graph) (fuel : Nat) (stack : List String) (w : Walk) :
    ∃ rest, (g.walkFrom fuel stack w).triples = w.triples ++ rest ∧
      ∀ t ∈ rest, t.subject ∉ w.visited := by
  induction fuel generalizing stack w with
  | zero => exact ⟨[], by simp [walkFrom], by simp⟩
  | succ fuel ih =>
      cases stack with
      | nil => exact ⟨[], by simp [walkFrom], by simp⟩
      | cons node stack =>
          rw [walkFrom]
          split
          · exact ih stack w
          · next hv =>
              have hnode : node ∉ w.visited := by simpa using hv
              obtain ⟨rest, heq, hrest⟩ :=
                ih ((g.visit w node).2.reverse ++ stack) (g.visit w node).1
              refine ⟨g.keptAt w node ++ rest, ?_, ?_⟩
              · rw [heq, ← List.append_assoc]
                rfl
              · intro t ht
                rcases List.mem_append.mp ht with ht | ht
                · rw [(mem_of_mem_keptAt ht).2]
                  exact hnode
                · exact fun hmem => hrest t ht (List.mem_append_left _ hmem)

/-- A sub-graph starts with what its root keeps. -/
theorem prefix_reachable (g : Graph) (root : String) :
    keepFirst false (g.filter (·.subject == root)) <+: g.reachable root := by
  obtain ⟨rest, heq, -⟩ := g.walkFrom_triples g.length
    ((g.visit ⟨[], false, []⟩ root).2.reverse ++ []) (g.visit ⟨[], false, []⟩ root).1
  exact ⟨rest, heq.symm⟩

/-- A root keeps the first of its links to predicate-object maps. -/
theorem objectsOf_reachable_root (g : Graph) (root : String) :
    (g.reachable root).objectsOf root R2rml.predicateObjectMap =
      (g.objectsOf root R2rml.predicateObjectMap).take 1 := by
  have hsplit (h : Graph) : h.objectsOf root R2rml.predicateObjectMap =
      ((h.filter (·.subject == root)).filter isPredicateObjectMap).map Triple.object := by
    rw [objectsOf, List.filter_filter]
    congr 1
    apply List.filter_congr
    intro t _
    exact Bool.and_comm _ _
  obtain ⟨rest, heq, hrest⟩ := g.walkFrom_triples g.length
    ((g.visit ⟨[], false, []⟩ root).2.reverse ++ []) (g.visit ⟨[], false, []⟩ root).1
  have hkept : (keepFirst false (g.filter (·.subject == root))).filter (·.subject == root) =
      keepFirst false (g.filter (·.subject == root)) := by
    rw [List.filter_eq_self]
    exact fun t ht => (List.mem_filter.mp (mem_of_mem_keepFirst ht)).2
  have hothers : rest.filter (·.subject == root) = [] := by
    rw [List.filter_eq_nil_iff]
    intro t ht hs
    exact hrest t ht (List.mem_singleton.mpr (beq_iff_eq.mp hs))
  have hreachable : (g.reachable root).filter (·.subject == root) =
      keepFirst false (g.filter (·.subject == root)) := by
    rw [show g.reachable root = keepFirst false (g.filter (·.subject == root)) ++ rest from heq,
      List.filter_append, hkept, hothers, List.append_nil]
  rw [hsplit, hsplit, hreachable, filter_keepFirst_false, List.map_take]

/-- The first triple of a declared triples map's sub-graph is one of its own. -/
theorem head_reachable (h : root ∈ g.triplesMaps) :
    ∃ t others, g.reachable root = t :: others ∧ t.subject = root := by
  obtain ⟨rest, heq⟩ := g.prefix_reachable root
  have hkept : keepFirst false (g.filter (·.subject == root)) ≠ [] := by
    intro hnil
    have hplain := filter_keepFirst_plain false (g.filter (·.subject == root))
    rw [hnil, List.filter_nil, eq_comm, List.filter_eq_nil_iff] at hplain
    have hdeclared : ⟨root, Rdf.type, R2rml.triplesMap⟩ ∈ g.filter (·.subject == root) :=
      List.mem_filter.mpr ⟨mem_subjectsWith.mp h, beq_self_eq_true root⟩
    have htype : (Rdf.type == R2rml.predicateObjectMap) = false := by decide
    exact hplain _ hdeclared (by rw [isPredicateObjectMap, htype]; rfl)
  cases hcons : keepFirst false (g.filter (·.subject == root)) with
  | nil => exact absurd hcons hkept
  | cons t others =>
      rw [hcons] at heq
      refine ⟨t, others ++ rest, by simpa using heq.symm, ?_⟩
      have ht : t ∈ keepFirst false (g.filter (·.subject == root)) := by
        rw [hcons]
        exact List.mem_cons_self
      simpa using (List.mem_filter.mp (mem_of_mem_keepFirst ht)).2

theorem ne_nil_of_isComplete (h : g.isComplete = true) : g ≠ [] := by
  rintro rfl
  exact absurd h (by decide)

end RmlAlgebra.Graph
