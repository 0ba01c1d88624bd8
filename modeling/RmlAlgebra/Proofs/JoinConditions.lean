import RmlAlgebra.Proofs.JoinForm

/-! # The conditions of a join

The columns of a join come from the join condition of the object map. A condition counts only if it is
the only one, and of its columns on either side only the first one counts. An object map with several
conditions is planned as if it had none, so that all of them are dropped.
-/

namespace RmlAlgebra.Graph

variable {g : Graph} {node : String} {columns : Option JoinColumns} {expressions : List Expression}

/-- The columns that are read at an object map: those of its join condition if there is just one, and
otherwise none. -/
inductive ColumnsAt (g : Graph) (node : String) : Option JoinColumns → Prop where
  | none (h : (g.objectsOf node R2rml.joinCondition).length ≠ 1) : ColumnsAt g node none
  | some {condition child parent : String} (h : g.objectsOf node R2rml.joinCondition = [condition])
      (hchild : g.firstObject? condition R2rml.child = some child)
      (hparent : g.firstObject? condition R2rml.parent = some parent) :
      ColumnsAt g node (some ⟨child, parent⟩)

theorem columnsAt_of_joinColumns (h : g.joinColumns node = .ok columns) : g.ColumnsAt node columns := by
  unfold joinColumns at h
  split at h
  · next hsingle =>
      cases h
      refine .none fun hone => ?_
      obtain ⟨condition, hcondition⟩ := List.length_eq_one_iff.mp hone
      rw [singleObject?_eq_some_iff.mpr hcondition] at hsingle
      cases hsingle
  · next condition hsingle =>
      obtain ⟨child, hchild, h⟩ := except_bind_eq_ok h
      obtain ⟨parent, hparent, h⟩ := except_bind_eq_ok h
      cases h
      exact .some (singleObject?_eq_some_iff.mp hsingle) (required_eq_ok hchild)
        (required_eq_ok hparent)

/-- A join of the child with the parent that equates a column of the child's source with one of the
parent's source. -/
def JoinsOn (g : Graph) (pom childColumn parentColumn : String) (r : Relation) : Prop :=
  ∃ child parent, r = .join child parent (some ⟨childColumn, parentColumn⟩) ∧
    g.parentSource? pom = some parent.source ∧ childSource? g.sources parent.source = some child.source

/-- Every join condition of an object map is a condition of all expressions, whichever of its columns
are taken, and a join without a condition is there only if the object map has none. -/
structure KeepsConditions (g : Graph) (pom node : String) (expressions : List Expression) : Prop where
  kept : ∀ condition ∈ g.objectsOf node R2rml.joinCondition,
    ∀ child ∈ g.objectsOf condition R2rml.child, ∀ parent ∈ g.objectsOf condition R2rml.parent,
      ∀ e ∈ expressions, g.JoinsOn pom child parent e.relation
  natural : ∀ e ∈ expressions, ∀ child parent, e.relation = .join child parent none →
    g.objectsOf node R2rml.joinCondition = []

/-- A condition with one column on either side. A column may be repeated. -/
def OnePair (g : Graph) (condition : String) : Prop :=
  ∀ side ∈ [R2rml.child, R2rml.parent],
    ∀ a ∈ g.objectsOf condition side, ∀ b ∈ g.objectsOf condition side, a = b

instance (g : Graph) (condition : String) : Decidable (g.OnePair condition) :=
  inferInstanceAs (Decidable (∀ side ∈ _, ∀ a ∈ _, ∀ b ∈ _, a = b))

namespace JoinRule

variable (rule : g.JoinRule)

theorem relation_of_mem_planned {e : Expression} (he : e ∈ rule.planned) :
    e.relation = rule.relation := by
  obtain ⟨graph, -, rfl⟩ := exists_graph_of_mem_perGraph he
  rfl

theorem joinsOn_relation {childColumn parentColumn : String}
    (h : rule.referencing.columns = some ⟨childColumn, parentColumn⟩) :
    g.JoinsOn rule.pom childColumn parentColumn rule.relation :=
  ⟨_, _, by rw [relation, h], parentSource?_of_referencing rule.referencing_eq, rule.source_eq⟩

theorem columns_of_joinsOn {childColumn parentColumn : String}
    (h : g.JoinsOn rule.pom childColumn parentColumn rule.relation) :
    rule.referencing.columns = some ⟨childColumn, parentColumn⟩ := by
  obtain ⟨child, parent, heq, -⟩ := h
  exact (Relation.join.inj heq).2.2

theorem keepsConditions_iff_eq_nil (h : rule.referencing.columns = none) :
    g.KeepsConditions rule.pom node rule.planned ↔ g.objectsOf node R2rml.joinCondition = [] := by
  constructor
  · intro hkeeps
    obtain ⟨e, he⟩ := List.exists_mem_of_ne_nil _ (perGraph_ne_nil _ _ : rule.planned ≠ [])
    exact hkeeps.natural e he _ _ (by rw [rule.relation_of_mem_planned he, relation, h])
  · intro hnil
    refine ⟨fun condition hcondition => ?_, fun _ _ _ _ _ => hnil⟩
    rw [hnil] at hcondition
    cases hcondition

theorem keepsConditions_iff_onePair {condition child parent : String}
    (h : rule.referencing.columns = some ⟨child, parent⟩)
    (hone : g.objectsOf node R2rml.joinCondition = [condition])
    (hchild : child ∈ g.objectsOf condition R2rml.child)
    (hparent : parent ∈ g.objectsOf condition R2rml.parent) :
    g.KeepsConditions rule.pom node rule.planned ↔ g.OnePair condition := by
  constructor
  · intro hkeeps
    obtain ⟨e, he⟩ := List.exists_mem_of_ne_nil _ (perGraph_ne_nil _ _ : rule.planned ≠ [])
    have hpair : ∀ a ∈ g.objectsOf condition R2rml.child,
        ∀ b ∈ g.objectsOf condition R2rml.parent, a = child ∧ b = parent := by
      intro a ha b hb
      have hjoins := hkeeps.kept condition (hone ▸ List.mem_singleton_self _) a ha b hb e he
      rw [rule.relation_of_mem_planned he] at hjoins
      cases h.symm.trans (rule.columns_of_joinsOn hjoins)
      exact ⟨rfl, rfl⟩
    intro side hside
    rw [List.mem_cons, List.mem_singleton] at hside
    rcases hside with rfl | rfl
    · exact fun a ha b hb => (hpair a ha _ hparent).1.trans (hpair b hb _ hparent).1.symm
    · exact fun a ha b hb => (hpair _ hchild a ha).2.trans (hpair _ hchild b hb).2.symm
  · intro hpair
    refine ⟨fun other hother a ha b hb e he => ?_, fun e he first second hnatural => ?_⟩
    · obtain rfl := List.mem_singleton.mp (hone ▸ hother)
      rw [rule.relation_of_mem_planned he]
      apply rule.joinsOn_relation
      rw [h, hpair R2rml.child (by simp) a ha _ hchild, hpair R2rml.parent (by simp) b hb _ hparent]
    · rw [rule.relation_of_mem_planned he, relation, h] at hnatural
      cases (Relation.join.inj hnatural).2.2

/-- The conditions are kept if and only if there is at most one and it has one pair of columns. -/
theorem keepsConditions_iff (h : g.ColumnsAt node rule.referencing.columns) :
    g.KeepsConditions rule.pom node rule.planned ↔
      (g.objectsOf node R2rml.joinCondition).length ≤ 1 ∧
        ∀ condition ∈ g.objectsOf node R2rml.joinCondition, g.OnePair condition := by
  generalize hcolumns : rule.referencing.columns = columns at h
  cases h with
  | none hlength =>
      rw [rule.keepsConditions_iff_eq_nil hcolumns]
      constructor
      · intro hnil
        simp [hnil]
      · rintro ⟨hle, -⟩
        exact List.eq_nil_of_length_eq_zero (by omega)
  | some hone hchild hparent =>
      rw [rule.keepsConditions_iff_onePair hcolumns hone (List.mem_of_head? hchild)
        (List.mem_of_head? hparent), hone]
      simp

end JoinRule

/-- A plan with two subject maps keeps the join conditions of the root's object map if and only if there
is at most one and it has one pair of columns. If there are several, it drops them all. -/
theorem keeps_conditions_iff (htwo : g.countPredicate R2rml.subjectMap = 2)
    (h : g.plan = .ok expressions) :
    ∃ root pom node, g.root = .ok root ∧
      g.firstObject? root R2rml.predicateObjectMap = some pom ∧
      g.firstObject? pom R2rml.objectMap = some node ∧ expressions ≠ [] ∧
      (g.KeepsConditions pom node expressions ↔
        (g.objectsOf node R2rml.joinCondition).length ≤ 1 ∧
          ∀ condition ∈ g.objectsOf node R2rml.joinCondition, g.OnePair condition) ∧
      (1 < (g.objectsOf node R2rml.joinCondition).length →
        ∀ e ∈ expressions, ∃ child parent, e.relation = .join child parent none) := by
  rw [plan, if_pos htwo] at h
  obtain ⟨rule, rfl⟩ := exists_joinRule h
  obtain ⟨node, -, -, -, hnode, hcolumns, -⟩ := exists_nodes_of_referencing rule.referencing_eq
  have hcolumns := columnsAt_of_joinColumns hcolumns
  refine ⟨rule.root, rule.pom, node, rule.root_eq, rule.pom_eq, hnode, perGraph_ne_nil _ _,
    rule.keepsConditions_iff hcolumns, fun hseveral e he => ?_⟩
  rw [rule.relation_of_mem_planned he, JoinRule.relation]
  generalize rule.referencing.columns = columns at hcolumns
  cases hcolumns with
  | none => exact ⟨_, _, rfl⟩
  | some hone =>
      rw [hone, List.length_singleton] at hseveral
      omega

/-- Two triples maps that are joined under the given conditions, each a node with its columns. -/
def matchedOn (conditions : List (String × String × String)) : Graph :=
  [⟨"http://e/A", Rml.logicalSource, "b1"⟩, ⟨"b1", Rml.source, "f"⟩,
    ⟨"http://e/A", R2rml.subjectMap, "b2"⟩, ⟨"b2", R2rml.template, "http://e/{i}"⟩,
    ⟨"http://e/A", R2rml.predicateObjectMap, "b3"⟩, ⟨"b3", R2rml.predicateMap, "b4"⟩,
    ⟨"b4", R2rml.constant, "http://e/p"⟩, ⟨"b3", R2rml.objectMap, "b5"⟩,
    ⟨"b5", R2rml.parentTriplesMap, "http://e/B"⟩, ⟨"http://e/B", Rml.logicalSource, "b6"⟩,
    ⟨"b6", Rml.source, "h"⟩, ⟨"http://e/B", R2rml.subjectMap, "b7"⟩,
    ⟨"b7", R2rml.template, "http://e/{j}"⟩] ++
  conditions.flatMap fun x =>
    [⟨"b5", R2rml.joinCondition, x.1⟩, ⟨x.1, R2rml.child, x.2.1⟩, ⟨x.1, R2rml.parent, x.2.2⟩]

set_option maxRecDepth 100000 in
theorem keeps_conditions_one :
    (matchedOn [("b8", "k", "l")]).countPredicate R2rml.subjectMap = 2 ∧
      ∃ expressions, (matchedOn [("b8", "k", "l")]).plan = .ok expressions ∧ expressions ≠ [] ∧
        ∀ e ∈ expressions, (matchedOn [("b8", "k", "l")]).JoinsOn "b3" "k" "l" e.relation := by
  have htwo : (matchedOn [("b8", "k", "l")]).countPredicate R2rml.subjectMap = 2 := by
    decide +kernel
  have hplan : (matchedOn [("b8", "k", "l")]).plan.toOption.isSome = true := by decide +kernel
  have hroot : (matchedOn [("b8", "k", "l")]).root.toOption = some "http://e/A" := by
    decide +kernel
  obtain ⟨expressions, hplan⟩ := exists_eq_ok_of_isSome hplan
  obtain ⟨root, pom, node, hfound, hpom, hnode, hne, hkeeps, -⟩ := keeps_conditions_iff htwo hplan
  obtain rfl : root = "http://e/A" :=
    Except.ok.inj (hfound.symm.trans (toOption_eq_some_iff.mp hroot))
  obtain rfl : pom = "b3" := Option.some.inj (hpom.symm.trans (by decide +kernel))
  obtain rfl : node = "b5" := Option.some.inj (hnode.symm.trans (by decide +kernel))
  have hkept := (hkeeps.mpr (by decide +kernel)).kept "b8" (by decide +kernel) "k"
    (by decide +kernel) "l" (by decide +kernel)
  exact ⟨htwo, expressions, hplan, hne, hkept⟩

set_option maxRecDepth 100000 in
/-- Two conditions, on two pairs of columns, are both dropped. -/
theorem second_condition_drops_both :
    ¬∀ (g : Graph) (expressions : List Expression) (root pom node : String),
        g.countPredicate R2rml.subjectMap = 2 → g.plan = .ok expressions → g.root = .ok root →
        g.firstObject? root R2rml.predicateObjectMap = some pom →
        g.firstObject? pom R2rml.objectMap = some node →
        g.KeepsConditions pom node expressions := by
  intro hall
  have hplan : (matchedOn [("b8", "k", "l"), ("b9", "m", "n")]).plan.toOption =
      some [⟨⟨"http://e/{i}", some .template, .iri⟩, ⟨"http://e/p", some .constant, .iri⟩,
        ⟨⟨"http://e/{j}", some .template, .iri⟩, none, none⟩, none,
        .join ⟨["i"], "f"⟩ ⟨["j"], "h"⟩ none⟩] := by
    decide +kernel
  have hkeeps := hall _ _ "http://e/A" "b3" "b5" (by decide +kernel)
    (toOption_eq_some_iff.mp hplan) (toOption_eq_some_iff.mp (by decide +kernel))
    (by decide +kernel) (by decide +kernel)
  obtain ⟨child, parent, heq, -⟩ := hkeeps.kept "b8" (by decide +kernel) "k" (by decide +kernel) "l"
    (by decide +kernel) _ (List.mem_singleton_self _)
  cases heq

end RmlAlgebra.Graph
