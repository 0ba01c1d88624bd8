import RmlAlgebra.Proofs.JoinForm

/-! # The root that is planned

Planning starts at the first node that has a subject map and one predicate-object map. A sub-graph
keeps a single link to a predicate-object map, and if the node that the traversal started from has any
links, that is its first one. So planning finds this node again, whatever other triples maps the
sub-graph holds, and it fails if the node has no subject map.
-/

namespace RmlAlgebra.Graph

variable {g : Graph} {root node pom x : String} {expressions : List Expression}

/-! ## Finding the root -/

theorem mem_subjects {p : String} : x ∈ g.subjects p none ↔ ∃ o, ⟨x, p, o⟩ ∈ g := by
  simp only [subjects, List.mem_map, List.mem_filter, Bool.and_eq_true, beq_iff_eq, Option.all_none,
    and_true]
  constructor
  · rintro ⟨⟨s, p, o⟩, ⟨ht, rfl⟩, rfl⟩
    exact ⟨o, ht⟩
  · rintro ⟨o, ht⟩
    exact ⟨_, ⟨ht, rfl⟩, rfl⟩

/-- A node with a subject map is the root if it is the only one with a single link. -/
theorem root_eq_ok (hsubject : ∃ x, ⟨root, R2rml.subjectMap, x⟩ ∈ g)
    (h : ∀ x, (g.objectsOf x R2rml.predicateObjectMap).length = 1 ↔ x = root) :
    g.root = .ok root := by
  have hmem : root ∈ g.subjects R2rml.subjectMap none := mem_subjects.mpr hsubject
  have hfind : (g.subjects R2rml.subjectMap none).find?
      (fun o => (g.objectsOf o R2rml.predicateObjectMap).length == 1) = some root := by
    have hsome : ((g.subjects R2rml.subjectMap none).find?
        fun o => (g.objectsOf o R2rml.predicateObjectMap).length == 1).isSome = true :=
      List.find?_isSome.mpr ⟨root, hmem, beq_iff_eq.mpr ((h root).mpr rfl)⟩
    obtain ⟨owner, howner⟩ := Option.isSome_iff_exists.mp hsome
    have hlink := List.find?_some howner
    rw [howner, (h owner).mp (beq_iff_eq.mp hlink)]
  unfold Graph.root
  split
  · next hnil =>
      rw [hnil] at hmem
      exact absurd hmem List.not_mem_nil
  · rw [hfind]

/-- Without a subject map of its own the only node with a single link is no root, and neither is any
other node. -/
theorem root_eq_error (hsubject : ∀ x, ⟨root, R2rml.subjectMap, x⟩ ∉ g)
    (h : ∀ x, (g.objectsOf x R2rml.predicateObjectMap).length = 1 ↔ x = root) :
    g.root = .error (if g.subjects R2rml.subjectMap none = [] then .noSubjectMap else .noRoot) := by
  have hfind : (g.subjects R2rml.subjectMap none).find?
      (fun o => (g.objectsOf o R2rml.predicateObjectMap).length == 1) = none := by
    rw [List.find?_eq_none]
    intro owner howner hlink
    rw [(h owner).mp (beq_iff_eq.mp hlink)] at howner
    obtain ⟨x, hx⟩ := mem_subjects.mp howner
    exact hsubject x hx
  unfold Graph.root
  split
  · next hnil => rw [if_pos hnil]
  · next hne => rw [hfind, if_neg hne]

/-! ## What an expression is made from -/

/-- An expression that is made from the subject map at a node and from a predicate-object map, over a
single source or over a join. Its graph is one of those that the two maps name, if they name any. -/
inductive MadeFrom (g : Graph) (node pom : String) : Expression → Prop where
  | source {subject predicate : TermMap} {object : ObjectMap} {graph : Option TermMap}
      {rows : Projection} (hsubject : g.subjectMap node = .ok subject)
      (hpredicate : g.predicateMap pom = .ok predicate) (hobject : g.objectMap pom = .ok object)
      (hgraph : graph = none ∨ graph ∈ g.graphMaps node pom) :
      MadeFrom g node pom ⟨subject, predicate, object, graph, .source rows⟩
  | join {subject predicate : TermMap} {r : Referencing} {source : String}
      {graph : Option TermMap} {child parent : Projection}
      (hsubject : g.subjectMap node = .ok subject) (hpredicate : g.predicateMap pom = .ok predicate)
      (hobject : g.referencing pom = .ok r)
      (hgraph : graph = none ∨ graph ∈ (g.graphMaps node pom).map (Option.map (r.read source))) :
      MadeFrom g node pom ⟨r.read source subject, r.read source predicate,
        { r.object with term := r.read r.source r.object.term }, graph,
        .join child parent r.columns⟩

/-- What the expressions of a plan are made from: the first subject map and the first predicate-object
map of the root. -/
def PlannedAt (g : Graph) (root : String) (expressions : List Expression) : Prop :=
  ∃ node pom, g.firstObject? root R2rml.subjectMap = some node ∧
    g.firstObject? root R2rml.predicateObjectMap = some pom ∧ expressions ≠ [] ∧
    ∀ e ∈ expressions, g.MadeFrom node pom e

theorem plannedAt_planSource (h : g.planSource = .ok expressions) :
    ∃ root, g.root = .ok root ∧ g.PlannedAt root expressions := by
  obtain ⟨rule, rfl⟩ := exists_sourceRule h
  refine ⟨rule.root, rule.root_eq, rule.subjectNode, rule.pom, rule.subjectNode_eq, rule.pom_eq,
    perGraph_ne_nil _ _, fun e he => ?_⟩
  obtain ⟨graph, hgraph, rfl⟩ := exists_graph_of_mem_perGraph he
  exact .source rule.subject_eq rule.predicate_eq rule.object_eq hgraph

theorem plannedAt_planJoin (h : g.planJoin = .ok expressions) :
    ∃ root, g.root = .ok root ∧ g.PlannedAt root expressions := by
  obtain ⟨rule, rfl⟩ := exists_joinRule h
  refine ⟨rule.root, rule.root_eq, rule.subjectNode, rule.pom, rule.subjectNode_eq, rule.pom_eq,
    perGraph_ne_nil _ _, fun e he => ?_⟩
  obtain ⟨graph, hgraph, rfl⟩ := exists_graph_of_mem_perGraph he
  exact .join rule.subject_eq rule.predicate_eq rule.referencing_eq hgraph

/-- A plan that succeeds has found a root, and its expressions are made from the root's maps. -/
theorem plannedAt_plan (h : g.plan = .ok expressions) :
    ∃ root, g.root = .ok root ∧ g.PlannedAt root expressions := by
  unfold plan at h
  split at h
  · exact plannedAt_planJoin h
  · exact plannedAt_planSource h

/-! ## The root of a sub-graph -/

/-- In the sub-graph of a node with links no other node has one. -/
theorem length_links_reachable_iff (h : g.objectsOf root R2rml.predicateObjectMap ≠ []) (x : String) :
    ((g.reachable root).objectsOf x R2rml.predicateObjectMap).length = 1 ↔ x = root := by
  obtain ⟨first, others, hlinks⟩ := List.exists_cons_of_ne_nil h
  have hroot : (g.reachable root).objectsOf root R2rml.predicateObjectMap = [first] := by
    rw [objectsOf_reachable_root, hlinks]
    rfl
  constructor
  · intro hone
    obtain ⟨other, hother⟩ := List.length_eq_one_iff.mp hone
    have hmem : ⟨x, R2rml.predicateObjectMap, other⟩ ∈ g.reachable root :=
      mem_objectsOf.mp (by rw [hother]; exact List.mem_singleton_self _)
    have hfirst : ⟨root, R2rml.predicateObjectMap, first⟩ ∈ g.reachable root :=
      mem_objectsOf.mp (by rw [hroot]; exact List.mem_singleton_self _)
    exact congrArg Triple.subject
      (eq_of_countPredicate_le_one (g.countPredicate_reachable_le root) hmem hfirst rfl rfl)
  · rintro rfl
    rw [hroot, List.length_singleton]

theorem exists_firstObject? {p o : String} (h : ⟨x, p, o⟩ ∈ g) :
    ∃ first, g.firstObject? x p = some first := by
  obtain ⟨first, others, heq⟩ := List.exists_cons_of_ne_nil (List.ne_nil_of_mem (mem_objectsOf.mpr h))
  exact ⟨first, by rw [firstObject?, heq]; rfl⟩

theorem firstObject?_reachable_root (g : Graph) (root p : String) :
    (g.reachable root).firstObject? root p = g.firstObject? root p := by
  by_cases hp : p = R2rml.predicateObjectMap
  · subst hp
    rw [firstObject?, firstObject?, objectsOf_reachable_root]
    cases g.objectsOf root R2rml.predicateObjectMap <;> rfl
  · rw [firstObject?, firstObject?, objectsOf_reachable hp (g.mem_visited_root root)]

/-- A node that links to predicate-object maps is the root of its own sub-graph if it has a subject
map, and the sub-graph is planned from the first subject map and the first predicate-object map that the
node has in the graph. If it has no subject map, no other node is the root in its place, and there is no
plan. -/
theorem planned_root_reachable (h : ∃ x, ⟨root, R2rml.predicateObjectMap, x⟩ ∈ g) :
    ((∃ x, ⟨root, R2rml.subjectMap, x⟩ ∈ g) →
      (g.reachable root).root = .ok root ∧
      ∃ node pom, g.firstObject? root R2rml.subjectMap = some node ∧
        g.firstObject? root R2rml.predicateObjectMap = some pom ∧
        (g.reachable root).required root R2rml.subjectMap = .ok node ∧
        (g.reachable root).required root R2rml.predicateObjectMap = .ok pom ∧
        ∀ expressions, (g.reachable root).plan = .ok expressions →
          expressions ≠ [] ∧ ∀ e ∈ expressions, (g.reachable root).MadeFrom node pom e) ∧
    ((∀ x, ⟨root, R2rml.subjectMap, x⟩ ∉ g) →
      (∃ error ∈ [PlanError.noSubjectMap, .noRoot], (g.reachable root).root = .error error) ∧
      ∃ error, (g.reachable root).plan = .error error) := by
  obtain ⟨link, hlink⟩ := h
  have hlinks : g.objectsOf root R2rml.predicateObjectMap ≠ [] :=
    List.ne_nil_of_mem (mem_objectsOf.mpr hlink)
  have honly := length_links_reachable_iff hlinks
  have hsubjects (x : String) : ⟨root, R2rml.subjectMap, x⟩ ∈ g.reachable root ↔
      ⟨root, R2rml.subjectMap, x⟩ ∈ g := by
    rw [← mem_objectsOf, ← mem_objectsOf,
      objectsOf_reachable (by decide) (g.mem_visited_root root)]
  have hrequired {p o : String} (ho : g.firstObject? root p = some o) :
      (g.reachable root).required root p = .ok o := by
    rw [required, firstObject?_reachable_root, ho]
  constructor
  · rintro ⟨x, hx⟩
    have hroot : (g.reachable root).root = .ok root :=
      root_eq_ok ⟨x, (hsubjects x).mpr hx⟩ honly
    obtain ⟨node, hnode⟩ := exists_firstObject? hx
    obtain ⟨pom, hpom⟩ := exists_firstObject? hlink
    refine ⟨hroot, node, pom, hnode, hpom, hrequired hnode, hrequired hpom, ?_⟩
    intro expressions hplan
    obtain ⟨owner, howner, node', pom', hnode', hpom', hmade⟩ := plannedAt_plan hplan
    obtain rfl : root = owner := Except.ok.inj (hroot.symm.trans howner)
    rw [firstObject?_reachable_root] at hnode' hpom'
    obtain rfl : node = node' := Option.some.inj (hnode.symm.trans hnode')
    obtain rfl : pom = pom' := Option.some.inj (hpom.symm.trans hpom')
    exact hmade
  · intro hnone
    have hroot := root_eq_error (fun x hx => hnone x ((hsubjects x).mp hx)) honly
    refine ⟨⟨_, ?_, hroot⟩, ?_⟩
    · split <;> simp
    · cases hplan : (g.reachable root).plan with
      | error error => exact ⟨error, rfl⟩
      | ok expressions =>
          obtain ⟨owner, howner, -⟩ := plannedAt_plan hplan
          rw [hroot] at howner
          cases howner

/-- Two triples maps that refer to each other, the first of which has two predicate-object maps. -/
def crossMapping : Graph :=
  [⟨"http://e/B", R2rml.subjectMap, "b5"⟩, ⟨"http://e/B", R2rml.predicateObjectMap, "b6"⟩,
    ⟨"http://e/B", Rml.logicalSource, "b8"⟩, ⟨"b8", Rml.source, "h"⟩, ⟨"b5", R2rml.template, "{j}"⟩,
    ⟨"b6", R2rml.objectMap, "b7"⟩, ⟨"b7", R2rml.parentTriplesMap, "http://e/A"⟩,
    ⟨"http://e/A", Rml.logicalSource, "b9"⟩, ⟨"b9", Rml.source, "f"⟩,
    ⟨"http://e/A", R2rml.predicateObjectMap, "b2"⟩, ⟨"http://e/A", R2rml.predicateObjectMap, "b3"⟩,
    ⟨"http://e/A", R2rml.subjectMap, "b1"⟩, ⟨"b1", R2rml.template, "{i}"⟩,
    ⟨"b2", R2rml.predicateMap, "b0"⟩, ⟨"b0", R2rml.constant, "p"⟩, ⟨"b2", R2rml.objectMap, "b4"⟩,
    ⟨"b4", R2rml.parentTriplesMap, "http://e/B"⟩]

set_option maxRecDepth 100000 in
/-- The sub-graph of the first triples map holds the second one, and is planned for the first. -/
theorem planned_root_crossMapping :
    ⟨"http://e/B", R2rml.subjectMap, "b5"⟩ ∈ crossMapping.reachable "http://e/A" ∧
      (crossMapping.reachable "http://e/A").root = .ok "http://e/A" ∧
      ∃ expressions, (crossMapping.reachable "http://e/A").plan = .ok expressions ∧
        expressions ≠ [] ∧
        ∀ e ∈ expressions, (crossMapping.reachable "http://e/A").MadeFrom "b1" "b2" e := by
  have hlink : ⟨"http://e/A", R2rml.predicateObjectMap, "b2"⟩ ∈ crossMapping := by decide
  have hsubject : ⟨"http://e/A", R2rml.subjectMap, "b1"⟩ ∈ crossMapping := by decide
  have hplan : (crossMapping.reachable "http://e/A").plan.toOption.isSome = true := by
    decide +kernel
  obtain ⟨expressions, hexpressions⟩ := Option.isSome_iff_exists.mp hplan
  have hplan := toOption_eq_some_iff.mp hexpressions
  obtain ⟨hroot, node, pom, hnode, hpom, -, -, hmade⟩ :=
    (planned_root_reachable ⟨"b2", hlink⟩).1 ⟨"b1", hsubject⟩
  obtain rfl : "b1" = node := Option.some.inj ((by decide +kernel :
    crossMapping.firstObject? "http://e/A" R2rml.subjectMap = some "b1").symm.trans hnode)
  obtain rfl : "b2" = pom := Option.some.inj ((by decide +kernel :
    crossMapping.firstObject? "http://e/A" R2rml.predicateObjectMap = some "b2").symm.trans hpom)
  exact ⟨by decide +kernel, hroot, expressions, hplan, hmade expressions hplan⟩

end RmlAlgebra.Graph
