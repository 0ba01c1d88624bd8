import RmlAlgebra.Proofs.ExpressionText
import RmlAlgebra.Proofs.TemplateParts

/-! # The graphs of a plan

A plan has one expression for each graph that it finds. Both the subject map and the predicate-object
map may have graph maps, but a graph map counts only if it is the only one of its owner. So a graph is
lost if it is named by several graph maps of one owner and by no other one. A plan that finds no
graph goes to the default graph, which hides the loss of the default graph alone.
-/

namespace RmlAlgebra

/-- A term map of the child as an expression over the relation has it. In a join on a pair of columns
it reads its attributes under the name of the child's source. -/
def Relation.readChild : Relation → TermMap → TermMap
  | source _, t => t
  | join _ _ none, t => t
  | join child _ (some _), t => t.qualify child.source

theorem Relation.readChild_inj {r : Relation} {t u : TermMap} (h : r.readChild t = r.readChild u) :
    t = u := by
  match r with
  | source _ => exact h
  | join _ _ none => exact h
  | join _ _ (some _) => exact TermMap.qualify_inj h

namespace Graph

variable {g : Graph} {node pom : String} {graph : Option TermMap} {expressions : List Expression}

/-! ## Graph maps -/

/-- The graph that a graph map names, where `none` is the default graph. A graph map without a value
names nothing. -/
def graphAt? (g : Graph) (node : String) : Option (Option TermMap) :=
  let t := g.termMap node .iri
  if t.kind.isNone then none
  else if t.value = R2rml.defaultGraph then some none
  else some (some t)

/-- The graphs that the graph maps of a subject map and of a predicate-object map name. -/
def namedGraphs (g : Graph) (node pom : String) : List (Option TermMap) :=
  ([node, pom].flatMap (g.objectsOf · R2rml.graphMap)).filterMap g.graphAt?

/-- A graph that is named by the only graph map of a subject map or of a predicate-object map. -/
def NamedAlone (g : Graph) (node pom : String) (graph : Option TermMap) : Prop :=
  ∃ owner ∈ [node, pom], ∃ x, g.objectsOf owner R2rml.graphMap = [x] ∧ g.graphAt? x = some graph

theorem mem_namedGraphs_iff : graph ∈ g.namedGraphs node pom ↔
    ∃ owner ∈ [node, pom], ∃ x ∈ g.objectsOf owner R2rml.graphMap, g.graphAt? x = some graph := by
  simp only [namedGraphs, List.mem_filterMap, List.mem_flatMap]
  constructor
  · rintro ⟨x, ⟨owner, howner, hx⟩, hgraph⟩
    exact ⟨owner, howner, x, hx, hgraph⟩
  · rintro ⟨owner, howner, x, hx, hgraph⟩
    exact ⟨x, ⟨owner, howner, hx⟩, hgraph⟩

/-- The graphs that planning finds are those that are named alone. -/
theorem mem_graphMaps_iff : graph ∈ g.graphMaps node pom ↔ g.NamedAlone node pom graph := by
  have hgraphOf (owner : String) :
      g.graphOf? owner = (g.singleObject? owner R2rml.graphMap).bind g.graphAt? := rfl
  simp only [graphMaps, List.mem_filterMap, NamedAlone, hgraphOf, Option.bind_eq_some_iff,
    singleObject?_eq_some_iff]

theorem NamedAlone.named (h : g.NamedAlone node pom graph) : graph ∈ g.namedGraphs node pom := by
  obtain ⟨owner, howner, x, hx, hgraph⟩ := h
  exact mem_namedGraphs_iff.mpr ⟨owner, howner, x, hx ▸ List.mem_singleton_self x, hgraph⟩

theorem graphMaps_eq_nil_iff : g.graphMaps node pom = [] ↔ ∀ graph, ¬g.NamedAlone node pom graph := by
  simp only [List.eq_nil_iff_forall_not_mem, mem_graphMaps_iff]

/-- With one graph map at most on either side every named graph is named alone. -/
theorem namedAlone_of_mem_namedGraphs
    (h : ∀ owner ∈ [node, pom], (g.objectsOf owner R2rml.graphMap).length ≤ 1)
    (hgraph : graph ∈ g.namedGraphs node pom) : g.NamedAlone node pom graph := by
  obtain ⟨owner, howner, x, hx, hgraph⟩ := mem_namedGraphs_iff.mp hgraph
  have hlength : (g.objectsOf owner R2rml.graphMap).length = 1 :=
    Nat.le_antisymm (h owner howner) (List.length_pos_of_mem hx)
  obtain ⟨y, hy⟩ := List.length_eq_one_iff.mp hlength
  rw [hy, List.mem_singleton] at hx
  exact ⟨owner, howner, x, by rw [hy, hx], hgraph⟩

/-! ## One expression for each graph -/

namespace Outline

variable {outline : Outline}

theorem mem_graphs_iff : graph ∈ outline.expressions.map Expression.graph ↔
    graph ∈ outline.graphs ∨ outline.graphs = [] ∧ graph = none := by
  unfold expressions perGraph
  split
  · next hnil => simp [hnil, expression]
  · next hne =>
      simp only [List.mem_map, List.mem_eraseDups]
      constructor
      · rintro ⟨_, ⟨graph, hgraph, rfl⟩, rfl⟩
        exact .inl hgraph
      · rintro (hgraph | ⟨hnil, -⟩)
        · exact ⟨_, ⟨graph, hgraph, rfl⟩, rfl⟩
        · exact absurd hnil hne

/-- The expressions of a plan differ in their graphs. -/
theorem nodup_graphs (outline : Outline) : (outline.expressions.map Expression.graph).Nodup :=
  outline.nodup_map fun _ _ => id

end Outline

/-- The expressions of a plan have an outline whose graphs are those that planning finds. -/
theorem exists_outline_of_graphMaps (h : g.plan = .ok expressions) :
    ∃ (root node pom : String) (outline : Outline), g.root = .ok root ∧
      g.firstObject? root R2rml.subjectMap = some node ∧
      g.firstObject? root R2rml.predicateObjectMap = some pom ∧
      expressions = outline.expressions ∧
      outline.graphs = (g.graphMaps node pom).map (Option.map outline.relation.readChild) := by
  unfold plan at h
  split at h
  · obtain ⟨rule, rfl⟩ := exists_joinRule h
    have hread : rule.relation.readChild = rule.referencing.read rule.source := by
      funext t
      unfold JoinRule.relation Referencing.read
      cases rule.referencing.columns <;> rfl
    exact ⟨rule.root, rule.subjectNode, rule.pom,
      ⟨rule.referencing.read rule.source rule.subject,
        rule.referencing.read rule.source rule.predicate, rule.object, rule.relation,
        rule.graphs.map (Option.map (rule.referencing.read rule.source))⟩,
      rule.root_eq, rule.subjectNode_eq, rule.pom_eq, rfl, by rw [hread]; rfl⟩
  · obtain ⟨rule, rfl⟩ := exists_sourceRule h
    have hread : (Relation.source rule.rows).readChild = id := rfl
    exact ⟨rule.root, rule.subjectNode, rule.pom,
      ⟨rule.subject, rule.predicate, rule.object, .source rule.rows, rule.graphs⟩,
      rule.root_eq, rule.subjectNode_eq, rule.pom_eq, rfl, by rw [hread]; simp [SourceRule.graphs]⟩

/-- Each named graph has exactly one expression. One without a graph is there if and only if the default
graph is named or no graph is, and then there is one only. There are no other expressions. -/
structure HonoursGraphs (g : Graph) (node pom : String) (expressions : List Expression) : Prop where
  named : ∀ t, some t ∈ g.namedGraphs node pom →
    expressions.countP (fun e => e.graph == some (e.relation.readChild t)) = 1
  unnamed : (∃ e ∈ expressions, e.graph = none) ↔
    g.namedGraphs node pom = [] ∨ none ∈ g.namedGraphs node pom
  unnamed_le : expressions.countP (fun e => e.graph == none) ≤ 1
  only : ∀ e ∈ expressions, ∀ t, e.graph = some t →
    ∃ u, some u ∈ g.namedGraphs node pom ∧ t = e.relation.readChild u

section

variable {outline : Outline}
  (houtline : outline.graphs = (g.graphMaps node pom).map (Option.map outline.relation.readChild))

include houtline

theorem mem_map_graph_some_iff {t : TermMap} :
    some (outline.relation.readChild t) ∈ outline.expressions.map Expression.graph ↔
      g.NamedAlone node pom (some t) := by
  rw [Outline.mem_graphs_iff, houtline, ← mem_graphMaps_iff]
  simp only [reduceCtorEq, and_false, or_false, List.mem_map, Option.map_eq_some_iff]
  constructor
  · rintro ⟨graph, hgraph, u, rfl, hu⟩
    rwa [← Relation.readChild_inj hu]
  · intro hgraph
    exact ⟨some t, hgraph, t, rfl, rfl⟩

theorem mem_map_graph_none_iff : none ∈ outline.expressions.map Expression.graph ↔
    g.NamedAlone node pom none ∨ ∀ graph, ¬g.NamedAlone node pom graph := by
  rw [Outline.mem_graphs_iff, houtline, List.map_eq_nil_iff, graphMaps_eq_nil_iff,
    ← mem_graphMaps_iff]
  simp

theorem countP_graph_eq_one_iff {t : TermMap} :
    outline.expressions.countP (fun e => e.graph == some (e.relation.readChild t)) = 1 ↔
      g.NamedAlone node pom (some t) := by
  have hcount : outline.expressions.countP (fun e => e.graph == some (e.relation.readChild t)) =
      (outline.expressions.map Expression.graph).count (some (outline.relation.readChild t)) := by
    rw [List.count, List.countP_map]
    refine List.countP_congr fun e he => ?_
    obtain ⟨graph, -, rfl⟩ := Outline.exists_graph_of_mem he
    exact Iff.rfl
  rw [hcount, outline.nodup_graphs.count, ← mem_map_graph_some_iff houtline]
  split <;> simp_all

theorem honoursGraphs_outline_iff : g.HonoursGraphs node pom outline.expressions ↔
    ∀ graph ∈ g.namedGraphs node pom, g.NamedAlone node pom graph ∨
      graph = none ∧ ∀ other, ¬g.NamedAlone node pom other := by
  have hunnamed : (∃ e ∈ outline.expressions, e.graph = none) ↔
      g.NamedAlone node pom none ∨ ∀ graph, ¬g.NamedAlone node pom graph := by
    rw [← List.mem_map, mem_map_graph_none_iff houtline]
  constructor
  · intro hhonours graph hgraph
    cases graph with
    | some t => exact .inl ((countP_graph_eq_one_iff houtline).mp (hhonours.named t hgraph))
    | none => exact (hunnamed.mp (hhonours.unnamed.mpr (.inr hgraph))).imp_right fun h => ⟨rfl, h⟩
  · intro hall
    refine ⟨fun t ht => ?_, hunnamed.trans ⟨?_, ?_⟩, ?_, ?_⟩
    · refine (countP_graph_eq_one_iff houtline).mpr ((hall _ ht).resolve_right ?_)
      rintro ⟨hnone, -⟩
      cases hnone
    · rintro (hnone | hnothing)
      · exact .inr hnone.named
      · -- Nothing is named alone, so whatever is named is the default graph.
        cases hnamed : g.namedGraphs node pom with
        | nil => exact .inl rfl
        | cons graph others =>
            have hgraph : graph ∈ g.namedGraphs node pom := hnamed ▸ List.mem_cons_self
            obtain ⟨rfl, -⟩ := (hall graph hgraph).resolve_left (hnothing graph)
            exact .inr List.mem_cons_self
    · rintro (hnil | hnone)
      · refine .inr fun graph hgraph => ?_
        have hmem := hgraph.named
        rw [hnil] at hmem
        cases hmem
      · exact (hall none hnone).imp_right And.right
    · have hcount := List.nodup_iff_count.mp outline.nodup_graphs none
      rwa [List.count, List.countP_map] at hcount
    · intro e he t ht
      obtain ⟨graph, hgraph, rfl⟩ := Outline.exists_graph_of_mem he
      have hgraph : some t ∈ outline.graphs := by
        rcases hgraph with rfl | hgraph
        · cases ht
        · rwa [← show graph = some t from ht]
      rw [houtline] at hgraph
      obtain ⟨found, hfound, hsome⟩ := List.mem_map.mp hgraph
      obtain ⟨u, rfl, rfl⟩ := Option.map_eq_some_iff.mp hsome
      exact ⟨u, (mem_graphMaps_iff.mp hfound).named, rfl⟩

end

/-- A plan honours the named graphs if and only if every one of them is named alone, except that the
default graph need not be if no other graph is named alone either. So it does whenever the subject map
and the predicate-object map have at most one graph map each. -/
theorem honours_graphs_iff (h : g.plan = .ok expressions) :
    ∃ root node pom, g.root = .ok root ∧ g.firstObject? root R2rml.subjectMap = some node ∧
      g.firstObject? root R2rml.predicateObjectMap = some pom ∧
      (g.HonoursGraphs node pom expressions ↔
        ∀ graph ∈ g.namedGraphs node pom, g.NamedAlone node pom graph ∨
          graph = none ∧ ∀ other, ¬g.NamedAlone node pom other) ∧
      ((∀ owner ∈ [node, pom], (g.objectsOf owner R2rml.graphMap).length ≤ 1) →
        g.HonoursGraphs node pom expressions) := by
  obtain ⟨root, node, pom, outline, hroot, hnode, hpom, rfl, hgraphs⟩ :=
    exists_outline_of_graphMaps h
  have hiff := honoursGraphs_outline_iff hgraphs
  refine ⟨root, node, pom, hroot, hnode, hpom, hiff, fun hlone => hiff.mpr fun graph hgraph => ?_⟩
  exact .inl (namedAlone_of_mem_namedGraphs hlone hgraph)

/-- A triples map whose subject map and predicate-object map have the given graph maps, each a node with
its constant. -/
def filedIn (subjectGraphs pomGraphs : List (String × String)) : Graph :=
  [⟨"http://e/A", Rml.logicalSource, "b1"⟩, ⟨"b1", Rml.source, "f"⟩,
    ⟨"http://e/A", R2rml.subjectMap, "b2"⟩, ⟨"b2", R2rml.template, "http://e/{i}"⟩,
    ⟨"http://e/A", R2rml.predicateObjectMap, "b3"⟩, ⟨"b3", R2rml.predicateMap, "b4"⟩,
    ⟨"b4", R2rml.constant, "http://e/p"⟩, ⟨"b3", R2rml.objectMap, "b5"⟩,
    ⟨"b5", Rml.reference, "j"⟩] ++
  (subjectGraphs.flatMap fun x => [⟨"b2", R2rml.graphMap, x.1⟩, ⟨x.1, R2rml.constant, x.2⟩]) ++
  pomGraphs.flatMap fun x => [⟨"b3", R2rml.graphMap, x.1⟩, ⟨x.1, R2rml.constant, x.2⟩]

set_option maxRecDepth 100000 in
/-- A graph of the subject map and the default graph of the predicate-object map are both honoured. -/
theorem honours_graphs_default :
    ∃ expressions, (filedIn [("b6", "http://e/G")] [("b7", R2rml.defaultGraph)]).plan =
      .ok expressions ∧ (filedIn [("b6", "http://e/G")] [("b7", R2rml.defaultGraph)]).HonoursGraphs
        "b2" "b3" expressions := by
  have hplan : (filedIn [("b6", "http://e/G")] [("b7", R2rml.defaultGraph)]).plan.toOption.isSome =
      true := by decide +kernel
  have hroot : (filedIn [("b6", "http://e/G")] [("b7", R2rml.defaultGraph)]).root.toOption =
      some "http://e/A" := by decide +kernel
  obtain ⟨expressions, hplan⟩ := exists_eq_ok_of_isSome hplan
  obtain ⟨root, node, pom, hfound, hnode, hpom, -, hhonours⟩ := honours_graphs_iff hplan
  obtain rfl : root = "http://e/A" :=
    Except.ok.inj (hfound.symm.trans (toOption_eq_some_iff.mp hroot))
  obtain rfl : node = "b2" := Option.some.inj (hnode.symm.trans (by decide +kernel))
  obtain rfl : pom = "b3" := Option.some.inj (hpom.symm.trans (by decide +kernel))
  exact ⟨expressions, hplan, hhonours (by decide +kernel)⟩

set_option maxRecDepth 100000 in
/-- The two graphs of one subject map are both lost. -/
theorem second_graph_loses_both :
    ¬∀ (g : Graph) (expressions : List Expression) (root node pom : String),
        g.plan = .ok expressions → g.root = .ok root →
        g.firstObject? root R2rml.subjectMap = some node →
        g.firstObject? root R2rml.predicateObjectMap = some pom →
        g.HonoursGraphs node pom expressions := by
  intro hall
  have hplan : (filedIn [("b6", "http://e/G"), ("b7", "http://e/H")] []).plan.toOption =
      some [⟨⟨"http://e/{i}", some .template, .iri⟩, ⟨"http://e/p", some .constant, .iri⟩,
        ⟨⟨"j", some .reference, .literal⟩, none, none⟩, none, .source ⟨["i", "j"], "f"⟩⟩] := by
    decide +kernel
  have hhonours := hall _ _ "http://e/A" "b2" "b3" (toOption_eq_some_iff.mp hplan)
    (toOption_eq_some_iff.mp (by decide +kernel)) (by decide +kernel) (by decide +kernel)
  have hone := hhonours.named ⟨"http://e/G", some .constant, .iri⟩ (by decide +kernel)
  exact absurd hone (by decide)

end Graph

end RmlAlgebra
