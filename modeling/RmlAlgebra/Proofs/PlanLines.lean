import RmlAlgebra.Proofs.EmissionOrder
import RmlAlgebra.Proofs.ExpressionText
import RmlAlgebra.Proofs.Refusals

/-! # The lines of a plan

What a run plans goes through text twice: the generator writes the expressions of a block, and the
plan is written from those of all blocks. Every expression is a line of its own that starts and ends
with a character that is not blank, so no stage can lose, merge or split expressions, whatever the
values in them are.
-/

namespace RmlAlgebra

/-- Expressions without line feeds are lines of their own. -/
theorem Expression.isLine_render {e : Expression} (h : ∀ x ∈ e.texts, Text.Unbroken x) :
    PlanText.IsLine e.render where
  line := unbroken_render_iff.mpr h
  start := by
    have hhead : e.render.toList.head? = some 'p' := by simp [render]
    rw [hhead]
    decide
  close := by
    have hlast : e.render.toList =
        ("pi[" ++ e.columns ++ "](" ++ e.relation.render).toList ++ [')'] := by
      simp [render]
    rw [Text.closesBlank, hlast, List.getLast?_concat]
    decide

namespace Graph

variable {g : Graph} {plan : List Expression}

theorem unbroken_of_ofText {text : String} (h : ofText text = .ok g) :
    ∀ t ∈ g, Text.Unbroken t.object := by
  intro t ht
  exact ((ofText_eq_ok_iff.mp h).1 t ht).unbroken t.object (by simp)

/-- The plan of a graph that was read from text has at least one expression, all of them are lines
of their own, and no two are the same. -/
theorem plan_lines {text : String} (hread : ofText text = .ok g) (h : g.plan = .ok plan) :
    plan ≠ [] ∧ (∀ e ∈ plan, PlanText.IsLine e.render) ∧ (plan.map Expression.render).Nodup := by
  obtain ⟨outline, rfl, htexts⟩ := exists_outline_of_plan h
  have hunbroken := htexts (unbroken_of_ofText hread)
  refine ⟨?_, ?_, outline.nodup_render⟩
  · exact outline.expressions_ne_nil
  · exact fun e he => Expression.isLine_render (hunbroken.texts he)

theorem rooted_of_head {root : String} (h : g.head?.map Triple.subject = some root) :
    g.Rooted root := by
  obtain ⟨t, ht, rfl⟩ := Option.map_eq_some_iff.mp h
  obtain ⟨others, rfl⟩ := List.head?_eq_some_iff.mp ht
  exact ⟨t, others, rfl, rfl⟩

end Graph

/-- Blocks are ordered by the names with which they start, if these differ before either ends. -/
theorem Block.ofGraph_le {S T : Graph} {x y : String} (hS : S.Rooted x) (hT : T.Rooted y)
    (hx : Text.opensBlank x.toList = false) (hy : Text.opensBlank y.toList = false)
    (hxy : ¬x.toList <+: y.toList) (hyx : ¬y.toList <+: x.toList) (hle : x ≤ y) :
    ofGraph S ≤ ofGraph T := by
  have hiff (a b : String) :
      a ≤ b ↔ ¬List.Lex (fun c d : Char => c < d) b.toList a.toList := Iff.rfl
  obtain ⟨as, has⟩ := hS.block hx
  obtain ⟨bs, hbs⟩ := hT.block hy
  rw [hiff] at hle ⊢
  rw [has, hbs, List.append_assoc, List.append_assoc, Text.lex_append_congr hyx hxy _ _ [] [],
    List.append_nil, List.append_nil]
  exact hle

namespace Pipeline

open Engine (Answer)

theorem planned_eq_none {block : String} (h : (Answer.ofRaw (Engine.generate block)).Refuses) :
    planned block = none := by
  obtain ⟨message, hmessage⟩ := h
  rw [planned, hmessage]

/-- A block is planned if its graph has a plan, and then all its expressions are found. -/
theorem planned_eq_some_iff {block : String} {texts : List String} :
    planned block = some texts ↔ ∃ g plan, Graph.ofText block = .ok g ∧ g.plan = .ok plan ∧
      plan.map Expression.render = texts := by
  cases hread : Graph.ofText block with
  | error cause =>
      rw [planned_eq_none (Engine.refuses_generate_iff.mpr (.inl ⟨cause, hread⟩))]
      simp
  | ok g =>
      cases hplan : g.plan with
      | error cause =>
          rw [planned_eq_none (Engine.refuses_generate_iff.mpr (.inr ⟨g, cause, hread, hplan⟩))]
          simp [hplan]
      | ok plan =>
          have hlines : ∀ e ∈ plan.map Expression.render, PlanText.IsLine e := by
            rw [List.forall_mem_map]
            exact (Graph.plan_lines hread hplan).2.1
          have htext : Engine.planText block =
              .ok (PlanText.serialize (plan.map Expression.render)) :=
            Engine.onGraph_map_of_ok hread hplan
          have hanswer : Answer.ofRaw (Engine.generate block) =
              .success (PlanText.serialize (plan.map Expression.render)) := by
            rw [Engine.generate, htext]
            exact Engine.ofRaw_of_not_refusal (not_refusal_serialize plan)
          have hplanned : planned block = some (plan.map Expression.render) := by
            rw [planned, hanswer]
            exact congrArg some (PlanText.collect_of_lines hlines)
          rw [hplanned]
          simp [hplan]

/-- Blocks are planned one by one. -/
theorem mapM_planned_eq_some_iff {blocks : List String} {texts : List (List String)} :
    blocks.mapM planned = some texts ↔ ∃ (graphs : List Graph) (plans : List (List Expression)),
      blocks.map Graph.ofText = graphs.map .ok ∧ graphs.map Graph.plan = plans.map .ok ∧
      plans.map (·.map Expression.render) = texts := by
  induction blocks generalizing texts with
  | nil =>
      constructor
      · intro h
        cases h
        exact ⟨[], [], rfl, rfl, rfl⟩
      · rintro ⟨graphs, plans, hgraphs, hplans, rfl⟩
        cases graphs with
        | cons g others => cases hgraphs
        | nil =>
            cases plans with
            | cons plan others => cases hplans
            | nil => rfl
  | cons block others ih =>
      rw [List.mapM_cons]
      constructor
      · intro h
        obtain ⟨first, hfirst, h⟩ := Option.bind_eq_some_iff.mp h
        obtain ⟨rest, hrest, h⟩ := Option.bind_eq_some_iff.mp h
        cases h
        obtain ⟨g, plan, hread, hplan, rfl⟩ := planned_eq_some_iff.mp hfirst
        obtain ⟨graphs, plans, hgraphs, hplans, rfl⟩ := ih.mp hrest
        exact ⟨g :: graphs, plan :: plans, by simp [hread, hgraphs], by simp [hplan, hplans], rfl⟩
      · rintro ⟨graphs, plans, hgraphs, hplans, rfl⟩
        cases graphs with
        | nil => cases hgraphs
        | cons g graphs =>
            cases plans with
            | nil => cases hplans
            | cons plan plans =>
                rw [List.map_cons, List.map_cons, List.cons.injEq] at hgraphs hplans
                have hfirst := planned_eq_some_iff.mpr ⟨g, plan, hgraphs.1, hplans.1, rfl⟩
                have hrest := ih.mpr ⟨graphs, plans, hgraphs.2, hplans.2, rfl⟩
                rw [hfirst, hrest]
                rfl

theorem load_builtIn_eq_ok_iff {wording : Wording} {base document parsed : String} :
    (load (m := Id) (Engines.builtIn wording base) document).run = Except.ok parsed ↔
      Answer.ofRaw (Engine.parse wording base document) = .success parsed := by
  rw [load_builtIn, run_following_eq_ok_iff]
  constructor
  · rintro ⟨text, hanswer, htext⟩
    rw [hanswer, ← Except.ok.inj htext]
  · exact fun hanswer => ⟨parsed, hanswer, rfl⟩

theorem normalize_builtIn_eq_ok_iff {wording : Wording} {base parsed : String} {seed : UInt32}
    {blocks : List String} :
    (normalize (m := Id) (Engines.builtIn wording base) parsed seed).run = Except.ok blocks ↔
      ∃ normalized, Answer.ofRaw (Engine.normalize parsed seed) = .success normalized ∧
        Block.sort (Block.split normalized) = blocks := by
  rw [normalize_builtIn, run_following_eq_ok_iff]
  constructor
  · rintro ⟨text, hanswer, hblocks⟩
    exact ⟨text, hanswer, Except.ok.inj hblocks⟩
  · rintro ⟨text, hanswer, rfl⟩
    exact ⟨text, hanswer, rfl⟩

theorem generate_builtIn_eq_ok_iff {wording : Wording} {base : String}
    {blocks expressions : List String} :
    (generate (m := Id) (Engines.builtIn wording base) blocks).run = Except.ok expressions ↔
      ∃ (graphs : List Graph) (plans : List (List Expression)),
        blocks.map Graph.ofText = graphs.map .ok ∧ graphs.map Graph.plan = plans.map .ok ∧
        plans.flatten.map Expression.render = expressions := by
  rw [← toOption_eq_some_iff, generate, generateFrom_builtIn, Option.map_eq_some_iff]
  simp only [mapM_planned_eq_some_iff]
  constructor
  · rintro ⟨texts, ⟨graphs, plans, hgraphs, hplans, rfl⟩, rfl⟩
    exact ⟨graphs, plans, hgraphs, hplans, List.map_flatten⟩
  · rintro ⟨graphs, plans, hgraphs, hplans, rfl⟩
    exact ⟨_, ⟨graphs, plans, hgraphs, hplans, rfl⟩, List.map_flatten.symm⟩

theorem run_bind_eq_ok_iff {ε α β : Type} {x : ExceptT ε Id α} {f : α → ExceptT ε Id β} {b : β} :
    (x >>= f).run = Except.ok b ↔ ∃ a, x.run = Except.ok a ∧ (f a).run = Except.ok b := by
  rw [← toOption_eq_some_iff, toOption_run_bind, Option.bind_eq_some_iff]
  simp only [toOption_eq_some_iff]

/-- When a run of the built-in engines succeeds, and with which plan. -/
theorem compile_builtIn_eq_ok_iff {wording : Wording} {base document : String} {options : Options}
    {c : Compilation} :
    (compile (m := Id) (Engines.builtIn wording base) options document).run = Except.ok c ↔
      ∃ (parsed normalized : String) (graphs : List Graph) (plans : List (List Expression)),
        Answer.ofRaw (Engine.parse wording base document) = .success parsed ∧
        Answer.ofRaw (Engine.normalize parsed options.blankNodeSeed) = .success normalized ∧
        (Block.sort (Block.split normalized)).map Graph.ofText = graphs.map .ok ∧
        graphs.map Graph.plan = plans.map .ok ∧
        c = ⟨PlanText.serialize (plans.flatten.map Expression.render),
          ⟨(Block.sort (Block.split normalized)).length, plans.flatten.length⟩⟩ := by
  -- One step after the other, each with its own condition for success.
  rw [compile, run_bind_eq_ok_iff]
  simp only [run_bind_eq_ok_iff, load_builtIn_eq_ok_iff, normalize_builtIn_eq_ok_iff,
    generate_builtIn_eq_ok_iff]
  constructor
  · rintro ⟨parsed, hparsed, _, ⟨normalized, hnormalized, rfl⟩, _,
      ⟨graphs, plans, hgraphs, hplans, rfl⟩, hresult⟩
    cases hresult
    refine ⟨parsed, normalized, graphs, plans, hparsed, hnormalized, hgraphs, hplans, ?_⟩
    rw [List.length_map]
  · rintro ⟨parsed, normalized, graphs, plans, hparsed, hnormalized, hgraphs, hplans, rfl⟩
    refine ⟨parsed, hparsed, _, ⟨normalized, hnormalized, rfl⟩, _,
      ⟨graphs, plans, hgraphs, hplans, rfl⟩, ?_⟩
    rw [List.length_map]
    rfl

/-- A document compiles if its terms can be handed over and all its sub-graphs have plans. -/
theorem compile_builtIn_of_plans (wording : Wording) {base document : String} {options : Options}
    {g : Graph} {subs : List Graph} {plans : List (List Expression)}
    (hdocument : Graph.ofDocument base document = .ok g) (hfits : Shape.transferable.Fits g)
    (hunmarked : ∀ t ∈ g, ¬Refusal t.subject)
    (hsubs : g.normalize options.blankNodeSeed = .ok subs)
    (hsorted : (subs.map Block.ofGraph).Pairwise (· ≤ ·))
    (hplans : subs.map Graph.plan = plans.map .ok) :
    (compile (m := Id) (Engines.builtIn wording base) options document).run =
      Except.ok ⟨PlanText.serialize (plans.flatten.map Expression.render),
        ⟨subs.length, plans.flatten.length⟩⟩ := by
  have hsubsFit := Graph.fits_of_normalize Shape.transferable_stable hfits hsubs
  have hparsed := Engine.parse_of_unmarked wording hdocument hunmarked
  have hnormalized :=
    Engine.normalize_of_unmarked (Graph.ofText_toText_of_fits hfits) hsubs hunmarked
  have hblocks : Block.sort (Block.split (Block.ofGraphs subs)) = subs.map Block.ofGraph := by
    rw [Block.split_ofGraphs fun sub hsub => (hsubsFit sub hsub).2.framed (hsubsFit sub hsub).1]
    exact Block.sort_eq_iff.mpr ⟨.refl _, hsorted⟩
  have hgraphs : (subs.map Block.ofGraph).map Graph.ofText = subs.map .ok := by
    rw [List.map_map]
    apply List.map_congr_left
    intro sub hsub
    rw [Function.comp_apply, Graph.ofText_ofGraph (hsubsFit sub hsub).2 (hsubsFit sub hsub).1]
  have hrun := compile_builtIn_eq_ok_iff.mpr ⟨g.toText, Block.ofGraphs subs, subs, plans, hparsed,
    hnormalized, by rw [hblocks, hgraphs], hplans, rfl⟩
  rwa [hblocks, List.length_map] at hrun

theorem plan_lines_of_mem {blocks : List String} {graphs : List Graph}
    {plans : List (List Expression)} {plan : List Expression}
    (hgraphs : blocks.map Graph.ofText = graphs.map .ok)
    (hplans : graphs.map Graph.plan = plans.map .ok) (hmem : plan ∈ plans) :
    plan ≠ [] ∧ (∀ e ∈ plan, PlanText.IsLine e.render) ∧ (plan.map Expression.render).Nodup := by
  have hplan : Except.ok plan ∈ graphs.map Graph.plan := hplans ▸ List.mem_map_of_mem hmem
  obtain ⟨g, hg, hplan⟩ := List.mem_map.mp hplan
  have hread : Except.ok g ∈ blocks.map Graph.ofText := hgraphs ▸ List.mem_map_of_mem hg
  obtain ⟨block, -, hread⟩ := List.mem_map.mp hread
  exact Graph.plan_lines hread hplan

/-- The plan of a run holds the expressions of its blocks, block after block, and nothing else.
Every block has at least one expression, and no two of a block are the same. -/
theorem expressions_compile {wording : Wording} {base document : String} {options : Options}
    {c : Compilation}
    (h : (compile (m := Id) (Engines.builtIn wording base) options document).run = Except.ok c) :
    ∃ (parsed normalized : String) (blocks : List String) (graphs : List Graph)
      (plans : List (List Expression)),
      Answer.ofRaw (Engine.parse wording base document) = .success parsed ∧
      Answer.ofRaw (Engine.normalize parsed options.blankNodeSeed) = .success normalized ∧
      blocks = Block.sort (Block.split normalized) ∧
      blocks.map Graph.ofText = graphs.map .ok ∧ graphs.map Graph.plan = plans.map .ok ∧
      (∀ plan ∈ plans, plan ≠ [] ∧ (plan.map Expression.render).Nodup) ∧
      PlanText.expressions c.plan = plans.flatMap (·.map Expression.render) ∧
      c.report = ⟨blocks.length, (PlanText.expressions c.plan).length⟩ := by
  obtain ⟨parsed, normalized, graphs, plans, hparsed, hnormalized, hgraphs, hplans, rfl⟩ :=
    compile_builtIn_eq_ok_iff.mp h
  have hlines : ∀ e ∈ plans.flatten.map Expression.render, PlanText.IsLine e := by
    intro text htext
    obtain ⟨e, he, rfl⟩ := List.mem_map.mp htext
    obtain ⟨plan, hplan, he⟩ := List.mem_flatten.mp he
    exact (plan_lines_of_mem hgraphs hplans hplan).2.1 e he
  have hexpressions := PlanText.expressions_of_lines hlines
  refine ⟨parsed, normalized, _, graphs, plans, hparsed, hnormalized, rfl, hgraphs, hplans, ?_, ?_,
    ?_⟩
  · intro plan hplan
    have hplan := plan_lines_of_mem hgraphs hplans hplan
    exact ⟨hplan.1, hplan.2.2⟩
  · rw [hexpressions, List.map_flatten, List.flatMap_def]
  · rw [hexpressions, List.length_map]

/-- A document with one rule in short form for two objects and two graphs, whose values hold the
marks of expressions. -/
def bracketDocument : String :=
  "@prefix r: <http://www.w3.org/ns/r2rml#>. @prefix m: <http://semweb.mmlab.be/ns/rml#>. " ++
    "<t> a r:TriplesMap; m:logicalSource [m:source \"f)\"]; " ++
    "r:subjectMap [r:template \"\x7bi]\x7d,\"; r:graph <g>]; " ++
    "r:predicateObjectMap [r:predicate \"p\"; r:object \",pi[\", \"](\"; r:graph \"h\"]."

def bracketGraph : Graph :=
  [⟨"http://e/t", Rdf.type, R2rml.triplesMap⟩, ⟨"http://e/t", Rml.logicalSource, "b1"⟩,
    ⟨"b1", Rml.source, "f)"⟩, ⟨"b2", R2rml.template, "\x7bi]\x7d,"⟩,
    ⟨"b2", R2rml.graph, "http://e/g"⟩, ⟨"http://e/t", R2rml.subjectMap, "b2"⟩,
    ⟨"b3", R2rml.predicate, "p"⟩,
    ⟨"b3", R2rml.object, ",pi["⟩, ⟨"b3", R2rml.object, "]("⟩,
    ⟨"http://e/t", R2rml.predicateObjectMap, "b3"⟩, ⟨"b3", R2rml.graph, "h"⟩]

/-- The expressions of its rule for one object. -/
def bracketPlan (object : String) : List Expression :=
  ["http://e/g", "h"].map fun graph =>
    ⟨⟨"\x7bi]\x7d,", some .template, .iri⟩, ⟨"p", some .constant, .iri⟩,
      ⟨⟨object, some .constant, .literal⟩, none, none⟩, some ⟨graph, some .constant, .iri⟩,
      .source ⟨["i]"], "f)"⟩⟩

set_option maxRecDepth 100000 in
theorem ofDocument_bracketDocument :
    Graph.ofDocument "http://e/" bracketDocument = .ok bracketGraph :=
  toOption_eq_some_iff.mp (by decide +kernel)

set_option maxRecDepth 100000 in
theorem normalize_bracketGraph :
    ∃ S T, bracketGraph.normalize 58932 = .ok [S, T] ∧
      S.Rooted "http://e/t_1" ∧ T.Rooted "http://e/t_2" ∧
      S.plan = .ok (bracketPlan ",pi[") ∧ T.plan = .ok (bracketPlan "](") := by
  have hsubs : ∃ subs, bracketGraph.normalize 58932 = .ok subs ∧
      subs.map (fun S => (S.head?.map Triple.subject, S.plan.toOption)) =
        [(some "http://e/t_1", some (bracketPlan ",pi[")),
          (some "http://e/t_2", some (bracketPlan "]("))] := by
    simp only [Graph.normalize_eq_ok_iff]
    exact ⟨_, ⟨by decide +kernel, by decide +kernel, rfl⟩, by decide +kernel⟩
  obtain ⟨subs, hsubs, hplans⟩ := hsubs
  obtain ⟨S, others, rfl, hS, hothers⟩ := List.map_eq_cons_iff.mp hplans
  obtain ⟨T, others, rfl, hT, hothers⟩ := List.map_eq_cons_iff.mp hothers
  cases List.map_eq_nil_iff.mp hothers
  rw [Prod.mk.injEq, toOption_eq_some_iff] at hS hT
  exact ⟨S, T, hsubs, Graph.rooted_of_head hS.1, Graph.rooted_of_head hT.1, hS.2, hT.2⟩

def bracketText : String :=
  PlanText.serialize ([bracketPlan ",pi[", bracketPlan "]("].flatten.map Expression.render)

theorem compile_bracketDocument (wording : Wording) :
    (compile (m := Id) (Engines.builtIn wording "http://e/") {} bracketDocument).run =
      Except.ok ⟨bracketText, ⟨2, 4⟩⟩ := by
  obtain ⟨S, T, hsubs, hS, hT, hplanS, hplanT⟩ := normalize_bracketGraph
  have hle : Block.ofGraph S ≤ Block.ofGraph T :=
    Block.ofGraph_le hS hT (by decide) (by decide) (by decide) (by decide) (by decide)
  have hplans : [S, T].map Graph.plan = [bracketPlan ",pi[", bracketPlan "]("].map .ok := by
    simp [hplanS, hplanT]
  have hfits : Shape.transferable.Fits bracketGraph := by decide +kernel
  have hunmarked : ∀ t ∈ bracketGraph, ¬Refusal t.subject := by
    simp only [Refusal]
    decide +kernel
  have hseed : bracketGraph.normalize ({} : Options).blankNodeSeed = .ok [S, T] := hsubs
  have hrun := compile_builtIn_of_plans wording ofDocument_bracketDocument hfits hunmarked hseed
    (by simpa using hle) hplans
  rw [hrun, bracketText]
  rfl

theorem expressions_compile_brackets :
    ∃ c, (compile (m := Id) (Engines.builtIn default "http://e/") {} bracketDocument).run =
        Except.ok c ∧
      c.report = ⟨2, 4⟩ ∧ (PlanText.expressions c.plan).length = 4 ∧
      ∃ plans : List (List Expression),
        (∀ plan ∈ plans, plan ≠ [] ∧ (plan.map Expression.render).Nodup) ∧
        PlanText.expressions c.plan = plans.flatMap (·.map Expression.render) := by
  have hrun := compile_bracketDocument default
  obtain ⟨_, _, _, _, plans, -, -, -, -, -, hdistinct, hexpressions, hreport⟩ :=
    expressions_compile hrun
  rw [Report.mk.injEq] at hreport
  exact ⟨_, hrun, rfl, hreport.2.symm, plans, hdistinct, hexpressions⟩

end Pipeline

end RmlAlgebra
