import RmlAlgebra.Proofs.JoinConditions
import RmlAlgebra.Proofs.TemplateParts

/-! # Projected attributes

A source is reduced to the attributes that are read from it: by the terms of all expressions over a
single source, and in a join by subject, predicate and graphs from the child and by the object from
the parent, each with the column of the join condition. The attributes are listed before they are
qualified and the terms are written afterwards. Still, every attribute that a term reads is there,
unless a closing brace in the name of a source breaks up the placeholders.
-/

namespace RmlAlgebra

/-- The attributes of a projection are those that the given term maps and columns need, each once and
in increasing order. -/
structure Projection.Covers (p : Projection) (terms : List TermMap) (columns : List String) :
    Prop where
  increasing : p.attributes.Pairwise (· < ·)
  mem_iff : ∀ a, a ∈ p.attributes ↔ (∃ t ∈ terms, a ∈ t.references) ∨ a ∈ columns

theorem Projection.covers_reading (terms : List TermMap) (columns : List String) (source : String) :
    (reading terms columns source).Covers terms columns where
  increasing := Text.pairwise_sortedSet _
  mem_iff a := by rw [reading, Text.mem_sortedSet, List.mem_append, List.mem_flatMap]

/-- A term map that reads the attributes of another one under a qualifier, where all of these are
projected. -/
structure TermMap.ReadsAs (written t : TermMap) (qualifier : String) (p : Projection) : Prop where
  references_eq : written.references = t.references.map (qualifier ++ "_" ++ ·)
  projected : ∀ a ∈ t.references, a ∈ p.attributes

theorem Projection.Covers.readsAs {p : Projection} {terms : List TermMap} {columns : List String}
    (h : p.Covers terms columns) {t : TermMap} (ht : t ∈ terms) {qualifier : String}
    (hqualifier : '}' ∉ qualifier.toList) : (t.qualify qualifier).ReadsAs t qualifier p where
  references_eq := TermMap.references_qualify hqualifier t
  projected a ha := (h.mem_iff a).mpr (.inl ⟨t, ht, ha⟩)

namespace Graph

variable {g : Graph} {expressions : List Expression}

/-! ## A single source -/

namespace SourceRule

variable (rule : g.SourceRule)

/-- The term maps of a rule. The default graph has none. -/
def terms : List TermMap :=
  [rule.subject, rule.predicate, rule.object.term] ++ rule.graphs.reduceOption

/-- An expression that has the terms of a rule, over rows with the attributes that these read. -/
structure Reads (e : Expression) (rows : Projection) : Prop where
  relation_eq : e.relation = .source rows
  source_eq : rows.source = rule.source
  covers : rows.Covers rule.terms []
  subject_eq : e.subject = rule.subject
  predicate_eq : e.predicate = rule.predicate
  object_eq : e.object = rule.object
  graph_mem : ∀ t, e.graph = some t → some t ∈ rule.graphs

theorem reads_of_mem_planned {e : Expression} (he : e ∈ rule.planned) : rule.Reads e rule.rows := by
  obtain ⟨graph, hgraph, rfl⟩ := exists_graph_of_mem_perGraph he
  refine ⟨rfl, rfl, Projection.covers_reading _ _ _, rfl, rfl, rfl, ?_⟩
  rintro t rfl
  exact hgraph.resolve_left (by simp)

end SourceRule

/-! ## Joins -/

namespace JoinRule

variable (rule : g.JoinRule)

/-- The term maps that a rule reads from the child. The default graph has none. -/
def childTerms : List TermMap :=
  [rule.subject, rule.predicate] ++ rule.graphs.reduceOption

/-- An expression over a join of two projections, each of which has the attributes that are read from
it and the column of the condition. Without a condition the terms are those of the rule. With one they
read the same attributes under the name of the source, as long as this does not hold a closing brace. -/
structure Reads (e : Expression) (child parent : Projection) : Prop where
  relation_eq : e.relation = .join child parent rule.referencing.columns
  child_source_eq : child.source = rule.source
  parent_source_eq : parent.source = rule.referencing.source
  child_covers : child.Covers rule.childTerms
    (rule.referencing.columns.toList.map JoinColumns.child)
  parent_covers : parent.Covers [rule.referencing.object.term]
    (rule.referencing.columns.toList.map JoinColumns.parent)
  unqualified : rule.referencing.columns = none →
    e.subject = rule.subject ∧ e.predicate = rule.predicate ∧ e.object = rule.referencing.object ∧
      ∀ t, e.graph = some t → some t ∈ rule.graphs
  child_qualified : rule.referencing.columns.isSome → '}' ∉ rule.source.toList →
    e.subject.ReadsAs rule.subject rule.source child ∧
      e.predicate.ReadsAs rule.predicate rule.source child ∧
      ∀ t, e.graph = some t → ∃ u, some u ∈ rule.graphs ∧ t.ReadsAs u rule.source child
  parent_qualified : rule.referencing.columns.isSome → '}' ∉ rule.referencing.source.toList →
    e.object.term.ReadsAs rule.referencing.object.term rule.referencing.source parent

/-- The expression for a graph of the rule. -/
def expression (graph : Option TermMap) : Expression :=
  ⟨rule.referencing.read rule.source rule.subject, rule.referencing.read rule.source rule.predicate,
    rule.object, graph.map (rule.referencing.read rule.source), rule.relation⟩

theorem exists_graph_of_mem_planned {e : Expression} (he : e ∈ rule.planned) :
    ∃ graph, (∀ t, graph = some t → some t ∈ rule.graphs) ∧ e = rule.expression graph := by
  obtain ⟨graph, rfl | hgraph, rfl⟩ := exists_graph_of_mem_perGraph he
  · exact ⟨none, fun _ ht => (nomatch ht), rfl⟩
  · obtain ⟨found, hfound, rfl⟩ := List.mem_map.mp hgraph
    exact ⟨found, fun t ht => ht ▸ hfound, rfl⟩

theorem reads_of_mem_planned {e : Expression} (he : e ∈ rule.planned) :
    ∃ child parent, rule.Reads e child parent := by
  obtain ⟨graph, hgraph, rfl⟩ := rule.exists_graph_of_mem_planned he
  have hchild := Projection.covers_reading rule.childTerms
    (rule.referencing.columns.toList.map JoinColumns.child) rule.source
  have hparent := Projection.covers_reading [rule.referencing.object.term]
    (rule.referencing.columns.toList.map JoinColumns.parent) rule.referencing.source
  refine ⟨_, _, rfl, rfl, rfl, hchild, hparent, ?_, ?_, ?_⟩
  · intro hcolumns
    simp only [expression, object, Referencing.read_eq_self hcolumns, Option.map_id, id_eq]
    exact ⟨trivial, trivial, trivial, hgraph⟩
  · intro hcolumns hbrace
    obtain ⟨columns, hcolumns⟩ := Option.isSome_iff_exists.mp hcolumns
    simp only [expression, Referencing.read_eq_qualify hcolumns, Option.map_eq_some_iff]
    refine ⟨hchild.readsAs (by simp [childTerms]) hbrace,
      hchild.readsAs (by simp [childTerms]) hbrace, ?_⟩
    rintro t ⟨u, hu, rfl⟩
    have hterm : u ∈ rule.childTerms :=
      List.mem_append_right _ (mem_reduceOption.mpr (hgraph u hu))
    exact ⟨u, hgraph u hu, hchild.readsAs hterm hbrace⟩
  · intro hcolumns hbrace
    obtain ⟨columns, hcolumns⟩ := Option.isSome_iff_exists.mp hcolumns
    simp only [expression, object, Referencing.read_eq_qualify hcolumns]
    exact hparent.readsAs (List.mem_singleton_self _) hbrace

end JoinRule

/-- No attribute dangles in a plan. Every source is reduced to just those attributes that are read from
it, in increasing order, and in a join to the column of the condition besides. All graphs of the rule
are written, so the attributes of a graph are read as well. -/
theorem attributes_plan (h : g.plan = .ok expressions) :
    expressions ≠ [] ∧
      if g.countPredicate R2rml.subjectMap = 2 then
        ∃ rule : g.JoinRule,
          (∀ e ∈ expressions, ∃ child parent, rule.Reads e child parent) ∧
          ∀ t, some t ∈ rule.graphs →
            ∃ e ∈ expressions, e.graph = some (rule.referencing.read rule.source t)
      else
        ∃ rule : g.SourceRule, (∀ e ∈ expressions, ∃ rows, rule.Reads e rows) ∧
          ∀ t, some t ∈ rule.graphs → ∃ e ∈ expressions, e.graph = some t := by
  unfold plan at h
  by_cases htwo : g.countPredicate R2rml.subjectMap = 2
  · rw [if_pos htwo] at h
    rw [if_pos htwo]
    obtain ⟨rule, rfl⟩ := exists_joinRule h
    refine ⟨perGraph_ne_nil _ _, rule, fun e he => rule.reads_of_mem_planned he, fun t ht => ?_⟩
    exact ⟨_, mem_perGraph (List.mem_map_of_mem ht), rfl⟩
  · rw [if_neg htwo] at h
    rw [if_neg htwo]
    obtain ⟨rule, rfl⟩ := exists_sourceRule h
    refine ⟨perGraph_ne_nil _ _, rule, fun e he => ⟨_, rule.reads_of_mem_planned he⟩, fun t ht => ?_⟩
    exact ⟨_, mem_perGraph ht, rfl⟩

set_option maxRecDepth 100000 in
/-- Subject and object of a join on columns read qualified attributes, and the sources are reduced to
the unqualified ones and the columns. -/
theorem attributes_plan_matchedOn :
    ∃ expressions, (matchedOn [("b8", "k", "l")]).plan = .ok expressions ∧ expressions ≠ [] ∧
      ∀ e ∈ expressions, e.subject.references = ["f_i"] ∧ e.object.term.references = ["h_j"] ∧
        ∃ child parent, e.relation = .join child parent (some ⟨"k", "l"⟩) ∧
          child.Covers [⟨"http://e/{i}", some .template, .iri⟩, ⟨"http://e/p", some .constant, .iri⟩]
            ["k"] ∧
          parent.Covers [⟨"http://e/{j}", some .template, .iri⟩] ["l"] := by
  have htwo : (matchedOn [("b8", "k", "l")]).countPredicate R2rml.subjectMap = 2 := by
    decide +kernel
  have hplan : (matchedOn [("b8", "k", "l")]).plan.toOption.isSome = true := by decide +kernel
  obtain ⟨expressions, hplan⟩ := exists_eq_ok_of_isSome hplan
  obtain ⟨hne, hif⟩ := attributes_plan hplan
  rw [if_pos htwo] at hif
  obtain ⟨rule, hreads, -⟩ := hif
  -- The parts of the rule are the only ones that the sub-graph has.
  have hroot : rule.root = "http://e/A" :=
    Except.ok.inj (rule.root_eq.symm.trans (toOption_eq_some_iff.mp (by decide +kernel)))
  have hpom : rule.pom = "b3" :=
    Option.some.inj (rule.pom_eq.symm.trans (by rw [hroot]; decide +kernel))
  have hnode : rule.subjectNode = "b2" :=
    Option.some.inj (rule.subjectNode_eq.symm.trans (by rw [hroot]; decide +kernel))
  have hsubject : rule.subject = ⟨"http://e/{i}", some .template, .iri⟩ :=
    Except.ok.inj (rule.subject_eq.symm.trans
      (toOption_eq_some_iff.mp (by rw [hnode]; decide +kernel)))
  have hpredicate : rule.predicate = ⟨"http://e/p", some .constant, .iri⟩ :=
    Except.ok.inj (rule.predicate_eq.symm.trans
      (toOption_eq_some_iff.mp (by rw [hpom]; decide +kernel)))
  have hreferencing : rule.referencing =
      ⟨⟨⟨"http://e/{j}", some .template, .iri⟩, none, none⟩, some ⟨"k", "l"⟩, "h"⟩ :=
    Except.ok.inj (rule.referencing_eq.symm.trans
      (toOption_eq_some_iff.mp (by rw [hpom]; decide +kernel)))
  have hsource : rule.source = "f" :=
    Option.some.inj (rule.source_eq.symm.trans (by rw [hreferencing]; decide +kernel))
  have hgraphs : rule.graphs = [] := by
    rw [JoinRule.graphs, hnode, hpom]
    decide +kernel
  refine ⟨expressions, hplan, hne, fun e he => ?_⟩
  obtain ⟨child, parent, hread⟩ := hreads e he
  have hchild := (hread.child_qualified (by rw [hreferencing]; rfl) (by rw [hsource]; decide)).1
  have hparent := hread.parent_qualified (by rw [hreferencing]; rfl) (by rw [hreferencing]; decide)
  refine ⟨?_, ?_, child, parent, by rw [hread.relation_eq, hreferencing], ?_, ?_⟩
  · rw [hchild.references_eq, hsubject, hsource]
    decide +kernel
  · rw [hparent.references_eq, hreferencing]
    decide +kernel
  · have hcovers := hread.child_covers
    rwa [JoinRule.childTerms, hsubject, hpredicate, hgraphs, hreferencing] at hcovers
  · have hcovers := hread.parent_covers
    rwa [hreferencing] at hcovers

end Graph

end RmlAlgebra
