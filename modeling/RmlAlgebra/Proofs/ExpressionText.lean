import RmlAlgebra.Proofs.ParentSubject
import RmlAlgebra.Proofs.Relabelling
import RmlAlgebra.Proofs.TemplateParts

/-! # Expressions as text

Values go into the text of an expression as they are. Whatever they hold, they cannot break the line
if they have no line feed, and the objects of a graph that was read from text have none. The
expressions of one plan differ in their graphs only, and the graph of an expression can be told from
its text.
-/

namespace RmlAlgebra

namespace Text

def Unbroken (text : String) : Prop :=
  '\n' ∉ text.toList

@[simp] theorem unbroken_append {x y : String} : Unbroken (x ++ y) ↔ Unbroken x ∧ Unbroken y := by
  simp [Unbroken]

/-- The text behind the last separator and the text before it are both determined. -/
theorem append_cons_inj {c : Char} {xs ys as bs : List Char} (has : c ∉ as) (hbs : c ∉ bs)
    (h : xs ++ c :: as = ys ++ c :: bs) : xs = ys ∧ as = bs := by
  rcases List.append_eq_append_iff.mp h with ⟨more, rfl, hmore⟩ | ⟨more, rfl, hmore⟩
  · cases more with
    | nil => simpa using hmore
    | cons d ds =>
        rw [List.cons_append, List.cons.injEq] at hmore
        exact absurd (hmore.2 ▸ List.mem_append_right ds List.mem_cons_self) has
  · cases more with
    | nil => simpa [eq_comm] using hmore
    | cons d ds =>
        rw [List.cons_append, List.cons.injEq] at hmore
        exact absurd (hmore.2 ▸ List.mem_append_right ds List.mem_cons_self) hbs

end Text

open Text (Unbroken)

/-! ## Templates -/

namespace Template

theorem mem_of_mem_toChars {template : List Char} {part : Part} {c : Char}
    (hpart : part ∈ parts template) (hc : c ∈ part.toChars) : c ∈ template := by
  have hall : c ∈ ofParts (parts template) := List.mem_flatMap.mpr ⟨part, hpart, hc⟩
  rwa [ofParts_parts] at hall

theorem unbroken_of_mem_references {template name : String} (h : Unbroken template)
    (hname : name ∈ references template) : Unbroken name := by
  rw [references_eq_parts] at hname
  obtain ⟨chars, hchars, rfl⟩ := List.mem_map.mp hname
  obtain ⟨part, hpart, heq⟩ := List.mem_filterMap.mp hchars
  cases part with
  | char c => cases heq
  | placeholder _ =>
      cases heq
      intro hbreak
      rw [String.toList_ofList] at hbreak
      exact h (mem_of_mem_toChars hpart (by simp [Part.toChars, hbreak]))

theorem unbroken_qualify {qualifier template : String} (hqualifier : Unbroken qualifier)
    (h : Unbroken template) : Unbroken (qualify qualifier template) := by
  intro hbreak
  rw [qualify_eq_parts, String.toList_ofList, ofParts, List.flatMap_map] at hbreak
  obtain ⟨part, hpart, hc⟩ := List.mem_flatMap.mp hbreak
  cases part with
  | char c => exact h (mem_of_mem_toChars hpart hc)
  | placeholder name =>
      have hname : '\n' ∉ (Part.placeholder name).toChars :=
        fun hc => h (mem_of_mem_toChars hpart hc)
      rw [Unbroken] at hqualifier
      simp_all [Part.qualify, Part.toChars]

end Template

/-! ## The texts in an expression -/

namespace TermMap

variable {t : TermMap}

theorem unbroken_of_mem_references (h : Unbroken t.value) {name : String}
    (hname : name ∈ t.references) : Unbroken name := by
  unfold references at hname
  split at hname
  · exact Template.unbroken_of_mem_references h hname
  · rw [List.mem_singleton] at hname
    rwa [hname]
  · cases hname

theorem unbroken_qualify {qualifier : String} (hqualifier : Unbroken qualifier)
    (h : Unbroken t.value) : Unbroken (t.qualify qualifier).value := by
  unfold qualify
  split
  · exact Template.unbroken_qualify hqualifier h
  · simp [hqualifier, h, show Unbroken "_" by simp [Unbroken]]
  · exact h

theorem unbroken_kind (kind : Option Kind) : Unbroken (kind.elim "" Kind.name) := by
  cases kind with
  | none => simp [Unbroken]
  | some kind => cases kind <;> simp [Unbroken, Kind.name]

theorem unbroken_type (type : TermType) : Unbroken type.name := by
  cases type <;> simp [Unbroken, TermType.name]

theorem unbroken_render_iff : Unbroken t.render ↔ Unbroken t.value := by
  have hcomma : Unbroken "," := by simp [Unbroken]
  simp [render, hcomma, unbroken_kind, unbroken_type]

end TermMap

/-- The texts of an object map, which go into its rendered form as they are. -/
def ObjectMap.texts (o : ObjectMap) : List String :=
  o.term.value :: (o.language.toList ++ o.datatype.toList)

def Projection.texts (p : Projection) : List String :=
  p.source :: p.attributes

def JoinColumns.texts (columns : JoinColumns) : List String :=
  [columns.child, columns.parent]

def Relation.texts : Relation → List String
  | source rows => rows.texts
  | join child parent columns =>
      child.texts ++ parent.texts ++ columns.toList.flatMap JoinColumns.texts

/-- The texts of an expression, which go into its rendered form as they are. -/
def Expression.texts (e : Expression) : List String :=
  e.subject.value :: e.predicate.value ::
    (e.object.texts ++ e.graph.toList.map TermMap.value ++ e.relation.texts)

theorem ObjectMap.unbroken_render_iff {o : ObjectMap} :
    Unbroken o.render ↔ ∀ x ∈ o.texts, Unbroken x := by
  have hcomma : Unbroken "," := by simp [Unbroken]
  have hgetD (text : Option String) :
      Unbroken (text.getD "None") ↔ ∀ x ∈ text.toList, Unbroken x := by
    cases text with
    | none => simp [Unbroken]
    | some text => simp
  simp only [render, texts, Text.unbroken_append, TermMap.unbroken_render_iff, hgetD, hcomma,
    List.forall_mem_cons, List.forall_mem_append, and_true, and_assoc]

theorem Text.unbroken_intercalate {texts : List String} :
    Unbroken (",".intercalate texts) ↔ ∀ x ∈ texts, Unbroken x := by
  induction texts with
  | nil => simp [Unbroken]
  | cons x others ih =>
      cases others with
      | nil => simp
      | cons y others =>
          have hcomma : Unbroken "," := by simp [Unbroken]
          rw [String.intercalate_cons_cons, unbroken_append, unbroken_append, ih]
          simp only [hcomma, and_true, List.forall_mem_cons]

theorem Projection.unbroken_render_iff {p : Projection} :
    Unbroken p.render ↔ ∀ x ∈ p.texts, Unbroken x := by
  have hmarks : Unbroken "pi[" ∧ Unbroken "](" ∧ Unbroken ")" := by simp [Unbroken]
  simp only [render, texts, Text.unbroken_append, Text.unbroken_intercalate, hmarks,
    List.forall_mem_cons, and_true, true_and]
  exact and_comm

theorem Relation.unbroken_render_iff {r : Relation} :
    Unbroken r.render ↔ ∀ x ∈ r.texts, Unbroken x := by
  cases r with
  | source rows => exact Projection.unbroken_render_iff
  | join child parent columns =>
      have hmarks : Unbroken "(" ∧ Unbroken ")" ∧ Unbroken ") bowtie (" ∧ Unbroken ") bowtie [" ∧
          Unbroken "] (" ∧ Unbroken "_" ∧ Unbroken "=" := by
        simp [Unbroken]
      cases columns with
      | none =>
          simp only [render, texts, Text.unbroken_append, Projection.unbroken_render_iff, hmarks,
            List.forall_mem_append, and_true, true_and, Option.toList_none, List.flatMap_nil,
            List.append_nil]
      | some columns =>
          simp only [render, texts, condition, JoinColumns.texts, Text.unbroken_append,
            Projection.unbroken_render_iff, Projection.texts, hmarks, List.forall_mem_append,
            List.forall_mem_cons, and_true, true_and, Option.toList_some, List.flatMap_singleton]
          grind

theorem Expression.unbroken_render_iff {e : Expression} :
    Unbroken e.render ↔ ∀ x ∈ e.texts, Unbroken x := by
  obtain ⟨subject, predicate, object, graph, relation⟩ := e
  have hmarks : Unbroken "pi[" ∧ Unbroken "](" ∧ Unbroken ")" ∧ Unbroken "," ∧
      Unbroken "create(" ∧ Unbroken ") -> " ∧ Unbroken "S" ∧ Unbroken "P" ∧ Unbroken "O" ∧
      Unbroken "G" ∧ Unbroken "" := by
    simp [Unbroken]
  have hmark : Unbroken relation.graphMark := by
    cases relation <;> simp [Unbroken, Relation.graphMark]
  cases graph with
  | none =>
      simp only [render, texts, columns, create, Text.unbroken_append, TermMap.unbroken_render_iff,
        ObjectMap.unbroken_render_iff, Relation.unbroken_render_iff, hmarks, Option.elim_none,
        List.forall_mem_append, List.forall_mem_cons, and_true, true_and, Option.toList_none,
        List.map_nil, List.append_nil, and_assoc]
  | some graph =>
      simp only [render, texts, columns, create, Text.unbroken_append, TermMap.unbroken_render_iff,
        ObjectMap.unbroken_render_iff, Relation.unbroken_render_iff, hmarks, hmark,
        Option.elim_some, List.forall_mem_append, List.forall_mem_cons, and_true, true_and,
        Option.toList_some, List.map_singleton, List.mem_singleton, forall_eq, and_assoc]

/-! ## Values come from objects -/

/-- A source reduced to some attributes has no texts but the source, the attributes that the terms
read and the given columns. -/
theorem Projection.unbroken_reading {terms : List TermMap} {columns : List String} {source : String}
    (hterms : ∀ t ∈ terms, Unbroken t.value) (hcolumns : ∀ x ∈ columns, Unbroken x)
    (hsource : Unbroken source) : ∀ x ∈ (reading terms columns source).texts, Unbroken x := by
  intro x hx
  rw [texts, reading, List.mem_cons, Text.mem_sortedSet, List.mem_append, List.mem_flatMap] at hx
  rcases hx with rfl | ⟨t, ht, href⟩ | hcolumn
  · exact hsource
  · exact TermMap.unbroken_of_mem_references (hterms t ht) href
  · exact hcolumns x hcolumn

namespace Graph

section

variable {g : Graph} {x p o node pom : String} (hg : ∀ t ∈ g, Unbroken t.object)

include hg

theorem unbroken_of_mem_objectsOf (ho : o ∈ g.objectsOf x p) : Unbroken o :=
  hg _ (mem_objectsOf.mp ho)

theorem unbroken_required (h : g.required x p = .ok o) : Unbroken o :=
  unbroken_of_mem_objectsOf hg (List.mem_of_head? (required_eq_ok h))

theorem unbroken_singleObject (h : g.singleObject? x p = some o) : Unbroken o := by
  unfold singleObject? at h
  split at h
  · next hsingle =>
      cases h
      exact unbroken_of_mem_objectsOf hg (hsingle ▸ List.mem_singleton_self o)
  · cases h

theorem unbroken_termMap (node : String) (type : TermType) :
    Unbroken (g.termMap node type).value := by
  unfold termMap
  split
  · next value h => exact unbroken_singleObject hg h
  · split
    · next value h => exact unbroken_singleObject hg h
    · split
      · next value h => exact unbroken_singleObject hg h
      · simp [Unbroken]

theorem unbroken_subjectMap {t : TermMap} (h : g.subjectMap node = .ok t) : Unbroken t.value := by
  obtain ⟨type, -, rfl⟩ := exists_type_of_subjectMap h
  exact unbroken_termMap hg node type

theorem unbroken_predicateMap {t : TermMap} (h : g.predicateMap pom = .ok t) :
    Unbroken t.value := by
  unfold predicateMap at h
  obtain ⟨node, -, h⟩ := except_bind_eq_ok h
  cases h
  exact unbroken_termMap hg node .iri

theorem unbroken_objectTerm (node : String) : Unbroken (g.objectTerm node).value := by
  unfold objectTerm
  split
  · exact unbroken_termMap hg node .literal
  · exact unbroken_termMap hg node _

theorem unbroken_objectLanguage {language : Option String}
    (h : g.objectLanguage node = .ok language) : ∀ x ∈ language.toList, Unbroken x := by
  unfold objectLanguage at h
  split at h
  · cases h
    simp
  · obtain ⟨tag, htag, h⟩ := except_bind_eq_ok h
    split at h
    · cases h
      simpa using unbroken_required hg htag
    · cases h

theorem unbroken_objectDatatype {datatype : Option String}
    (h : g.objectDatatype node = .ok datatype) : ∀ x ∈ datatype.toList, Unbroken x := by
  unfold objectDatatype at h
  split at h
  · cases h
    simp
  · obtain ⟨iri, hiri, h⟩ := except_bind_eq_ok h
    cases h
    simpa using unbroken_required hg hiri

theorem unbroken_objectMap {object : ObjectMap} (h : g.objectMap pom = .ok object) :
    ∀ x ∈ object.texts, Unbroken x := by
  unfold objectMap at h
  obtain ⟨node, -, h⟩ := except_bind_eq_ok h
  obtain ⟨language, hlanguage, h⟩ := except_bind_eq_ok h
  obtain ⟨datatype, hdatatype, h⟩ := except_bind_eq_ok h
  cases h
  rw [ObjectMap.texts, List.forall_mem_cons, List.forall_mem_append]
  exact ⟨unbroken_objectTerm hg node, unbroken_objectLanguage hg hlanguage,
    unbroken_objectDatatype hg hdatatype⟩

theorem unbroken_joinColumns {columns : Option JoinColumns} (h : g.joinColumns node = .ok columns) :
    ∀ c ∈ columns.toList, Unbroken c.child ∧ Unbroken c.parent := by
  unfold joinColumns at h
  split at h
  · cases h
    simp
  · obtain ⟨child, hchild, h⟩ := except_bind_eq_ok h
    obtain ⟨parent, hparent, h⟩ := except_bind_eq_ok h
    cases h
    simpa using ⟨unbroken_required hg hchild, unbroken_required hg hparent⟩

theorem unbroken_graphOf {owner : String} {t : TermMap} (h : g.graphOf? owner = some (some t)) :
    Unbroken t.value := by
  unfold graphOf? at h
  obtain ⟨node, -, h⟩ := Option.bind_eq_some_iff.mp h
  dsimp only at h
  split at h
  · cases h
  · split at h
    · cases h
    · cases h
      exact unbroken_termMap hg node .iri

theorem unbroken_graphMaps (subjectNode pom : String) :
    ∀ t ∈ (g.graphMaps subjectNode pom).reduceOption, Unbroken t.value := by
  intro t ht
  obtain ⟨owner, -, howner⟩ := List.mem_filterMap.mp (mem_reduceOption.mp ht)
  exact unbroken_graphOf hg howner

theorem unbroken_of_mem_sources {source : String} (h : source ∈ g.sources) : Unbroken source := by
  obtain ⟨t, ht, rfl⟩ := List.mem_map.mp h
  exact hg t (List.mem_filter.mp ht).1

theorem unbroken_referencing {r : Referencing} (h : g.referencing pom = .ok r) :
    (∀ x ∈ r.object.texts, Unbroken x) ∧
      (∀ c ∈ r.columns.toList, Unbroken c.child ∧ Unbroken c.parent) ∧ Unbroken r.source := by
  obtain ⟨node, parent, logicalSource, parentSubject, -, hcolumns, -, -, hsource, -, hobject⟩ :=
    exists_nodes_of_referencing h
  have hvalue : Unbroken (g.inferredTermMap parentSubject).value :=
    unbroken_termMap hg parentSubject .literal
  refine ⟨?_, unbroken_joinColumns hg hcolumns,
    unbroken_of_mem_objectsOf hg (List.mem_of_head? hsource)⟩
  simpa [hobject, ObjectMap.texts] using hvalue

end

/-! ## The expressions of a plan -/

/-- What all expressions of a plan have in common, and the graphs in which they differ. -/
structure Outline where
  subject : TermMap
  predicate : TermMap
  object : ObjectMap
  relation : Relation
  graphs : List (Option TermMap)

namespace Outline

variable (outline : Outline)

def expression (graph : Option TermMap) : Expression :=
  ⟨outline.subject, outline.predicate, outline.object, graph, outline.relation⟩

def expressions : List Expression :=
  perGraph outline.graphs outline.expression

structure Unbroken : Prop where
  subject : Text.Unbroken outline.subject.value
  predicate : Text.Unbroken outline.predicate.value
  object : ∀ x ∈ outline.object.texts, Text.Unbroken x
  relation : ∀ x ∈ outline.relation.texts, Text.Unbroken x
  graphs : ∀ t ∈ outline.graphs.reduceOption, Text.Unbroken t.value

variable {outline}

theorem exists_graph_of_mem {e : Expression} (h : e ∈ outline.expressions) :
    ∃ graph, (graph = none ∨ graph ∈ outline.graphs) ∧ e = outline.expression graph :=
  exists_graph_of_mem_perGraph h

theorem Unbroken.texts (h : outline.Unbroken) {e : Expression} (he : e ∈ outline.expressions) :
    ∀ x ∈ e.texts, Text.Unbroken x := by
  obtain ⟨graph, hgraph, rfl⟩ := exists_graph_of_mem he
  have hvalue : ∀ x ∈ graph.toList.map TermMap.value, Text.Unbroken x := by
    intro x hx
    obtain ⟨t, ht, rfl⟩ := List.mem_map.mp hx
    have hsome : graph = some t := Option.mem_toList.mp ht
    rcases hgraph with hnone | hmem
    · rw [hnone] at hsome
      cases hsome
    · exact h.graphs t (mem_reduceOption.mpr (hsome ▸ hmem))
  rw [Expression.texts, List.forall_mem_cons, List.forall_mem_cons, List.forall_mem_append,
    List.forall_mem_append]
  exact ⟨h.subject, h.predicate, ⟨h.object, hvalue⟩, h.relation⟩

end Outline

theorem Referencing.unbroken_read {r : Referencing} {source : String} {t : TermMap}
    (hsource : Unbroken source) (ht : Unbroken t.value) : Unbroken (r.read source t).value := by
  unfold read
  cases r.columns with
  | none => exact ht
  | some columns => exact TermMap.unbroken_qualify hsource ht

variable {g : Graph} {expressions : List Expression}

theorem exists_outline_of_planSource (h : g.planSource = .ok expressions) :
    ∃ outline : Outline, expressions = outline.expressions ∧
      ((∀ t ∈ g, Unbroken t.object) → outline.Unbroken) := by
  obtain ⟨rule, rfl⟩ := exists_sourceRule h
  refine ⟨⟨rule.subject, rule.predicate, rule.object, .source rule.rows, rule.graphs⟩, rfl, ?_⟩
  intro hg
  have hs := unbroken_subjectMap hg rule.subject_eq
  have hp := unbroken_predicateMap hg rule.predicate_eq
  have ho := unbroken_objectMap hg rule.object_eq
  have hgraphs := unbroken_graphMaps hg rule.subjectNode rule.pom
  have hrows : Unbroken rule.source := unbroken_of_mem_sources hg (List.mem_of_head? rule.source_eq)
  refine ⟨hs, hp, ho, Projection.unbroken_reading ?_ (by simp) hrows, hgraphs⟩
  rw [List.forall_mem_append]
  exact ⟨by simpa using ⟨hs, hp, ho _ List.mem_cons_self⟩, hgraphs⟩

theorem exists_outline_of_planJoin (h : g.planJoin = .ok expressions) :
    ∃ outline : Outline, expressions = outline.expressions ∧
      ((∀ t ∈ g, Unbroken t.object) → outline.Unbroken) := by
  obtain ⟨rule, rfl⟩ := exists_joinRule h
  refine ⟨⟨rule.referencing.read rule.source rule.subject,
    rule.referencing.read rule.source rule.predicate, rule.object, rule.relation,
    rule.graphs.map (Option.map (rule.referencing.read rule.source))⟩, rfl, ?_⟩
  intro hg
  have hs := unbroken_subjectMap hg rule.subject_eq
  have hp := unbroken_predicateMap hg rule.predicate_eq
  obtain ⟨ho, hcolumns, hparent⟩ := unbroken_referencing hg rule.referencing_eq
  have hsource := unbroken_of_mem_sources hg (mem_of_childSource? rule.source_eq)
  have hgraphs := unbroken_graphMaps hg rule.subjectNode rule.pom
  rw [ObjectMap.texts, List.forall_mem_cons] at ho
  refine ⟨Referencing.unbroken_read hsource hs, Referencing.unbroken_read hsource hp, ?_, ?_, ?_⟩
  · rw [ObjectMap.texts, List.forall_mem_cons]
    exact ⟨Referencing.unbroken_read hparent ho.1, ho.2⟩
  · rw [JoinRule.relation, Relation.texts, List.forall_mem_append, List.forall_mem_append]
    refine ⟨⟨Projection.unbroken_reading ?_ ?_ hsource,
      Projection.unbroken_reading ?_ ?_ hparent⟩, ?_⟩
    · rw [List.forall_mem_append]
      exact ⟨by simpa using ⟨hs, hp⟩, hgraphs⟩
    · rw [List.forall_mem_map]
      exact fun c hc => (hcolumns c hc).1
    · simpa using ho.1
    · rw [List.forall_mem_map]
      exact fun c hc => (hcolumns c hc).2
    · intro x hx
      obtain ⟨c, hc, hx⟩ := List.mem_flatMap.mp hx
      have htexts : ∀ y ∈ c.texts, Unbroken y := by simpa [JoinColumns.texts] using hcolumns c hc
      exact htexts x hx
  · intro t ht
    obtain ⟨graph, hmem, hsome⟩ := List.mem_map.mp (mem_reduceOption.mp ht)
    obtain ⟨u, rfl, rfl⟩ := Option.map_eq_some_iff.mp hsome
    exact Referencing.unbroken_read hsource (hgraphs u (mem_reduceOption.mpr hmem))

/-- The expressions of a plan have an outline, whose texts come from the objects of the graph. -/
theorem exists_outline_of_plan (h : g.plan = .ok expressions) :
    ∃ outline : Outline, expressions = outline.expressions ∧
      ((∀ t ∈ g, Unbroken t.object) → outline.Unbroken) := by
  unfold plan at h
  split at h
  · exact exists_outline_of_planJoin h
  · exact exists_outline_of_planSource h

end Graph

/-! ## Expressions that differ in their graphs -/

namespace TermMap

theorem kind_inj {k l : Option Kind} (h : k.elim "" Kind.name = l.elim "" Kind.name) : k = l := by
  rcases k with _ | _ | _ | _ <;> rcases l with _ | _ | _ | _ <;> simp_all [Kind.name]

theorem type_inj {a b : TermType} (h : a.name = b.name) : a = b := by
  cases a <;> cases b <;> simp_all [TermType.name]

/-- The kind and the type of a term map stand behind its last commas. -/
theorem render_inj {t u : TermMap} (h : t.render = u.render) : t = u := by
  have hkind (k : Option Kind) : ',' ∉ (k.elim "" Kind.name).toList := by
    rcases k with _ | _ | _ | _ <;> simp [Kind.name]
  have htype (a : TermType) : ',' ∉ a.name.toList := by
    cases a <;> simp [TermType.name]
  have hchars (t : TermMap) : t.render.toList =
      (t.value.toList ++ ',' :: (t.kind.elim "" Kind.name).toList) ++
        ',' :: t.type.name.toList := by
    simp [render]
  have hlist := congrArg String.toList h
  rw [hchars, hchars] at hlist
  obtain ⟨hfront, htypes⟩ := Text.append_cons_inj (htype _) (htype _) hlist
  obtain ⟨hvalues, hkinds⟩ := Text.append_cons_inj (hkind _) (hkind _) hfront
  obtain ⟨value, kind, type⟩ := t
  obtain ⟨value', kind', type'⟩ := u
  rw [mk.injEq]
  exact ⟨String.toList_inj.mp hvalues, kind_inj (String.toList_inj.mp hkinds),
    type_inj (String.toList_inj.mp htypes)⟩

end TermMap

namespace Graph.Outline

variable {outline : Outline}

theorem render_expression_inj {graph graph' : Option TermMap}
    (h : (outline.expression graph).render = (outline.expression graph').render) :
    graph = graph' := by
  have hgraphs : (graph.elim "" fun t =>
        outline.relation.graphMark ++ Expression.create t.render "G").toList =
      (graph'.elim "" fun t =>
        outline.relation.graphMark ++ Expression.create t.render "G").toList := by
    -- On both sides the same text stands before the graph and behind it.
    rw [← String.toList_inj] at h
    simpa [Expression.render, Expression.columns, expression] using h
  cases graph with
  | none =>
      cases graph' with
      | none => rfl
      | some u => simp [Expression.create] at hgraphs
  | some t =>
      cases graph' with
      | none => simp [Expression.create] at hgraphs
      | some u =>
          have hrender : t.render = u.render := by
            rw [← String.toList_inj]
            simpa [Expression.create] using hgraphs
          rw [TermMap.render_inj hrender]

theorem expressions_ne_nil (outline : Outline) : outline.expressions ≠ [] :=
  perGraph_ne_nil outline.graphs outline.expression

theorem nodup_expressions (outline : Outline) : outline.expressions.Nodup := by
  unfold expressions perGraph
  split
  · simp
  · exact nodup_eraseDups _

/-- Whatever tells the graphs of expressions apart is different for all expressions of a plan. -/
theorem nodup_map {β : Type} {f : Expression → β} (outline : Outline)
    (h : ∀ graph graph', f (outline.expression graph) = f (outline.expression graph') →
      graph = graph') : (outline.expressions.map f).Nodup := by
  refine List.pairwise_map.mpr (outline.nodup_expressions.imp_of_mem ?_)
  intro e e' he he' hne heq
  obtain ⟨graph, -, rfl⟩ := exists_graph_of_mem he
  obtain ⟨graph', -, rfl⟩ := exists_graph_of_mem he'
  exact hne (congrArg outline.expression (h graph graph' heq))

/-- No two expressions of a plan have the same text: repeated expressions are dropped before they are
rendered, and rendering brings no two together. -/
theorem nodup_render (outline : Outline) : (outline.expressions.map Expression.render).Nodup :=
  outline.nodup_map fun _ _ => render_expression_inj

end Graph.Outline

end RmlAlgebra
