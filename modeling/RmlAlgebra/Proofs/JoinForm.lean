import RmlAlgebra.Plan
import RmlAlgebra.Proofs.CanonicalForm

/-! # Joins

Whether a sub-graph is planned as a join depends on nothing but the number of its subject maps. An
object map that refers to a parent brings in the parent's subject map, since the traversal goes on to
the parent, unless this is the triples map itself or not a node. With one subject map on either side
and no others, the plan is a join.
-/

namespace RmlAlgebra.Graph

variable {g : Graph} {root x y p : String} {expressions : List Expression}

/-! ## The two kinds of plans -/

theorem exists_graph_of_mem_perGraph {graphs : List (Option TermMap)}
    {make : Option TermMap → Expression} {e : Expression} (h : e ∈ perGraph graphs make) :
    ∃ graph, (graph = none ∨ graph ∈ graphs) ∧ e = make graph := by
  unfold perGraph at h
  split at h
  · exact ⟨none, .inl rfl, List.mem_singleton.mp h⟩
  · obtain ⟨graph, hgraph, rfl⟩ := List.mem_map.mp (List.mem_eraseDups.mp h)
    exact ⟨graph, .inr hgraph, rfl⟩

theorem mem_perGraph {graphs : List (Option TermMap)} {make : Option TermMap → Expression}
    {graph : Option TermMap} (h : graph ∈ graphs) : make graph ∈ perGraph graphs make := by
  unfold perGraph
  split
  · cases h
  · exact List.mem_eraseDups.mpr (List.mem_map_of_mem h)

theorem perGraph_ne_nil (graphs : List (Option TermMap)) (make : Option TermMap → Expression) :
    perGraph graphs make ≠ [] := by
  cases graphs with
  | nil => exact List.cons_ne_nil _ _
  | cons graph others => exact List.ne_nil_of_mem (mem_perGraph List.mem_cons_self)

theorem mem_reduceOption {graphs : List (Option TermMap)} {t : TermMap} :
    t ∈ graphs.reduceOption ↔ some t ∈ graphs := by
  refine List.mem_filterMap.trans ⟨?_, fun h => ⟨some t, h, rfl⟩⟩
  rintro ⟨graph, hgraph, hsome⟩
  exact (show graph = some t from hsome) ▸ hgraph

/-- There is at least one expression, and what holds for every graph holds for all expressions. -/
theorem perGraph_form {form : Expression → Prop} (graphs : List (Option TermMap))
    {make : Option TermMap → Expression} (h : ∀ graph, form (make graph)) :
    perGraph graphs make ≠ [] ∧ ∀ e ∈ perGraph graphs make, form e := by
  refine ⟨perGraph_ne_nil graphs make, fun e he => ?_⟩
  obtain ⟨graph, -, rfl⟩ := exists_graph_of_mem_perGraph he
  exact h graph

theorem required_eq_ok {o : String} (h : g.required x p = .ok o) : g.firstObject? x p = some o := by
  unfold required at h
  split at h
  · next heq => rw [heq, Except.ok.inj h]
  · cases h

theorem singleObject?_eq_some_iff {o : String} :
    g.singleObject? x p = some o ↔ g.objectsOf x p = [o] := by
  unfold singleObject?
  split
  · next o' ho => simp [ho]
  · next hne => simpa using hne o

/-- What planning finds in a sub-graph that it plans over a single source. -/
structure SourceRule (g : Graph) where
  root : String
  pom : String
  subjectNode : String
  subject : TermMap
  predicate : TermMap
  object : ObjectMap
  source : String
  root_eq : g.root = .ok root
  pom_eq : g.firstObject? root R2rml.predicateObjectMap = some pom
  subjectNode_eq : g.firstObject? root R2rml.subjectMap = some subjectNode
  subject_eq : g.subjectMap subjectNode = .ok subject
  predicate_eq : g.predicateMap pom = .ok predicate
  object_eq : g.objectMap pom = .ok object
  source_eq : g.sources.head? = some source

namespace SourceRule

variable (rule : g.SourceRule)

def graphs : List (Option TermMap) :=
  g.graphMaps rule.subjectNode rule.pom

def rows : Projection :=
  .reading ([rule.subject, rule.predicate, rule.object.term] ++ rule.graphs.reduceOption) []
    rule.source

def planned : List Expression :=
  perGraph rule.graphs fun graph =>
    ⟨rule.subject, rule.predicate, rule.object, graph, .source rule.rows⟩

end SourceRule

/-- Planning over a single source succeeds only with all parts of a rule, and they give its
expressions. -/
theorem exists_sourceRule (h : g.planSource = .ok expressions) :
    ∃ rule : g.SourceRule, expressions = rule.planned := by
  unfold planSource at h
  split at h
  · next source hsource =>
      obtain ⟨root, hroot, h⟩ := except_bind_eq_ok h
      obtain ⟨pom, hpom, h⟩ := except_bind_eq_ok h
      obtain ⟨subjectNode, hnode, h⟩ := except_bind_eq_ok h
      obtain ⟨subject, hsubject, h⟩ := except_bind_eq_ok h
      obtain ⟨predicate, hpredicate, h⟩ := except_bind_eq_ok h
      obtain ⟨object, hobject, h⟩ := except_bind_eq_ok h
      cases h
      exact ⟨⟨root, pom, subjectNode, subject, predicate, object, source, hroot,
        required_eq_ok hpom, required_eq_ok hnode, hsubject, hpredicate, hobject, hsource⟩, rfl⟩
  · cases h

theorem planSource_form (h : g.planSource = .ok expressions) :
    expressions ≠ [] ∧ ∀ e ∈ expressions, ∃ rows, e.relation = .source rows := by
  obtain ⟨rule, rfl⟩ := exists_sourceRule h
  exact perGraph_form _ fun graph => ⟨_, rfl⟩

/-- What an object map that refers to a parent is read from. Where there are several nodes to go to,
the first one counts. -/
theorem exists_nodes_of_referencing {pom : String} {r : Referencing}
    (h : g.referencing pom = .ok r) :
    ∃ node parent logicalSource parentSubject,
      g.firstObject? pom R2rml.objectMap = some node ∧ g.joinColumns node = .ok r.columns ∧
      g.firstObject? node R2rml.parentTriplesMap = some parent ∧
      g.firstObject? parent Rml.logicalSource = some logicalSource ∧
      g.firstObject? logicalSource Rml.source = some r.source ∧
      g.firstObject? parent R2rml.subjectMap = some parentSubject ∧
      r.object = ⟨g.inferredTermMap parentSubject, none, none⟩ := by
  unfold referencing at h
  obtain ⟨node, hnode, h⟩ := except_bind_eq_ok h
  obtain ⟨columns, hcolumns, h⟩ := except_bind_eq_ok h
  obtain ⟨parent, hparent, h⟩ := except_bind_eq_ok h
  obtain ⟨logicalSource, hlogical, h⟩ := except_bind_eq_ok h
  obtain ⟨source, hsource, h⟩ := except_bind_eq_ok h
  obtain ⟨parentSubject, hsubject, h⟩ := except_bind_eq_ok h
  cases h
  exact ⟨node, parent, logicalSource, parentSubject, required_eq_ok hnode, hcolumns,
    required_eq_ok hparent, required_eq_ok hlogical, required_eq_ok hsource, required_eq_ok hsubject,
    rfl⟩

/-- The source of the parent that the object map of a predicate-object map refers to. -/
def parentSource? (g : Graph) (pom : String) : Option String := do
  let node ← g.firstObject? pom R2rml.objectMap
  let parent ← g.firstObject? node R2rml.parentTriplesMap
  let logicalSource ← g.firstObject? parent Rml.logicalSource
  g.firstObject? logicalSource Rml.source

theorem mem_of_childSource? {sources : List String} {parentSource source : String}
    (h : childSource? sources parentSource = some source) : source ∈ sources := by
  unfold childSource? at h
  split at h
  · split at h
    · cases h
      exact List.mem_cons_self
    · exact List.mem_of_find?_eq_some h
  · exact List.mem_of_head? h

/-- A join of the source of the child with that of the parent. -/
def JoinsParent (g : Graph) (pom : String) (r : Relation) : Prop :=
  ∃ child parent columns, r = .join child parent columns ∧
    g.parentSource? pom = some parent.source ∧ childSource? g.sources parent.source = some child.source

theorem parentSource?_of_referencing {pom : String} {r : Referencing}
    (h : g.referencing pom = .ok r) : g.parentSource? pom = some r.source := by
  obtain ⟨node, parent, logicalSource, -, hnode, -, hparent, hlogical, hsource, -⟩ :=
    exists_nodes_of_referencing h
  simp only [parentSource?, Option.bind_eq_bind, hnode, hparent, hlogical, hsource,
    Option.bind_some]

/-- What planning finds in a sub-graph that it plans as a join. -/
structure JoinRule (g : Graph) where
  root : String
  pom : String
  subjectNode : String
  subject : TermMap
  predicate : TermMap
  referencing : Referencing
  source : String
  root_eq : g.root = .ok root
  pom_eq : g.firstObject? root R2rml.predicateObjectMap = some pom
  subjectNode_eq : g.firstObject? root R2rml.subjectMap = some subjectNode
  subject_eq : g.subjectMap subjectNode = .ok subject
  predicate_eq : g.predicateMap pom = .ok predicate
  referencing_eq : g.referencing pom = .ok referencing
  source_eq : childSource? g.sources referencing.source = some source

/-- A term map in a join. On a pair of columns it reads its attributes under the name of a source. -/
def Referencing.read (r : Referencing) (source : String) (t : TermMap) : TermMap :=
  r.columns.elim t fun _ => t.qualify source

theorem Referencing.read_eq_self {r : Referencing} (h : r.columns = none) (source : String) :
    r.read source = id := by
  funext t
  rw [read, h]
  rfl

theorem Referencing.read_eq_qualify {r : Referencing} {columns : JoinColumns}
    (h : r.columns = some columns) (source : String) : r.read source = TermMap.qualify source := by
  funext t
  rw [read, h]
  rfl

namespace JoinRule

variable (rule : g.JoinRule)

def graphs : List (Option TermMap) :=
  g.graphMaps rule.subjectNode rule.pom

def relation : Relation :=
  .join
    (.reading ([rule.subject, rule.predicate] ++ rule.graphs.reduceOption)
      (rule.referencing.columns.toList.map JoinColumns.child) rule.source)
    (.reading [rule.referencing.object.term]
      (rule.referencing.columns.toList.map JoinColumns.parent) rule.referencing.source)
    rule.referencing.columns

def object : ObjectMap :=
  { rule.referencing.object with
    term := rule.referencing.read rule.referencing.source rule.referencing.object.term }

/-- The expressions of a join, in one form for joins with and without columns. -/
def planned : List Expression :=
  perGraph (rule.graphs.map (Option.map (rule.referencing.read rule.source))) fun graph =>
    ⟨rule.referencing.read rule.source rule.subject, rule.referencing.read rule.source rule.predicate,
      rule.object, graph, rule.relation⟩

end JoinRule

/-- Planning a join succeeds only with all parts of a rule, and they give its expressions. -/
theorem exists_joinRule (h : g.planJoin = .ok expressions) :
    ∃ rule : g.JoinRule, expressions = rule.planned := by
  unfold planJoin at h
  obtain ⟨root, hroot, h⟩ := except_bind_eq_ok h
  obtain ⟨pom, hpom, h⟩ := except_bind_eq_ok h
  obtain ⟨subjectNode, hnode, h⟩ := except_bind_eq_ok h
  obtain ⟨subject, hsubject, h⟩ := except_bind_eq_ok h
  obtain ⟨predicate, hpredicate, h⟩ := except_bind_eq_ok h
  obtain ⟨referencing, hreferencing, h⟩ := except_bind_eq_ok h
  split at h
  · next source hsource =>
      refine ⟨⟨root, pom, subjectNode, subject, predicate, referencing, source, hroot,
        required_eq_ok hpom, required_eq_ok hnode, hsubject, hpredicate, hreferencing, hsource⟩, ?_⟩
      split at h
      · next hcolumns =>
          cases h
          simp only [JoinRule.planned, JoinRule.graphs, JoinRule.object, JoinRule.relation,
            Referencing.read_eq_self hcolumns, Option.map_id, List.map_id, id_eq]
      · next columns hcolumns =>
          cases h
          simp only [JoinRule.planned, JoinRule.graphs, JoinRule.object, JoinRule.relation,
            Referencing.read_eq_qualify hcolumns]
  · cases h

theorem planJoin_form (h : g.planJoin = .ok expressions) :
    ∃ owner pom, ⟨owner, R2rml.predicateObjectMap, pom⟩ ∈ g ∧ expressions ≠ [] ∧
      ∀ e ∈ expressions, g.JoinsParent pom e.relation := by
  obtain ⟨rule, rfl⟩ := exists_joinRule h
  have hlink : ⟨rule.root, R2rml.predicateObjectMap, rule.pom⟩ ∈ g :=
    mem_objectsOf.mp (List.mem_of_head? rule.pom_eq)
  have hparent := parentSource?_of_referencing rule.referencing_eq
  exact ⟨rule.root, rule.pom, hlink,
    perGraph_form _ fun graph => ⟨_, _, _, rfl, hparent, rule.source_eq⟩⟩

/-! ## Counting subject maps -/

theorem eq_of_countPredicate_le_one (h : g.countPredicate p ≤ 1) {t u : Triple} (ht : t ∈ g)
    (hu : u ∈ g) (htp : t.predicate = p) (hup : u.predicate = p) : t = u := by
  have hlength : (g.filter (·.predicate == p)).length ≤ 1 := by
    rwa [← List.countP_eq_length_filter]
  have ht' : t ∈ g.filter (·.predicate == p) := List.mem_filter.mpr ⟨ht, beq_iff_eq.mpr htp⟩
  have hu' : u ∈ g.filter (·.predicate == p) := List.mem_filter.mpr ⟨hu, beq_iff_eq.mpr hup⟩
  match hfilter : g.filter (·.predicate == p) with
  | [] =>
      rw [hfilter] at ht'
      cases ht'
  | [v] =>
      rw [hfilter, List.mem_singleton] at ht' hu'
      rw [ht', hu']
  | v :: v' :: others =>
      rw [hfilter, List.length_cons, List.length_cons] at hlength
      omega

/-- If only two nodes have a property, it is there as often as these two have it. -/
theorem countPredicate_eq_add (hne : x ≠ y)
    (h : ∀ t ∈ g, t.predicate = p → t.subject = x ∨ t.subject = y) :
    g.countPredicate p = (g.objectsOf x p).length + (g.objectsOf y p).length := by
  rw [length_objectsOf_eq_countP, length_objectsOf_eq_countP, countPredicate]
  induction g with
  | nil => rfl
  | cons t others ih =>
      rw [List.forall_mem_cons] at h
      rw [List.countP_cons, List.countP_cons, List.countP_cons, ih h.2]
      by_cases hp : t.predicate = p
      · rcases h.1 hp with hs | hs
        · simp [hp, hs, hne]
          omega
        · simp [hp, hs, hne.symm]
          omega
      · simp [hp]

/-- The plan of a graph with one link to a predicate-object map: its relations are joins with the
parent if there are two subject maps, and single sources otherwise. -/
theorem plan_form {owner pom : String} (hle : g.countPredicate R2rml.predicateObjectMap ≤ 1)
    (hlink : ⟨owner, R2rml.predicateObjectMap, pom⟩ ∈ g) (h : g.plan = .ok expressions) :
    expressions ≠ [] ∧
      if g.countPredicate R2rml.subjectMap = 2 then
        ∀ e ∈ expressions, g.JoinsParent pom e.relation
      else ∀ e ∈ expressions, ∃ rows, e.relation = .source rows := by
  unfold plan at h
  by_cases htwo : g.countPredicate R2rml.subjectMap = 2
  · rw [if_pos htwo] at h
    rw [if_pos htwo]
    obtain ⟨owner', pom', hlink', hjoins⟩ := planJoin_form h
    -- There is one link only, so the planned predicate-object map is the given one.
    cases eq_of_countPredicate_le_one hle hlink' hlink rfl rfl
    exact hjoins
  · rw [if_neg htwo] at h
    rw [if_neg htwo]
    exact planSource_form h

/-! ## Referring to a parent -/

/-- The predicate-object map of a triples map has an object map that names a parent. -/
structure Refers (g : Graph) (owner pom node parent : String) : Prop where
  link : ⟨owner, R2rml.predicateObjectMap, pom⟩ ∈ g
  object : ⟨pom, R2rml.objectMap, node⟩ ∈ g
  parent : ⟨node, R2rml.parentTriplesMap, parent⟩ ∈ g

instance (g : Graph) (owner pom node parent : String) : Decidable (g.Refers owner pom node parent) :=
  decidable_of_iff (⟨owner, R2rml.predicateObjectMap, pom⟩ ∈ g ∧ ⟨pom, R2rml.objectMap, node⟩ ∈ g ∧
      ⟨node, R2rml.parentTriplesMap, parent⟩ ∈ g)
    ⟨fun h => ⟨h.1, h.2.1, h.2.2⟩, fun h => ⟨h.link, h.object, h.parent⟩⟩

theorem isLink_parent (node parent : String) :
    isLink ⟨node, R2rml.parentTriplesMap, parent⟩ = isNode parent := by
  have hvalue : valuePredicates.contains R2rml.parentTriplesMap = false := by decide
  rw [isLink, hvalue, Bool.not_false, Bool.and_true]

theorem Refers.countPredicate_reachable {owner pom node parent : String}
    (h : (g.reachable root).Refers owner pom node parent) (hnode : isNode parent = true)
    (hne : parent ≠ owner) (howner : (g.objectsOf owner R2rml.subjectMap).length = 1)
    (hparent : (g.objectsOf parent R2rml.subjectMap).length = 1)
    (hothers : ∀ t ∈ g.reachable root, t.predicate = R2rml.subjectMap →
      t.subject = owner ∨ t.subject = parent) :
    (g.reachable root).countPredicate R2rml.subjectMap = 2 := by
  have hwalked := walked g root
  have hvisited : owner ∈ (g.walk root).visited := (hwalked.mem _ h.link).2
  have hreached : parent ∈ (g.walk root).visited := by
    refine (hwalked.closed _ h.parent ?_).resolve_right List.not_mem_nil
    rw [isLink_parent, hnode]
  rw [countPredicate_eq_add hne.symm hothers, objectsOf_reachable (by decide) hvisited,
    objectsOf_reachable (by decide) hreached, howner, hparent]

/-- A sub-graph with an object map that refers to a parent is planned as a join with the parent if it
has two subject maps, and over a single source otherwise. It has two if the parent is a node other than
the triples map itself, both have one subject map, and no third node has one. -/
theorem plan_of_refers {seed : UInt32} {subs : List Graph} (h : g.normalize seed = .ok subs)
    {sub : Graph} (hsub : sub ∈ subs) {owner pom node parent : String}
    (hrefers : sub.Refers owner pom node parent) (hplan : sub.plan = .ok expressions) :
    expressions ≠ [] ∧
      (if sub.countPredicate R2rml.subjectMap = 2 then
        ∀ e ∈ expressions, sub.JoinsParent pom e.relation
      else ∀ e ∈ expressions, ∃ rows, e.relation = .source rows) ∧
      (isNode parent = true → parent ≠ owner →
        (∀ x ∈ [owner, parent],
          ((g.spellOut (g.supply seed)).1.objectsOf x R2rml.subjectMap).length = 1) →
        (∀ t ∈ sub, t.predicate = R2rml.subjectMap → t.subject = owner ∨ t.subject = parent) →
        sub.countPredicate R2rml.subjectMap = 2) := by
  rw [← (normalize_eq_ok_iff.mp h).2.2] at hsub
  obtain ⟨root, -, hreach, -⟩ := mem_subGraphs hsub
  have hle : sub.countPredicate R2rml.predicateObjectMap ≤ 1 := by
    rw [hreach]
    exact countPredicate_reachable_le _ root
  obtain ⟨hne, hform⟩ := plan_form hle hrefers.link hplan
  refine ⟨hne, hform, ?_⟩
  intro hnode hparent hone hothers
  rw [hreach] at hrefers hothers ⊢
  exact hrefers.countPredicate_reachable hnode hparent (hone owner (by simp))
    (hone parent (by simp)) hothers

/-- A triples map that refers to another one, with a join condition. -/
def parentMapping : Graph :=
  [⟨"http://e/A", Rdf.type, R2rml.triplesMap⟩, ⟨"http://e/A", Rml.logicalSource, "b1"⟩,
    ⟨"b1", Rml.source, "f"⟩, ⟨"http://e/A", R2rml.subjectMap, "b2"⟩,
    ⟨"b2", R2rml.template, "http://e/{i}"⟩, ⟨"http://e/A", R2rml.predicateObjectMap, "b3"⟩,
    ⟨"b3", R2rml.predicate, "http://e/p"⟩, ⟨"b3", R2rml.objectMap, "b4"⟩,
    ⟨"b4", R2rml.parentTriplesMap, "http://e/B"⟩, ⟨"b4", R2rml.joinCondition, "b5"⟩,
    ⟨"b5", R2rml.child, "k"⟩, ⟨"b5", R2rml.parent, "j"⟩,
    ⟨"http://e/B", Rdf.type, R2rml.triplesMap⟩, ⟨"http://e/B", Rml.logicalSource, "b6"⟩,
    ⟨"b6", Rml.source, "h"⟩, ⟨"http://e/B", R2rml.subject, "http://e/b"⟩]

set_option maxRecDepth 100000 in
theorem plan_of_refers_parentMapping :
    ∃ subs, parentMapping.normalize 7 = .ok subs ∧ ∃ sub ∈ subs,
      sub.Refers "http://e/A" "b3" "b4" "http://e/B" ∧
      ∃ expressions, sub.plan = .ok expressions ∧ expressions ≠ [] ∧
        ∀ e ∈ expressions, sub.JoinsParent "b3" e.relation := by
  have hsubs : ∃ subs, parentMapping.normalize 7 = .ok subs ∧ ∃ sub ∈ subs,
      sub.Refers "http://e/A" "b3" "b4" "http://e/B" ∧ sub.plan.toOption.isSome ∧
        ∀ t ∈ sub, t.predicate = R2rml.subjectMap →
          t.subject = "http://e/A" ∨ t.subject = "http://e/B" := by
    simp only [normalize_eq_ok_iff]
    exact ⟨_, ⟨by decide +kernel, by decide +kernel, rfl⟩, by decide +kernel⟩
  obtain ⟨subs, hsubs, sub, hsub, hrefers, hsome, hothers⟩ := hsubs
  obtain ⟨expressions, hexpressions⟩ := Option.isSome_iff_exists.mp hsome
  have hplan : sub.plan = .ok expressions := toOption_eq_some_iff.mp hexpressions
  obtain ⟨hne, hform, hcount⟩ := plan_of_refers hsubs hsub hrefers hplan
  rw [if_pos (hcount (by decide) (by decide) (by decide +kernel) hothers)] at hform
  exact ⟨subs, hsubs, sub, hsub, hrefers, expressions, hplan, hne, hform⟩

/-- A triples map that refers to itself. -/
def selfMapping : Graph :=
  [⟨"http://e/A", Rdf.type, R2rml.triplesMap⟩, ⟨"http://e/A", Rml.logicalSource, "b1"⟩,
    ⟨"b1", Rml.source, "f"⟩, ⟨"http://e/A", R2rml.subjectMap, "b2"⟩,
    ⟨"b2", R2rml.template, "http://e/{i}"⟩, ⟨"http://e/A", R2rml.predicateObjectMap, "b3"⟩,
    ⟨"b3", R2rml.predicate, "http://e/p"⟩, ⟨"b3", R2rml.objectMap, "b4"⟩,
    ⟨"b4", R2rml.parentTriplesMap, "http://e/A"⟩]

set_option maxRecDepth 100000 in
/-- An object map that refers to its own triples map is planned over a single source. -/
theorem selfMapping_not_joined :
    ¬∀ (g : Graph) (seed : UInt32) (subs : List Graph) (sub : Graph)
        (owner pom node parent : String) (expressions : List Expression),
        g.normalize seed = .ok subs → sub ∈ subs → sub.Refers owner pom node parent →
        sub.plan = .ok expressions →
        ∀ e ∈ expressions, ∃ child parent columns, e.relation = .join child parent columns := by
  intro hall
  have hsubs : ∃ subs, selfMapping.normalize 7 = .ok subs ∧ ∃ sub ∈ subs,
      sub.Refers "http://e/A" "b3" "b4" "http://e/A" ∧
      sub.plan.toOption = some [⟨⟨"http://e/{i}", some .template, .iri⟩,
        ⟨"http://e/p", some .constant, .iri⟩, ⟨⟨"", none, .literal⟩, none, none⟩, none,
        .source ⟨["i"], "f"⟩⟩] := by
    simp only [normalize_eq_ok_iff]
    exact ⟨_, ⟨by decide +kernel, by decide +kernel, rfl⟩, by decide +kernel⟩
  obtain ⟨subs, hsubs, sub, hsub, hrefers, hplan⟩ := hsubs
  obtain ⟨child, parent, columns, hjoin⟩ :=
    hall _ _ _ _ _ _ _ _ _ hsubs hsub hrefers (toOption_eq_some_iff.mp hplan) _
      (List.mem_singleton_self _)
  cases hjoin

end RmlAlgebra.Graph
