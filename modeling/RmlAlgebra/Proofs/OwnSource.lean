import RmlAlgebra.Proofs.ParentSubject
import RmlAlgebra.Proofs.PlannedRoot

/-! # The source that is read

Planning does not ask whose source it reads. It takes the first source of the sub-graph, except that in
a join the parent's source gives way to the one behind it. This is a source of the root if the
sub-graph has no sources but those of the root and of the parent, and the parent's only once. A root
without any source, however, is not refused as long as another node has one: it reads that of its
parent.
-/

namespace RmlAlgebra.Graph

variable {g : Graph} {root pom source : String} {sources : List String} {parent : Option String}
  {expressions : List Expression}

/-! ## Picking a source -/

/-- The source that is read for the child: the first one, or the second one if the first is the
parent's and the second is not. -/
inductive Picks (parent : Option String) : List String → String → Prop where
  | first {source : String} {others : List String}
      (h : parent = some source → ∀ next ∈ others.head?, next = source) :
      Picks parent (source :: others) source
  | second {source next : String} {others : List String} (hparent : parent = some source)
      (hne : next ≠ source) : Picks parent (source :: next :: others) next

theorem Picks.mem (h : Picks parent sources source) : source ∈ sources := by
  cases h with
  | first => exact List.mem_cons_self
  | second => exact List.mem_cons_of_mem _ List.mem_cons_self

theorem Picks.unique {other : String} (h : Picks parent sources source)
    (h' : Picks parent sources other) : source = other := by
  cases h with
  | first hfirst =>
      cases h' with
      | first => rfl
      | second hparent hne => exact absurd (hfirst hparent _ rfl) hne
  | second hparent hne =>
      cases h' with
      | first hfirst => exact absurd (hfirst hparent _ rfl) hne
      | second => rfl

theorem picks_of_head? (h : sources.head? = some source) : Picks none sources source := by
  cases sources with
  | nil => cases h
  | cons first others =>
      cases h
      exact .first fun hnone => by cases hnone

/-- In a join the first two sources decide, although planning looks through all of them. -/
theorem picks_of_childSource? {parentSource : String}
    (h : childSource? sources parentSource = some source) :
    Picks (some parentSource) sources source := by
  match sources with
  | [] => cases h
  | [first] =>
      cases h
      exact .first fun _ next hnext => by cases hnext
  | first :: second :: others =>
      simp only [childSource?] at h
      split at h
      · next heq =>
          cases h
          refine .first fun _ next hnext => ?_
          cases hnext
          exact heq.symm
      · next hne =>
          by_cases hfirst : first = parentSource
          · subst hfirst
            rw [List.find?_cons_of_neg (by simp),
              List.find?_cons_of_pos (by simpa using Ne.symm hne)] at h
            cases h
            exact .second rfl (Ne.symm hne)
          · rw [List.find?_cons_of_pos (by simpa using hfirst)] at h
            cases h
            exact .first fun heq => absurd (Option.some.inj heq).symm hfirst

/-! ## The sources of a sub-graph -/

/-- The sources of a triples map. -/
def sourcesOf (g : Graph) (root : String) : List String :=
  (g.objectsOf root Rml.logicalSource).flatMap (g.objectsOf · Rml.source)

/-- The source of the parent where the sub-graph is planned as a join. -/
def joinedSource? (g : Graph) (pom : String) : Option String :=
  if g.countPredicate R2rml.subjectMap = 2 then g.parentSource? pom else none

/-- The root has a source. Besides its sources there is at most that of the parent, and only once. -/
structure SourcesApart (g : Graph) (root pom : String) : Prop where
  own : g.sourcesOf root ≠ []
  only : ∀ source ∈ g.sources, source ∈ g.sourcesOf root ∨ g.joinedSource? pom = some source
  once : ∀ parent, g.joinedSource? pom = some parent → parent ∉ g.sourcesOf root →
    g.sources.count parent ≤ 1

theorem mem_sources_of_mem_sourcesOf (h : source ∈ g.sourcesOf root) : source ∈ g.sources := by
  obtain ⟨x, -, hx⟩ := List.mem_flatMap.mp h
  refine List.mem_map.mpr ⟨_, List.mem_filter.mpr ⟨mem_objectsOf.mp hx, ?_⟩, rfl⟩
  simp

theorem SourcesApart.mem_sourcesOf (h : g.SourcesApart root pom)
    (hpicks : Picks (g.joinedSource? pom) g.sources source) : source ∈ g.sourcesOf root := by
  rcases h.only source hpicks.mem with hown | hparent
  · exact hown
  · -- The parent's source is picked only if nothing else stands beside it.
    refine Decidable.byContradiction fun hforeign => ?_
    have honce := h.once source hparent hforeign
    obtain ⟨own, hown⟩ := List.exists_mem_of_ne_nil _ h.own
    have hmem := mem_sources_of_mem_sourcesOf hown
    generalize g.sources = sources at hpicks honce hmem
    cases hpicks with
    | @first _ others hnext =>
        have hothers : own ∈ others :=
          (List.mem_cons.mp hmem).resolve_left fun heq => hforeign (heq ▸ hown)
        cases others with
        | nil => cases hothers
        | cons next others =>
            rw [hnext hparent next rfl, List.count_cons_self, List.count_cons_self] at honce
            omega
    | second hfirst hne => exact hne (Option.some.inj (hparent.symm.trans hfirst))

theorem picks_plan (h : g.plan = .ok expressions) :
    ∃ root pom source, g.root = .ok root ∧
      g.firstObject? root R2rml.predicateObjectMap = some pom ∧ expressions ≠ [] ∧
      Picks (g.joinedSource? pom) g.sources source ∧
      ∀ e ∈ expressions, e.relation.child.source = source := by
  unfold plan at h
  split at h
  · next htwo =>
      obtain ⟨rule, rfl⟩ := exists_joinRule h
      have hparent : g.joinedSource? rule.pom = some rule.referencing.source := by
        rw [joinedSource?, if_pos htwo, parentSource?_of_referencing rule.referencing_eq]
      obtain ⟨hne, hform⟩ : rule.planned ≠ [] ∧
          ∀ e ∈ rule.planned, e.relation.child.source = rule.source :=
        perGraph_form _ fun graph => rfl
      exact ⟨rule.root, rule.pom, rule.source, rule.root_eq, rule.pom_eq, hne,
        hparent ▸ picks_of_childSource? rule.source_eq, hform⟩
  · next htwo =>
      obtain ⟨rule, rfl⟩ := exists_sourceRule h
      have hparent : g.joinedSource? rule.pom = none := if_neg htwo
      obtain ⟨hne, hform⟩ : rule.planned ≠ [] ∧
          ∀ e ∈ rule.planned, e.relation.child.source = rule.source :=
        perGraph_form _ fun graph => rfl
      exact ⟨rule.root, rule.pom, rule.source, rule.root_eq, rule.pom_eq, hne,
        hparent ▸ picks_of_head? rule.source_eq, hform⟩

/-- A plan reads a source of the sub-graph. It is one of the root's own if and only if the source that
is picked by its place is; this holds if the sub-graph has no others besides that of the parent. -/
theorem reads_own_source_iff (h : g.plan = .ok expressions) :
    ∃ root pom, g.root = .ok root ∧ g.firstObject? root R2rml.predicateObjectMap = some pom ∧
      expressions ≠ [] ∧ (∀ e ∈ expressions, e.relation.child.source ∈ g.sources) ∧
      ((∀ e ∈ expressions, e.relation.child.source ∈ g.sourcesOf root) ↔
        ∃ own ∈ g.sourcesOf root, Picks (g.joinedSource? pom) g.sources own) ∧
      (g.SourcesApart root pom →
        ∀ e ∈ expressions, e.relation.child.source ∈ g.sourcesOf root) := by
  obtain ⟨root, pom, source, hroot, hpom, hne, hpicks, hsource⟩ := picks_plan h
  refine ⟨root, pom, hroot, hpom, hne, fun e he => hsource e he ▸ hpicks.mem, ⟨?_, ?_⟩, ?_⟩
  · intro hall
    obtain ⟨e, he⟩ := List.exists_mem_of_ne_nil _ hne
    exact ⟨source, hsource e he ▸ hall e he, hpicks⟩
  · rintro ⟨own, hown, hpicked⟩ e he
    rwa [hsource e he, hpicks.unique hpicked]
  · intro hapart e he
    rw [hsource e he]
    exact hapart.mem_sourcesOf hpicks

set_option maxRecDepth 100000 in
/-- In the sub-graph of the first triples map the parent's source comes first, and gives way. -/
theorem reads_own_source_crossMapping :
    (crossMapping.reachable "http://e/A").sources = ["h", "f"] ∧
      ∃ expressions, (crossMapping.reachable "http://e/A").plan = .ok expressions ∧
        expressions ≠ [] ∧ ∀ e ∈ expressions, e.relation.child.source = "f" := by
  -- One evaluation of the sub-graph serves all that is asked of it.
  have hfacts : ∃ sub, crossMapping.reachable "http://e/A" = sub ∧ sub.plan.toOption.isSome = true ∧
      sub.root.toOption = some "http://e/A" ∧ sub.sources = ["h", "f"] ∧
      sub.firstObject? "http://e/A" R2rml.predicateObjectMap = some "b2" ∧
      sub.sourcesOf "http://e/A" = ["f"] ∧ sub.joinedSource? "b2" = some "h" :=
    ⟨_, rfl, by decide +kernel⟩
  obtain ⟨sub, hsub, hplan, hroot, hsources, hlink, hown, hparent⟩ := hfacts
  rw [hsub]
  obtain ⟨expressions, hplan⟩ := exists_eq_ok_of_isSome hplan
  obtain ⟨root, pom, hfound, hpom, hne, -, -, hreads⟩ := reads_own_source_iff hplan
  obtain rfl : root = "http://e/A" :=
    Except.ok.inj (hfound.symm.trans (toOption_eq_some_iff.mp hroot))
  obtain rfl : pom = "b2" := Option.some.inj (hpom.symm.trans hlink)
  have hapart : sub.SourcesApart "http://e/A" "b2" := by
    refine ⟨by rw [hown]; decide, by rw [hown, hparent, hsources]; decide, fun parent h _ => ?_⟩
    obtain rfl : "h" = parent := Option.some.inj (hparent.symm.trans h)
    rw [hsources]
    decide
  refine ⟨hsources, expressions, hplan, hne, fun e he => ?_⟩
  exact List.mem_singleton.mp (hown ▸ hreads hapart e he)

set_option maxRecDepth 100000 in
/-- A root without a source reads that of its parent. -/
theorem root_without_source_planned :
    ¬∀ (g : Graph) (expressions : List Expression) (root : String),
        g.plan = .ok expressions → g.root = .ok root →
        ∀ e ∈ expressions, e.relation.child.source ∈ g.sourcesOf root := by
  intro hall
  have hplan : (joinedTo [(R2rml.template, "{j}")]).plan.toOption =
      some [⟨⟨"http://e/{i}", some .template, .iri⟩, ⟨"http://e/p", some .constant, .iri⟩,
        ⟨⟨"{j}", some .template, .iri⟩, none, none⟩, none,
        .join ⟨["i"], "f"⟩ ⟨["j"], "f"⟩ none⟩] := by
    decide +kernel
  have hreads := hall _ _ "http://e/A" (toOption_eq_some_iff.mp hplan)
    (toOption_eq_some_iff.mp (by decide +kernel)) _ (List.mem_singleton_self _)
  exact absurd hreads (by decide +kernel)

end RmlAlgebra.Graph
