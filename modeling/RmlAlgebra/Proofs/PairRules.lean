import RmlAlgebra.Proofs.Arrangement
import RmlAlgebra.Proofs.PairRows

/-! # Multiplying out keeps the rules

A rule of a spelled-out graph is a row with what its triples map says about subject and source.
Multiplying out keeps the rows and the triples maps, so the rules are the same but come in another
order.
-/

namespace RmlAlgebra.Graph

variable {g : Graph} {supply : Supply} {pom : String}

/-! ## Rules as pairs -/

/-- The rule for a pair of a predicate map and an object map. -/
def pairRule (g : Graph) (triplesMap pom : String) (pair : String × String) : MappingRule where
  triplesMap := triplesMap
  subject := ((g.properties triplesMap).under R2rml.subjectMap).head?
  source := ((g.properties triplesMap).under Rml.logicalSource).head?
  predicate := .node pair.1
  object := .node pair.2
  others := (g.others pom).map fun t => (t.predicate, .node t.object)

theorem Spelled.under_properties (h : g.Spelled) {p : String} (hp : p ≠ R2rml.predicateObjectMap)
    (x : String) : (g.properties x).under p = (g.objectsOf x p).map .node := by
  rw [h.properties_eq, Properties.under, objectsOf_eq_plain hp, List.filter_map, List.map_map,
    List.map_map]
  rfl

/-- In a graph without shortcuts, the rules at a link are those for the pairs. -/
theorem Spelled.linkRules_eq (h : g.Spelled) (t : Triple) :
    g.linkRules t = (g.pairs t.object).map (g.pairRule t.subject t.object) := by
  have hothers : (g.properties t.object).filter
      (fun x => x.1 != R2rml.predicateMap && x.1 != R2rml.objectMap) =
      (g.others t.object).map fun t => (t.predicate, .node t.object) := by
    rw [h.properties_eq, others, List.filter_map]
    rfl
  have hpredicates := h.under_properties (p := R2rml.predicateMap) (by decide) t.object
  have hobjects := h.under_properties (p := R2rml.objectMap) (by decide) t.object
  rw [linkRules, MappingRule.product, hpredicates, hobjects, hothers, pairs, List.map_flatMap,
    List.flatMap_map]
  simp only [List.map_map, Function.comp_def, pairRule]

theorem linkRules_eq_of_plain {k : Graph} (hg : g.Spelled) (hk : k.Spelled) {t : Triple}
    (hs : k.plain t.subject = g.plain t.subject) (ho : k.plain t.object = g.plain t.object) :
    k.linkRules t = g.linkRules t := by
  rw [linkRules, linkRules, hg.properties_eq, hg.properties_eq, hk.properties_eq, hk.properties_eq,
    hs, ho]

/-- The rule that a row stands for. -/
def rowRule (g : Graph) (row : PairRow) : MappingRule where
  triplesMap := row.parent
  subject := ((g.properties row.parent).under R2rml.subjectMap).head?
  source := ((g.properties row.parent).under Rml.logicalSource).head?
  predicate := .node row.predicateMap
  object := .node row.objectMap
  others := row.others.map fun x => (x.1, .node x.2)

theorem Linkless.rowRule_pairRow (h : g.Linkless pom) (triplesMap : String) (pair : String × String) :
    g.rowRule (g.pairRow triplesMap pom pair) = g.pairRule triplesMap pom pair := by
  rw [pairRow, h.otherProperties_eq, rowRule, pairRule, List.map_map]
  rfl

/-! ## One predicate-object map -/

theorem Arranged.flat (hg : g.Arranged) : g.Flat :=
  fun t ht hlink u hu hlinkU hs => hg.undeclared t ht hlink (hs ▸ hg.owner u hu hlinkU)

theorem Arranged.rules_eq_map (hg : g.Arranged) : g.rules = g.pairRows.map g.rowRule := by
  rw [hg.spelled.rules_eq, pairRows, List.map_flatMap]
  apply List.flatMap_congr
  intro t ht
  obtain ⟨hmem, hlink⟩ := List.mem_filter.mp ht
  rw [hg.spelled.linkRules_eq, linkRows, List.map_map]
  apply List.map_congr_left
  intro pair _
  exact ((hg.flat t hmem hlink).rowRule_pairRow t.subject pair).symm

/-- Multiplying out a predicate-object map keeps the rules. -/
theorem Arranged.rules_multiplyOut (hg : g.Arranged) (hbefore : g.Before supply) {parent : String}
    (hparent : ⟨parent, R2rml.predicateObjectMap, pom⟩ ∈ g)
    (hlimit : (g.multiplyOut (g.subjectsWith R2rml.predicateObjectMap pom) pom supply).2.last <
      UInt64.size) :
    (g.multiplyOut (g.subjectsWith R2rml.predicateObjectMap pom) pom supply).1.rules.Perm
      g.rules := by
  have hk := hg.multiplyOut hbefore hparent hlimit
  have hrows := hg.flat.pairRows_multiplyOut hbefore hparent hlimit
  have hframe {x : String} (hx : supply.Older x) (hne : x ≠ pom) :
      plain (g.multiplyOut (g.subjectsWith R2rml.predicateObjectMap pom) pom supply).1 x =
        g.plain x := plain_multiplyOut hx hne hlimit
  generalize (g.multiplyOut (g.subjectsWith R2rml.predicateObjectMap pom) pom supply).1 = k at *
  have hrule : ∀ row ∈ g.pairRows, k.rowRule row = g.rowRule row := by
    intro row hrow
    obtain ⟨t, ht, hlink, hs⟩ := exists_link_of_mem_pairRows hrow
    have hne : t.subject ≠ pom :=
      hg.ne_of_mem_triplesMaps hparent (beq_self_eq_true _) (hg.owner t ht hlink)
    have hplain := hframe (hbefore t ht).1 hne
    rw [hs] at hplain
    rw [rowRule, rowRule, hg.spelled.properties_eq, hk.spelled.properties_eq, hplain]
  rw [hk.rules_eq_map, hg.rules_eq_map, ← List.map_congr_left hrule]
  exact hrows.map _

/-! ## All predicate-object maps -/

/-- What becomes of a graph when a list of its predicate-object maps is multiplied out. -/
structure MultipliedOut (g : Graph) (supply : Supply) (poms : List String) (k : Graph) :
    Prop where
  arranged : k.Arranged
  triplesMaps : k.triplesMaps = g.triplesMaps
  rules : k.rules.Perm g.rules
  plain : ∀ x, supply.Older x → x ∉ poms → k.plain x = g.plain x
  single : ∀ t ∈ k, isPredicateObjectMap t = true → k.Single t.object
  mentions : ∀ x, k.Mentions x → g.Mentions x ∨ isLabel x = true

theorem Arranged.multiplyOutAll (hg : g.Arranged) (hbefore : g.Before supply) (start : Graph)
    {poms : List String} (hnodup : poms.Nodup)
    (hparents : ∀ pom ∈ poms, (∃ parent, ⟨parent, R2rml.predicateObjectMap, pom⟩ ∈ g) ∧
      start.subjectsWith R2rml.predicateObjectMap pom = g.subjectsWith R2rml.predicateObjectMap pom)
    (hsingle : ∀ t ∈ g, isPredicateObjectMap t = true → t.object ∈ poms ∨ g.Single t.object)
    (hlimit : (Graph.multiplyOutAll start poms g supply).2.last < UInt64.size) :
    MultipliedOut g supply poms (Graph.multiplyOutAll start poms g supply).1 := by
  induction poms generalizing g supply with
  | nil =>
      refine ⟨hg, rfl, .refl _, fun x _ _ => rfl, ?_, fun x => .inl⟩
      intro t ht hlink
      exact (hsingle t ht hlink).resolve_left List.not_mem_nil
  | cons pom others ih =>
      rw [List.forall_mem_cons] at hparents
      obtain ⟨⟨⟨parent, hparent⟩, hstart⟩, hothers⟩ := hparents
      obtain ⟨hnot, hnodup⟩ := List.nodup_cons.mp hnodup
      simp only [Graph.multiplyOutAll, hstart] at hlimit ⊢
      have hfirst := Nat.lt_of_le_of_lt (last_le_multiplyOutAll start others _ _) hlimit
      have hpom : pom ∉ g.triplesMaps := hg.undeclared _ hparent (beq_self_eq_true _)
      have howners : ∀ y ∈ g.subjectsWith R2rml.predicateObjectMap pom, supply.Older y :=
        fun y hy => (hbefore _ (mem_subjectsWith.mp hy)).1
      have hsteps := ih (hg.multiplyOut hbefore hparent hfirst) (hbefore.multiplyOut howners pom)
        hnodup ?_ (single_multiplyOut hfirst (hbefore _ hparent).2 hbefore howners hsingle) hlimit
      · refine ⟨hsteps.arranged, ?_, ?_, ?_, hsteps.single, ?_⟩
        · rw [hsteps.triplesMaps, triplesMaps_multiplyOut hpom]
        · exact hsteps.rules.trans (hg.rules_multiplyOut hbefore hparent hfirst)
        · intro x hx hmem
          rw [List.mem_cons, not_or] at hmem
          rw [hsteps.plain x (hx.mono (last_le_multiplyOut _ _ _ _)) hmem.2,
            plain_multiplyOut hx hmem.1 hfirst]
        · intro x hx
          rcases hsteps.mentions x hx with hx | hlabel
          · exact mentions_multiplyOut hbefore hfirst hx
          · exact .inr hlabel
      · intro x hx
        obtain ⟨⟨y, hy⟩, heq⟩ := hothers x hx
        have hne : x ≠ pom := fun h => hnot (h ▸ hx)
        have hsame := (hg.flat.linkless hparent).subjectsWith_multiplyOut hfirst (hbefore _ hy).2 hne
        refine ⟨⟨y, ?_⟩, heq.trans hsame.symm⟩
        rw [← mem_subjectsWith, hsame, mem_subjectsWith]
        exact hy

end RmlAlgebra.Graph
