import Mathlib.Data.List.Perm.Basic
import RmlAlgebra.Proofs.SpelledOut

/-! # Multiplying out keeps the pairs

A link to a predicate-object map stands for one row for every pair of a predicate map and an object
map, each with all other properties of the map. The maps that take the place of an old one have one
pair each, with the same parents and the same other properties, so the rows are the same but come in
another order. It is enough that no predicate-object map has such maps of its own.
-/

namespace RmlAlgebra.Graph

variable {g : Graph} {supply : Supply} {pom parent : String}

/-! ## Rows -/

/-- A parent with a pair of one of its predicate-object maps and with the other properties of this
map, in the order of the graph. -/
structure PairRow where
  parent : String
  predicateMap : String
  objectMap : String
  others : List (String × String)
  deriving DecidableEq, Repr

/-- The properties of a node that lead neither to predicate maps nor to object maps. -/
def otherProperties (g : Graph) (x : String) : List (String × String) :=
  (g.filter (isShared x)).map fun t => (t.predicate, t.object)

def pairRow (g : Graph) (parent pom : String) (pair : String × String) : PairRow :=
  ⟨parent, pair.1, pair.2, g.otherProperties pom⟩

/-- The rows at a link to a predicate-object map. -/
def linkRows (g : Graph) (t : Triple) : List PairRow :=
  (g.pairs t.object).map (g.pairRow t.subject t.object)

/-- The rows of all links, as often as they are stated. -/
def pairRows (g : Graph) : List PairRow :=
  (g.filter isPredicateObjectMap).flatMap g.linkRows

theorem exists_link_of_mem_pairRows {row : PairRow} (h : row ∈ g.pairRows) :
    ∃ t ∈ g, isPredicateObjectMap t = true ∧ t.subject = row.parent := by
  obtain ⟨t, ht, hrow⟩ := List.mem_flatMap.mp h
  obtain ⟨hmem, hlink⟩ := List.mem_filter.mp ht
  obtain ⟨pair, -, rfl⟩ := List.mem_map.mp hrow
  exact ⟨t, hmem, hlink, rfl⟩

/-- The properties of a node that are no predicate maps, object maps or links. -/
def others (g : Graph) (x : String) : List Triple :=
  (g.plain x).filter fun t => t.predicate != R2rml.predicateMap && t.predicate != R2rml.objectMap

theorem of_mem_others {x : String} {t : Triple} (h : t ∈ g.others x) :
    isPredicateObjectMap t = false ∧ t.predicate ≠ R2rml.predicateMap ∧
      t.predicate ≠ R2rml.objectMap := by
  obtain ⟨hplain, hp⟩ := List.mem_filter.mp h
  exact ⟨(mem_plain.mp hplain).2.2, by simpa using hp⟩

theorem pairs_eq_of_plain {k : Graph} {x : String} (h : k.plain x = g.plain x) :
    k.pairs x = g.pairs x := by
  simp only [pairs, objectsOf_eq_plain (show R2rml.predicateMap ≠ R2rml.predicateObjectMap by decide),
    objectsOf_eq_plain (show R2rml.objectMap ≠ R2rml.predicateObjectMap by decide), h]

/-- A map with one predicate map and one object map has a single pair. -/
theorem pairs_of_plain {label : String} {pair : String × String} {rest : List Triple}
    (h : g.plain label =
      ⟨label, R2rml.predicateMap, pair.1⟩ :: ⟨label, R2rml.objectMap, pair.2⟩ :: rest)
    (hrest : ∀ t ∈ rest, t.predicate ≠ R2rml.predicateMap ∧ t.predicate ≠ R2rml.objectMap) :
    g.pairs label = [pair] ∧ g.others label = rest := by
  have hne : (R2rml.objectMap == R2rml.predicateMap) = false := by decide
  have hne' : (R2rml.predicateMap == R2rml.objectMap) = false := by decide
  have hp : rest.filter (·.predicate == R2rml.predicateMap) = [] :=
    List.filter_eq_nil_iff.mpr fun t ht => by simpa using (hrest t ht).1
  have ho : rest.filter (·.predicate == R2rml.objectMap) = [] :=
    List.filter_eq_nil_iff.mpr fun t ht => by simpa using (hrest t ht).2
  have hothers : rest.filter (fun t => t.predicate != R2rml.predicateMap &&
      t.predicate != R2rml.objectMap) = rest :=
    List.filter_eq_self.mpr fun t ht => by simpa using hrest t ht
  constructor
  · rw [pairs, objectsOf_eq_plain (by decide), objectsOf_eq_plain (by decide), h]
    simp [hne, hne', hp, ho]
  · rw [others, h]
    simp [hothers]

/-- Two nested loops make the same elements in either order. -/
theorem flatMap_map_perm {α β γ : Type} (f : α → β → γ) (xs : List α) (ys : List β) :
    (xs.flatMap fun x => ys.map (f x)).Perm (ys.flatMap fun y => xs.map fun x => f x y) := by
  induction xs with
  | nil => simp
  | cons x others ih =>
      rw [List.flatMap_cons]
      exact (ih.append_left _).trans (List.map_append_flatMap_perm ys (f x) _)

/-! ## Parents -/

theorem map_subjectsWith (g : Graph) (predicate object : String) :
    (g.subjectsWith predicate object).map (⟨·, predicate, object⟩) =
      g.filter fun t => t.predicate == predicate && t.object == object := by
  have hquery : g.subjectsWith predicate object =
      (g.filter fun t => t.predicate == predicate && t.object == object).map Triple.subject := by
    rw [subjectsWith, subjects]
    congr 1
    apply List.filter_congr
    intro t _
    rw [Option.all_some, BEq.comm (a := object)]
  rw [hquery, List.map_map]
  refine (List.map_congr_left ?_).trans (List.map_id _)
  rintro ⟨s, p, o⟩ ht
  have heq : p = predicate ∧ o = object := by simpa using (List.mem_filter.mp ht).2
  simp [heq.1, heq.2]

theorem subjectsWith_eq_links (g : Graph) (pom : String) :
    g.subjectsWith R2rml.predicateObjectMap pom =
      ((g.filter isPredicateObjectMap).filter (·.object == pom)).map Triple.subject := by
  rw [subjectsWith, subjects, List.filter_filter]
  congr 1
  apply List.filter_congr
  intro t _
  rw [Option.all_some, BEq.comm (a := pom), isPredicateObjectMap, Bool.and_comm]

/-- The links to a map, from each of its parents. -/
theorem links_eq_map_subjectsWith (g : Graph) (pom : String) :
    (g.filter isPredicateObjectMap).filter (!·.object != pom) =
      (g.subjectsWith R2rml.predicateObjectMap pom).map (⟨·, R2rml.predicateObjectMap, pom⟩) := by
  rw [map_subjectsWith, List.filter_filter]
  apply List.filter_congr
  intro t _
  simp [isPredicateObjectMap, bne, Bool.and_comm]

/-! ## New maps -/

/-- The triples of a new predicate-object map. -/
theorem plain_pairGroup {shared : List Triple} (h : ∀ t ∈ shared, isPredicateObjectMap t = false)
    (parents : List String) (label : String) (pair : String × String) :
    plain (pairGroup parents shared label pair) label =
      ⟨label, R2rml.predicateMap, pair.1⟩ :: ⟨label, R2rml.objectMap, pair.2⟩ ::
        shared.map fun t => { t with subject := label } := by
  have hlinks : plain (parents.map (⟨·, R2rml.predicateObjectMap, label⟩)) label = [] := by
    apply plain_eq_nil
    intro t ht _
    obtain ⟨y, -, rfl⟩ := List.mem_map.mp ht
    exact beq_self_eq_true _
  have hproperties (ts : List Triple)
      (hts : ∀ t ∈ ts, t.subject = label ∧ isPredicateObjectMap t = false) : plain ts label = ts := by
    rw [plain, List.filter_filter, List.filter_eq_self]
    intro t ht
    simp [hts t ht]
  rw [pairGroup, pairTriples, plain_append, hlinks, List.nil_append, hproperties]
  simp only [List.forall_mem_cons, List.forall_mem_map]
  refine ⟨⟨trivial, isPredicateObjectMap_eq_false (by decide)⟩,
    ⟨trivial, isPredicateObjectMap_eq_false (by decide)⟩, ?_⟩
  intro t ht
  exact ⟨trivial, h t ht⟩

theorem filter_pairGroup {shared : List Triple} (h : ∀ t ∈ shared, isPredicateObjectMap t = false)
    (parents : List String) (label : String) (pair : String × String) :
    (pairGroup parents shared label pair).filter isPredicateObjectMap =
      parents.map (⟨·, R2rml.predicateObjectMap, label⟩) := by
  have hlinks : (parents.map (⟨·, R2rml.predicateObjectMap, label⟩)).filter isPredicateObjectMap =
      parents.map (⟨·, R2rml.predicateObjectMap, label⟩) := by
    rw [List.filter_eq_self]
    intro t ht
    obtain ⟨y, -, rfl⟩ := List.mem_map.mp ht
    exact beq_self_eq_true _
  have hshared : (shared.map fun t => { t with subject := label }).filter isPredicateObjectMap =
      [] := by
    rw [List.filter_eq_nil_iff]
    intro t ht hlink
    obtain ⟨u, hu, rfl⟩ := List.mem_map.mp ht
    exact Bool.false_ne_true ((h u hu).symm.trans hlink)
  have hpredicate (s o : String) : isPredicateObjectMap ⟨s, R2rml.predicateMap, o⟩ = false :=
    isPredicateObjectMap_eq_false (by decide)
  have hobject (s o : String) : isPredicateObjectMap ⟨s, R2rml.objectMap, o⟩ = false :=
    isPredicateObjectMap_eq_false (by decide)
  rw [pairGroup, pairTriples, List.filter_append, hlinks,
    List.filter_cons_of_neg (by simp [hpredicate]), List.filter_cons_of_neg (by simp [hobject]),
    hshared, List.append_nil]

/-! ## One predicate-object map -/

/-- A node without predicate-object maps. -/
def Linkless (g : Graph) (x : String) : Prop :=
  ∀ t ∈ g, isPredicateObjectMap t = true → t.subject ≠ x

theorem Linkless.filter_isShared (h : g.Linkless pom) : g.filter (isShared pom) = g.others pom := by
  rw [others, plain, List.filter_filter, List.filter_filter]
  apply List.filter_congr
  intro t ht
  by_cases hs : t.subject = pom
  · have hplain : isPredicateObjectMap t = false := by
      rw [Bool.eq_false_iff]
      exact fun hlink => h t ht hlink hs
    simp [isShared, hs, hplain]
  · have hother : (t.subject == pom) = false := beq_false_of_ne hs
    simp [isShared, hother]

theorem Linkless.otherProperties_eq (h : g.Linkless pom) :
    g.otherProperties pom = (g.others pom).map fun t => (t.predicate, t.object) := by
  rw [otherProperties, h.filter_isShared]

section Step

variable (hpom : g.Linkless pom)
include hpom

/-- The links to the old map give way to links to the new ones. -/
theorem Linkless.filter_multiplyOut (hsingle : ¬g.Single pom) (supply : Supply) :
    (g.multiplyOut (g.subjectsWith R2rml.predicateObjectMap pom) pom supply).1.filter
        isPredicateObjectMap =
      (g.filter isPredicateObjectMap).filter (·.object != pom) ++
        labelled (fun label _ =>
          (g.subjectsWith R2rml.predicateObjectMap pom).map (⟨·, R2rml.predicateObjectMap, label⟩))
          supply (g.pairs pom) := by
  rw [multiplyOut_of_not_single hsingle, List.filter_append, filter_numbered, hpom.filter_isShared]
  congr 1
  · rw [List.filter_filter, List.filter_filter]
    apply List.filter_congr
    intro t ht
    by_cases hlink : isPredicateObjectMap t = true
    · have hp : (t.predicate == R2rml.predicateObjectMap) = true := hlink
      simp [hlink, isAbout, hpom t ht hlink, hp, bne]
    · simp [hlink]
  · congr 1
    funext label pair
    exact filter_pairGroup (fun t ht => (of_mem_others ht).1) _ label pair

/-- The triples of the new map for a pair. -/
theorem Linkless.plain_multiplyOut_new (hsingle : ¬g.Single pom) (hbefore : g.Before supply)
    (hlimit : (g.multiplyOut (g.subjectsWith R2rml.predicateObjectMap pom) pom supply).2.last <
      UInt64.size) {i : Nat} {pair : String × String} (hi : (g.pairs pom)[i]? = some pair) :
    plain (g.multiplyOut (g.subjectsWith R2rml.predicateObjectMap pom) pom supply).1
        (Label.ofNat (supply.last + 1 + i)) =
      ⟨Label.ofNat (supply.last + 1 + i), R2rml.predicateMap, pair.1⟩ ::
        ⟨Label.ofNat (supply.last + 1 + i), R2rml.objectMap, pair.2⟩ ::
        (g.others pom).map fun t => { t with subject := Label.ofNat (supply.last + 1 + i) } := by
  have hparents : ∀ y ∈ g.subjectsWith R2rml.predicateObjectMap pom, supply.Older y :=
    fun y hy => (hbefore _ (mem_subjectsWith.mp hy)).1
  rw [multiplyOut_of_not_single hsingle] at hlimit ⊢
  rw [plain_new hbefore _ (hbefore.pairGroup hparents pom) hlimit hi, hpom.filter_isShared,
    plain_pairGroup fun t ht => (of_mem_others ht).1]

/-- Multiplying out one map leaves the parents of all others as they are. -/
theorem Linkless.subjectsWith_multiplyOut
    (hlimit : (g.multiplyOut (g.subjectsWith R2rml.predicateObjectMap pom) pom supply).2.last <
      UInt64.size) {x : String} (hx : supply.Older x) (hne : x ≠ pom) :
    (g.multiplyOut (g.subjectsWith R2rml.predicateObjectMap pom) pom supply).1.subjectsWith
        R2rml.predicateObjectMap x = g.subjectsWith R2rml.predicateObjectMap x := by
  by_cases hsingle : g.Single pom
  · rw [multiplyOut_of_single hsingle]
  have hlinks := hpom.filter_multiplyOut hsingle supply
  rw [multiplyOut_of_not_single hsingle] at hlimit
  simp only at hlimit
  have hnew : (labelled (fun label _ =>
      (g.subjectsWith R2rml.predicateObjectMap pom).map (⟨·, R2rml.predicateObjectMap, label⟩))
      supply (g.pairs pom)).filter (·.object == x) = [] := by
    rw [List.filter_eq_nil_iff]
    intro t ht ho
    obtain ⟨i, pair, hi, ht⟩ := mem_numbered.mp ht
    obtain ⟨y, -, rfl⟩ := List.mem_map.mp ht
    have hlength := (List.getElem?_eq_some_iff.mp hi).1
    have heq : Label.ofNat (supply.last + 1 + i) = x := by simpa using ho
    exact hx (supply.last + 1 + i) (by omega) (by omega) heq.symm
  have hold : ((g.filter isPredicateObjectMap).filter (·.object != pom)).filter (·.object == x) =
      (g.filter isPredicateObjectMap).filter (·.object == x) := by
    rw [List.filter_filter]
    apply List.filter_congr
    intro t _
    by_cases ho : t.object = x
    · simp [ho, hne]
    · simp [ho]
  rw [subjectsWith_eq_links, hlinks, List.filter_append, hnew, hold, List.append_nil,
    ← subjectsWith_eq_links]

end Step

/-- Whether no predicate-object map has predicate-object maps of its own. -/
def Flat (g : Graph) : Prop :=
  ∀ t ∈ g, isPredicateObjectMap t = true → g.Linkless t.object

instance (g : Graph) : Decidable g.Flat :=
  inferInstanceAs (Decidable (∀ t ∈ g, _ → ∀ u ∈ g, _ → u.subject ≠ t.object))

theorem Flat.linkless (hg : g.Flat) (h : ⟨parent, R2rml.predicateObjectMap, pom⟩ ∈ g) :
    g.Linkless pom :=
  hg _ h (beq_self_eq_true _)

theorem Flat.multiplyOut (hg : g.Flat) (hbefore : g.Before supply)
    (h : ⟨parent, R2rml.predicateObjectMap, pom⟩ ∈ g)
    (hlimit : (g.multiplyOut (g.subjectsWith R2rml.predicateObjectMap pom) pom supply).2.last <
      UInt64.size) :
    (g.multiplyOut (g.subjectsWith R2rml.predicateObjectMap pom) pom supply).1.Flat := by
  by_cases hsingle : g.Single pom
  · rw [multiplyOut_of_single hsingle]
    exact hg
  have hlinks := (hg.linkless h).filter_multiplyOut hsingle supply
  rw [multiplyOut_of_not_single hsingle] at hlimit
  simp only at hlimit
  generalize (g.multiplyOut (g.subjectsWith R2rml.predicateObjectMap pom) pom supply).1 = k at *
  -- A link of the new graph starts at an old parent and leads to an old map or to a new label.
  have hcases (t : Triple) (ht : t ∈ k) (hlink : isPredicateObjectMap t = true) :
      (∃ u ∈ g, isPredicateObjectMap u = true ∧ u.subject = t.subject) ∧
        (t ∈ g ∨ ∃ n, supply.last < n ∧ n < UInt64.size ∧ t.object = Label.ofNat n) := by
    have hmem : t ∈ k.filter isPredicateObjectMap := List.mem_filter.mpr ⟨ht, hlink⟩
    rw [hlinks, List.mem_append] at hmem
    rcases hmem with hmem | hmem
    · have hold := (List.mem_filter.mp (List.mem_filter.mp hmem).1).1
      exact ⟨⟨t, hold, hlink, rfl⟩, .inl hold⟩
    · obtain ⟨i, pair, hi, ht⟩ := mem_numbered.mp hmem
      obtain ⟨y, hy, rfl⟩ := List.mem_map.mp ht
      have hlength := (List.getElem?_eq_some_iff.mp hi).1
      exact ⟨⟨_, mem_subjectsWith.mp hy, beq_self_eq_true _, rfl⟩,
        .inr ⟨supply.last + 1 + i, by omega, by omega, rfl⟩⟩
  intro t ht hlink u hu hlinkU
  obtain ⟨-, hobject⟩ := hcases t ht hlink
  obtain ⟨⟨v, hv, hlinkV, hs⟩, -⟩ := hcases u hu hlinkU
  rw [← hs]
  rcases hobject with hold | ⟨n, hlow, hhigh, ho⟩
  · exact hg t hold hlink v hv hlinkV
  · rw [ho]
    exact (hbefore v hv).1 n hlow hhigh

/-- Multiplying out a predicate-object map keeps the rows. -/
theorem Flat.pairRows_multiplyOut (hg : g.Flat) (hbefore : g.Before supply)
    (hparent : ⟨parent, R2rml.predicateObjectMap, pom⟩ ∈ g)
    (hlimit : (g.multiplyOut (g.subjectsWith R2rml.predicateObjectMap pom) pom supply).2.last <
      UInt64.size) :
    (g.multiplyOut (g.subjectsWith R2rml.predicateObjectMap pom) pom supply).1.pairRows.Perm
      g.pairRows := by
  by_cases hsingle : g.Single pom
  · rw [multiplyOut_of_single hsingle]
  have hpom := hg.linkless hparent
  have hk := hg.multiplyOut hbefore hparent hlimit
  have hlinks := hpom.filter_multiplyOut hsingle supply
  have hframe {x : String} (hx : supply.Older x) (hne : x ≠ pom) :
      plain (g.multiplyOut (g.subjectsWith R2rml.predicateObjectMap pom) pom supply).1 x =
        g.plain x := plain_multiplyOut hx hne hlimit
  have hproperties {i : Nat} {pair : String × String} (hi : (g.pairs pom)[i]? = some pair) :=
    hpom.plain_multiplyOut_new hsingle hbefore hlimit hi
  generalize (g.multiplyOut (g.subjectsWith R2rml.predicateObjectMap pom) pom supply).1 = k at *
  have hlinkless {t : Triple} (ht : t ∈ k.filter isPredicateObjectMap) : k.Linkless t.object :=
    hk t (List.mem_filter.mp ht).1 (List.mem_filter.mp ht).2
  have hkept : ((g.filter isPredicateObjectMap).filter (·.object != pom)).flatMap k.linkRows =
      ((g.filter isPredicateObjectMap).filter (·.object != pom)).flatMap g.linkRows := by
    apply List.flatMap_congr
    intro t ht
    have hold := List.mem_filter.mp (List.mem_filter.mp ht).1
    have hplain := hframe (hbefore t hold.1).2 (bne_iff_ne.mp (List.mem_filter.mp ht).2)
    have hothers : k.otherProperties t.object = g.otherProperties t.object := by
      rw [(hlinkless (hlinks ▸ List.mem_append_left _ ht)).otherProperties_eq,
        (hg t hold.1 hold.2).otherProperties_eq, others, hplain, others]
    rw [linkRows, linkRows, pairs_eq_of_plain hplain]
    apply List.map_congr_left
    intro pair _
    rw [pairRow, pairRow, hothers]
  have hnew : (labelled (fun label _ =>
      (g.subjectsWith R2rml.predicateObjectMap pom).map (⟨·, R2rml.predicateObjectMap, label⟩))
      supply (g.pairs pom)).flatMap k.linkRows = (g.pairs pom).flatMap fun pair =>
        (g.subjectsWith R2rml.predicateObjectMap pom).map fun y => g.pairRow y pom pair := by
    apply flatMap_numbered
    intro i pair hi
    obtain ⟨hpair, hothers⟩ := pairs_of_plain (hproperties hi) (by
      intro t ht
      obtain ⟨u, hu, rfl⟩ := List.mem_map.mp ht
      exact (of_mem_others hu).2)
    rw [List.flatMap_map, List.map_eq_flatMap]
    apply List.flatMap_congr
    intro y hy
    have hmem : ⟨y, R2rml.predicateObjectMap, Label.ofNat (supply.last + 1 + i)⟩ ∈
        k.filter isPredicateObjectMap := by
      rw [hlinks]
      exact List.mem_append_right _ (mem_numbered.mpr ⟨i, pair, hi, List.mem_map.mpr ⟨y, hy, rfl⟩⟩)
    have hproperties : k.otherProperties (Label.ofNat (supply.last + 1 + i)) =
        g.otherProperties pom := by
      rw [(hlinkless hmem).otherProperties_eq, hothers, hpom.otherProperties_eq, List.map_map]
      rfl
    rw [linkRows, hpair, List.map_singleton, pairRow, pairRow, hproperties]
  have hold : ((g.filter isPredicateObjectMap).filter (!·.object != pom)).flatMap g.linkRows =
      (g.subjectsWith R2rml.predicateObjectMap pom).flatMap fun y =>
        (g.pairs pom).map (g.pairRow y pom) := by
    rw [links_eq_map_subjectsWith, List.flatMap_map]
    rfl
  rw [pairRows, pairRows, hlinks, List.flatMap_append, hkept, hnew]
  -- The new maps come pair by pair and the old links parent by parent.
  have hswap := flatMap_map_perm (fun pair y => g.pairRow y pom pair) (g.pairs pom)
    (g.subjectsWith R2rml.predicateObjectMap pom)
  refine (hswap.append_left _).trans ?_
  rw [← hold, ← List.flatMap_append]
  exact (List.filter_append_perm _ _).flatMap_right _

/-! ## All predicate-object maps -/

variable {start : Graph} {poms : List String}

/-- How the rows stand when the listed maps are still to be multiplied out. -/
structure RowsKept (start : Graph) (poms : List String) (g : Graph) : Prop where
  nodup : poms.Nodup
  flat : g.Flat
  linked : ∀ pom ∈ poms, ∃ parent, ⟨parent, R2rml.predicateObjectMap, pom⟩ ∈ g
  parents : ∀ pom ∈ poms, start.subjectsWith R2rml.predicateObjectMap pom =
    g.subjectsWith R2rml.predicateObjectMap pom
  rows : g.pairRows.Perm start.pairRows

theorem RowsKept.multiplyOut (h : RowsKept start (pom :: poms) g) (hbefore : g.Before supply)
    (hlimit : (g.multiplyOut (start.subjectsWith R2rml.predicateObjectMap pom) pom supply).2.last <
      UInt64.size) :
    RowsKept start poms
      (g.multiplyOut (start.subjectsWith R2rml.predicateObjectMap pom) pom supply).1 := by
  obtain ⟨hnot, hnodup⟩ := List.nodup_cons.mp h.nodup
  obtain ⟨parent, hparent⟩ := h.linked pom List.mem_cons_self
  rw [h.parents pom List.mem_cons_self] at hlimit ⊢
  have hsame (x : String) (hx : x ∈ poms) :
      (g.multiplyOut (g.subjectsWith R2rml.predicateObjectMap pom) pom supply).1.subjectsWith
        R2rml.predicateObjectMap x = g.subjectsWith R2rml.predicateObjectMap x := by
    obtain ⟨y, hy⟩ := h.linked x (List.mem_cons_of_mem _ hx)
    have hne : x ≠ pom := fun heq => hnot (heq ▸ hx)
    exact (h.flat.linkless hparent).subjectsWith_multiplyOut hlimit (hbefore _ hy).2 hne
  refine ⟨hnodup, h.flat.multiplyOut hbefore hparent hlimit, ?_, ?_, ?_⟩
  · intro x hx
    obtain ⟨y, hy⟩ := h.linked x (List.mem_cons_of_mem _ hx)
    rw [← mem_subjectsWith, ← hsame x hx, mem_subjectsWith] at hy
    exact ⟨y, hy⟩
  · intro x hx
    rw [hsame x hx, h.parents x (List.mem_cons_of_mem _ hx)]
  · exact (h.flat.pairRows_multiplyOut hbefore hparent hlimit).trans h.rows

/-- The predicate-object maps that stand for more than one pair, or for none with two maps. -/
def splitMaps (g : Graph) : List String :=
  g.predicateObjectMaps.filter fun pom => !decide (g.Single pom)

/-- Whether a triple has nothing to do with a split map, those that are still to come apart. -/
def stays (g : Graph) (poms : List String) (t : Triple) : Bool :=
  g.splitMaps.all fun pom => poms.contains pom || !isAbout pom t

/-- A map that is single, or still to come, does not matter. -/
theorem stays_cons_of_not_mem (h : pom ∉ start.splitMaps) (t : Triple) :
    start.stays (pom :: poms) t = start.stays poms t := by
  rw [stays, stays, Bool.eq_iff_iff, List.all_eq_true, List.all_eq_true]
  apply forall₂_congr
  intro x hx
  have hne : x ≠ pom := fun heq => h (heq ▸ hx)
  simp [hne]

theorem stays_cons_and (h : pom ∈ start.splitMaps) (hnot : pom ∉ poms) (t : Triple) :
    (!isAbout pom t && start.stays (pom :: poms) t) = start.stays poms t := by
  rw [Bool.eq_iff_iff]
  simp only [stays, Bool.and_eq_true, List.all_eq_true, Bool.or_eq_true, List.contains_iff_mem,
    List.mem_cons]
  constructor
  · rintro ⟨hpom, hall⟩ x hx
    by_cases heq : x = pom
    · exact .inr (heq ▸ hpom)
    · exact (hall x hx).imp_left fun hmem => hmem.resolve_left heq
  · intro hall
    exact ⟨(hall pom h).resolve_left hnot, fun x hx => (hall x hx).imp_left .inr⟩

/-- How the triples stand when the listed maps are still to be multiplied out: those that stay come
first, and all others mention a label that was handed out. -/
structure TriplesKept (start : Graph) (first : Supply) (poms : List String) (g : Graph)
    (supply : Supply) : Prop where
  nodup : poms.Nodup
  older : ∀ pom ∈ poms, supply.Older pom
  linked : ∀ pom ∈ poms, pom ∈ start.predicateObjectMaps
  single : ∀ pom ∈ poms, g.Single pom ↔ start.Single pom
  le : first.last ≤ supply.last
  kept : ∃ added, g = start.filter (start.stays poms) ++ added ∧ ∀ t ∈ added,
    ∃ n, first.last < n ∧ n ≤ supply.last ∧ (t.subject = Label.ofNat n ∨ t.object = Label.ofNat n)

theorem TriplesKept.multiplyOut {first : Supply} {parents : List String}
    (h : TriplesKept start first (pom :: poms) g supply)
    (hlimit : (g.multiplyOut parents pom supply).2.last < UInt64.size) :
    TriplesKept start first poms (g.multiplyOut parents pom supply).1
      (g.multiplyOut parents pom supply).2 := by
  obtain ⟨hnot, hnodup⟩ := List.nodup_cons.mp h.nodup
  have hle := g.last_le_multiplyOut parents pom supply
  have hother (x : String) (hx : x ∈ poms) : x ∈ pom :: poms := List.mem_cons_of_mem _ hx
  refine ⟨hnodup, fun x hx => (h.older x (hother x hx)).mono hle, fun x hx => h.linked x (hother x hx),
    ?_, Nat.le_trans h.le hle, ?_⟩
  · intro x hx
    have hne : x ≠ pom := fun heq => hnot (heq ▸ hx)
    rw [single_iff, plain_multiplyOut (h.older x (hother x hx)) hne hlimit, ← single_iff]
    exact h.single x (hother x hx)
  · obtain ⟨added, heq, hadded⟩ := h.kept
    by_cases hsingle : g.Single pom
    · have hstart := (h.single pom List.mem_cons_self).mp hsingle
      have hwhole : pom ∉ start.splitMaps := by simp [splitMaps, hstart]
      rw [multiplyOut_of_single hsingle]
      have hstays : start.filter (start.stays (pom :: poms)) = start.filter (start.stays poms) :=
        List.filter_congr fun t _ => stays_cons_of_not_mem hwhole t
      exact ⟨added, heq.trans (by rw [hstays]), hadded⟩
    · have hstart := mt (h.single pom List.mem_cons_self).mpr hsingle
      have hsplit : pom ∈ start.splitMaps :=
        List.mem_filter.mpr ⟨h.linked pom List.mem_cons_self, by simpa using hstart⟩
      rw [multiplyOut_of_not_single hsingle]
      refine ⟨added.filter (!isAbout pom ·) ++
        labelled (pairGroup parents (g.filter (isShared pom))) supply (g.pairs pom), ?_, ?_⟩
      · have hkept : g.filter (!isAbout pom ·) =
            start.filter (start.stays poms) ++ added.filter (!isAbout pom ·) := by
          rw [heq, List.filter_append, List.filter_filter]
          congr 1
          exact List.filter_congr fun t _ => stays_cons_and hsplit hnot t
        rw [hkept, List.append_assoc]
      · intro t ht
        rcases List.mem_append.mp ht with ht | ht
        · obtain ⟨n, hlow, hhigh, hlabel⟩ := hadded t (List.mem_filter.mp ht).1
          exact ⟨n, hlow, Nat.le_trans hhigh (Nat.le_add_right _ _), hlabel⟩
        · obtain ⟨i, pair, hi, ht⟩ := mem_numbered.mp ht
          have hlength := (List.getElem?_eq_some_iff.mp hi).1
          have hfirst := h.le
          refine ⟨supply.last + 1 + i, by omega, by simp only; omega, ?_⟩
          rcases of_mem_pairGroup (List.mem_of_getElem? hi) ht with ⟨y, -, rfl⟩ | ⟨hs, -⟩
          · exact .inr rfl
          · exact .inl hs

/-- Multiplying out all predicate-object maps keeps their rows and leaves one pair at most to each
map. The triples that neither start at a split map nor link to it come first, in their order, and all
others mention a new label. -/
theorem pairRows_expandPredicateObjectMaps (g : Graph) (supply : Supply) (hflat : g.Flat)
    (hle : g.highestLabel ≤ supply.last)
    (hlimit : (g.expandPredicateObjectMaps supply).2.last < UInt64.size) :
    (g.expandPredicateObjectMaps supply).1.pairRows.Perm g.pairRows ∧
      (∀ t ∈ (g.expandPredicateObjectMaps supply).1, isPredicateObjectMap t = true →
        ((g.expandPredicateObjectMaps supply).1.objectsOf t.object R2rml.predicateMap).length ≤ 1 ∧
        ((g.expandPredicateObjectMaps supply).1.objectsOf t.object R2rml.objectMap).length ≤ 1) ∧
      ∃ added, (g.expandPredicateObjectMaps supply).1 =
          g.filter (fun t => g.splitMaps.all fun pom => !isAbout pom t) ++ added ∧
        ∀ t ∈ added, ∃ n, supply.last < n ∧ n ≤ (g.expandPredicateObjectMaps supply).2.last ∧
          (t.subject = Label.ofNat n ∨ t.object = Label.ofNat n) := by
  have hbefore : g.Before supply := before_of_le hle
  have hlinked (pom : String) (hpom : pom ∈ g.predicateObjectMaps) :=
    mem_predicateObjectMaps.mp hpom
  have holder (pom : String) (hpom : pom ∈ g.predicateObjectMaps) : supply.Older pom := by
    obtain ⟨parent, ht⟩ := hlinked pom hpom
    exact (hbefore _ ht).2
  refine ⟨?_, ?_, ?_⟩
  · have hrows := multiplyOutAll_induct (motive := fun poms k _ => RowsKept g poms k)
      (fun pom others k supply hk _ hlimit h => h.multiplyOut hk hlimit) hbefore hbefore
      ⟨g.nodup_predicateObjectMaps, hflat, hlinked, fun _ _ => rfl, .refl _⟩ hlimit
    exact hrows.rows
  · exact paired_expandPredicateObjectMaps hbefore hlimit
  · have hstart : g.filter (g.stays g.predicateObjectMaps) ++ [] = g := by
      rw [List.append_nil, List.filter_eq_self]
      intro t _
      rw [stays, List.all_eq_true]
      intro pom hpom
      rw [List.contains_iff_mem.mpr (List.mem_filter.mp hpom).1, Bool.true_or]
    have htriples := multiplyOutAll_induct
      (motive := fun poms k next => TriplesKept g supply poms k next)
      (fun pom others k next _ _ hlimit h => h.multiplyOut hlimit) hbefore hbefore
      ⟨g.nodup_predicateObjectMaps, holder, fun _ h => h, fun _ _ => .rfl, Nat.le_refl _,
        [], hstart.symm, by simp⟩ hlimit
    exact htriples.kept

/-- Two triples maps with a predicate-object map in common, which one of them lists twice. It has two
predicate maps, two object maps and a graph map; another map has no object map at all. -/
def commonMaps : Graph :=
  [⟨"t", R2rml.predicateObjectMap, "b9"⟩, ⟨"t", R2rml.predicateObjectMap, "b10"⟩,
    ⟨"b10", R2rml.predicateMap, "p"⟩, ⟨"b10", R2rml.graphMap, "g"⟩, ⟨"b10", R2rml.predicateMap, "q"⟩,
    ⟨"u", R2rml.predicateObjectMap, "b10"⟩, ⟨"b10", R2rml.objectMap, "b9"⟩,
    ⟨"u", R2rml.predicateObjectMap, "b10"⟩, ⟨"b10", R2rml.objectMap, "o"⟩,
    ⟨"b9", R2rml.predicateMap, "p"⟩, ⟨"b9", R2rml.predicateMap, "p"⟩]

set_option maxRecDepth 100000 in
theorem pairRows_commonMaps :
    commonMaps.Flat ∧ commonMaps.pairRows.length = 12 ∧ commonMaps.splitMaps = ["b10", "b9"] ∧
      (commonMaps.expandPredicateObjectMaps ⟨10⟩).1.pairRows.Perm commonMaps.pairRows := by
  refine ⟨by decide +kernel, by decide +kernel, by decide +kernel, ?_⟩
  exact (pairRows_expandPredicateObjectMaps commonMaps ⟨10⟩ (by decide +kernel) (by decide +kernel)
    (by decide +kernel)).1

end RmlAlgebra.Graph
