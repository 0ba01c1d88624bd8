import RmlAlgebra.Proofs.PlanRenaming
import RmlAlgebra.Proofs.Separation

/-! # Two supplies for one graph

Normalization with labels from one supply gives the same graph as with labels from another, up to the
names of the new labels. The renaming between the two exchanges a stretch of labels with what lies
between the two starting points, and fixes every term of the graph that was normalized.
-/

namespace RmlAlgebra

/-- Exchange the `count` numbers that follow `a` with those that follow `b`, and move what lies
between out of their way. -/
def rotate (count a b n : Nat) : Nat :=
  if a < n ∧ n ≤ a + count then b + (n - a)
  else if b < n ∧ n ≤ a then n + count
  else if a + count < n ∧ n ≤ b + count then n - count
  else n

theorem rotate_injective {count a b m n : Nat} (h : rotate count a b m = rotate count a b n) :
    m = n := by
  unfold rotate at h
  repeat' split at h
  all_goals omega

namespace Label

/-- The number of a label that is written without leading zeros. -/
def index? (x : String) : Option Nat :=
  (digits? x).bind fun digits =>
    if ofNat (Text.decimalValue digits) = x then some (Text.decimalValue digits) else none

theorem index?_ofNat (n : Nat) : index? (ofNat n) = some n := by
  rw [index?, digits?_ofNat, Option.bind_some, Text.decimalValue_toDigits, if_pos rfl]

theorem ofNat_of_index? {x : String} {n : Nat} (h : index? x = some n) : ofNat n = x := by
  obtain ⟨digits, -, h⟩ := Option.bind_eq_some_iff.mp h
  split at h
  · next heq => rw [← Option.some.inj h, heq]
  · cases h

/-- The label with the rotated number. All other texts stay as they are. -/
def shift (count a b : Nat) (x : String) : String :=
  match index? x with
  | some n => ofNat (rotate count a b n)
  | none => x

variable {count a b : Nat} {x : String}

theorem shift_ofNat (n : Nat) : shift count a b (ofNat n) = ofNat (rotate count a b n) := by
  rw [shift, index?_ofNat]

theorem shift_of_index?_none (h : index? x = none) : shift count a b x = x := by
  rw [shift, h]

/-- A text is a label with a number, or has no index. -/
theorem index?_cases (x : String) : (∃ n, x = ofNat n) ∨ index? x = none := by
  cases h : index? x with
  | some n => exact .inl ⟨n, (ofNat_of_index? h).symm⟩
  | none => exact .inr rfl

end Label

def Renaming.shift (count a b : Nat) : Renaming where
  apply := Label.shift count a b
  injective := by
    intro x y h
    rcases Label.index?_cases x with ⟨m, rfl⟩ | hx
    · rcases Label.index?_cases y with ⟨n, rfl⟩ | hy
      · rw [Label.shift_ofNat, Label.shift_ofNat] at h
        rw [rotate_injective (Label.ofNat_injective h)]
      · rw [Label.shift_ofNat, Label.shift_of_index?_none hy] at h
        rw [← h, Label.index?_ofNat] at hy
        cases hy
    · rcases Label.index?_cases y with ⟨n, rfl⟩ | hy
      · rw [Label.shift_ofNat, Label.shift_of_index?_none hx] at h
        rw [h, Label.index?_ofNat] at hx
        cases hx
      · rwa [Label.shift_of_index?_none hx, Label.shift_of_index?_none hy] at h
  label := by
    intro x
    rcases Label.index?_cases x with ⟨n, rfl⟩ | hx
    · rw [Label.shift_ofNat, Label.isLabel_ofNat, Label.isLabel_ofNat]
    · rw [Label.shift_of_index?_none hx]
  other := by
    intro x hx
    rcases Label.index?_cases x with ⟨n, rfl⟩ | hnone
    · rw [Label.isLabel_ofNat] at hx
      cases hx
    · exact Label.shift_of_index?_none hnone

namespace Renaming

variable {count a b : Nat} {g : Graph}

theorem shift_carries : Graph.Carries (shift count a b) count a b := by
  intro i hlow hhigh
  have hrotate : rotate count a b (a + i) = b + i := by
    rw [rotate, if_pos (by omega)]
    omega
  exact (Label.shift_ofNat _).trans (congrArg Label.ofNat hrotate)

/-- Terms of a graph are below both stretches or out of reach. -/
theorem shift_of_mentions (ha : g.highestLabel ≤ a) (hb : g.highestLabel ≤ b)
    (hsizeA : a + count < UInt64.size) (hsizeB : b + count < UInt64.size) {x : String}
    (h : g.Mentions x) : shift count a b x = x := by
  rcases Label.index?_cases x with ⟨n, rfl⟩ | hx
  · have hfar : n ≤ g.highestLabel ∨ UInt64.size ≤ n := by
      by_cases hn : n < UInt64.size
      · exact .inl (Graph.le_highestLabel h (Label.number?_ofNat hn))
      · exact .inr (by omega)
    have hrotate : rotate count a b n = n := by
      unfold rotate
      rw [if_neg (by omega), if_neg (by omega), if_neg (by omega)]
    exact (Label.shift_ofNat _).trans (congrArg Label.ofNat hrotate)
  · exact Label.shift_of_index?_none hx

end Renaming

namespace Graph

variable {g : Graph} {supply : Supply} {Q : String → Prop}

/-! ## Values

No new label is ever the object of a property whose objects are values.
-/

/-- The properties whose objects are values, those that are spelled out included. -/
def isValuePredicate (p : String) : Bool :=
  valuePredicates.contains p || (shortcut? p).isSome || p == R2rml.class_

/-- The properties of new triples whose objects are nodes. -/
def linkPredicates : List String :=
  R2rml.predicateMap :: R2rml.objectMap :: separatedPredicates

theorem not_mem_linkPredicates {p : String} (h : isValuePredicate p = true) :
    p ∉ linkPredicates := by
  have hall : ∀ q ∈ linkPredicates, isValuePredicate q = false := by decide
  intro hp
  rw [hall p hp] at h
  cases h

def ValuesIn (Q : String → Prop) (g : Graph) : Prop :=
  ∀ t ∈ g, isValuePredicate t.predicate = true → Q t.object

theorem valuesIn_filter_append {keep : Triple → Bool} {added : Graph} (hg : ValuesIn Q g)
    (hadded : ValuesIn Q added) : ValuesIn Q (g.filter keep ++ added) := by
  intro t ht
  rcases List.mem_append.mp ht with ht | ht
  · exact hg t (List.mem_filter.mp ht).1
  · exact hadded t ht

theorem ValuesIn.expandClasses (htype : Q Rdf.type) (hg : ValuesIn Q g) :
    ValuesIn Q (g.expandClasses supply).1 := by
  rw [expandClasses_eq]
  apply valuesIn_filter_append hg
  intro t ht hvalue
  obtain ⟨i, owner, hi, ht⟩ := mem_numbered.mp ht
  simp only [classGroup, List.mem_cons, List.not_mem_nil, or_false] at ht
  rcases ht with rfl | rfl | rfl
  · exact absurd (by simp [linkPredicates, separatedPredicates]) (not_mem_linkPredicates hvalue)
  · exact htype
  · obtain ⟨u, hu, ho⟩ := (exists_of_mem_owned (List.mem_of_getElem? hi)).2
    obtain ⟨hu, hclass⟩ := List.mem_filter.mp hu
    rw [← ho]
    apply hg u hu
    rw [isValuePredicate, Bool.or_eq_true]
    exact .inr hclass

theorem ValuesIn.expandConstants (hg : ValuesIn Q g) : ValuesIn Q (g.expandConstants supply).1 := by
  rw [expandConstants_eq]
  apply valuesIn_filter_append hg
  intro t ht hvalue
  obtain ⟨i, u, hi, ht⟩ := mem_numbered.mp ht
  obtain ⟨v, hv, hu⟩ := List.mem_filterMap.mp (List.mem_of_getElem? hi)
  obtain ⟨q, hq, rfl⟩ := Option.map_eq_some_iff.mp hu
  have hall : ∀ s ∈ shortcuts, isValuePredicate s.2 = false := by decide
  simp only [constantGroup, List.mem_cons, List.not_mem_nil, or_false] at ht
  rcases ht with rfl | rfl
  · rw [hall _ (mem_shortcuts hq)] at hvalue
    cases hvalue
  · apply hg v hv
    simp [isValuePredicate, hq]

theorem ValuesIn.multiplyOut (hg : ValuesIn Q g) {parents : List String} {pom : String} :
    ValuesIn Q (g.multiplyOut parents pom supply).1 := by
  by_cases hsingle : g.Single pom
  · rwa [multiplyOut_of_single hsingle]
  · rw [multiplyOut_of_not_single hsingle]
    apply valuesIn_filter_append hg
    intro t ht hvalue
    obtain ⟨i, pair, -, ht⟩ := mem_numbered.mp ht
    simp only [pairGroup, pairTriples, List.mem_append, List.mem_cons, List.mem_map] at ht
    rcases ht with ⟨y, -, rfl⟩ | rfl | rfl | ⟨u, hu, rfl⟩
    · exact absurd (by simp [linkPredicates, separatedPredicates]) (not_mem_linkPredicates hvalue)
    · exact absurd (by simp [linkPredicates, separatedPredicates]) (not_mem_linkPredicates hvalue)
    · exact absurd (by simp [linkPredicates, separatedPredicates]) (not_mem_linkPredicates hvalue)
    · exact hg u (List.mem_filter.mp hu).1 hvalue

theorem ValuesIn.multiplyOutAll (hg : ValuesIn Q g) {start : Graph} {poms : List String} :
    ValuesIn Q (multiplyOutAll start poms g supply).1 := by
  induction poms generalizing g supply with
  | nil => exact hg
  | cons pom others ih => exact ih hg.multiplyOut

theorem ValuesIn.spellOut (htype : Q Rdf.type) (hg : ValuesIn Q g) :
    ValuesIn Q (g.spellOut supply).1 := by
  have hmaps : ValuesIn Q (g.spellMaps supply).1 :=
    (hg.expandClasses htype).expandConstants.multiplyOutAll
  rw [spellOut_eq]
  intro t ht hvalue
  rcases mem_of_mem_foldl_separate ht with ht | ⟨-, hp⟩
  · exact hmaps t ht hvalue
  · have hlink := List.mem_cons_of_mem R2rml.predicateMap (List.mem_cons_of_mem R2rml.objectMap hp)
    exact absurd hlink (not_mem_linkPredicates hvalue)

/-- The triples maps of a spelled-out graph were declared before or are separated ones. -/
theorem mem_triplesMaps_spellOut (hle : g.highestLabel ≤ supply.last)
    (hlimit : (g.spellOut supply).2.last < UInt64.size)
    (hdeclared : ∀ pom ∈ g.predicateObjectMaps, pom ∉ g.triplesMaps) {x : String}
    (h : x ∈ (g.spellOut supply).1.triplesMaps) :
    x ∈ g.triplesMaps ∨ ∃ triplesMap n, x = separatedName triplesMap n := by
  rw [spellOut_eq] at h
  rcases mem_of_mem_foldl_separate (mem_subjectsWith.mp h) with ht | ⟨⟨triplesMap, n, hs⟩, -⟩
  · rw [← triplesMaps_spellMaps hle hlimit hdeclared]
    exact .inl (mem_subjectsWith.mpr ht)
  · exact .inr ⟨triplesMap, n, hs⟩

/-! ## The two runs -/

variable {a b count : Nat} {ρ : Renaming}

theorem renamed_spellTerms (hρ : Carries ρ count a b) {i : Nat}
    (hcount : (g.spellTerms ⟨a + i⟩).2.last ≤ a + count) :
    Renamed ρ a b i (g.spellTerms ⟨a + i⟩) ((g.rename ρ).spellTerms ⟨b + i⟩) := by
  have hfirst := Nat.le_trans (last_le_expandConstants _ _) hcount
  obtain ⟨j, hij, hlast, hclasses⟩ := renamed_expandClasses (g := g) hρ hfirst
  rw [spellTerms, hlast] at hcount
  rw [spellTerms, spellTerms, hlast, hclasses]
  obtain ⟨k, hjk, hconstants⟩ := renamed_expandConstants hρ hcount
  exact ⟨k, Nat.le_trans hij hjk, hconstants⟩

/-- The second run gives the renamed graph of the first. -/
theorem spellOut_shift (ha : g.highestLabel ≤ a) (hb : g.highestLabel ≤ b)
    (hdeclared : ∀ pom ∈ g.predicateObjectMaps, pom ∉ g.triplesMaps)
    (hcount : (g.spellOut ⟨a⟩).2.last = a + count)
    (hle : b + count ≤ (g.spellOut ⟨b⟩).2.last)
    (hsizeA : (g.spellOut ⟨a⟩).2.last < UInt64.size)
    (hsizeB : (g.spellOut ⟨b⟩).2.last < UInt64.size) :
    (g.spellOut ⟨b⟩).1 = (g.spellOut ⟨a⟩).1.rename (Renaming.shift count a b) := by
  have hρ : Carries (Renaming.shift count a b) count a b := Renaming.shift_carries
  have hfixed {x : String} (hx : g.Mentions x) : Renaming.shift count a b x = x :=
    Renaming.shift_of_mentions ha hb (by omega) (by omega) hx
  generalize Renaming.shift count a b = ρ at hρ hfixed
  have hg : g.rename ρ = g :=
    rename_of_fixed ρ fun t ht => ⟨hfixed ⟨t, ht, .inl rfl⟩, hfixed ⟨t, ht, .inr rfl⟩⟩
  have hpoms : g.predicateObjectMaps.map ρ = g.predicateObjectMaps := by
    apply ρ.map_of_fixed
    intro pom hpom
    obtain ⟨parent, ht⟩ := mem_predicateObjectMaps.mp hpom
    exact hfixed ⟨_, ht, .inr rfl⟩
  -- Both runs multiply out the same maps, none of which the renaming touches.
  have hvisitA := g.spellMaps_eq ⟨a⟩ ha hsizeA
  have hvisitB := g.spellMaps_eq ⟨b⟩ hb hsizeB
  have hcountMaps : (g.spellMaps ⟨a⟩).2.last = a + count := hcount
  rw [hvisitA] at hcountMaps
  have hcountTerms := Nat.le_trans (last_le_multiplyOutAll _ _ _ _) (Nat.le_of_eq hcountMaps)
  obtain ⟨i, -, hlast, hterms⟩ := renamed_spellTerms (i := 0) hρ hcountTerms
  simp only [hg, Nat.add_zero] at hlast hterms
  rw [hlast] at hcountMaps
  obtain ⟨j, -, -, hrenamed⟩ := renamed_multiplyOutAll (g := (g.spellTerms ⟨a⟩).1) hρ
    (g.spellTerms ⟨a⟩).1 g.predicateObjectMaps (Nat.le_of_eq hcountMaps)
  have hmaps : (g.spellMaps ⟨b⟩).1 = (g.spellMaps ⟨a⟩).1.rename ρ := by
    rw [hvisitA, hvisitB, hterms, hlast, ← hpoms, hrenamed, hpoms]
  rw [spellOut_eq, spellOut_eq, hmaps, rename_separatePredicateObjectMaps]
  intro triplesMap hmap
  rw [triplesMaps_spellMaps ha hsizeA hdeclared] at hmap
  exact hfixed ⟨_, mem_subjectsWith.mp hmap, .inl rfl⟩

end Graph

end RmlAlgebra
