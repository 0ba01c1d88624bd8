import RmlAlgebra.Proofs.Asking
import RmlAlgebra.Proofs.BlockFraming
import RmlAlgebra.Proofs.FreshLabel
import RmlAlgebra.Proofs.Rewriting
import RmlAlgebra.Proofs.Traversal

/-! # From one stage to the next as text

Normalization hands its sub-graphs over as one text, which is cut into blocks and read again. Terms
that keep the separators of lines and blocks apart keep them apart in every sub-graph as well, since
new labels and names bring in no character that could end a line, a term or a block.
-/

namespace RmlAlgebra

namespace Text

theorem clear_separator_of_not_mem {text : List Char} (h : '|' ∉ text) :
    Clear Triple.separator text := by
  intro hin
  have hle := hin.sublist.count_le '|'
  have hcount : (text ++ Triple.separator.dropLast).count '|' = 2 := by
    rw [List.count_append, List.count_eq_zero_of_not_mem h]
    decide
  rw [hcount] at hle
  exact absurd hle (by decide)

theorem Clear.append_digits {text : List Char} (h : Clear Triple.separator text) (n : Nat) :
    Clear Triple.separator (text ++ '_' :: Nat.toDigits 10 n) := by
  have hbar : '|' ∉ Nat.toDigits 10 n := fun hc => by simpa using isDigit_of_mem_toDigits hc
  intro hin
  rw [List.append_assoc, List.cons_append] at hin
  rcases infix_append_cons (by decide) hin with hin | hin
  · exact h.not_infix hin
  · exact clear_separator_of_not_mem hbar hin

/-- A text that ends neither a line nor a block. -/
structure Undivided (text : String) : Prop where
  line : '\n' ∉ text.toList
  block : ¬Block.delimiter <:+: text.toList

instance (text : String) : Decidable (Undivided text) :=
  decidable_of_iff (text.toList.contains '\n' = false ∧ contains Block.delimiter text.toList = false)
    ⟨fun h => ⟨by simpa using h.1, fun hin => by simp [contains_eq_true_iff.mpr hin] at h⟩,
      fun h => ⟨by simpa using h.line, by simpa [← contains_eq_true_iff] using h.block⟩⟩

theorem undivided_of_not_mem {text : String} (hline : '\n' ∉ text.toList)
    (hblock : '=' ∉ text.toList) : Undivided text where
  line := hline
  block := fun hin => hblock (hin.subset (by decide))

theorem undivided_ofNat (n : Nat) : Undivided (Label.ofNat n) :=
  undivided_of_not_mem (Label.not_mem_ofNat (by decide) (by decide) n)
    (Label.not_mem_ofNat (by decide) (by decide) n)

theorem Undivided.separatedName {triplesMap : String} (h : Undivided triplesMap) (n : Nat) :
    Undivided (Graph.separatedName triplesMap n) := by
  refine ⟨Graph.not_mem_separatedName h.line (by decide) (by decide) n, ?_⟩
  rw [Graph.toList_separatedName]
  intro hin
  rcases infix_append_cons (by decide) hin with hin | hin
  · exact h.block hin
  · have hc := isDigit_of_mem_toDigits (hin.subset (by decide : '=' ∈ Block.delimiter))
    simp at hc

end Text

/-! ## Terms that can be handed over -/

/-- Terms that keep lines, terms and blocks apart, with a condition on the objects. -/
def Shape.undivided (object : String → Prop) : Shape where
  subject s := Text.Undivided s ∧ Text.Clear Triple.separator s.toList ∧
    Text.opensBlank s.toList = false
  predicate p := Text.Undivided p ∧ Text.Clear Triple.separator p.toList
  object o := Text.Undivided o ∧ object o

instance (object : String → Prop) [DecidablePred object] (g : Graph) :
    Decidable ((Shape.undivided object).Fits g) :=
  inferInstanceAs (Decidable (∀ t ∈ g,
    (Text.Undivided t.subject ∧ ¬Triple.separator <:+: t.subject.toList ++ Triple.separator.dropLast ∧
      Text.opensBlank t.subject.toList = false) ∧
    (Text.Undivided t.predicate ∧
      ¬Triple.separator <:+: t.predicate.toList ++ Triple.separator.dropLast) ∧
    (Text.Undivided t.object ∧ object t.object)))

theorem Shape.addedPredicates_plain :
    ∀ p ∈ addedPredicates, '\n' ∉ p.toList ∧ '=' ∉ p.toList ∧ '|' ∉ p.toList := by
  decide +kernel

theorem Shape.undivided_stable {object : String → Prop} (hlabel : ∀ n, object (Label.ofNat n))
    (htype : object Rdf.type) (hmap : object R2rml.triplesMap) : (undivided object).Stable where
  subjectLabel n := by
    have hbar := Label.not_mem_ofNat (c := '|') (by decide) (by decide) n
    exact ⟨Text.undivided_ofNat n, Text.clear_separator_of_not_mem hbar, Label.opensBlank_ofNat n⟩
  objectLabel n := ⟨Text.undivided_ofNat n, hlabel n⟩
  separated triplesMap n h := by
    refine ⟨h.1.separatedName n, ?_, Graph.opensBlank_separatedName h.2.2 n⟩
    rw [Graph.toList_separatedName]
    exact h.2.1.append_digits n
  addedPredicate := by
    intro p hp
    obtain ⟨hline, hblock, hbar⟩ := addedPredicates_plain p hp
    exact ⟨Text.undivided_of_not_mem hline hblock, Text.clear_separator_of_not_mem hbar⟩
  type := ⟨Text.undivided_of_not_mem (by decide) (by decide), htype⟩
  triplesMap := ⟨Text.undivided_of_not_mem (by decide) (by decide), hmap⟩

/-- The terms that survive the hand-off of a graph. -/
def Shape.transferable : Shape :=
  undivided fun o => Text.closesBlank o.toList = false

instance (g : Graph) : Decidable (Shape.transferable.Fits g) :=
  inferInstanceAs (Decidable ((Shape.undivided fun o => Text.closesBlank o.toList = false).Fits g))

theorem Shape.transferable_stable : Shape.transferable.Stable :=
  undivided_stable Label.closesBlank_ofNat (by decide) (by decide)

namespace Shape.Fits

variable {g : Graph} {object : String → Prop}

theorem readable (h : (undivided object).Fits g) : ∀ t ∈ g, t.Readable := by
  intro t ht
  obtain ⟨hs, hp, ho⟩ := h t ht
  refine ⟨hs.2.1, hp.2, ?_⟩
  rw [Triple.mem_toChars (by decide)]
  rintro (hc | hc | hc)
  · exact hs.1.line hc
  · exact hp.1.line hc
  · exact ho.1.line hc

theorem start (h : (undivided object).Fits g) (t : Triple) (ht : g.head? = some t) :
    Text.opensBlank t.subject.toList = false :=
  (h t (List.mem_of_head? ht)).1.2.2

theorem framed (h : (undivided object).Fits g) (hne : g ≠ []) : g.Framed where
  nonempty := hne
  start := h.start
  undivided := by
    apply Graph.not_infix_toText
    intro t ht
    obtain ⟨hs, hp, ho⟩ := h t ht
    exact ⟨hs.1.block, hp.1.block, ho.1.block⟩

end Shape.Fits

namespace Triple

theorem withoutReturn_of_closesBlank {t : Triple} (h : Text.closesBlank t.object.toList = false) :
    t.withoutReturn = t := by
  rw [withoutReturn, Text.dropReturn_eq_self h, String.ofList_toList]

theorem trimmed_of_closesBlank {t : Triple} (h : Text.closesBlank t.object.toList = false) :
    t.trimmed = t := by
  rw [trimmed, Text.trimEnd_eq_self h, String.ofList_toList]

end Triple

namespace Graph

/-- A graph is handed over as it is if its last object has no blank ending and the others no
carriage return at their end. -/
theorem handedOver_eq_self {g : Graph} (h : ∀ t ∈ g, Text.closesBlank t.object.toList = false) :
    g.handedOver = g := by
  by_cases hne : g = []
  · subst hne
    rfl
  · obtain ⟨init, t, rfl⟩ := (List.eq_nil_or_concat g).resolve_left hne
    have hinit : init.map Triple.withoutReturn = init := by
      refine (List.map_congr_left fun u hu => ?_).trans (List.map_id init)
      exact Triple.withoutReturn_of_closesBlank (h u (by simp [hu]))
    have ht := Triple.trimmed_of_closesBlank (h t (by simp))
    simp [handedOver, hinit, ht]

theorem normalize_eq_ok_iff {g : Graph} {seed : UInt32} {subs : List Graph} :
    g.normalize seed = .ok subs ↔ g.ambiguousMap? = none ∧
      (g.spellOut (g.supply seed)).1.triplesMaps ≠ [] ∧
      (g.spellOut (g.supply seed)).1.subGraphs = subs := by
  rw [normalize]
  cases g.ambiguousMap? with
  | some triplesMap => simp
  | none =>
      by_cases hempty : (g.spellOut (g.supply seed)).1.triplesMaps = []
      · simp [hempty]
      · simp [hempty]

theorem mem_subGraphs {g sub : Graph} (h : sub ∈ g.subGraphs) :
    ∃ root ∈ g.triplesMaps, sub = g.reachable root ∧ sub.isComplete = true := by
  obtain ⟨hmap, hcomplete⟩ := List.mem_filter.mp h
  obtain ⟨root, hroot, rfl⟩ := List.mem_map.mp hmap
  exact ⟨root, hroot, rfl, hcomplete⟩

/-- Sub-graphs are not empty and keep every stable shape. -/
theorem fits_of_normalize {k : Shape} (hk : k.Stable) {g : Graph} (hg : k.Fits g) {seed : UInt32}
    {subs : List Graph} (h : g.normalize seed = .ok subs) :
    ∀ sub ∈ subs, sub ≠ [] ∧ k.Fits sub := by
  intro sub hsub
  rw [← (normalize_eq_ok_iff.mp h).2.2] at hsub
  obtain ⟨root, -, rfl, hcomplete⟩ := mem_subGraphs hsub
  refine ⟨ne_nil_of_isComplete hcomplete, ?_⟩
  intro t ht
  exact hk.spellOut hg _ t (mem_of_mem_reachable ht)

/-- A graph without blank endings is read back from its text as it is. -/
theorem ofText_toText_of_fits {g : Graph} (h : Shape.transferable.Fits g) :
    ofText g.toText = .ok g := by
  rw [ofText_toText h.readable]
  congr 1
  refine (List.map_congr_left fun t ht => ?_).trans (List.map_id g)
  exact Triple.withoutReturn_of_closesBlank (h t ht).2.2.2

/-- The block of a graph without blank endings is its text without the last line feed. -/
theorem ofGraph_eq_dropLast {g : Graph} (h : Shape.transferable.Fits g) (hne : g ≠ []) :
    Block.ofGraph g = String.ofList g.toText.toList.dropLast := by
  obtain ⟨t, hlast, htrim⟩ := trim_toText hne h.start
  obtain ⟨u, hlast', htext⟩ := toChars_toText_append hne
  have htu : u = t := Option.some.inj (hlast'.symm.trans hlast)
  subst htu
  have hu := Triple.trimmed_of_closesBlank (h u (List.mem_of_getLast? hlast)).2.2.2
  rw [Block.ofGraph, htrim, hu, htext, ← List.append_assoc, List.dropLast_concat]

theorem ofText_ofGraph {g : Graph} (h : Shape.transferable.Fits g) (hne : g ≠ []) :
    ofText (Block.ofGraph g) = .ok g := by
  rw [Block.ofGraph, ofText_trim_toText hne h.readable h.start,
    handedOver_eq_self fun t ht => (h t ht).2.2.2]

end Graph

/-! ## The stage -/

theorem toOption_eq_some_iff {ε α : Type} {x : Except ε α} {a : α} :
    x.toOption = some a ↔ x = .ok a := by
  constructor
  · intro h
    cases x with
    | error cause => cases h
    | ok b => exact congrArg Except.ok (Option.some.inj h)
  · rintro rfl
    rfl

theorem exists_eq_ok_of_isSome {ε α : Type} {x : Except ε α} (h : x.toOption.isSome = true) :
    ∃ a, x = .ok a := by
  obtain ⟨a, ha⟩ := Option.isSome_iff_exists.mp h
  exact ⟨a, toOption_eq_some_iff.mp ha⟩

namespace Pipeline

theorem engine_normalize_of_ok {text : String} {g : Graph} {seed : UInt32} {subs : List Graph}
    (hread : Graph.ofText text = .ok g) (h : g.normalize seed = .ok subs) :
    Engine.normalize text seed = some (Block.ofGraphs subs) := by
  have htext : Engine.normalizeText text seed = .ok (Block.ofGraphs subs) := by
    rw [Engine.normalizeText, Engine.onGraph, hread]
    dsimp only
    rw [h]
    rfl
  rw [Engine.normalize, htext]
  rfl

theorem normalize_of_ok (wording : Wording) (base : String) {text : String} {g : Graph}
    {seed : UInt32} {subs : List Graph} (hread : Graph.ofText text = .ok g)
    (h : g.normalize seed = .ok subs)
    (hmark : ¬Engine.refusalMark <+: (Block.ofGraphs subs).toList) :
    (normalize (m := Id) (Engines.builtIn wording base) text seed).run =
      Except.ok (Block.sort (Block.split (Block.ofGraphs subs))) := by
  rw [normalize_builtIn, engine_normalize_of_ok hread h, Engine.ofRaw_of_not_refusal hmark]
  rfl

/-- The stage hands over every sub-graph: its blocks are the texts of the sub-graphs in order, and
each one is read back as the graph that it was made from. -/
theorem normalize_lossless {g : Graph} {seed : UInt32} {subs : List Graph} (wording : Wording)
    (base : String) (hg : Shape.transferable.Fits g) (h : g.normalize seed = .ok subs)
    (hmark : ¬Engine.refusalMark <+: (Block.ofGraphs subs).toList) :
    ∃ blocks,
      (normalize (m := Id) (Engines.builtIn wording base) g.toText seed).run = Except.ok blocks ∧
      blocks.Perm (subs.map fun sub => String.ofList sub.toText.toList.dropLast) ∧
      blocks.Pairwise (· ≤ ·) ∧
      (∀ sub ∈ subs, Graph.ofText (String.ofList sub.toText.toList.dropLast) = .ok sub) ∧
      (blocks.map Graph.ofText).Perm (subs.map .ok) := by
  have hsubs := Graph.fits_of_normalize Shape.transferable_stable hg h
  have hsplit : Block.split (Block.ofGraphs subs) =
      subs.map fun sub => String.ofList sub.toText.toList.dropLast := by
    rw [Block.split_ofGraphs fun sub hsub => (hsubs sub hsub).2.framed (hsubs sub hsub).1]
    apply List.map_congr_left
    intro sub hsub
    exact Graph.ofGraph_eq_dropLast (hsubs sub hsub).2 (hsubs sub hsub).1
  have hback (sub : Graph) (hsub : sub ∈ subs) :
      Graph.ofText (String.ofList sub.toText.toList.dropLast) = .ok sub := by
    obtain ⟨hne, hfits⟩ := hsubs sub hsub
    rw [← Graph.ofGraph_eq_dropLast hfits hne, Graph.ofText_ofGraph hfits hne]
  have hrun := normalize_of_ok wording base (Graph.ofText_toText_of_fits hg) h hmark
  rw [hsplit] at hrun
  refine ⟨_, hrun, Block.sort_perm _, Block.pairwise_sort _, hback, ?_⟩
  refine ((Block.sort_perm _).map Graph.ofText).trans (List.Perm.of_eq ?_)
  rw [List.map_map]
  apply List.map_congr_left
  intro sub hsub
  rw [Function.comp_apply, hback sub hsub]

/-- A mapping with two rules, whose terms come close to the separators. -/
def nearSeparators : Graph :=
  [⟨"=u|v", Rdf.type, R2rml.triplesMap⟩, ⟨"=u|v", R2rml.subject, "x"⟩,
    ⟨"=u|v", R2rml.predicateObjectMap, "b1"⟩, ⟨"b1", R2rml.predicate, ""⟩,
    ⟨"b1", R2rml.object, "==="⟩, ⟨"b1", R2rml.object, "|||"⟩]

set_option maxRecDepth 100000 in
theorem normalize_lossless_nearSeparators :
    Shape.transferable.Fits nearSeparators ∧ ∃ subs, nearSeparators.normalize 7 = .ok subs ∧
      subs.length = 2 ∧ ¬Engine.refusalMark <+: (Block.ofGraphs subs).toList ∧
      ∃ blocks, (normalize (m := Id) (Engines.builtIn default "") nearSeparators.toText 7).run =
          Except.ok blocks ∧ (blocks.map Graph.ofText).Perm (subs.map .ok) := by
  have hfits : Shape.transferable.Fits nearSeparators := by decide +kernel
  have hsubs : ∃ subs, nearSeparators.normalize 7 = .ok subs ∧ subs.length = 2 ∧
      ¬Engine.refusalMark <+: subs.flatMap fun g =>
        Text.unlines (g.map Triple.toChars) ++ Block.delimiter := by
    simp only [Graph.normalize_eq_ok_iff]
    exact ⟨_, ⟨by decide +kernel, by decide +kernel, rfl⟩, by decide +kernel⟩
  obtain ⟨subs, hsubs, hlength, hmark⟩ := hsubs
  have hmark : ¬Engine.refusalMark <+: (Block.ofGraphs subs).toList := by
    simpa [Block.toList_ofGraphs] using hmark
  obtain ⟨blocks, hrun, -, -, -, hperm⟩ := normalize_lossless default "" hfits hsubs hmark
  exact ⟨hfits, subs, hsubs, hlength, hmark, blocks, hrun, hperm⟩

end Pipeline

end RmlAlgebra
