import RmlAlgebra.Proofs.HandOff
import RmlAlgebra.Proofs.LabelShift
import RmlAlgebra.Proofs.PlanRoundTrip

/-! # Plans do not depend on the seed

Two runs with different seeds give the same sub-graphs up to the names of new labels. The text of a
sub-graph starts with the name of its triples map, which is the same in both runs and decides the
order of the blocks before a new label is met. What is planned from a block does not name any label.
-/

namespace RmlAlgebra

namespace Text

/-- Texts that differ before one of them ends are ordered by these beginnings. -/
theorem lex_append_congr {xs ys : List Char} (hxy : ¬xs <+: ys) (hyx : ¬ys <+: xs)
    (as bs cs ds : List Char) :
    List.Lex (fun c d : Char => c < d) (xs ++ as) (ys ++ bs) ↔
      List.Lex (fun c d : Char => c < d) (xs ++ cs) (ys ++ ds) := by
  induction xs generalizing ys with
  | nil => exact absurd List.nil_prefix hxy
  | cons x xs ih =>
      cases ys with
      | nil => exact absurd List.nil_prefix hyx
      | cons y ys =>
          rw [List.cons_append, List.cons_append, List.cons_append, List.cons_append,
            List.cons_lex_cons_iff, List.cons_lex_cons_iff]
          by_cases heq : x = y
          · subst heq
            rw [ih (fun h => hxy (List.cons_prefix_cons.mpr ⟨rfl, h⟩))
              (fun h => hyx (List.cons_prefix_cons.mpr ⟨rfl, h⟩))]
          · simp [heq]

theorem prefix_of_prefix_append_cons {mark xs rest : List Char} {c : Char} (hc : c ∉ mark)
    (h : mark <+: xs ++ c :: rest) : mark <+: xs := by
  rcases List.prefix_or_prefix_of_prefix h (List.prefix_append xs _) with hmark | ⟨more, rfl⟩
  · exact hmark
  · cases more with
    | nil => simp
    | cons d ds =>
        rw [List.prefix_append_right_inj, List.cons_prefix_cons] at h
        simp [h.1] at hc

/-- No text up to its first separator starts another one. -/
theorem Clear.eq_of_prefix {separator xs ys : List Char} (hne : separator ≠ [])
    (hxs : Clear separator xs) (hys : Clear separator ys)
    (h : xs ++ separator <+: ys ++ separator) : xs = ys := by
  obtain ⟨rest, heq⟩ := h
  have hcut := cut?_append hne hxs rest
  have hcut' := cut?_append hne hys []
  rw [List.append_nil, ← heq, hcut] at hcut'
  exact congrArg Prod.fst (Option.some.inj hcut')

end Text

namespace Graph

variable {S : Graph} {root : String}

/-- A graph whose first triple is about a given node. -/
def Rooted (S : Graph) (root : String) : Prop :=
  ∃ t others, S = t :: others ∧ t.subject = root

theorem Rooted.toText (h : S.Rooted root) :
    ∃ rest, S.toText.toList = root.toList ++ Triple.separator ++ rest := by
  obtain ⟨t, others, rfl, rfl⟩ := h
  refine ⟨t.predicate.toList ++ Triple.separator ++ t.object.toList ++
    '\n' :: Text.unlines (others.map Triple.toChars), ?_⟩
  simp [Text.unlines, Triple.toChars]

/-- A block starts with the name of the node that its graph starts with. -/
theorem Rooted.block (h : S.Rooted root) (hroot : Text.opensBlank root.toList = false) :
    ∃ rest, (Block.ofGraph S).toList = root.toList ++ Triple.separator ++ rest := by
  obtain ⟨t, others, rfl, rfl⟩ := h
  have hstart : ∀ u, (t :: others).head? = some u → Text.opensBlank u.subject.toList = false := by
    rintro u hu
    cases hu
    exact hroot
  obtain ⟨u, hlast, htrim⟩ := trim_toText (List.cons_ne_nil t others) hstart
  rw [Block.ofGraph, String.toList_ofList, htrim]
  cases others with
  | nil =>
      cases hlast
      refine ⟨t.predicate.toList ++ Triple.separator ++ t.trimmed.object.toList, ?_⟩
      simp [Text.unlines, Triple.toChars, Triple.trimmed]
  | cons v others =>
      refine ⟨t.predicate.toList ++ Triple.separator ++ t.object.toList ++
        '\n' :: (Text.unlines ((v :: others).dropLast.map Triple.toChars) ++ u.trimmed.toChars), ?_⟩
      simp [Text.unlines, Triple.toChars]

/-- A graph whose terms can be told apart in its text, which starts with a given name. -/
structure Headed (S : Graph) (root : String) : Prop where
  fits : (Shape.undivided fun _ => True).Fits S
  rooted : S.Rooted root

theorem Headed.name (h : S.Headed root) :
    Text.opensBlank root.toList = false ∧ Text.Clear Triple.separator root.toList := by
  obtain ⟨t, others, rfl, rfl⟩ := h.rooted
  have ht := (h.fits t List.mem_cons_self).1
  exact ⟨ht.2.2, ht.2.1⟩

theorem Headed.framed (h : S.Headed root) : S.Framed := by
  obtain ⟨t, others, rfl, -⟩ := h.rooted
  exact h.fits.framed (List.cons_ne_nil t others)

end Graph

namespace Block

/-- Graphs for the same nodes give blocks in the same order. -/
theorem ofGraph_le_congr {S T S' T' : Graph} {x y : String} (hS : S.Headed x) (hT : T.Headed y)
    (hS' : S'.Headed x) (hT' : T'.Headed y) (hsame : x = y → S = T ∧ S' = T') :
    ofGraph S ≤ ofGraph T ↔ ofGraph S' ≤ ofGraph T' := by
  by_cases hxy : x = y
  · obtain ⟨rfl, rfl⟩ := hsame hxy
    simp
  · obtain ⟨hopenX, hclearX⟩ := hS.name
    obtain ⟨hopenY, hclearY⟩ := hT.name
    obtain ⟨as, has⟩ := hS.rooted.block hopenX
    obtain ⟨bs, hbs⟩ := hT.rooted.block hopenY
    obtain ⟨cs, hcs⟩ := hS'.rooted.block hopenX
    obtain ⟨ds, hds⟩ := hT'.rooted.block hopenY
    have hne : x.toList ≠ y.toList := fun h => hxy (String.toList_inj.mp h)
    have hsep : Triple.separator ≠ [] := by decide
    have hle (a b : String) :
        a ≤ b ↔ ¬List.Lex (fun c d : Char => c < d) b.toList a.toList := Iff.rfl
    rw [hle, hle, has, hbs, hcs, hds, Text.lex_append_congr]
    · exact fun h => hne (hclearY.eq_of_prefix hsep hclearX h).symm
    · exact fun h => hne (hclearX.eq_of_prefix hsep hclearY h)

/-- The sorted blocks of two families of graphs are those of one list of nodes. -/
theorem exists_sort_map {F F' : String → Graph} {roots : List String}
    (hF : ∀ x ∈ roots, (F x).Headed x) (hF' : ∀ x ∈ roots, (F' x).Headed x) :
    ∃ order : List String, (∀ x ∈ order, x ∈ roots) ∧
      sort (roots.map fun x => ofGraph (F x)) = order.map (fun x => ofGraph (F x)) ∧
      sort (roots.map fun x => ofGraph (F' x)) = order.map (fun x => ofGraph (F' x)) := by
  refine ⟨roots.mergeSort fun x y => ofGraph (F x) ≤ ofGraph (F y), ?_, ?_, ?_⟩
  · exact fun x hx => (List.mergeSort_perm _ _).mem_iff.mp hx
  · refine (List.map_mergeSort ?_).symm
    exact fun x _ y _ => rfl
  · refine (List.map_mergeSort ?_).symm
    intro x hx y hy
    rw [decide_eq_decide]
    apply ofGraph_le_congr (hF x hx) (hF y hy) (hF' x hx) (hF' y hy)
    rintro rfl
    exact ⟨rfl, rfl⟩

/-- Whether the text of a list of graphs starts as a refusal is seen from the first name. -/
theorem refusalMark_iff {S : Graph} {root : String} (h : S.Rooted root) (others : List Graph) :
    Engine.refusalMark <+: (ofGraphs (S :: others)).toList ↔ Engine.refusalMark <+: root.toList := by
  obtain ⟨rest, htext⟩ := h.toText
  rw [toList_ofGraphs_cons, htext]
  simp only [List.append_assoc]
  constructor
  · exact Text.prefix_of_prefix_append_cons (c := '|') (by decide)
  · exact fun hmark => hmark.trans (List.prefix_append _ _)

end Block

/-! ## Graphs as they are handed over -/

/-- An object that does not turn into a label when its blank ending is lost. -/
def Label.Plain (object : String) : Prop :=
  Text.closesBlank object.toList = true →
    isLabel (String.ofList (Text.trimEnd object.toList)) = false

instance (object : String) : Decidable (Label.Plain object) :=
  inferInstanceAs (Decidable (_ = true → _ = false))

theorem Label.Plain.dropReturn {o : String} (h : Label.Plain o)
    (hblank : Text.closesBlank o.toList = true) :
    isLabel (String.ofList (Text.dropReturn o.toList)) = false := by
  rw [Bool.eq_false_iff]
  intro hlabel
  have hclose := Label.closesBlank_of_isLabel hlabel
  rw [String.toList_ofList] at hclose
  by_cases hreturn : o.toList.getLast? = some '\r'
  · obtain ⟨init, hinit⟩ := List.getLast?_eq_some_iff.mp hreturn
    have hdrop : Text.dropReturn o.toList = init := by
      rw [Text.dropReturn, if_pos hreturn, hinit, List.dropLast_concat]
    have htrim : Text.trimEnd o.toList = init := by
      rw [hinit, Text.trimEnd_append_blank init (by decide), Text.trimEnd_eq_self (hdrop ▸ hclose)]
    have hplain := h hblank
    rw [htrim, ← hdrop, hlabel] at hplain
    cases hplain
  · rw [Text.dropReturn, if_neg hreturn, hblank] at hclose
    cases hclose

/-- Cutting the end of an object and renaming can be exchanged if the cut leaves no new label. -/
theorem Renaming.apply_cut (ρ : Renaming) {cut : List Char → List Char} {o : String}
    (hself : ∀ text, Text.closesBlank text = false → cut text = text)
    (hcut : Text.closesBlank o.toList = true → isLabel (String.ofList (cut o.toList)) = false) :
    String.ofList (cut (ρ o).toList) = ρ (String.ofList (cut o.toList)) := by
  by_cases hblank : Text.closesBlank o.toList = true
  · have ho : isLabel o = false := by
      rw [Bool.eq_false_iff]
      intro hlabel
      rw [Label.closesBlank_of_isLabel hlabel] at hblank
      cases hblank
    rw [ρ.other o ho, ρ.other _ (hcut hblank)]
  · have hblank : Text.closesBlank o.toList = false := by simpa using hblank
    have hrenamed : Text.closesBlank (ρ o).toList = false := by
      cases hlabel : isLabel o with
      | true => exact Label.closesBlank_of_isLabel ((ρ.label o).trans hlabel)
      | false => rwa [ρ.other o hlabel]
    rw [hself _ hrenamed, hself _ hblank, String.ofList_toList, String.ofList_toList]

namespace Triple

variable {t : Triple} (ρ : Renaming)

theorem trimmed_rename (h : Label.Plain t.object) : (t.rename ρ).trimmed = t.trimmed.rename ρ := by
  have hcut := ρ.apply_cut (fun _ => Text.trimEnd_eq_self) h
  simp only [trimmed, Triple.rename, hcut]

theorem withoutReturn_rename (h : Label.Plain t.object) :
    (t.rename ρ).withoutReturn = t.withoutReturn.rename ρ := by
  have hcut := ρ.apply_cut (fun _ => Text.dropReturn_eq_self) h.dropReturn
  simp only [withoutReturn, Triple.rename, hcut]

end Triple

namespace Graph

variable {S : Graph} (ρ : Renaming)

theorem handedOver_rename (h : ∀ t ∈ S, Label.Plain t.object) :
    (S.rename ρ).handedOver = S.handedOver.rename ρ := by
  by_cases hne : S = []
  · subst hne
    rfl
  · obtain ⟨init, last, rfl⟩ := (List.eq_nil_or_concat S).resolve_left hne
    have hinit : (init.map (Triple.rename ρ)).map Triple.withoutReturn =
        (init.map Triple.withoutReturn).map (Triple.rename ρ) := by
      rw [List.map_map, List.map_map]
      apply List.map_congr_left
      intro t ht
      exact Triple.withoutReturn_rename ρ (h t (by simp [ht]))
    have hlast := Triple.trimmed_rename ρ (h last (by simp))
    simp only [rename, handedOver, List.concat_eq_append, List.map_append, List.map_cons,
      List.map_nil, List.dropLast_concat, List.getLast?_concat, Option.toList_some, hinit, hlast]

theorem keepsValues_handedOver (h : ∀ t ∈ S, Label.Plain t.object) (hvalues : KeepsValues ρ S) :
    KeepsValues ρ S.handedOver := by
  have hfixed {t : Triple} (ht : t ∈ S) (hp : valuePredicates.contains t.predicate = true) :
      t.rename ρ = ⟨ρ t.subject, t.predicate, t.object⟩ := by
    rw [Triple.rename, hvalues t ht hp]
  intro u hu hp
  rcases List.mem_append.mp hu with hu | hu
  · obtain ⟨t, ht, rfl⟩ := List.mem_map.mp hu
    have ht := List.dropLast_subset S ht
    have heq := congrArg Triple.object (Triple.withoutReturn_rename ρ (h t ht))
    rw [hfixed ht hp] at heq
    exact heq.symm
  · obtain ⟨t, ht, rfl⟩ := List.mem_map.mp hu
    have ht := List.mem_of_getLast? (Option.mem_toList.mp ht)
    have heq := congrArg Triple.object (Triple.trimmed_rename ρ (h t ht))
    rw [hfixed ht hp] at heq
    exact heq.symm

end Graph

/-! ## The stages after parsing -/

namespace PlanText

/-- An expression that is a line of its own. -/
structure IsLine (expression : String) : Prop where
  line : '\n' ∉ expression.toList
  start : (expression.toList.head?.any fun c => !Text.isBlank c) = true
  close : Text.closesBlank expression.toList = false

instance (expression : String) : Decidable (IsLine expression) :=
  decidable_of_iff (expression.toList.contains '\n' = false ∧
      (expression.toList.head?.any fun c => !Text.isBlank c) = true ∧
      Text.closesBlank expression.toList = false)
    ⟨fun h => ⟨by simpa using h.1, h.2.1, h.2.2⟩, fun h => ⟨by simpa using h.line, h.start, h.close⟩⟩

theorem IsLine.isExpression {e : String} (h : IsLine e) : IsExpression e := by
  refine ⟨h.line, ?_⟩
  obtain ⟨c, hc, hvisible⟩ := (Option.any_eq_true _ _).mp h.start
  exact ⟨c, List.mem_of_mem_head? hc, by simpa using hvisible⟩

/-- A plan is read back from its text. -/
theorem expressions_of_lines {plan : List String} (h : ∀ e ∈ plan, IsLine e) :
    expressions (serialize plan) = plan := by
  rw [expressions_serialize_eq_self_iff fun e he => (h e he).isExpression]
  intro e he
  exact Text.dropReturn_eq_self_iff.mp (Text.dropReturn_eq_self (h e he).close)

/-- Expressions that are lines of their own are found again in the text of a plan. -/
theorem collect_of_lines {plan : List String} (h : ∀ e ∈ plan, IsLine e) :
    collect (serialize plan) = plan := by
  rw [collect_serialize fun e he => (h e he).isExpression, expressions_of_lines h]

end PlanText

namespace Pipeline

open Engine (Answer)

variable {m : Type → Type} [Monad m]

/-- Normalize a parsed mapping, plan its blocks and write the plan. -/
def compileParsed (engines : Engines m) (seed : UInt32) (parsed : String) :
    ExceptT CompileError m Compilation := do
  let blocks ← normalize engines parsed seed
  let expressions ← generate engines blocks
  return ⟨PlanText.serialize expressions, ⟨blocks.length, expressions.length⟩⟩

theorem compile_eq_bind (engines : Engines m) (options : Options) (document : String) :
    compile engines options document =
      load engines document >>= compileParsed engines options.blankNodeSeed :=
  rfl

/-- The expressions of a block, if it is planned. -/
def planned (block : String) : Option (List String) :=
  match Answer.ofRaw (Engine.generate block) with
  | .success text => some (PlanText.collect text)
  | .refusal _ => none
  | .absent => none

theorem toOption_run_bind {ε α β : Type} (x : ExceptT ε Id α) (f : α → ExceptT ε Id β) :
    (x >>= f).run.toOption = x.run.toOption.bind fun a => (f a).run.toOption := by
  rw [ExceptT.run_bind]
  cases x.run with
  | error cause => rfl
  | ok a => rfl

/-- Planning goes on until a block is refused. -/
theorem generateFrom_builtIn (wording : Wording) (base : String) (index : Nat)
    (blocks : List String) :
    (generateFrom (m := Id) (Engines.builtIn wording base) index blocks).run.toOption =
      (blocks.mapM planned).map List.flatten := by
  induction blocks generalizing index with
  | nil => rfl
  | cons block others ih =>
      rw [List.mapM_cons, planned, generateFrom_builtIn_cons]
      cases Answer.ofRaw (Engine.generate block) with
      | refusal message => rfl
      | absent => rfl
      | success text =>
          rw [following, toOption_run_bind, ih (index + 1)]
          cases others.mapM planned with
          | none => rfl
          | some plans => rfl

theorem ofRaw_refusalText (cause : String) :
    Answer.ofRaw (some (Engine.refusalText cause)) = .refusal (Engine.refusalText cause) := by
  have hmark : Engine.refusalMark.isPrefixOf (Engine.refusalText cause).toList = true := by
    simp [Engine.refusalText, Engine.refusalMark]
  rw [Answer.ofRaw, if_pos hmark]

/-- The expressions that are taken over from the plan of a graph. -/
def expressionsOf (S : Graph) : Option (List String) :=
  S.plan.toOption.bind fun expressions =>
    match Answer.ofRaw (some (PlanText.serialize (expressions.map Expression.render))) with
    | .success text => some (PlanText.collect text)
    | .refusal _ => none
    | .absent => none

/-- What is planned from a block is known from the plan of its graph. -/
theorem planned_eq {block : String} {S : Graph} (h : Graph.ofText block = .ok S) :
    planned block = expressionsOf S := by
  rw [planned, Engine.generate, Engine.planText, Engine.onGraph, h, expressionsOf]
  simp only
  cases S.plan with
  | ok expressions => rfl
  | error cause =>
      have hrefused : Answer.ofRaw (some (Engine.refusalText cause.message)) =
          .refusal (Engine.refusalText cause.message) := ofRaw_refusalText cause.message
      show (match Answer.ofRaw (some (Engine.refusalText cause.message)) with
        | .success text => some (PlanText.collect text)
        | .refusal _ => none
        | .absent => none) = none
      rw [hrefused]

/-- The compilation of sub-graphs, if none of them is refused. -/
def outcome (subs : List Graph) : Option Compilation :=
  if Engine.refusalMark.isPrefixOf (Block.ofGraphs subs).toList then none
  else
    let blocks := Block.sort (Block.split (Block.ofGraphs subs))
    (blocks.mapM planned).map fun plans =>
      ⟨PlanText.serialize plans.flatten, ⟨blocks.length, plans.flatten.length⟩⟩

theorem toOption_normalize (wording : Wording) (base : String) {text : String} {g : Graph}
    (hread : Graph.ofText text = .ok g) (seed : UInt32) :
    (normalize (m := Id) (Engines.builtIn wording base) text seed).run.toOption =
      (g.normalize seed).toOption.bind fun subs =>
        if Engine.refusalMark.isPrefixOf (Block.ofGraphs subs).toList then none
        else some (Block.sort (Block.split (Block.ofGraphs subs))) := by
  rw [normalize_builtIn]
  cases h : g.normalize seed with
  | ok subs =>
      rw [engine_normalize_of_ok hread h]
      by_cases hmark : Engine.refusalMark.isPrefixOf (Block.ofGraphs subs).toList = true
      · rw [Answer.ofRaw, if_pos hmark]
        exact (if_pos hmark).symm
      · rw [Answer.ofRaw, if_neg hmark]
        exact (if_neg hmark).symm
  | error cause =>
      have hanswer : Engine.normalize text seed = some (Engine.refusalText cause.message) := by
        rw [Engine.normalize, Engine.normalizeText, Engine.onGraph, hread]
        simp only
        rw [h]
        rfl
      rw [hanswer, ofRaw_refusalText]
      rfl

/-- The stages after parsing normalize the graph and compile its sub-graphs. -/
theorem toOption_compileParsed_builtIn (wording : Wording) (base : String) {text : String}
    {g : Graph} (hread : Graph.ofText text = .ok g) (seed : UInt32) :
    (compileParsed (m := Id) (Engines.builtIn wording base) seed text).run.toOption =
      (g.normalize seed).toOption.bind outcome := by
  rw [compileParsed, toOption_run_bind, toOption_normalize wording base hread]
  cases (g.normalize seed).toOption with
  | none => rfl
  | some subs =>
      rw [Option.bind_some, Option.bind_some, outcome]
      split
      · rfl
      · rw [Option.bind_some, toOption_run_bind, generate, generateFrom_builtIn]
        simp only
        cases List.mapM planned (Block.sort (Block.split (Block.ofGraphs subs))) with
        | none => rfl
        | some plans => rfl

/-- Graphs for the same nodes with the same plans give the same compilation. -/
theorem outcome_congr {F F' : String → Graph} {roots : List String}
    (hF : ∀ x ∈ roots, (F x).Headed x) (hF' : ∀ x ∈ roots, (F' x).Headed x)
    (hplanned : ∀ x ∈ roots,
      planned (Block.ofGraph (F x)) = planned (Block.ofGraph (F' x))) :
    outcome (roots.map F) = outcome (roots.map F') := by
  have hmark : Engine.refusalMark.isPrefixOf (Block.ofGraphs (roots.map F)).toList =
      Engine.refusalMark.isPrefixOf (Block.ofGraphs (roots.map F')).toList := by
    cases roots with
    | nil => rfl
    | cons x others =>
        rw [Bool.eq_iff_iff, List.isPrefixOf_iff_prefix, List.isPrefixOf_iff_prefix, List.map_cons,
          List.map_cons, Block.refusalMark_iff (hF x List.mem_cons_self).rooted,
          Block.refusalMark_iff (hF' x List.mem_cons_self).rooted]
  have hsplit {K : String → Graph} (hK : ∀ x ∈ roots, (K x).Headed x) :
      Block.split (Block.ofGraphs (roots.map K)) = roots.map fun x => Block.ofGraph (K x) := by
    rw [Block.split_ofGraphs, List.map_map]
    · rfl
    · intro S hS
      obtain ⟨x, hx, rfl⟩ := List.mem_map.mp hS
      exact (hK x hx).framed
  obtain ⟨order, horder, hsort, hsort'⟩ := Block.exists_sort_map hF hF'
  have hplans : (order.map fun x => Block.ofGraph (F x)).mapM planned =
      (order.map fun x => Block.ofGraph (F' x)).mapM planned := by
    have hmap (blocks : List String) : blocks.mapM planned = (blocks.map planned).mapM id := by
      rw [List.mapM_map]
      rfl
    have hsame : order.map (planned ∘ fun x => Block.ofGraph (F x)) =
        order.map (planned ∘ fun x => Block.ofGraph (F' x)) := by
      apply List.map_congr_left
      intro x hx
      rw [Function.comp_apply, Function.comp_apply, hplanned x (horder x hx)]
    rw [hmap, hmap, List.map_map, List.map_map, hsame]
  simp only [outcome, hmark, hsplit hF, hsplit hF', hsort, hsort', hplans, List.length_map]

/-- Renaming blank nodes does not change what is compiled, as long as the triples maps and the
values keep their names. -/
theorem outcome_rename {spelled : Graph} {ρ : Renaming}
    (hroots : ∀ x ∈ spelled.triplesMaps, ρ x = x) (hvalues : Graph.KeepsValues ρ spelled)
    (hfits : (Shape.undivided Label.Plain).Fits spelled)
    (hfits' : (Shape.undivided Label.Plain).Fits (spelled.rename ρ)) :
    outcome (spelled.rename ρ).subGraphs = outcome spelled.subGraphs := by
  have hsubs : spelled.subGraphs =
      (spelled.triplesMaps.filter fun x => (spelled.reachable x).isComplete).map
        spelled.reachable := by
    rw [Graph.subGraphs, List.filter_map]
    rfl
  have hweak {S : Graph} (hS : (Shape.undivided Label.Plain).Fits S) :
      (Shape.undivided fun _ => True).Fits S :=
    fun t ht => ⟨(hS t ht).1, (hS t ht).2.1, (hS t ht).2.2.1, trivial⟩
  rw [Graph.subGraphs_rename, hsubs, List.map_map]
  have hsub {x : String} : (Shape.undivided Label.Plain).Fits (spelled.reachable x) :=
    fun t ht => hfits t (Graph.mem_of_mem_reachable ht)
  have hsub' {x : String} :
      (Shape.undivided Label.Plain).Fits ((spelled.reachable x).rename ρ) := by
    intro u hu
    obtain ⟨t, ht, rfl⟩ := List.mem_map.mp hu
    exact hfits' _ (List.mem_map_of_mem (Graph.mem_of_mem_reachable ht))
  have hread {S : Graph} {x : String} (hS : (Shape.undivided Label.Plain).Fits S)
      (hhead : S.Headed x) : Graph.ofText (Block.ofGraph S) = .ok S.handedOver :=
    Graph.ofText_trim_toText hhead.framed.nonempty hS.readable hS.start
  have hheaded {x : String}
      (hx : x ∈ spelled.triplesMaps.filter fun x => (spelled.reachable x).isComplete) :
      (spelled.reachable x).Headed x :=
    ⟨hweak hsub, Graph.head_reachable (List.mem_filter.mp hx).1⟩
  have hheaded' {x : String}
      (hx : x ∈ spelled.triplesMaps.filter fun x => (spelled.reachable x).isComplete) :
      ((spelled.reachable x).rename ρ).Headed x := by
    refine ⟨hweak hsub', ?_⟩
    obtain ⟨t, others, heq, hs⟩ := (hheaded hx).rooted
    refine ⟨t.rename ρ, Graph.rename ρ others, by rw [heq, Graph.rename_cons], ?_⟩
    rw [Triple.rename, hs, hroots x (List.mem_filter.mp hx).1]
  apply outcome_congr
  · exact fun x hx => hheaded' hx
  · exact fun x hx => hheaded hx
  · intro x hx
    have hplain : ∀ t ∈ spelled.reachable x, Label.Plain t.object := fun t ht => (hsub t ht).2.2.2
    have hkeeps : Graph.KeepsValues ρ (spelled.reachable x) :=
      fun t ht => hvalues t (Graph.mem_of_mem_reachable ht)
    rw [planned_eq (hread hsub (hheaded hx)), Function.comp_apply,
      planned_eq (hread hsub' (hheaded' hx)), Graph.handedOver_rename ρ hplain, expressionsOf,
      Graph.plan_rename (Graph.keepsValues_handedOver ρ hplain hkeeps), expressionsOf]

/-- What is asked of a parsed mapping: its terms hold no block delimiter, no subject starts with a
blank character, no predicate-object map is declared a triples map, and no object turns into a label
when its blank ending is lost. -/
structure SeedFree (g : Graph) : Prop where
  undivided : ∀ t ∈ g, ∀ x ∈ [t.subject, t.predicate, t.object], ¬Block.delimiter <:+: x.toList
  start : ∀ t ∈ g, Text.opensBlank t.subject.toList = false
  declared : ∀ t ∈ g, t.predicate = R2rml.predicateObjectMap → t.object ∉ g.triplesMaps
  plain : ∀ t ∈ g, Label.Plain t.object

variable {g : Graph}

theorem SeedFree.fits (h : SeedFree g) (hread : ∀ t ∈ g, t.Readable) :
    (Shape.undivided Label.Plain).Fits g := by
  intro t ht
  have hline := (hread t ht).line
  have hblock := h.undivided t ht
  rw [Triple.mem_toChars (by decide)] at hline
  simp only [not_or] at hline
  simp only [List.forall_mem_cons] at hblock
  exact ⟨⟨⟨hline.1, hblock.1⟩, (hread t ht).subject, h.start t ht⟩,
    ⟨⟨hline.2.1, hblock.2.1⟩, (hread t ht).predicate⟩, ⟨hline.2.2, hblock.2.2.1⟩, h.plain t ht⟩

theorem plain_stable : (Shape.undivided Label.Plain).Stable := by
  have hplain {x : String} (hx : Text.closesBlank x.toList = false) : Label.Plain x := by
    intro hblank
    rw [hx] at hblank
    cases hblank
  exact Shape.undivided_stable (fun n => hplain (Label.closesBlank_ofNat n)) (hplain (by decide))
    (hplain (by decide))

/-- Sub-graphs made with the labels of `a` compile as those made with the labels of `b`, if the
second run uses at least as many labels as the first. -/
theorem outcome_spellOut (h : SeedFree g) (hread : ∀ t ∈ g, t.Readable) {a b : Supply} {count : Nat}
    (ha : g.highestLabel ≤ a.last) (hb : g.highestLabel ≤ b.last)
    (hcount : (g.spellOut a).2.last = a.last + count)
    (hle : b.last + count ≤ (g.spellOut b).2.last)
    (hsizeA : (g.spellOut a).2.last < UInt64.size)
    (hsizeB : (g.spellOut b).2.last < UInt64.size) :
    (g.spellOut b).1.triplesMaps = (g.spellOut a).1.triplesMaps ∧
      outcome (g.spellOut b).1.subGraphs = outcome (g.spellOut a).1.subGraphs := by
  have hdeclared : ∀ pom ∈ g.predicateObjectMaps, pom ∉ g.triplesMaps := by
    intro pom hpom
    obtain ⟨parent, ht⟩ := Graph.mem_predicateObjectMaps.mp hpom
    exact h.declared _ ht rfl
  have hrename := Graph.spellOut_shift ha hb hdeclared hcount hle hsizeA hsizeB
  have hfixed {x : String} (hx : g.Mentions x) : Renaming.shift count a.last b.last x = x :=
    Renaming.shift_of_mentions ha hb (by omega) (by omega) hx
  generalize Renaming.shift count a.last b.last = ρ at hrename hfixed
  have hroots : ∀ x ∈ (g.spellOut a).1.triplesMaps, ρ x = x := by
    intro x hx
    rcases Graph.mem_triplesMaps_spellOut ha hsizeA hdeclared hx with
      hx | ⟨triplesMap, n, rfl⟩
    · exact hfixed ⟨_, Graph.mem_subjectsWith.mp hx, .inl rfl⟩
    · exact Graph.apply_separatedName triplesMap n
  have hvalues : Graph.ValuesIn (fun o => ρ o = o) (g.spellOut a).1 :=
    Graph.ValuesIn.spellOut ρ.apply_type fun t ht _ => hfixed ⟨t, ht, .inr rfl⟩
  have hkeeps : Graph.KeepsValues ρ (g.spellOut a).1 :=
    fun t ht hp => hvalues t ht (by rw [Graph.isValuePredicate, hp]; rfl)
  have hfits := plain_stable.spellOut (h.fits hread)
  constructor
  · rw [hrename, Graph.triplesMaps_rename, ρ.map_of_fixed hroots]
  · have hfitsB := hfits b
    rw [hrename] at hfitsB ⊢
    exact outcome_rename hroots hkeeps (hfits a) hfitsB

theorem last_le_spellOut (g : Graph) (supply : Supply) :
    supply.last ≤ (g.spellOut supply).2.last := by
  have hclasses := g.last_le_expandClasses supply
  have hconstants := Graph.last_le_expandConstants (g.expandClasses supply).1
    (g.expandClasses supply).2
  have hmaps : (g.spellTerms supply).2.last ≤ (g.spellMaps supply).2.last :=
    Graph.last_le_multiplyOutAll _ _ _ _
  exact Nat.le_trans (Nat.le_trans hclasses hconstants) hmaps

theorem outcome_normalize (h : SeedFree g) (hread : ∀ t ∈ g, t.Readable) {s₁ s₂ : UInt32}
    (h₁ : (g.spellOut (g.supply s₁)).2.last < UInt64.size)
    (h₂ : (g.spellOut (g.supply s₂)).2.last < UInt64.size) :
    (g.normalize s₁).toOption.bind outcome = (g.normalize s₂).toOption.bind outcome := by
  have hsame : (g.spellOut (g.supply s₁)).1.triplesMaps = (g.spellOut (g.supply s₂)).1.triplesMaps ∧
      outcome (g.spellOut (g.supply s₁)).1.subGraphs =
        outcome (g.spellOut (g.supply s₂)).1.subGraphs := by
    have hlow (s : UInt32) : g.highestLabel ≤ (g.supply s).last := Nat.le_max_left _ _
    have hused₁ := last_le_spellOut g (g.supply s₁)
    have hused₂ := last_le_spellOut g (g.supply s₂)
    -- The run that uses fewer labels is the one whose labels are renamed.
    rcases Nat.le_total ((g.spellOut (g.supply s₁)).2.last - (g.supply s₁).last)
      ((g.spellOut (g.supply s₂)).2.last - (g.supply s₂).last) with hle | hle
    · obtain ⟨hmaps, houtcome⟩ := outcome_spellOut h hread (hlow s₁) (hlow s₂)
        (Nat.add_sub_cancel' hused₁).symm (by omega) h₁ h₂
      exact ⟨hmaps.symm, houtcome.symm⟩
    · exact outcome_spellOut h hread (hlow s₂) (hlow s₁)
        (Nat.add_sub_cancel' hused₂).symm (by omega) h₂ h₁
  rw [Graph.normalize, Graph.normalize]
  cases g.ambiguousMap? with
  | some triplesMap => rfl
  | none =>
      simp only
      rw [hsame.1]
      by_cases hempty : (g.spellOut (g.supply s₂)).1.triplesMaps.isEmpty = true
      · rw [if_pos hempty, if_pos hempty]
      · have hok (subs : List Graph) :
            (Except.ok subs : Except NormalizeError (List Graph)).toOption = some subs := rfl
        rw [if_neg hempty, if_neg hempty, hok, hok, Option.bind_some, Option.bind_some]
        exact hsame.2

/-- The rendered plan of a graph is taken over as it is if it is one line and no refusal. -/
theorem expressionsOf_of_line {S : Graph} {expression : String} (hline : PlanText.IsLine expression)
    (hmark : ¬Engine.refusalMark <+: expression.toList)
    (h : S.plan.toOption.map (·.map Expression.render) = some [expression]) :
    expressionsOf S = some [expression] := by
  obtain ⟨expressions, hplan, hrender⟩ := Option.map_eq_some_iff.mp h
  have hanswer : Answer.ofRaw (some (PlanText.serialize [expression])) =
      .success (PlanText.serialize [expression]) := by
    rw [Answer.ofRaw, if_neg]
    rw [List.isPrefixOf_iff_prefix, PlanText.serialize, String.toList_ofList]
    intro hprefix
    exact hmark (Text.prefix_of_prefix_append_cons (c := '\n') (by decide) hprefix)
  rw [expressionsOf, hplan, Option.bind_some, hrender, hanswer]
  exact congrArg some (PlanText.collect_of_lines (by simpa using hline))

/-- The compilation of a mapping with a single sub-graph. -/
theorem compileParsed_of_single (wording : Wording) (base : String) {seed : UInt32} {subs : List Graph}
    {root expression : String} (hfits : (Shape.undivided fun _ => True).Fits g)
    (hread : Graph.ofText g.toText = .ok g) (h : g.normalize seed = .ok subs)
    (hsubs : subs.map (fun S => (S.head?.map Triple.subject,
      S.handedOver.plan.toOption.map (·.map Expression.render))) = [(some root, some [expression])])
    (hroot : ¬Engine.refusalMark <+: root.toList) (hline : PlanText.IsLine expression)
    (hmark : ¬Engine.refusalMark <+: expression.toList) :
    (compileParsed (m := Id) (Engines.builtIn wording base) seed g.toText).run =
      Except.ok ⟨PlanText.serialize [expression], ⟨1, 1⟩⟩ := by
  have hstable : (Shape.undivided fun _ => True).Stable :=
    Shape.undivided_stable (fun _ => trivial) trivial trivial
  have hsubsFit := Graph.fits_of_normalize hstable hfits h
  rw [← toOption_eq_some_iff, toOption_compileParsed_builtIn wording base hread, h]
  cases subs with
  | nil => cases hsubs
  | cons S others =>
      rw [List.map_cons, List.cons.injEq, Prod.mk.injEq, List.map_eq_nil_iff] at hsubs
      obtain ⟨⟨hhead, hplan⟩, rfl⟩ := hsubs
      obtain ⟨hne, hfit⟩ := hsubsFit S List.mem_cons_self
      have hheaded : S.Headed root := by
        refine ⟨hfit, ?_⟩
        cases S with
        | nil => exact absurd rfl hne
        | cons t others => exact ⟨t, others, rfl, Option.some.inj hhead⟩
      have hplanned : planned (Block.ofGraph S) = some [expression] :=
        (planned_eq (Graph.ofText_trim_toText hne hfit.readable hfit.start)).trans
          (expressionsOf_of_line hline hmark hplan)
      have hrefused : Engine.refusalMark.isPrefixOf (Block.ofGraphs [S]).toList = false := by
        rw [Bool.eq_false_iff, Ne, List.isPrefixOf_iff_prefix,
          Block.refusalMark_iff hheaded.rooted]
        exact hroot
      have hsplit : Block.sort (Block.split (Block.ofGraphs [S])) = [Block.ofGraph S] := by
        rw [Block.split_ofGraphs (by simpa using hheaded.framed)]
        exact List.mergeSort_singleton _
      have hplans : [Block.ofGraph S].mapM planned = some [[expression]] := by
        rw [List.mapM_cons, hplanned]
        rfl
      show outcome [S] = _
      rw [outcome, hrefused, if_neg (by decide), hsplit]
      dsimp only
      rw [hplans]
      rfl

/-- The seed does not matter: the stages after parsing succeed with one seed if and only if they
succeed with the other, and then with the same plan and the same report. -/
theorem compileParsed_eq_ok_iff (wording : Wording) (base : String) {text : String}
    (hread : Graph.ofText text = .ok g) (h : SeedFree g) {s₁ s₂ : UInt32}
    (h₁ : (g.spellOut (g.supply s₁)).2.last < UInt64.size)
    (h₂ : (g.spellOut (g.supply s₂)).2.last < UInt64.size) (c : Compilation) :
    (compileParsed (m := Id) (Engines.builtIn wording base) s₁ text).run = Except.ok c ↔
      (compileParsed (m := Id) (Engines.builtIn wording base) s₂ text).run = Except.ok c := by
  rw [← toOption_eq_some_iff, ← toOption_eq_some_iff,
    toOption_compileParsed_builtIn wording base hread,
    toOption_compileParsed_builtIn wording base hread,
    outcome_normalize h (Graph.readable_of_ofText hread) h₁ h₂]

/-- A mapping with one rule and a given text for the graph of its subjects. -/
def graphOfSubjects (graph : String) : Graph :=
  [⟨"t", Rdf.type, R2rml.triplesMap⟩, ⟨"t", R2rml.subjectMap, "http://s"⟩,
    ⟨"t", Rml.logicalSource, "http://l"⟩, ⟨"t", R2rml.predicateObjectMap, "http://p"⟩,
    ⟨"http://l", Rml.source, "f"⟩, ⟨"http://p", R2rml.predicate, "p"⟩,
    ⟨"http://p", R2rml.object, "o"⟩, ⟨"http://s", R2rml.template, "x"⟩,
    ⟨"http://s", R2rml.graphMap, graph⟩]

/-- The expression for a rule of these mappings, with a given ending for its graphs. -/
def ruleText (graphs : String) : String :=
  "pi[create(x,template,iri) -> S,create(p,constant,iri) -> P," ++
    "create(o,constant,literal,None,None) -> O" ++ graphs ++ "](pi[](f))"

set_option maxRecDepth 100000 in
theorem isLine_ruleText : ∀ graphs ∈ ["", ", create(p,constant,iri) -> G"],
    PlanText.IsLine (ruleText graphs) ∧ ¬Engine.refusalMark <+: (ruleText graphs).toList := by
  decide +kernel

theorem compileParsed_graphOfSubjects {graph graphs : String} {seed : UInt32}
    (hfits : (Shape.undivided fun _ => True).Fits (graphOfSubjects graph))
    (hread : Graph.ofText (graphOfSubjects graph).toText = .ok (graphOfSubjects graph))
    (h : (graphOfSubjects graph).ambiguousMap? = none ∧
      ((graphOfSubjects graph).spellOut ((graphOfSubjects graph).supply seed)).1.triplesMaps ≠ [] ∧
      ((graphOfSubjects graph).spellOut ((graphOfSubjects graph).supply seed)).1.subGraphs.map
        (fun S => (S.head?.map Triple.subject,
          S.handedOver.plan.toOption.map (·.map Expression.render))) =
        [(some "t", some [ruleText graphs])])
    (hgraphs : graphs ∈ ["", ", create(p,constant,iri) -> G"]) :
    (compileParsed (m := Id) (Engines.builtIn default "") seed (graphOfSubjects graph).toText).run =
      Except.ok ⟨PlanText.serialize [ruleText graphs], ⟨1, 1⟩⟩ := by
  have hnormal := Graph.normalize_eq_ok_iff.mpr ⟨h.1, h.2.1, rfl⟩
  obtain ⟨hline, hmark⟩ := isLine_ruleText graphs hgraphs
  exact compileParsed_of_single default "" hfits hread hnormal h.2.2 (by decide) hline hmark

theorem ofText_graphOfSubjects {graph : String}
    (hfits : (Shape.undivided fun _ => True).Fits (graphOfSubjects graph))
    (hreturn : (graphOfSubjects graph).map Triple.withoutReturn = graphOfSubjects graph) :
    Graph.ofText (graphOfSubjects graph).toText = .ok (graphOfSubjects graph) := by
  rw [Graph.ofText_toText hfits.readable, hreturn]

set_option maxRecDepth 100000 in
/-- A blank ending that hides no label does no harm. -/
theorem compileParsed_eq_ok_plain_ending :
    Graph.ofText (graphOfSubjects "b1x ").toText = .ok (graphOfSubjects "b1x ") ∧
      SeedFree (graphOfSubjects "b1x ") ∧
      ∃ c,
        (compileParsed (m := Id) (Engines.builtIn default "") 0 (graphOfSubjects "b1x ").toText).run =
          Except.ok c ∧
        (compileParsed (m := Id) (Engines.builtIn default "") 8 (graphOfSubjects "b1x ").toText).run =
          Except.ok c := by
  have hfits : (Shape.undivided fun _ => True).Fits (graphOfSubjects "b1x ") := by decide +kernel
  have hfree : SeedFree (graphOfSubjects "b1x ") :=
    ⟨by decide +kernel, by decide +kernel, by decide +kernel, by decide +kernel⟩
  have hread := ofText_graphOfSubjects hfits (by decide +kernel)
  have hrun : (compileParsed (m := Id) (Engines.builtIn default "") 0
      (graphOfSubjects "b1x ").toText).run =
      Except.ok ⟨PlanText.serialize [ruleText ""], ⟨1, 1⟩⟩ :=
    compileParsed_graphOfSubjects hfits hread (by decide +kernel) (by simp)
  refine ⟨hread, hfree, _, hrun, ?_⟩
  exact (compileParsed_eq_ok_iff default "" hread hfree (by decide +kernel) (by decide +kernel) _).mp
    hrun

set_option maxRecDepth 100000 in
/-- The last object loses its blank ending on the way. It then names the label that was handed out
first, if the seed is zero, and no label otherwise. -/
theorem compileParsed_differs_label_ending :
    Graph.ofText (graphOfSubjects "b1 ").toText = .ok (graphOfSubjects "b1 ") ∧
      (∀ t ∈ graphOfSubjects "b1 ", ∀ x ∈ [t.subject, t.predicate, t.object],
        ¬Block.delimiter <:+: x.toList) ∧
      (∀ t ∈ graphOfSubjects "b1 ", Text.opensBlank t.subject.toList = false) ∧
      (∀ t ∈ graphOfSubjects "b1 ", t.predicate = R2rml.predicateObjectMap →
        t.object ∉ (graphOfSubjects "b1 ").triplesMaps) ∧
      ∃ c₁ c₂,
        (compileParsed (m := Id) (Engines.builtIn default "") 0 (graphOfSubjects "b1 ").toText).run =
          Except.ok c₁ ∧
        (compileParsed (m := Id) (Engines.builtIn default "") 58932
          (graphOfSubjects "b1 ").toText).run = Except.ok c₂ ∧ c₁ ≠ c₂ := by
  have hfits : (Shape.undivided fun _ => True).Fits (graphOfSubjects "b1 ") := by decide +kernel
  have hread := ofText_graphOfSubjects hfits (by decide +kernel)
  have hzero : (compileParsed (m := Id) (Engines.builtIn default "") 0
      (graphOfSubjects "b1 ").toText).run =
      Except.ok ⟨PlanText.serialize [ruleText ", create(p,constant,iri) -> G"], ⟨1, 1⟩⟩ :=
    compileParsed_graphOfSubjects hfits hread (by decide +kernel) (by simp)
  have hother : (compileParsed (m := Id) (Engines.builtIn default "") 58932
      (graphOfSubjects "b1 ").toText).run =
      Except.ok ⟨PlanText.serialize [ruleText ""], ⟨1, 1⟩⟩ :=
    compileParsed_graphOfSubjects hfits hread (by decide +kernel) (by simp)
  refine ⟨hread, by decide +kernel, by decide +kernel, by decide +kernel, _, _, hzero, hother, ?_⟩
  intro heq
  have hplan := congrArg (fun c => c.plan.toList) heq
  simp only [PlanText.serialize, Text.unlines, List.map_cons, List.map_nil, String.toList_ofList,
    List.append_cancel_right_eq] at hplan
  exact absurd (String.toList_inj.mp hplan) (by decide +kernel)

end Pipeline

end RmlAlgebra
