import RmlAlgebra.Proofs.CallTrace
import RmlAlgebra.Proofs.SeedIndependence

/-! # When an answer is read as a refusal

A built-in engine that fails answers with its cause behind a mark, and an answer is read as a
refusal if it has the mark. Results of the generator never start with it. The text of a graph does
if the first subject does, so the parser and the normalizer can seem to refuse what they have
accepted.
-/

namespace RmlAlgebra

open Engine (Answer)

namespace Engine

def Answer.Refuses (answer : Answer) : Prop :=
  ∃ message, answer = .refusal message

theorem refuses_some {text : String} : (Answer.ofRaw (some text)).Refuses ↔ Refusal text := by
  rw [Answer.Refuses, Answer.ofRaw, Refusal, ← List.isPrefixOf_iff_prefix]
  split
  · next hmark => simp [hmark]
  · next hmark => simp [hmark]

/-- An answer is a refusal if the operation behind it fails, or if its result has the mark. -/
theorem refuses_ofResult {ε : Type} {messageOf : ε → String} {result : Except ε String} :
    (Answer.ofRaw (.ofResult (result.mapError messageOf))).Refuses ↔
      (∃ cause, result = .error cause) ∨ ∃ text, result = .ok text ∧ Refusal text := by
  cases result with
  | error cause =>
      have hrefused : (Answer.ofRaw (some (refusalText (messageOf cause)))).Refuses :=
        ⟨_, Pipeline.ofRaw_refusalText _⟩
      exact ⟨fun _ => .inl ⟨cause, rfl⟩, fun _ => hrefused⟩
  | ok text =>
      have htext : (Answer.ofRaw (some text)).Refuses ↔ Refusal text := refuses_some
      exact htext.trans (by simp)

section

variable {ε α : Type} {operation : Graph → Except ε α} {write : α → String} {text : String}

theorem onGraph_map_of_error {g : Graph} {cause : ε} (hread : Graph.ofText text = .ok g)
    (h : operation g = .error cause) :
    (onGraph operation text).map write = .error (.refused cause) := by
  rw [onGraph, hread]
  dsimp only
  rw [h]
  rfl

theorem onGraph_map_of_ok {g : Graph} {a : α} (hread : Graph.ofText text = .ok g)
    (h : operation g = .ok a) : (onGraph operation text).map write = .ok (write a) := by
  rw [onGraph, hread]
  dsimp only
  rw [h]
  rfl

theorem onGraph_map_eq_ok_iff {written : String} :
    (onGraph operation text).map write = .ok written ↔
      ∃ g a, Graph.ofText text = .ok g ∧ operation g = .ok a ∧ write a = written := by
  cases hread : Graph.ofText text with
  | error cause => simp [onGraph, hread, Except.map]
  | ok g =>
      cases hresult : operation g with
      | error cause => simp [onGraph_map_of_error hread hresult, hresult]
      | ok a => simp [onGraph_map_of_ok hread hresult, hresult]

theorem onGraph_map_eq_error_iff :
    (∃ cause, (onGraph operation text).map write = .error cause) ↔
      (∃ cause, Graph.ofText text = .error cause) ∨
        ∃ g cause, Graph.ofText text = .ok g ∧ operation g = .error cause := by
  cases hread : Graph.ofText text with
  | error cause => simp [onGraph, hread, Except.map]
  | ok g =>
      cases hresult : operation g with
      | error cause => simp [onGraph_map_of_error hread hresult, hresult]
      | ok a => simp [onGraph_map_of_ok hread hresult, hresult]

end

end Engine

/-! ## The first characters of a result -/

/-- Only the name with which a text starts decides, if no mark reaches over its end. -/
theorem refusal_iff_of_toList {text name : String} {c : Char} {rest : List Char}
    (htext : text.toList = name.toList ++ c :: rest) (hc : c ∉ Engine.refusalMark) :
    Refusal text ↔ Refusal name := by
  rw [Refusal, Refusal, htext]
  constructor
  · exact Text.prefix_of_prefix_append_cons hc
  · exact fun h => h.trans (List.prefix_append _ _)

namespace Shape

/-- Graphs with no subject that starts like a refusal. -/
def unmarked : Shape where
  subject s := ¬Refusal s
  predicate _ := True
  object _ := True

theorem unmarked_stable : unmarked.Stable where
  subjectLabel n := by
    have hlabel : (Label.ofNat n).toList = 'b' :: (Nat.repr n).toList := by
      simp [Label.ofNat]
    simp [unmarked, Refusal, hlabel, Engine.refusalMark]
  objectLabel _ := trivial
  separated triplesMap n h := by
    have hname : (Graph.separatedName triplesMap n).toList =
        triplesMap.toList ++ '_' :: (Nat.repr n).toList := by
      simp [Graph.separatedName]
    exact mt (refusal_iff_of_toList hname (by decide)).mp h
  addedPredicate _ _ := trivial
  type := trivial
  triplesMap := trivial

end Shape

namespace Graph

variable {g : Graph} {seed : UInt32} {subs : List Graph}

theorem refusal_toText_iff :
    Refusal g.toText ↔ ∃ t others, g = t :: others ∧ Refusal t.subject := by
  cases g with
  | nil => simp [Refusal, toList_toText, Text.unlines, Engine.refusalMark]
  | cons t others =>
      obtain ⟨rest, htext⟩ := Rooted.toText (S := t :: others) ⟨t, others, rfl, rfl⟩
      rw [List.append_assoc, Triple.separator, List.cons_append] at htext
      rw [refusal_iff_of_toList htext (by decide)]
      simp

theorem ne_nil_of_normalize (h : g.normalize seed = .ok subs) : ∀ sub ∈ subs, sub ≠ [] := by
  intro sub hsub
  rw [← (normalize_eq_ok_iff.mp h).2.2] at hsub
  obtain ⟨-, -, -, hcomplete⟩ := mem_subGraphs hsub
  exact ne_nil_of_isComplete hcomplete

/-- The text of the sub-graphs starts like a refusal if the first triples map among them does. -/
theorem refusal_ofGraphs_iff (h : g.normalize seed = .ok subs) :
    Refusal (Block.ofGraphs subs) ↔
      ∃ t others rest, subs = (t :: others) :: rest ∧ Refusal t.subject := by
  cases subs with
  | nil => simp [Refusal, Block.toList_ofGraphs, Engine.refusalMark]
  | cons sub rest =>
      have hne : sub ≠ [] := ne_nil_of_normalize h sub List.mem_cons_self
      obtain ⟨t, others, rfl⟩ := List.exists_cons_of_ne_nil hne
      rw [Refusal, Block.refusalMark_iff ⟨t, others, rfl, rfl⟩]
      simp [Refusal]

/-- Normalization makes no names that start like a refusal if the graph has none. -/
theorem exists_refusal_of_normalize (h : g.normalize seed = .ok subs) {sub : Graph}
    (hsub : sub ∈ subs) {t : Triple} (ht : t ∈ sub) (hmark : Refusal t.subject) :
    ∃ u ∈ g, Refusal u.subject := by
  refine Classical.byContradiction fun hnone => ?_
  have hfits : Shape.unmarked.Fits g :=
    fun u hu => ⟨fun hu' => hnone ⟨u, hu, hu'⟩, trivial, trivial⟩
  exact ((fits_of_normalize Shape.unmarked_stable hfits h sub hsub).2 t ht).1 hmark

end Graph

/-- An expression starts with a projection. -/
theorem not_refusal_serialize (expressions : List Expression) :
    ¬Refusal (PlanText.serialize (expressions.map Expression.render)) := by
  cases expressions with
  | nil => simp [Refusal, PlanText.serialize, Text.unlines, Engine.refusalMark]
  | cons e others =>
      simp [Refusal, PlanText.serialize, Text.unlines, Expression.render, Engine.refusalMark]

/-! ## The three engines -/

namespace Engine

theorem refuses_parse_iff {wording : Wording} {base document : String} :
    (Answer.ofRaw (parse wording base document)).Refuses ↔
      (∃ cause, Graph.ofDocument base document = .error cause) ∨
        ∃ t others, Graph.ofDocument base document = .ok (t :: others) ∧ Refusal t.subject := by
  rw [parse, refuses_ofResult, parseText]
  cases Graph.ofDocument base document with
  | error cause => simp [Except.map]
  | ok g => simp [Except.map, Graph.refusal_toText_iff]

/-- A name that starts like a refusal comes from the graph that is normalized. -/
theorem refuses_normalize_iff {text : String} {seed : UInt32} :
    (Answer.ofRaw (normalize text seed)).Refuses ↔
      (∃ cause, Graph.ofText text = .error cause) ∨
        (∃ g cause, Graph.ofText text = .ok g ∧ g.normalize seed = .error cause) ∨
        ∃ g t others rest, Graph.ofText text = .ok g ∧
          g.normalize seed = .ok ((t :: others) :: rest) ∧ Refusal t.subject ∧
          ∃ u ∈ g, Refusal u.subject := by
  rw [normalize, refuses_ofResult, normalizeText, onGraph_map_eq_error_iff, or_assoc]
  refine or_congr_right (or_congr_right ?_)
  constructor
  · rintro ⟨blocks, hblocks, hmark⟩
    obtain ⟨g, subs, hread, hsubs, rfl⟩ := onGraph_map_eq_ok_iff.mp hblocks
    obtain ⟨t, others, rest, rfl, ht⟩ := (Graph.refusal_ofGraphs_iff hsubs).mp hmark
    refine ⟨g, t, others, rest, hread, hsubs, ht, ?_⟩
    exact Graph.exists_refusal_of_normalize hsubs List.mem_cons_self List.mem_cons_self ht
  · rintro ⟨g, t, others, rest, hread, hsubs, ht, -⟩
    refine ⟨_, onGraph_map_eq_ok_iff.mpr ⟨g, _, hread, hsubs, rfl⟩, ?_⟩
    exact (Graph.refusal_ofGraphs_iff hsubs).mpr ⟨t, others, rest, rfl, ht⟩

theorem refuses_generate_iff {block : String} :
    (Answer.ofRaw (generate block)).Refuses ↔
      (∃ cause, Graph.ofText block = .error cause) ∨
        ∃ g cause, Graph.ofText block = .ok g ∧ g.plan = .error cause := by
  rw [generate, refuses_ofResult, planText, onGraph_map_eq_error_iff, or_iff_left]
  rintro ⟨text, htext, hmark⟩
  obtain ⟨g, expressions, -, -, rfl⟩ := onGraph_map_eq_ok_iff.mp htext
  exact not_refusal_serialize expressions hmark

section

variable {base document text : String} {seed : UInt32} {g : Graph} {subs : List Graph}

/-- A document without subjects that start like a refusal is answered with its text. -/
theorem parse_of_unmarked (wording : Wording) (h : Graph.ofDocument base document = .ok g)
    (hunmarked : ∀ t ∈ g, ¬Refusal t.subject) :
    Answer.ofRaw (parse wording base document) = .success g.toText := by
  have hanswer : parse wording base document = some g.toText := by
    rw [parse, parseText, h]
    rfl
  rw [hanswer]
  apply ofRaw_of_not_refusal
  rw [Graph.refusal_toText_iff]
  rintro ⟨t, others, rfl, hmark⟩
  exact hunmarked t List.mem_cons_self hmark

theorem normalize_of_unmarked (hread : Graph.ofText text = .ok g)
    (h : g.normalize seed = .ok subs) (hunmarked : ∀ t ∈ g, ¬Refusal t.subject) :
    Answer.ofRaw (normalize text seed) = .success (Block.ofGraphs subs) := by
  rw [Pipeline.engine_normalize_of_ok hread h]
  apply ofRaw_of_not_refusal
  rw [Graph.refusal_ofGraphs_iff h]
  rintro ⟨t, others, rest, rfl, hmark⟩
  obtain ⟨u, hu, hmark⟩ :=
    Graph.exists_refusal_of_normalize h List.mem_cons_self List.mem_cons_self hmark
  exact hunmarked u hu hmark

end

/-- When the answers of the built-in engines are read as refusals. The generator refuses exactly the
blocks for which there is no plan. The parser and the normalizer refuse besides their failures also
the results that begin with a subject that starts like a refusal. -/
theorem refuses_builtIn_iff (wording : Wording) (base document text block : String)
    (seed : UInt32) :
    ((Answer.ofRaw (parse wording base document)).Refuses ↔
      (∃ cause, Graph.ofDocument base document = .error cause) ∨
        ∃ t others, Graph.ofDocument base document = .ok (t :: others) ∧ Refusal t.subject) ∧
    ((Answer.ofRaw (normalize text seed)).Refuses ↔
      (∃ cause, Graph.ofText text = .error cause) ∨
        (∃ g cause, Graph.ofText text = .ok g ∧ g.normalize seed = .error cause) ∨
        ∃ g t others rest, Graph.ofText text = .ok g ∧
          g.normalize seed = .ok ((t :: others) :: rest) ∧ Refusal t.subject ∧
          ∃ u ∈ g, Refusal u.subject) ∧
    ((Answer.ofRaw (generate block)).Refuses ↔
      (∃ cause, Graph.ofText block = .error cause) ∨
        ∃ g cause, Graph.ofText block = .ok g ∧ g.plan = .error cause) :=
  ⟨refuses_parse_iff, refuses_normalize_iff, refuses_generate_iff⟩

set_option maxRecDepth 100000 in
/-- An IRI may have a scheme that is spelled like the mark. The document is read, but its text
passes for a refusal. -/
theorem refuses_parse_marked_subject :
    Graph.ofDocument "http://example.com/base/" "<Error:s> <p> <o> ." =
        .ok [⟨"Error:s", "http://example.com/base/p", "http://example.com/base/o"⟩] ∧
      (Answer.ofRaw (parse default "http://example.com/base/" "<Error:s> <p> <o> .")).Refuses := by
  have hread : Graph.ofDocument "http://example.com/base/" "<Error:s> <p> <o> ." =
      .ok [⟨"Error:s", "http://example.com/base/p", "http://example.com/base/o"⟩] := by
    rw [← toOption_eq_some_iff]
    decide +kernel
  refine ⟨hread, refuses_parse_iff.mpr (.inr ⟨_, _, hread, ?_⟩)⟩
  rw [Refusal]
  decide

end Engine

end RmlAlgebra
