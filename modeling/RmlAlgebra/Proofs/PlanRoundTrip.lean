import RmlAlgebra.Pipeline.PlanText
import RmlAlgebra.Proofs.BlockFraming
import RmlAlgebra.Proofs.LineRoundTrip

/-! # Written plans

The expressions of a plan are collected from texts, written with a line feed behind each, and read back
in two ways: as lines, and by collecting them once more. Both lose a carriage return at the end of an
expression and nothing else. Collected expressions do end in carriage returns where a line had two of
them or where a text ends without a line feed. The lines of a text are those that `Text.Lined` describes
(`Text.lines_eq_iff`), and its expressions are those of them that are not blank (`collect_eq_iff`).
-/

namespace RmlAlgebra

namespace Text

theorem unlines_eq_flatMap (ls : List (List Char)) : unlines ls = ls.flatMap (· ++ ['\n']) := by
  induction ls with
  | nil => rfl
  | cons line others ih =>
      rw [unlines, ih, List.flatMap_cons, List.append_assoc, List.singleton_append]

theorem lines_unlines {ls : List (List Char)} (h : ∀ l ∈ ls, '\n' ∉ l) :
    lines (unlines ls) = ls.map dropReturn := by
  have happend := lines_unlines_append h []
  rwa [List.append_nil, lines_nil, List.append_nil] at happend

/-- A carriage return is blank, so without it the same is left of a line. -/
theorem trim_dropReturn (line : List Char) : trim (dropReturn line) = trim line := by
  by_cases hlast : line.getLast? = some '\r'
  · obtain ⟨start, rfl⟩ := List.getLast?_eq_some_iff.mp hlast
    rw [dropReturn, if_pos hlast, List.dropLast_concat, trim_append_blank start (by decide)]
  · rw [dropReturn_eq_self_iff.mpr hlast]

theorem trim_ne_nil_iff {text : List Char} :
    trim text ≠ [] ↔ ∃ c ∈ text, isBlank c = false := by
  rw [Ne, trim_eq_nil_iff]
  simp

end Text

namespace PlanText

/-- A text that can be collected: a line that is not blank. -/
structure IsExpression (text : String) : Prop where
  unbroken : '\n' ∉ text.toList
  visible : ∃ c ∈ text.toList, Text.isBlank c = false

/-- The expressions of a text are its lines, the blank ones apart. -/
theorem mem_collect_iff {text e : String} :
    e ∈ collect text ↔ IsExpression e ∧ e.toList ∈ Text.lines text.toList := by
  simp only [collect, List.mem_map, List.mem_filter]
  constructor
  · rintro ⟨line, ⟨hline, hvisible⟩, rfl⟩
    rw [String.toList_ofList]
    refine ⟨⟨?_, ?_⟩, hline⟩
    · rw [String.toList_ofList]
      exact (Text.lines_spec text.toList).1 line hline
    · rw [String.toList_ofList, ← Text.trim_ne_nil_iff]
      simpa using hvisible
  · rintro ⟨he, hline⟩
    have hvisible := Text.trim_ne_nil_iff.mpr he.visible
    exact ⟨e.toList, ⟨hline, by simpa using hvisible⟩, String.ofList_toList⟩

theorem isEmpty_trim_eq (line : List Char) :
    (!(Text.trim line).isEmpty) = line.any fun c => !Text.isBlank c := by
  rw [Bool.eq_iff_iff, List.any_eq_true]
  simpa using Text.trim_ne_nil_iff

/-- The expressions of a text are the lines with a character that is not blank, in order. -/
theorem collect_eq_iff {text : String} {es : List String} :
    collect text = es ↔ ∃ ls, Text.Lined text.toList ls ∧
      es.map String.toList = ls.filter fun line => line.any fun c => !Text.isBlank c := by
  have hcollect : collect text = es ↔ es.map String.toList =
      (Text.lines text.toList).filter fun line => line.any fun c => !Text.isBlank c := by
    simp only [collect, isEmpty_trim_eq]
    constructor
    · rintro rfl
      simp [Function.comp_def]
    · intro h
      rw [← h]
      simp [Function.comp_def]
  rw [hcollect]
  constructor
  · exact fun h => ⟨_, Text.lined_lines _, h⟩
  · rintro ⟨ls, hls, h⟩
    rwa [Text.lines_eq_iff.mpr hls]

theorem serialize_eq_join (es : List String) : serialize es = String.join (es.map (· ++ "\n")) := by
  rw [← String.toList_inj, serialize, String.toList_ofList, Text.unlines_eq_flatMap,
    String.toList_join]
  simp [List.flatMap_map]

/-- An expression as it is read from a line that ends in a line feed. -/
def withoutReturn (e : String) : String :=
  String.ofList (Text.dropReturn e.toList)

theorem withoutReturn_eq_self_iff {e : String} :
    withoutReturn e = e ↔ e.toList.getLast? ≠ some '\r' := by
  rw [← Text.dropReturn_eq_self_iff, withoutReturn, ← String.toList_inj, String.toList_ofList]

variable {plan : List String}

theorem forall_mem_toList (h : ∀ e ∈ plan, IsExpression e) :
    ∀ line ∈ plan.map String.toList, '\n' ∉ line := by
  rw [List.forall_mem_map]
  exact fun e he => (h e he).unbroken

theorem pieces_serialize (h : ∀ e ∈ plan, IsExpression e) :
    Text.pieces ['\n'] (serialize plan).toList = plan.map String.toList ++ [[]] := by
  rw [serialize, String.toList_ofList, Text.unlines_eq_flatMap]
  refine Text.pieces_flatMap (List.cons_ne_nil _ _) fun line hline => ?_
  exact Text.clear_singleton_iff.mpr (forall_mem_toList h line hline)

theorem lines_serialize (h : ∀ e ∈ plan, IsExpression e) :
    Text.lines (serialize plan).toList = (plan.map String.toList).map Text.dropReturn := by
  rw [serialize, String.toList_ofList, Text.lines_unlines (forall_mem_toList h)]

theorem expressions_serialize (h : ∀ e ∈ plan, IsExpression e) :
    expressions (serialize plan) = plan.map withoutReturn := by
  rw [expressions, lines_serialize h, List.map_map, List.map_map]
  rfl

theorem expressions_serialize_eq_self_iff (h : ∀ e ∈ plan, IsExpression e) :
    expressions (serialize plan) = plan ↔ ∀ e ∈ plan, e.toList.getLast? ≠ some '\r' := by
  simp only [← withoutReturn_eq_self_iff]
  rw [expressions_serialize h]
  simpa using List.map_inj_left (l := plan) (f := withoutReturn) (g := id)

/-- No line of a written plan is blank, so collecting drops none. -/
theorem collect_serialize (h : ∀ e ∈ plan, IsExpression e) :
    collect (serialize plan) = expressions (serialize plan) := by
  rw [collect, expressions, lines_serialize h, List.map_map]
  congr 1
  rw [List.filter_eq_self, List.forall_mem_map]
  intro e he
  have hvisible := Text.trim_ne_nil_iff.mpr (h e he).visible
  simpa [Text.trim_dropReturn] using hvisible

/-- What becomes of a plan that is collected from any texts. Its expressions are the lines of the texts
that are not blank, and none holds a line feed. They are what stands between the line feeds of the
written plan, and either reader gives them back up to one carriage return at the end of each. -/
theorem collected_roundTrip (texts : List String) :
    let plan := texts.flatMap collect
    (∀ e, e ∈ plan ↔ IsExpression e ∧ ∃ text ∈ texts, e.toList ∈ Text.lines text.toList) ∧
      Text.pieces ['\n'] (serialize plan).toList = plan.map String.toList ++ [[]] ∧
      expressions (serialize plan) = plan.map withoutReturn ∧
      (expressions (serialize plan) = plan ↔ ∀ e ∈ plan, e.toList.getLast? ≠ some '\r') ∧
      collect (serialize plan) = expressions (serialize plan) := by
  intro plan
  have hmem : ∀ e, e ∈ plan ↔
      IsExpression e ∧ ∃ text ∈ texts, e.toList ∈ Text.lines text.toList := by
    intro e
    simp only [plan, List.mem_flatMap, mem_collect_iff]
    exact ⟨fun ⟨text, htext, he, hline⟩ => ⟨he, text, htext, hline⟩,
      fun ⟨he, text, htext, hline⟩ => ⟨text, htext, he, hline⟩⟩
  have hplan : ∀ e ∈ plan, IsExpression e := fun e he => ((hmem e).mp he).1
  exact ⟨hmem, pieces_serialize hplan, expressions_serialize hplan,
    expressions_serialize_eq_self_iff hplan, collect_serialize hplan⟩

/-- Of several carriage returns one is lost at each reading, if a line feed follows. -/
example : ["a\r\r\n \r\nb", "c\r\r\r"].flatMap collect = ["a\r", "b", "c\r\r\r"] ∧
    expressions (serialize ["a\r", "b", "c\r\r\r"]) = ["a", "b", "c\r\r"] := by decide +kernel

end PlanText

end RmlAlgebra
