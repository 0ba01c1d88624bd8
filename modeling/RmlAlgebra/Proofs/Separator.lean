import RmlAlgebra.Text.Split

/-! # Where a separator is found

The first occurrence of a separator is the only one that counts, so text in front of it must not
form an occurrence together with the start of the separator itself. `Clear` is that condition. Under
it cutting undoes joining, and every cut gives a clear first part. `Divided` follows the cuts through
a whole text.
-/

namespace RmlAlgebra.Text

/-- A text behind which a separator is found where it was put. -/
def Clear (separator before : List Char) : Prop :=
  ¬separator <:+: before ++ separator.dropLast

theorem contains_eq_true_iff {part text : List Char} : contains part text = true ↔ part <:+: text := by
  induction text with
  | nil => simp [contains]
  | cons c cs ih =>
      rw [contains, Bool.or_eq_true, List.isPrefixOf_iff_prefix, ih, List.infix_cons_iff]

theorem Clear.not_infix {separator before : List Char} (h : Clear separator before) :
    ¬separator <:+: before :=
  fun hin => h (hin.trans (List.prefix_append _ _).isInfix)

theorem Clear.tail {separator cs : List Char} {c : Char} (h : Clear separator (c :: cs)) :
    Clear separator cs :=
  fun hin => h (hin.trans (List.suffix_cons c _).isInfix)

theorem Clear.not_prefix {separator cs : List Char} {c : Char} (h : Clear separator (c :: cs))
    (after : List Char) : ¬separator <+: c :: cs ++ separator ++ after := by
  intro hpre
  apply h
  -- The occurrence is too short to take in all of the separator behind the text.
  have hlen : separator.length ≤ (c :: cs ++ separator.dropLast).length := by
    simp only [List.length_append, List.length_cons, List.length_dropLast]
    omega
  have hstart : c :: cs ++ separator.dropLast <+: c :: cs ++ separator ++ after := by
    rw [List.append_assoc]
    exact (List.prefix_append_right_inj _).mpr
      ((List.dropLast_prefix separator).trans (List.prefix_append _ _))
  exact (List.prefix_of_prefix_length_le hpre hstart hlen).isInfix

theorem singleton_infix_iff {c : Char} {text : List Char} : [c] <:+: text ↔ c ∈ text := by
  constructor
  · exact fun hin => hin.subset (List.mem_singleton_self c)
  · intro hmem
    obtain ⟨before, after, rfl⟩ := List.append_of_mem hmem
    exact ⟨before, after, by simp⟩

theorem clear_singleton_iff {c : Char} {before : List Char} : Clear [c] before ↔ c ∉ before := by
  rw [Clear, List.dropLast_singleton, List.append_nil, singleton_infix_iff]

/-! ## The first occurrence -/

theorem cut?_append {separator before : List Char} (hne : separator ≠ [])
    (h : Clear separator before) (after : List Char) :
    cut? separator (before ++ separator ++ after) = some (before, after) := by
  induction before with
  | nil =>
      obtain ⟨c, cs, rfl⟩ := List.exists_cons_of_ne_nil hne
      have hpre : (c :: cs).isPrefixOf (c :: (cs ++ after)) = true :=
        List.isPrefixOf_iff_prefix.mpr (List.prefix_append (c :: cs) after)
      simp [cut?, hpre]
  | cons c cs ih =>
      have hpre : separator.isPrefixOf (c :: (cs ++ separator ++ after)) = false := by
        rw [Bool.eq_false_iff, Ne, List.isPrefixOf_iff_prefix]
        simpa using h.not_prefix after
      rw [List.cons_append, List.cons_append, cut?, hpre, ih h.tail]
      simp

theorem cut?_eq_none_iff {separator text : List Char} (hne : separator ≠ []) :
    cut? separator text = none ↔ ¬separator <:+: text := by
  induction text with
  | nil => simp [cut?, hne]
  | cons c cs ih =>
      rw [cut?, List.infix_cons_iff]
      by_cases hpre : separator.isPrefixOf (c :: cs) = true
      · simp [hpre, List.isPrefixOf_iff_prefix.mp hpre]
      · have hno : ¬separator <+: c :: cs := fun hp => hpre (List.isPrefixOf_iff_prefix.mpr hp)
        simp [hpre, hno, ih]

theorem exists_cut? {separator text : List Char} (hne : separator ≠ []) (h : separator <:+: text) :
    ∃ before after, cut? separator text = some (before, after) := by
  cases hcut : cut? separator text with
  | none => exact absurd h ((cut?_eq_none_iff hne).mp hcut)
  | some pair => exact ⟨pair.1, pair.2, rfl⟩

theorem clear_of_cut? {separator text before after : List Char} (hne : separator ≠ [])
    (h : cut? separator text = some (before, after)) : Clear separator before := by
  induction text generalizing before with
  | nil => simp [cut?] at h
  | cons c cs ih =>
      rw [cut?] at h
      split at h
      · simp only [Option.some.injEq, Prod.mk.injEq] at h
        obtain ⟨rfl, rfl⟩ := h
        intro hin
        have hlen := hin.length_le
        have hpos := List.length_pos_iff.mpr hne
        simp only [List.nil_append, List.length_dropLast] at hlen
        omega
      · next hpre =>
          simp only [Option.map_eq_some_iff, Prod.exists, Prod.mk.injEq] at h
          obtain ⟨left, right, hcut, rfl, rfl⟩ := h
          have htail := ih hcut
          have htext := eq_of_cut? hcut
          intro hin
          rw [List.cons_append, List.infix_cons_iff] at hin
          rcases hin with hstart | hlater
          · apply hpre
            rw [List.isPrefixOf_iff_prefix, htext, List.append_assoc]
            exact hstart.trans ((List.prefix_append_right_inj (c :: left)).mpr
              ((List.dropLast_prefix separator).trans (List.prefix_append _ _)))
          · exact htail hlater

/-- No occurrence of the separator starts before the one behind a clear text. -/
theorem Clear.prefix_of_eq {separator before after before' after' : List Char} (hne : separator ≠ [])
    (h : Clear separator before)
    (heq : before ++ separator ++ after = before' ++ separator ++ after') :
    before <+: before' ∧ after' <:+ after := by
  have hlengths : before.length + after.length = before'.length + after'.length := by
    have hlen := congrArg List.length heq
    simp only [List.length_append] at hlen
    omega
  have hle : before.length ≤ before'.length := by
    refine Nat.le_of_not_lt fun hlt => h ?_
    -- An earlier occurrence would end before the last character of the separator behind the text.
    have hearly : before' ++ separator <+: before ++ separator ++ after :=
      heq ▸ List.prefix_append _ _
    have hstart : before ++ separator.dropLast <+: before ++ separator ++ after := by
      rw [List.append_assoc]
      exact (List.prefix_append_right_inj _).mpr
        ((List.dropLast_prefix separator).trans (List.prefix_append _ _))
    have hpos := List.length_pos_iff.mpr hne
    have hfits : (before' ++ separator).length ≤ (before ++ separator.dropLast).length := by
      simp only [List.length_append, List.length_dropLast]
      omega
    exact (List.suffix_append _ _).isInfix.trans
      (List.prefix_of_prefix_length_le hearly hstart hfits).isInfix
  constructor
  · rw [List.append_assoc, List.append_assoc] at heq
    exact List.prefix_of_prefix_length_le (heq ▸ List.prefix_append _ _)
      (List.prefix_append before' (separator ++ after')) hle
  · refine List.suffix_of_suffix_length_le (heq ▸ List.suffix_append _ _)
      (List.suffix_append (before ++ separator) after) ?_
    omega

/-! ## All pieces -/

theorem piecesAfter_eq_drop (separator : List Char) (skip : Nat) (text : List Char) :
    piecesAfter separator skip text = pieces separator (text.drop skip) := by
  induction text generalizing skip with
  | nil => cases skip <;> simp [piecesAfter, pieces]
  | cons c cs ih =>
      cases skip with
      | zero => simp [pieces]
      | succ skip => simpa [piecesAfter] using ih skip

/-- The pieces are found by cutting at the first occurrence again and again. -/
theorem pieces_eq_cut? {separator : List Char} (hne : separator ≠ []) (text : List Char) :
    pieces separator text =
      match cut? separator text with
      | some (before, after) => before :: pieces separator after
      | none => [text] := by
  induction text with
  | nil => simp [pieces, piecesAfter, cut?]
  | cons c cs ih =>
      obtain ⟨d, ds, rfl⟩ := List.exists_cons_of_ne_nil hne
      rw [pieces, piecesAfter, cut?]
      split
      · simp [piecesAfter_eq_drop]
      · rw [show piecesAfter (d :: ds) 0 cs = pieces (d :: ds) cs from rfl, ih]
        cases cut? (d :: ds) cs <;> simp [extendFirst]

theorem pieces_append {separator before : List Char} (hne : separator ≠ [])
    (h : Clear separator before) (after : List Char) :
    pieces separator (before ++ separator ++ after) = before :: pieces separator after := by
  rw [pieces_eq_cut? hne, cut?_append hne h]

theorem pieces_of_not_infix {separator text : List Char} (hne : separator ≠ [])
    (h : ¬separator <:+: text) : pieces separator text = [text] := by
  rw [pieces_eq_cut? hne, (cut?_eq_none_iff hne).mpr h]

/-- Texts that are each closed by a separator are the pieces, with an empty one at the end. -/
theorem pieces_flatMap {separator : List Char} (hne : separator ≠ []) {texts : List (List Char)}
    (h : ∀ text ∈ texts, Clear separator text) :
    pieces separator (texts.flatMap (· ++ separator)) = texts ++ [[]] := by
  induction texts with
  | nil => rfl
  | cons text others ih =>
      rw [List.forall_mem_cons] at h
      rw [List.flatMap_cons, pieces_append hne h.1, ih h.2, List.cons_append]

/-- A text and its pieces: all but the last end where the separator first comes up. -/
inductive Divided (separator : List Char) : List Char → List (List Char) → Prop where
  | last {text : List Char} (h : ¬separator <:+: text) : Divided separator text [text]
  | cut {before after : List Char} {pieces : List (List Char)} (h : Clear separator before)
      (hrest : Divided separator after pieces) :
      Divided separator (before ++ separator ++ after) (before :: pieces)

theorem divided_pieces {separator : List Char} (hne : separator ≠ []) (text : List Char) :
    Divided separator text (pieces separator text) := by
  cases hcut : cut? separator text with
  | none =>
      have hno := (cut?_eq_none_iff hne).mp hcut
      have hpieces := pieces_of_not_infix hne hno
      rw [hpieces]
      exact .last hno
  | some pair =>
      obtain ⟨before, after⟩ := pair
      have htext := eq_of_cut? hcut
      have hclear := clear_of_cut? hne hcut
      have hshorter := length_lt_of_cut? hne hcut
      rw [htext, pieces_append hne hclear]
      exact .cut hclear (divided_pieces hne after)
termination_by text.length

namespace Divided

variable {separator text : List Char} {ps : List (List Char)}

theorem ne_nil (h : Divided separator text ps) : ps ≠ [] := by
  cases h with
  | last => exact List.cons_ne_nil _ _
  | cut => exact List.cons_ne_nil _ _

/-- The pieces, joined by the separator, are the text. -/
theorem intercalate_eq (h : Divided separator text ps) : separator.intercalate ps = text := by
  induction h with
  | last => exact List.intercalate_singleton
  | @cut before after pieces _ hrest ih =>
      rw [List.intercalate_cons_of_ne_nil hrest.ne_nil, ih]

theorem pieces_eq (hne : separator ≠ []) (h : Divided separator text ps) :
    pieces separator text = ps := by
  induction h with
  | last h => exact pieces_of_not_infix hne h
  | cut h _ ih => rw [pieces_append hne h, ih]

theorem not_infix (h : Divided separator text ps) : ∀ piece ∈ ps, ¬separator <:+: piece := by
  induction h with
  | last h => simpa using h
  | cut h _ ih => exact List.forall_mem_cons.mpr ⟨h.not_infix, ih⟩

end Divided

end RmlAlgebra.Text
