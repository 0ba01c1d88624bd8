import RmlAlgebra.Proofs.LineRoundTrip

/-! # What the line reader accepts

A line can be read if it is empty or holds two separators that do not overlap, wherever they stand and
however long the runs of bars are. Of all triples that are written as the line, the one that is read has
the shortest subject and, behind it, the shortest predicate. A text that cannot be read fails at the
first of its lines that cannot, with the number of that line, empty lines counted. The lines of a text
are those that `Text.Lined` describes (`Text.lines_eq_iff`).
-/

namespace RmlAlgebra

namespace Triple

/-! ## One line -/

/-- A line with two separators that do not overlap. -/
def Separated (line : List Char) : Prop :=
  ∃ first second third, line = first ++ separator ++ second ++ separator ++ third

theorem separated_toChars (t : Triple) : Separated t.toChars :=
  ⟨_, _, _, rfl⟩

/-- The first two separators are found whenever there are two. -/
theorem exists_ofChars? {line : List Char} (h : Separated line) : ∃ t, ofChars? line = some t := by
  obtain ⟨first, second, third, rfl⟩ := h
  rw [List.append_assoc, List.append_assoc, ← List.append_assoc second]
  obtain ⟨subject, rest, hcut⟩ := Text.exists_cut? separator_ne_nil
    ⟨first, second ++ separator ++ third, rfl⟩
  -- The first cut comes no later than the first of the two, so the second one is left.
  have hclear := Text.clear_of_cut? separator_ne_nil hcut
  have hrest : second ++ separator ++ third <:+ rest :=
    (hclear.prefix_of_eq separator_ne_nil (Text.eq_of_cut? hcut).symm).2
  obtain ⟨predicate, object, hagain⟩ := Text.exists_cut? separator_ne_nil
    (List.IsInfix.trans ⟨second, third, rfl⟩ hrest.isInfix)
  refine ⟨⟨String.ofList subject, String.ofList predicate, String.ofList object⟩, ?_⟩
  exact ofChars?_eq_some_iff.mpr ⟨rest, by simpa using hcut, by simpa using hagain⟩

theorem ofChars?_eq_none_iff {line : List Char} : ofChars? line = none ↔ ¬Separated line := by
  constructor
  · rintro hnone h
    obtain ⟨t, ht⟩ := exists_ofChars? h
    rw [hnone] at ht
    cases ht
  · intro h
    refine Option.eq_none_iff_forall_ne_some.mpr fun t ht => h ?_
    rw [← toChars_of_ofChars? ht]
    exact separated_toChars t

/-- Of the triples on the same line none has a shorter subject, and none has a subject and a predicate
that are shorter together. So none with the same subject has a shorter predicate; behind a longer subject
there may be one. -/
structure Leftmost (t : Triple) : Prop where
  subject : ∀ u : Triple, u.toChars = t.toChars → t.subject.length ≤ u.subject.length
  predicate : ∀ u : Triple, u.toChars = t.toChars →
    t.subject.length + t.predicate.length ≤ u.subject.length + u.predicate.length

theorem length_toChars (t : Triple) :
    t.toChars.length = t.subject.length + t.predicate.length + t.object.length + 6 := by
  simp only [toChars, separator, List.length_append, String.length_toList, List.length_cons,
    List.length_nil]
  omega

/-- A line holds one leftmost triple at most. -/
theorem Leftmost.eq {t u : Triple} (ht : t.Leftmost) (hu : u.Leftmost) (h : t.toChars = u.toChars) :
    t = u := by
  have hsubject : t.subject.toList.length = u.subject.toList.length := by
    rw [String.length_toList, String.length_toList]
    exact Nat.le_antisymm (ht.subject u h.symm) (hu.subject t h)
  have hpredicate : t.predicate.toList.length = u.predicate.toList.length := by
    have hboth := Nat.le_antisymm (ht.predicate u h.symm) (hu.predicate t h)
    simp only [String.length_toList] at hsubject ⊢
    omega
  simp only [toChars, List.append_assoc] at h
  obtain ⟨hsubject, h⟩ := List.append_inj h hsubject
  obtain ⟨hpredicate, h⟩ := List.append_inj (List.append_cancel_left h) hpredicate
  have hobject := List.append_cancel_left h
  rw [String.toList_inj] at hsubject hpredicate hobject
  rw [Triple.mk.injEq]
  exact ⟨hsubject, hpredicate, hobject⟩

theorem leftmost_of_clear {t : Triple} (hs : Text.Clear separator t.subject.toList)
    (hp : Text.Clear separator t.predicate.toList) : t.Leftmost := by
  have hsplit {u : Triple} (h : u.toChars = t.toChars) : t.subject.toList <+: u.subject.toList ∧
      u.predicate.toList ++ separator ++ u.object.toList <:+
        t.predicate.toList ++ separator ++ t.object.toList := by
    rw [toChars_eq_append, toChars_eq_append] at h
    exact hs.prefix_of_eq separator_ne_nil h.symm
  constructor
  · intro u h
    rw [← String.length_toList, ← String.length_toList]
    exact (hsplit h).1.length_le
  · intro u h
    -- The second separator comes first too, so the object is the longest.
    obtain ⟨between, hbetween⟩ := (hsplit h).2
    rw [← List.append_assoc, ← List.append_assoc] at hbetween
    have hobject := (hp.prefix_of_eq separator_ne_nil hbetween.symm).2.length_le
    have hlength := congrArg List.length h
    rw [length_toChars, length_toChars] at hlength
    rw [String.length_toList, String.length_toList] at hobject
    omega

theorem leftmost_iff_clear {t : Triple} : t.Leftmost ↔
    Text.Clear separator t.subject.toList ∧ Text.Clear separator t.predicate.toList := by
  constructor
  · intro h
    -- What is read from the line is leftmost as well, so it is the triple itself.
    obtain ⟨u, hu⟩ := exists_ofChars? (separated_toChars t)
    have hclear := clear_of_ofChars? hu
    have heq := h.eq (leftmost_of_clear hclear.1 hclear.2) (toChars_of_ofChars? hu).symm
    rw [heq]
    exact hclear
  · rintro ⟨hs, hp⟩
    exact leftmost_of_clear hs hp

end Triple

/-! ## All lines -/

/-- A line that can be read. -/
def Triple.WellFormed (line : List Char) : Prop :=
  line = [] ∨ Separated line

/-- The error names the first line that cannot be read, if the lines are counted from a number on. -/
def MalformedText.FirstFrom (error : MalformedText) (number : Nat) (ls : List (List Char)) : Prop :=
  ∃ before line after, ls = before ++ line :: after ∧
    error = ⟨number + before.length, ⟨String.ofList line⟩⟩ ∧
    ¬Triple.WellFormed line ∧ ∀ earlier ∈ before, Triple.WellFormed earlier

namespace MalformedText

variable {error : MalformedText} {number : Nat} {line : List Char} {others : List (List Char)}

theorem not_firstFrom_nil : ¬error.FirstFrom number [] := by
  rintro ⟨before, line, after, hnil, -⟩
  simp at hnil

theorem firstFrom_cons_of_wellFormed (h : Triple.WellFormed line) :
    error.FirstFrom number (line :: others) ↔ error.FirstFrom (number + 1) others := by
  constructor
  · rintro ⟨before, bad, after, heq, rfl, hbad, hbefore⟩
    cases before with
    | nil =>
        rw [List.nil_append, List.cons.injEq] at heq
        exact absurd (heq.1 ▸ h) hbad
    | cons first before =>
        rw [List.cons_append, List.cons.injEq] at heq
        rw [List.forall_mem_cons] at hbefore
        refine ⟨before, bad, after, heq.2, ?_, hbad, hbefore.2⟩
        rw [List.length_cons, Nat.add_assoc, Nat.add_comm 1]
  · rintro ⟨before, bad, after, rfl, rfl, hbad, hbefore⟩
    refine ⟨line :: before, bad, after, rfl, ?_, hbad, List.forall_mem_cons.mpr ⟨h, hbefore⟩⟩
    rw [List.length_cons, Nat.add_assoc, Nat.add_comm 1]

theorem firstFrom_cons_of_not_wellFormed (h : ¬Triple.WellFormed line) :
    error.FirstFrom number (line :: others) ↔ error = ⟨number, ⟨String.ofList line⟩⟩ := by
  constructor
  · rintro ⟨before, bad, after, heq, rfl, hbad, hbefore⟩
    cases before with
    | nil =>
        rw [List.nil_append, List.cons.injEq] at heq
        rw [heq.1]
        rfl
    | cons first before =>
        rw [List.cons_append, List.cons.injEq] at heq
        exact absurd (heq.1 ▸ hbefore first List.mem_cons_self) h
  · rintro rfl
    exact ⟨[], line, others, rfl, rfl, h, List.forall_mem_nil _⟩

end MalformedText

namespace Triple

/-- Reading stops at the first line that cannot be read. -/
theorem ofLines_eq_error_iff {number : Nat} {ls : List (List Char)} {error : MalformedText} :
    ofLines number ls = .error error ↔ error.FirstFrom number ls := by
  induction ls generalizing number with
  | nil => exact iff_of_false (fun h => by cases h) MalformedText.not_firstFrom_nil
  | cons line others ih =>
      by_cases hread : WellFormed line
      · rw [MalformedText.firstFrom_cons_of_wellFormed hread, ← ih]
        by_cases hempty : line.isEmpty = true
        · rw [ofLines, if_pos hempty]
        · have hseparated := hread.resolve_left (mt List.isEmpty_iff.mpr hempty)
          obtain ⟨t, ht⟩ := exists_ofChars? hseparated
          rw [ofLines, if_neg hempty, ht]
          cases ofLines (number + 1) others with
          | error cause => simp [Except.map]
          | ok rest => simp [Except.map]
      · rw [MalformedText.firstFrom_cons_of_not_wellFormed hread]
        have hempty : ¬line.isEmpty = true := fun h => hread (.inl (List.isEmpty_iff.mp h))
        have hnone : ofChars? line = none := ofChars?_eq_none_iff.mpr fun h => hread (.inr h)
        rw [ofLines, if_neg hempty, hnone]
        simp only [Except.error.injEq]
        exact eq_comm

end Triple

namespace Graph

/-- The graph that is read has one leftmost triple for each line that is not empty. -/
theorem ofText_eq_ok_iff_leftmost {text : String} {g : Graph} :
    ofText text = .ok g ↔
      (g.map Triple.toChars = (Text.lines text.toList).filter fun line => !line.isEmpty) ∧
        ∀ t ∈ g, t.Leftmost := by
  rw [ofText_eq_ok_iff, and_comm]
  refine and_congr_right fun hlines => forall₂_congr fun t ht => ?_
  rw [Triple.fitsLine_iff_readable, Triple.leftmost_iff_clear]
  -- The triple stands on a line, which holds no line feed.
  have hmem : t.toChars ∈ Text.lines text.toList :=
    (List.mem_filter.mp (hlines ▸ List.mem_map_of_mem ht)).1
  have hunbroken := (Text.lines_spec text.toList).1 _ hmem
  exact ⟨fun h => ⟨h.subject, h.predicate⟩, fun h => ⟨h.1, h.2, hunbroken⟩⟩

theorem exists_ofText_eq_ok_iff {text : String} :
    (∃ g, ofText text = .ok g) ↔ ∀ line ∈ Text.lines text.toList, Triple.WellFormed line := by
  constructor
  · rintro ⟨g, hread⟩ line hline
    by_cases hempty : line = []
    · exact .inl hempty
    · have hmem : line ∈ g.map Triple.toChars := by
        rw [(ofText_eq_ok_iff.mp hread).2, List.mem_filter]
        exact ⟨hline, by simpa using hempty⟩
      obtain ⟨t, -, rfl⟩ := List.mem_map.mp hmem
      exact .inr t.separated_toChars
  · intro hall
    cases hread : ofText text with
    | ok g => exact ⟨g, rfl⟩
    | error cause =>
        obtain ⟨before, line, after, hlines, -, hbad, -⟩ := Triple.ofLines_eq_error_iff.mp hread
        exact absurd (hall line (hlines ▸ List.mem_append_right _ List.mem_cons_self)) hbad

/-- The line reader accepts a text exactly if every line is empty or holds two separators that do not
overlap. It then gives one triple for each line that is not empty: its line is that line, and its
subject and predicate are as short as they can be. Otherwise it names the first line that cannot be
read, counting all lines from one. -/
theorem ofText_grammar (text : String) :
    ((∃ g, ofText text = .ok g) ↔ ∀ line ∈ Text.lines text.toList, Triple.WellFormed line) ∧
      (∀ g, ofText text = .ok g ↔
        (g.map Triple.toChars = (Text.lines text.toList).filter fun line => !line.isEmpty) ∧
          ∀ t ∈ g, t.Leftmost) ∧
      ∀ error, ofText text = .error error ↔ error.FirstFrom 1 (Text.lines text.toList) :=
  ⟨exists_ofText_eq_ok_iff, fun _ => ofText_eq_ok_iff_leftmost, fun _ => Triple.ofLines_eq_error_iff⟩

/-- Six bars are two separators and five are one. The second line is empty, and so is the third. -/
example : ofText "||||||\n\n\r\n|||||\n" = .error ⟨4, ⟨"|||||"⟩⟩ := by rfl

end Graph

end RmlAlgebra
