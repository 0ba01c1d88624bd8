import RmlAlgebra.Proofs.LineFormat

/-! # The domain of the line format

A text is read as a graph exactly if its lines, the empty ones apart, are the lines of triples that
fit on a line. Writing a graph and reading it back gives the same graph for these triples and no
others, with one more condition: an object must not end in a carriage return, since a line feed is
written behind it.
-/

namespace RmlAlgebra

namespace Text

theorem dropReturn_eq_self_iff {line : List Char} :
    dropReturn line = line ↔ line.getLast? ≠ some '\r' := by
  unfold dropReturn
  split
  · next hlast =>
      obtain ⟨start, rfl⟩ := List.getLast?_eq_some_iff.mp hlast
      simp
  · next hlast => simpa using hlast

end Text

namespace Triple

/-- A triple whose terms keep to their places on a line: none of them breaks the line, and no
separator comes up before the ones behind the subject and behind the predicate. The object may hold
separators. -/
structure FitsLine (t : Triple) : Prop where
  unbroken : ∀ term ∈ [t.subject, t.predicate, t.object], '\n' ∉ term.toList
  apart : ∀ term ∈ [t.subject, t.predicate], ¬separator <:+: term.toList ++ ['|', '|']

theorem fitsLine_iff_readable {t : Triple} : t.FitsLine ↔ t.Readable := by
  have hunbroken : (∀ term ∈ [t.subject, t.predicate, t.object], '\n' ∉ term.toList) ↔
      '\n' ∉ t.toChars := by
    rw [mem_toChars (by decide)]
    simp
  have hapart : (∀ term ∈ [t.subject, t.predicate], ¬separator <:+: term.toList ++ ['|', '|']) ↔
      Text.Clear separator t.subject.toList ∧ Text.Clear separator t.predicate.toList := by
    simp [Text.Clear, separator]
  constructor
  · intro h
    have hclear := hapart.mp h.apart
    exact ⟨hclear.1, hclear.2, hunbroken.mp h.unbroken⟩
  · intro h
    exact ⟨hunbroken.mpr h.line, hapart.mpr ⟨h.subject, h.predicate⟩⟩

theorem fitsLine_iff_contains {t : Triple} : t.FitsLine ↔
    (∀ term ∈ [t.subject, t.predicate, t.object], '\n' ∉ term.toList) ∧
      ∀ term ∈ [t.subject, t.predicate],
        Text.contains separator (term.toList ++ ['|', '|']) = false := by
  simp only [← Bool.not_eq_true, Text.contains_eq_true_iff]
  exact ⟨fun h => ⟨h.unbroken, h.apart⟩, fun h => ⟨h.1, h.2⟩⟩

instance (t : Triple) : Decidable t.FitsLine :=
  decidable_of_iff _ fitsLine_iff_contains.symm

theorem withoutReturn_eq_self_iff {t : Triple} :
    t.withoutReturn = t ↔ t.object.toList.getLast? ≠ some '\r' := by
  rw [← Text.dropReturn_eq_self_iff]
  constructor
  · intro h
    simpa [withoutReturn] using congrArg (fun u => u.object.toList) h
  · intro h
    rw [withoutReturn, h, String.ofList_toList]

/-- Lines are read as the triples that they were written for, whatever empty lines lie between. -/
theorem ofLines_of_filter {g : List Triple} (hread : ∀ t ∈ g, t.Readable) {ls : List (List Char)}
    (h : g.map toChars = ls.filter fun line => !line.isEmpty) (number : Nat) :
    ofLines number ls = .ok g := by
  induction ls generalizing g number with
  | nil =>
      have hnil : g = [] := List.map_eq_nil_iff.mp h
      rw [hnil, ofLines]
  | cons line others ih =>
      by_cases hempty : line.isEmpty = true
      · rw [List.filter_cons_of_neg (by simp [hempty])] at h
        rw [ofLines, if_pos hempty]
        exact ih hread h (number + 1)
      · rw [List.filter_cons_of_pos (by simp [hempty])] at h
        cases g with
        | nil => simp at h
        | cons t rest =>
            rw [List.map_cons, List.cons.injEq] at h
            rw [List.forall_mem_cons] at hread
            have hline : ofChars? line = some t := by
              rw [← h.1]
              exact ofChars?_toChars hread.1.subject hread.1.predicate
            rw [ofLines, if_neg hempty, hline]
            simp only
            rw [ih hread.2 h.2 (number + 1)]
            rfl

end Triple

namespace Graph

/-- What a text must look like to be read as a graph. -/
theorem ofText_eq_ok_iff {text : String} {g : Graph} :
    ofText text = .ok g ↔ (∀ t ∈ g, t.FitsLine) ∧
      g.map Triple.toChars = (Text.lines text.toList).filter fun line => !line.isEmpty := by
  simp only [Triple.fitsLine_iff_readable]
  constructor
  · intro h
    exact ⟨readable_of_ofText h, (Triple.of_ofLines h).2⟩
  · intro h
    exact Triple.ofLines_of_filter h.1 h.2 1

/-- The graphs that are read back from their own text. -/
theorem ofText_toText_eq_self_iff {g : Graph} :
    ofText g.toText = .ok g ↔
      ∀ t ∈ g, t.FitsLine ∧ t.object.toList.getLast? ≠ some '\r' := by
  have hreturn : g.map Triple.withoutReturn = g ↔
      ∀ t ∈ g, t.object.toList.getLast? ≠ some '\r' := by
    simp only [← Triple.withoutReturn_eq_self_iff]
    simpa using List.map_inj_left (l := g) (f := Triple.withoutReturn) (g := id)
  constructor
  · intro h
    have hfits := (ofText_eq_ok_iff.mp h).1
    rw [ofText_toText fun t ht => Triple.fitsLine_iff_readable.mp (hfits t ht), Except.ok.injEq,
      hreturn] at h
    exact fun t ht => ⟨hfits t ht, h t ht⟩
  · intro h
    rw [ofText_toText fun t ht => Triple.fitsLine_iff_readable.mp (h t ht).1, Except.ok.injEq,
      hreturn]
    exact fun t ht => (h t ht).2

/-- Reading undoes writing for the triples that fit on a line and whose object does not end in a
carriage return, and for these only. In turn, all triples that are read fit on a line, and writing
them gives the lines of the text that are not empty. -/
theorem line_roundTrip :
    (∀ g : Graph, ofText g.toText = .ok g ↔
      ∀ t ∈ g, t.FitsLine ∧ t.object.toList.getLast? ≠ some '\r') ∧
    ∀ (text : String) (g : Graph), ofText text = .ok g →
      (∀ t ∈ g, t.FitsLine) ∧ g.toText.toList =
        Text.unlines ((Text.lines text.toList).filter fun line => !line.isEmpty) := by
  constructor
  · exact fun g => ofText_toText_eq_self_iff
  · intro text g h
    rw [ofText_eq_ok_iff] at h
    refine ⟨h.1, ?_⟩
    rw [toList_toText, h.2]

/-- Three triples whose terms come close to the separators, two of them with a carriage return at
the end. -/
def nearBars : Graph :=
  [⟨"|s", "|p", "|o|||\r"⟩, ⟨"a", "", ""⟩, ⟨"", "", "|\r"⟩]

/-- The text has an empty line, a line with nothing but its ending and no line feed at its end. It
is read, but what is then written is read differently: the carriage returns are lost. -/
theorem line_roundTrip_nearBars :
    ofText "|s||||p||||o|||\r\r\n\n\r\na||||||\n|||||||\r" = .ok nearBars ∧
      (∀ t ∈ nearBars, t.FitsLine) ∧
      nearBars.toText.toList = "|s||||p||||o|||\r\na||||||\n|||||||\r\n".toList ∧
      ofText nearBars.toText ≠ .ok nearBars := by
  have hread : ofText "|s||||p||||o|||\r\r\n\n\r\na||||||\n|||||||\r" = .ok nearBars :=
    ofText_eq_ok_iff.mpr ⟨by decide +kernel, by decide +kernel⟩
  have hwritten := line_roundTrip.2 _ _ hread
  refine ⟨hread, hwritten.1, ?_, ?_⟩
  · rw [hwritten.2]
    decide +kernel
  · rw [Ne, line_roundTrip.1]
    decide +kernel

end Graph

end RmlAlgebra
