import RmlAlgebra.Graph
import RmlAlgebra.Proofs.Separator

/-! # Reading back what was written

A graph is read back from its text if no term breaks a line and the separator behind a subject or a
predicate is found where it was put. What reading loses even then is a carriage return at the end of
an object, which belongs to the ending of its line.
-/

namespace RmlAlgebra

theorem except_bind_eq_ok {ε α β : Type} {x : Except ε α} {f : α → Except ε β} {b : β}
    (h : x >>= f = .ok b) : ∃ a, x = .ok a ∧ f a = .ok b := by
  cases x with
  | error cause => cases h
  | ok a => exact ⟨a, rfl, h⟩

namespace Text

theorem linesOfPieces_cons {piece : List Char} {others : List (List Char)} (h : others ≠ []) :
    linesOfPieces (piece :: others) = dropReturn piece :: linesOfPieces others := by
  obtain ⟨next, rest, rfl⟩ := List.exists_cons_of_ne_nil h
  rfl

theorem lines_append {line : List Char} (h : '\n' ∉ line) (rest : List Char) :
    lines (line ++ '\n' :: rest) = dropReturn line :: lines rest := by
  have hcut : pieces ['\n'] (line ++ '\n' :: rest) = line :: pieces ['\n'] rest := by
    simpa using pieces_append (by simp) (clear_singleton_iff.mpr h) rest
  rw [lines, hcut, linesOfPieces_cons (pieces_ne_nil _ _), ← lines]

theorem lines_unlines_append {ls : List (List Char)} (h : ∀ l ∈ ls, '\n' ∉ l) (rest : List Char) :
    lines (unlines ls ++ rest) = ls.map dropReturn ++ lines rest := by
  induction ls with
  | nil => simp [unlines]
  | cons line others ih =>
      have hline := h line List.mem_cons_self
      have hothers := ih fun l hl => h l (List.mem_cons_of_mem _ hl)
      rw [unlines, List.append_assoc, List.cons_append, lines_append hline, hothers]
      rfl

theorem lines_nil : lines [] = [] := rfl

theorem lines_of_not_mem {line : List Char} (h : '\n' ∉ line) (hne : line ≠ []) :
    lines line = [line] := by
  have hcut : pieces ['\n'] line = [line] := by
    apply pieces_of_not_infix (by simp)
    intro hin
    exact h (hin.subset (List.mem_singleton_self _))
  simp [lines, hcut, linesOfPieces, hne]

theorem mem_of_mem_dropReturn {line : List Char} {c : Char} (h : c ∈ dropReturn line) :
    c ∈ line := by
  unfold dropReturn at h
  split at h
  · exact List.dropLast_subset line h
  · exact h

theorem dropReturn_append {start : List Char} (h : start.getLast? ≠ some '\r') (rest : List Char) :
    dropReturn (start ++ rest) = start ++ dropReturn rest := by
  by_cases hrest : rest = []
  · simp [hrest, dropReturn, h]
  · have hlast : (start ++ rest).getLast? = rest.getLast? := by
      rw [List.getLast?_append, List.getLast?_eq_some_getLast hrest]
      rfl
    unfold dropReturn
    rw [hlast]
    split
    · exact List.dropLast_append_of_ne_nil hrest
    · rfl

theorem length_dropReturn_le (line : List Char) : (dropReturn line).length ≤ line.length := by
  unfold dropReturn
  split
  · simp
  · exact Nat.le_refl _

theorem Divided.lines_spec {text : List Char} {ps : List (List Char)} (h : Divided ['\n'] text ps) :
    (∀ line ∈ linesOfPieces ps, '\n' ∉ line) ∧
      (unlines (linesOfPieces ps)).length ≤ text.length + 1 := by
  induction h with
  | @last text h =>
      rw [singleton_infix_iff] at h
      by_cases hne : text = []
      · simp [hne, linesOfPieces, unlines]
      · simp [hne, h, linesOfPieces, unlines]
  | @cut before after pieces h hrest ih =>
      have hdrop := length_dropReturn_le before
      rw [linesOfPieces_cons hrest.ne_nil]
      constructor
      · have hline := clear_singleton_iff.mp h
        exact List.forall_mem_cons.mpr ⟨fun hmem => hline (mem_of_mem_dropReturn hmem), ih.1⟩
      · have hsize := ih.2
        simp only [unlines, List.length_append, List.length_cons, List.length_nil]
        omega

/-- Text is made of its lines: a line holds no line feed, and together they are not longer than the
text, the line feed apart that may be missing at its end. -/
theorem lines_spec (text : List Char) :
    (∀ line ∈ lines text, '\n' ∉ line) ∧ (unlines (lines text)).length ≤ text.length + 1 :=
  (divided_pieces (by simp) text).lines_spec

/-- A text and its lines. A line ends in a line feed, with a carriage return in front of it or not, and
the last one may have no ending. -/
inductive Lined : List Char → List (List Char) → Prop where
  | nil : Lined [] []
  | last {line : List Char} (h : '\n' ∉ line) (hne : line ≠ []) : Lined line [line]
  | feed {line rest : List Char} {ls : List (List Char)} (h : '\n' ∉ line)
      (hreturn : line.getLast? ≠ some '\r') (hrest : Lined rest ls) :
      Lined (line ++ '\n' :: rest) (line :: ls)
  | returnFeed {line rest : List Char} {ls : List (List Char)} (h : '\n' ∉ line)
      (hrest : Lined rest ls) : Lined (line ++ '\r' :: '\n' :: rest) (line :: ls)

theorem dropReturn_concat (line : List Char) : dropReturn (line ++ ['\r']) = line := by
  simp [dropReturn]

theorem lined_lines (text : List Char) : Lined text (lines text) := by
  by_cases hfeed : '\n' ∈ text
  · obtain ⟨line, rest, htext, hline⟩ := List.eq_append_cons_of_mem hfeed
    have hshorter : rest.length < text.length := by
      rw [htext, List.length_append, List.length_cons]
      omega
    have hrest := lined_lines rest
    rw [htext, lines_append hline]
    by_cases hreturn : line.getLast? = some '\r'
    · obtain ⟨start, rfl⟩ := List.getLast?_eq_some_iff.mp hreturn
      rw [dropReturn_concat, List.append_assoc]
      exact .returnFeed (fun hmem => hline (List.mem_append_left _ hmem)) hrest
    · rw [dropReturn, if_neg hreturn]
      exact .feed hline hreturn hrest
  · by_cases hne : text = []
    · rw [hne]
      exact .nil
    · rw [lines_of_not_mem hfeed hne]
      exact .last hfeed hne
termination_by text.length

/-- The lines of a text are the only ones that make it up. -/
theorem lines_eq_iff {text : List Char} {ls : List (List Char)} :
    lines text = ls ↔ Lined text ls := by
  constructor
  · rintro rfl
    exact lined_lines text
  · intro h
    induction h with
    | nil => rfl
    | last h hne => exact lines_of_not_mem h hne
    | feed h hreturn _ ih => rw [lines_append h, dropReturn, if_neg hreturn, ih]
    | @returnFeed line rest ls h _ ih =>
        have hline : '\n' ∉ line ++ ['\r'] := by simpa using h
        rw [List.append_cons, lines_append hline, dropReturn_concat, ih]

end Text

namespace Triple

/-- A triple that its line gives back. -/
structure Readable (t : Triple) : Prop where
  subject : Text.Clear separator t.subject.toList
  predicate : Text.Clear separator t.predicate.toList
  line : '\n' ∉ t.toChars

/-- A triple as it is read from a line that ends in a line feed. -/
def withoutReturn (t : Triple) : Triple :=
  { t with object := String.ofList (Text.dropReturn t.object.toList) }

def front (t : Triple) : List Char :=
  t.subject.toList ++ separator ++ t.predicate.toList ++ separator

theorem toChars_eq_front (t : Triple) : t.toChars = t.front ++ t.object.toList := rfl

theorem toChars_eq_append (t : Triple) : t.toChars =
    t.subject.toList ++ separator ++ (t.predicate.toList ++ separator ++ t.object.toList) := by
  simp [toChars]

@[simp] theorem getLast?_front (t : Triple) : t.front.getLast? = some '|' := by
  rw [front, List.getLast?_append]
  rfl

theorem mem_toChars {t : Triple} {c : Char} (hc : c ≠ '|') :
    c ∈ t.toChars ↔ c ∈ t.subject.toList ∨ c ∈ t.predicate.toList ∨ c ∈ t.object.toList := by
  simp [toChars, separator, hc]

theorem Readable.setObject {t : Triple} (h : t.Readable) {object : String}
    (ho : '\n' ∉ object.toList) : Readable { t with object := object } := by
  refine ⟨h.subject, h.predicate, ?_⟩
  have hline := h.line
  rw [mem_toChars (by decide)] at hline ⊢
  simp only [not_or] at hline ⊢
  exact ⟨hline.1, hline.2.1, ho⟩

theorem Readable.not_mem_object {t : Triple} (h : t.Readable) : '\n' ∉ t.object.toList :=
  fun hmem => h.line (List.mem_append_right _ hmem)

theorem Readable.withoutReturn {t : Triple} (h : t.Readable) : t.withoutReturn.Readable := by
  apply h.setObject
  rw [String.toList_ofList]
  exact fun hmem => h.not_mem_object (Text.mem_of_mem_dropReturn hmem)

theorem toChars_ne_nil (t : Triple) : t.toChars ≠ [] := by
  simp [toChars, separator]

theorem separator_ne_nil : separator ≠ [] :=
  List.cons_ne_nil _ _

/-- A line is read by cutting it twice. -/
theorem ofChars?_eq_some_iff {line : List Char} {t : Triple} :
    ofChars? line = some t ↔ ∃ rest, Text.cut? separator line = some (t.subject.toList, rest) ∧
      Text.cut? separator rest = some (t.predicate.toList, t.object.toList) := by
  simp only [ofChars?, Option.bind_eq_bind, Option.bind_eq_some_iff, Prod.exists, Option.pure_def,
    Option.some.injEq]
  constructor
  · rintro ⟨subject, rest, hsubject, predicate, object, hpredicate, rfl⟩
    exact ⟨rest, by simpa using hsubject, by simpa using hpredicate⟩
  · rintro ⟨rest, hsubject, hpredicate⟩
    exact ⟨_, rest, hsubject, _, _, hpredicate, by simp⟩

theorem ofChars?_toChars {t : Triple} (hs : Text.Clear separator t.subject.toList)
    (hp : Text.Clear separator t.predicate.toList) : ofChars? t.toChars = some t := by
  rw [ofChars?_eq_some_iff, toChars_eq_append]
  exact ⟨_, Text.cut?_append separator_ne_nil hs _, Text.cut?_append separator_ne_nil hp _⟩

theorem clear_of_ofChars? {line : List Char} {t : Triple} (h : ofChars? line = some t) :
    Text.Clear separator t.subject.toList ∧ Text.Clear separator t.predicate.toList := by
  obtain ⟨rest, hsubject, hpredicate⟩ := ofChars?_eq_some_iff.mp h
  exact ⟨Text.clear_of_cut? separator_ne_nil hsubject,
    Text.clear_of_cut? separator_ne_nil hpredicate⟩

theorem readable_of_ofChars? {line : List Char} {t : Triple} (hline : '\n' ∉ line)
    (h : ofChars? line = some t) : t.Readable := by
  obtain ⟨hsubject, hpredicate⟩ := clear_of_ofChars? h
  exact ⟨hsubject, hpredicate, toChars_of_ofChars? h ▸ hline⟩

theorem dropReturn_toChars (t : Triple) : Text.dropReturn t.toChars = t.withoutReturn.toChars := by
  rw [toChars_eq_front, Text.dropReturn_append (by simp)]
  simp [toChars_eq_front, withoutReturn, front]

theorem dropReturn_comp_toChars : Text.dropReturn ∘ toChars = toChars ∘ withoutReturn :=
  funext dropReturn_toChars

theorem ofLines_map_toChars {g : List Triple} (h : ∀ t ∈ g, t.Readable) (number : Nat) :
    ofLines number (g.map toChars) = .ok g := by
  induction g generalizing number with
  | nil => rfl
  | cons t others ih =>
      have ht := h t List.mem_cons_self
      have hothers := ih (fun u hu => h u (List.mem_cons_of_mem _ hu)) (number + 1)
      simp [ofLines, toChars_ne_nil, ofChars?_toChars ht.subject ht.predicate, hothers, Except.map]

/-- Every triple that is read stands on one of the lines, and the lines with triples are written
back. -/
theorem of_ofLines {number : Nat} {ls : List (List Char)} {g : List Triple}
    (h : ofLines number ls = .ok g) :
    (∀ t ∈ g, ∃ line ∈ ls, ofChars? line = some t) ∧
      g.map toChars = ls.filter fun line => !line.isEmpty := by
  induction ls generalizing number g with
  | nil =>
      simp only [ofLines, Except.ok.injEq] at h
      subst h
      simp
  | cons line others ih =>
      rw [ofLines] at h
      by_cases hempty : line.isEmpty = true
      · rw [if_pos hempty] at h
        obtain ⟨hmem, hchars⟩ := ih h
        refine ⟨fun t ht => ?_, by simp [hempty, hchars]⟩
        obtain ⟨l, hl, hread⟩ := hmem t ht
        exact ⟨l, List.mem_cons_of_mem _ hl, hread⟩
      · rw [if_neg hempty] at h
        cases hread : ofChars? line with
        | none => simp [hread] at h
        | some t =>
            cases hrest : ofLines (number + 1) others with
            | error cause => simp [hread, hrest, Except.map] at h
            | ok rest =>
                simp only [hread, hrest, Except.map, Except.ok.injEq] at h
                subst h
                obtain ⟨hmem, hchars⟩ := ih hrest
                constructor
                · intro u hu
                  rcases List.mem_cons.mp hu with rfl | hu
                  · exact ⟨line, List.mem_cons_self, hread⟩
                  · obtain ⟨l, hl, hl'⟩ := hmem u hu
                    exact ⟨l, List.mem_cons_of_mem _ hl, hl'⟩
                · simp [hempty, hchars, toChars_of_ofChars? hread]

end Triple

namespace Graph

@[simp] theorem toList_toText (g : Graph) :
    g.toText.toList = Text.unlines (g.map Triple.toChars) := by
  simp [toText]

/-- A graph is read back from its text up to carriage returns at the end of objects. -/
theorem ofText_toText {g : Graph} (h : ∀ t ∈ g, t.Readable) :
    ofText g.toText = .ok (g.map Triple.withoutReturn) := by
  have hlines : ∀ l ∈ g.map Triple.toChars, '\n' ∉ l := by
    intro l hl
    obtain ⟨t, ht, rfl⟩ := List.mem_map.mp hl
    exact (h t ht).line
  have hread := Text.lines_unlines_append hlines []
  rw [List.append_nil, Text.lines_nil, List.append_nil, List.map_map,
    Triple.dropReturn_comp_toChars, ← List.map_map] at hread
  rw [ofText, toList_toText, hread]
  apply Triple.ofLines_map_toChars
  intro u hu
  obtain ⟨t, ht, rfl⟩ := List.mem_map.mp hu
  exact (h t ht).withoutReturn

theorem readable_of_ofText {text : String} {g : Graph} (h : ofText text = .ok g) :
    ∀ t ∈ g, t.Readable := by
  intro t ht
  obtain ⟨line, hline, hread⟩ := (Triple.of_ofLines h).1 t ht
  exact Triple.readable_of_ofChars? ((Text.lines_spec text.toList).1 line hline) hread

end Graph

end RmlAlgebra
