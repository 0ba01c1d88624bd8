/-! # Cutting text at a separator

Text is worked on as a list of characters, so that every definition recurses on the text itself.
A separator is never empty, and its occurrences are found from the left and do not overlap.
-/

namespace RmlAlgebra.Text

/-- The text before and the text after the first occurrence of a separator. -/
def cut? (separator : List Char) : List Char → Option (List Char × List Char)
  | [] => none
  | c :: cs =>
      if separator.isPrefixOf (c :: cs) then
        some ([], (c :: cs).drop separator.length)
      else
        (cut? separator cs).map fun (before, after) => (c :: before, after)

theorem eq_of_cut? {separator text before after : List Char}
    (h : cut? separator text = some (before, after)) :
    text = before ++ separator ++ after := by
  induction text generalizing before after with
  | nil => simp [cut?] at h
  | cons c cs ih =>
      rw [cut?] at h
      split at h
      · next found =>
          obtain ⟨rest, hrest⟩ := List.isPrefixOf_iff_prefix.mp found
          simp only [Option.some.injEq, Prod.mk.injEq] at h
          obtain ⟨rfl, rfl⟩ := h
          simp [← hrest]
      · simp only [Option.map_eq_some_iff, Prod.exists, Prod.mk.injEq] at h
        obtain ⟨left, right, hcut, rfl, rfl⟩ := h
        simp [ih hcut]

theorem length_lt_of_cut? {separator text before after : List Char} (hne : separator ≠ [])
    (h : cut? separator text = some (before, after)) : after.length < text.length := by
  have hpos := List.length_pos_iff.mpr hne
  rw [eq_of_cut? h, List.length_append, List.length_append]
  omega

def extendFirst (c : Char) : List (List Char) → List (List Char)
  | [] => [[c]]
  | piece :: others => (c :: piece) :: others

/-- The pieces of a text of which the first `skip` characters still belong to a separator. -/
def piecesAfter (separator : List Char) : Nat → List Char → List (List Char)
  | _, [] => [[]]
  | skip + 1, _ :: cs => piecesAfter separator skip cs
  | 0, c :: cs =>
      if separator.isPrefixOf (c :: cs) then
        [] :: piecesAfter separator (separator.length - 1) cs
      else
        extendFirst c (piecesAfter separator 0 cs)

/-- All pieces between the occurrences of a separator. There is one more piece than there are
occurrences, and pieces may be empty. -/
def pieces (separator text : List Char) : List (List Char) :=
  piecesAfter separator 0 text

theorem piecesAfter_ne_nil (separator : List Char) (skip : Nat) (text : List Char) :
    piecesAfter separator skip text ≠ [] := by
  induction text generalizing skip with
  | nil => cases skip <;> simp [piecesAfter]
  | cons c cs ih =>
      cases skip with
      | succ skip => simpa [piecesAfter] using ih skip
      | zero =>
          rw [piecesAfter]
          split
          · simp
          · cases h : piecesAfter separator 0 cs <;> simp [extendFirst]

theorem pieces_ne_nil (separator text : List Char) : pieces separator text ≠ [] :=
  piecesAfter_ne_nil separator 0 text

def contains (part : List Char) : List Char → Bool
  | [] => part.isEmpty
  | c :: cs => part.isPrefixOf (c :: cs) || contains part cs

end RmlAlgebra.Text
