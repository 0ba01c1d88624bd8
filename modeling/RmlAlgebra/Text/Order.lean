/-! # Sorted sets of texts

Texts are ordered by code points. A set is written as its elements in increasing order.
-/

namespace RmlAlgebra.Text

def insertSorted (text : String) : List String → List String
  | [] => [text]
  | head :: others =>
      if text < head then text :: head :: others
      else if text = head then head :: others
      else head :: insertSorted text others

/-- The elements of a list in increasing order, each once. -/
def sortedSet (texts : List String) : List String :=
  texts.foldr insertSorted []

theorem mem_insertSorted {x text : String} {texts : List String} :
    x ∈ insertSorted text texts ↔ x = text ∨ x ∈ texts := by
  induction texts with
  | nil => simp [insertSorted]
  | cons head others ih =>
      rw [insertSorted]
      split
      · simp
      · split
        · next h => simp [h]
        · simp only [List.mem_cons, ih]
          constructor
          · rintro (h | h | h) <;> simp [h]
          · rintro (h | h | h) <;> simp [h]

theorem mem_sortedSet {x : String} {texts : List String} :
    x ∈ sortedSet texts ↔ x ∈ texts := by
  induction texts with
  | nil => simp [sortedSet]
  | cons head others ih =>
      have h : sortedSet (head :: others) = insertSorted head (sortedSet others) := rfl
      rw [h, mem_insertSorted, ih, List.mem_cons]

end RmlAlgebra.Text
