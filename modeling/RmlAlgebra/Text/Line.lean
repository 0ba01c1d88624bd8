import RmlAlgebra.Text.Split

/-! # Lines

A line feed ends a line, and a carriage return directly before it belongs to that ending. What
follows the last line feed is a line of its own unless it is empty; a carriage return there is an
ordinary character.
-/

namespace RmlAlgebra.Text

/-- A line without the carriage return that stood before its line feed. -/
def dropReturn (line : List Char) : List Char :=
  if line.getLast? = some '\r' then line.dropLast else line

def linesOfPieces : List (List Char) → List (List Char)
  | [] => []
  | [last] => if last.isEmpty then [] else [last]
  | piece :: next :: others => dropReturn piece :: linesOfPieces (next :: others)

def lines (text : List Char) : List (List Char) :=
  linesOfPieces (pieces ['\n'] text)

/-- A text made of the given lines, each closed by a line feed. -/
def unlines : List (List Char) → List Char
  | [] => []
  | line :: others => line ++ '\n' :: unlines others

theorem unlines_append (xs ys : List (List Char)) :
    unlines (xs ++ ys) = unlines xs ++ unlines ys := by
  induction xs with
  | nil => rfl
  | cons line others ih => simp [unlines, ih]

end RmlAlgebra.Text
