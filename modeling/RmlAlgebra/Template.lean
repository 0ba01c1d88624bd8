import RmlAlgebra.Text.Split

/-! # String templates

A template is text with placeholders in braces. A placeholder opens at a brace that no backslash
precedes and ends at the next closing brace; its name may hold any other character. An opening
brace that is never closed is ordinary text.
-/

namespace RmlAlgebra

namespace Template

/-- Whether a brace behind this text is ordinary text. -/
def escapes (before : List Char) : Bool :=
  before.getLast? == some '\\'

def referencesIn (text : List Char) : List (List Char) :=
  match _hopen : Text.cut? ['{'] text with
  | none => []
  | some (before, rest) =>
      if escapes before then referencesIn rest
      else
        match _hclose : Text.cut? ['}'] rest with
        | none => []
        | some (name, after) => name :: referencesIn after
termination_by text.length
decreasing_by
  · exact Text.length_lt_of_cut? (List.cons_ne_nil _ _) _hopen
  · exact Nat.lt_trans (Text.length_lt_of_cut? (List.cons_ne_nil _ _) _hclose)
      (Text.length_lt_of_cut? (List.cons_ne_nil _ _) _hopen)

def references (template : String) : List String :=
  (referencesIn template.toList).map String.ofList

/-- Where no closing brace follows, the rest of the text stays as it is. -/
def qualifyIn (qualifier text : List Char) : List Char :=
  match _hopen : Text.cut? ['{'] text with
  | none => text
  | some (before, rest) =>
      match _hclose : Text.cut? ['}'] rest with
      | none => text
      | some (name, after) =>
          if escapes before then before ++ '{' :: qualifyIn qualifier rest
          else before ++ '{' :: (qualifier ++ '_' :: name ++ qualifyIn qualifier ('}' :: after))
termination_by text.length
decreasing_by
  · exact Text.length_lt_of_cut? (List.cons_ne_nil _ _) _hopen
  · exact Nat.lt_of_le_of_lt (Text.length_lt_of_cut? (List.cons_ne_nil _ _) _hclose)
      (Text.length_lt_of_cut? (List.cons_ne_nil _ _) _hopen)

/-- Put a qualifier and an underscore before every placeholder's name. -/
def qualify (qualifier template : String) : String :=
  String.ofList (qualifyIn qualifier.toList template.toList)

end Template

end RmlAlgebra
