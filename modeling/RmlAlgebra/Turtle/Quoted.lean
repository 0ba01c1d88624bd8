import RmlAlgebra.Iri.Character

/-! # Delimited text with escapes

IRI references and strings run up to a closing mark. A backslash introduces a code point, or, in
strings, one of a few named characters.
-/

namespace RmlAlgebra.Turtle

structure Quotation where
  close : List Char
  named : Bool
  multiline : Bool

namespace Quotation

def iri : Quotation := ⟨['>'], false, true⟩

def short (quote : Char) : Quotation := ⟨[quote], true, false⟩

/-- A string after its three opening quotes. It ends at the first three quotes in a row. -/
def long (quote : Char) : Quotation := ⟨[quote, quote, quote], true, true⟩

end Quotation

def hexValue? (c : Char) : Option Nat :=
  if c.isDigit then some (c.toNat - '0'.toNat)
  else if 'a' ≤ c ∧ c ≤ 'f' then some (c.toNat - 'a'.toNat + 10)
  else if 'A' ≤ c ∧ c ≤ 'F' then some (c.toNat - 'A'.toNat + 10)
  else none

/-- The character with a code point; surrogates have none. -/
def codePoint? (n : Nat) : Option Char :=
  if n.isValidChar then some (Char.ofNat n) else none

def namedEscape? : Char → Option Char
  | 't' => some '\t'
  | 'b' => some '\x08'
  | 'n' => some '\n'
  | 'r' => some '\r'
  | 'f' => some '\x0c'
  | '"' => some '"'
  | '\x27' => some '\x27'
  | '\\' => some '\\'
  | _ => none

/-- What a reader of delimited text has of an escape: nothing, the backslash, or the value of the
digits so far with the number of those to come. -/
inductive Pending where
  | nothing
  | backslash
  | digits (left value : Nat)

/-- The text up to the closing mark, with escapes replaced, and what follows the mark. -/
def readQuoted (q : Quotation) : Pending → List Char → Option (List Char × List Char)
  | _, [] => none
  | .nothing, c :: cs =>
      if q.close.isPrefixOf (c :: cs) then some ([], (c :: cs).drop q.close.length)
      else if c == '\\' then readQuoted q .backslash cs
      else if !q.multiline && (c == '\n' || c == '\r') then none
      else (readQuoted q .nothing cs).map fun (text, rest) => (c :: text, rest)
  | .backslash, c :: cs =>
      if c == 'u' then readQuoted q (.digits 4 0) cs
      else if c == 'U' then readQuoted q (.digits 8 0) cs
      else if q.named then do
        let d ← namedEscape? c
        let (text, rest) ← readQuoted q .nothing cs
        return (d :: text, rest)
      else none
  | .digits left value, c :: cs => do
      let digit ← hexValue? c
      if left ≤ 1 then
        let d ← codePoint? (16 * value + digit)
        let (text, rest) ← readQuoted q .nothing cs
        return (d :: text, rest)
      else readQuoted q (.digits (left - 1) (16 * value + digit)) cs

end RmlAlgebra.Turtle
