import RmlAlgebra.Text.Line

/-! # Mapping triples and their line format

A mapping triple is three plain texts: IRIs without angle brackets, literals as their lexical
value, blank nodes as labels. It is written on one line, the terms separated by `|||`. When a line
is read, the first two separators count and all the rest is the object.
-/

namespace RmlAlgebra

structure Triple where
  subject : String
  predicate : String
  object : String
  deriving DecidableEq, Repr, Inhabited

/-- A line that does not hold two separators. -/
structure MalformedLine where
  line : String
  deriving DecidableEq, Repr

def MalformedLine.message (error : MalformedLine) : String :=
  s!"expected 'subject|||predicate|||object', found '{error.line}'"

/-- A malformed line with its number. Lines are counted from one, empty lines included. -/
structure MalformedText where
  number : Nat
  cause : MalformedLine
  deriving DecidableEq, Repr

def MalformedText.message (error : MalformedText) : String :=
  s!"line {error.number}: {error.cause.message}"

namespace Triple

def separator : List Char :=
  ['|', '|', '|']

def toChars (t : Triple) : List Char :=
  t.subject.toList ++ separator ++ t.predicate.toList ++ separator ++ t.object.toList

def toLine (t : Triple) : String :=
  String.ofList t.toChars

def ofChars? (line : List Char) : Option Triple := do
  let (subject, rest) ← Text.cut? separator line
  let (predicate, object) ← Text.cut? separator rest
  return ⟨String.ofList subject, String.ofList predicate, String.ofList object⟩

def ofLine (line : String) : Except MalformedLine Triple :=
  match ofChars? line.toList with
  | some t => .ok t
  | none => .error ⟨line⟩

/-- The triples on the given lines, the first of which has the given number. Empty lines hold no
triple. -/
def ofLines (number : Nat) : List (List Char) → Except MalformedText (List Triple)
  | [] => .ok []
  | line :: others =>
      if line.isEmpty then ofLines (number + 1) others
      else
        match ofChars? line with
        | none => .error ⟨number, ⟨String.ofList line⟩⟩
        | some t => (ofLines (number + 1) others).map (t :: ·)

theorem toChars_of_ofChars? {line : List Char} {t : Triple} (h : ofChars? line = some t) :
    t.toChars = line := by
  simp only [ofChars?, Option.bind_eq_bind, Option.bind_eq_some_iff, Prod.exists, Option.pure_def,
    Option.some.injEq] at h
  obtain ⟨subject, rest, hsubject, predicate, object, hpredicate, rfl⟩ := h
  simp [toChars, Text.eq_of_cut? hsubject, Text.eq_of_cut? hpredicate]

/-- Order by subject, then predicate, then object, each by code points. -/
def le (a b : Triple) : Bool :=
  if a.subject ≠ b.subject then a.subject < b.subject
  else if a.predicate ≠ b.predicate then a.predicate < b.predicate
  else a.object ≤ b.object

end Triple

end RmlAlgebra
