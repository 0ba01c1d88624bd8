import RmlAlgebra.Iri.Character

/-! # Characters of names

The character classes from which Turtle builds prefixes, local names and blank node labels.
-/

namespace RmlAlgebra.Turtle

open Iri (inRange)

def isNameBase (c : Char) : Bool :=
  c.isAlpha || inRange 0xC0 0xD6 c || inRange 0xD8 0xF6 c || inRange 0xF8 0x2FF c ||
  inRange 0x370 0x37D c || inRange 0x37F 0x1FFF c || inRange 0x200C 0x200D c ||
  inRange 0x2070 0x218F c || inRange 0x2C00 0x2FEF c || inRange 0x3001 0xD7FF c ||
  inRange 0xF900 0xFDCF c || inRange 0xFDF0 0xFFFD c || inRange 0x10000 0xEFFFF c

def isNameStart (c : Char) : Bool :=
  isNameBase c || c == '_'

def isNameChar (c : Char) : Bool :=
  isNameStart c || c == '-' || c.isDigit || c.toNat == 0xB7 || inRange 0x300 0x36F c ||
  inRange 0x203F 0x2040 c

/-- Name characters at the end of a plane: the specials of the first plane, and the last two
characters of each later one. -/
def isSpecial (c : Char) : Bool :=
  inRange 0xFFF0 0xFFFD c ||
    inRange 0x10000 0xEFFFF c && 0xFFFC ≤ c.toNat % 0x10000 && c.toNat % 0x10000 ≤ 0xFFFD

/-- The marks that a backslash turns into characters of a local name. -/
def isLocalEscape (c : Char) : Bool :=
  "_~.-!$&'()*+,;=/?#@%".toList.contains c

def isSpace (c : Char) : Bool :=
  c == ' ' || c == '\t' || c == '\r' || c == '\n'

end RmlAlgebra.Turtle
