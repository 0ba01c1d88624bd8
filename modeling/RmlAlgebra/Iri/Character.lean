/-! # Characters of an IRI

The character classes of RFC 3987, and texts over such a class in which a percent sign introduces
two hexadecimal digits.
-/

namespace RmlAlgebra.Iri

def isHexDigit (c : Char) : Bool :=
  c.isDigit || ('a' ≤ c && c ≤ 'f') || ('A' ≤ c && c ≤ 'F')

def inRange (low high : Nat) (c : Char) : Bool :=
  low ≤ c.toNat && c.toNat ≤ high

/-- Characters beyond ASCII that may stand anywhere in an IRI. In each plane from the first on, the
last two code points are left out; in the plane of tags, its first 4096 as well. -/
def isUniversal (c : Char) : Bool :=
  inRange 0xA0 0xD7FF c || inRange 0xF900 0xFDCF c || inRange 0xFDF0 0xFFEF c ||
  (inRange 0x10000 0xEFFFD c && c.toNat % 0x10000 ≤ 0xFFFD && !inRange 0xE0000 0xE0FFF c)

/-- Characters for private use, which only a query may hold. -/
def isPrivate (c : Char) : Bool :=
  inRange 0xE000 0xF8FF c || inRange 0xF0000 0xFFFFD c || inRange 0x100000 0x10FFFD c

def isUnreserved (c : Char) : Bool :=
  c.isAlphanum || c == '-' || c == '.' || c == '_' || c == '~' || isUniversal c

def isSubDelimiter (c : Char) : Bool :=
  "!$&'()*+,;=".toList.contains c

def isHostChar (c : Char) : Bool :=
  isUnreserved c || isSubDelimiter c

def isUserChar (c : Char) : Bool :=
  isHostChar c || c == ':'

def isPathChar (c : Char) : Bool :=
  isHostChar c || c == ':' || c == '@' || c == '/'

def isFragmentChar (c : Char) : Bool :=
  isPathChar c || c == '?'

def isQueryChar (c : Char) : Bool :=
  isFragmentChar c || isPrivate c

def isSchemeChar (c : Char) : Bool :=
  c.isAlphanum || c == '+' || c == '-' || c == '.'

/-- Whether a text consists of allowed characters and percent-encoded bytes. -/
def isEncoded (allowed : Char → Bool) : List Char → Bool
  | [] => true
  | '%' :: high :: low :: cs => isHexDigit high && isHexDigit low && isEncoded allowed cs
  | c :: cs => c != '%' && allowed c && isEncoded allowed cs

end RmlAlgebra.Iri
