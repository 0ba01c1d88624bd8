import RmlAlgebra.Iri.Character
import RmlAlgebra.Text.Decimal
import RmlAlgebra.Text.Split

/-! # Authorities

An authority is a host, perhaps with user information before it and a port after it. A host is a
registered name or an address in brackets.
-/

namespace RmlAlgebra.Iri

def isOctet (digits : List Char) : Bool :=
  Text.isNumeral digits && Text.decimalValue digits ≤ 255 &&
    (digits.length == 1 || digits.head? != some '0')

def isAddress4 (text : List Char) : Bool :=
  let octets := Text.pieces ['.'] text
  octets.length == 4 && octets.all isOctet

def isGroup (text : List Char) : Bool :=
  !text.isEmpty && text.length ≤ 4 && text.all isHexDigit

/-- How many groups of sixteen bits a list of groups denotes. The last one may be four octets,
where that is allowed, and counts as two. -/
def groupCount? (octetsAllowed : Bool) : List (List Char) → Option Nat
  | [] => some 0
  | [last] =>
      if isGroup last then some 1
      else if octetsAllowed && isAddress4 last then some 2
      else none
  | group :: others =>
      if isGroup group then (groupCount? octetsAllowed others).map (· + 1) else none

def groups (text : List Char) : List (List Char) :=
  if text.isEmpty then [] else Text.pieces [':'] text

/-- Eight groups, or fewer on the two sides of a double colon. -/
def isAddress6 (text : List Char) : Bool :=
  match Text.cut? [':', ':'] text with
  | none => groupCount? true (groups text) == some 8
  | some (left, right) =>
      match groupCount? false (groups left), groupCount? true (groups right) with
      | some before, some after => before + after ≤ 7
      | _, _ => false

/-- An address of a later version: `v`, its number, a dot and ASCII characters. -/
def isFutureAddress : List Char → Bool
  | v :: text =>
      match Text.cut? ['.'] text with
      | some (version, address) =>
          (v == 'v' || v == 'V') && !version.isEmpty && version.all isHexDigit &&
            !address.isEmpty && address.all fun c => isUserChar c && c.toNat < 0x80
      | none => false
  | [] => false

/-- Nothing, or a colon and a possibly empty run of digits. -/
def isPortPart : List Char → Bool
  | [] => true
  | c :: digits => c == ':' && digits.all Char.isDigit

def isHostPart : List Char → Bool
  | '[' :: text =>
      match Text.cut? [']'] text with
      | some (address, port) => (isAddress6 address || isFutureAddress address) && isPortPart port
      | none => false
  | text =>
      isEncoded isHostChar (text.takeWhile (· != ':')) && isPortPart (text.dropWhile (· != ':'))

def isAuthority (text : List Char) : Bool :=
  match Text.cut? ['@'] text with
  | some (user, host) => isEncoded isUserChar user && isHostPart host
  | none => isHostPart text

end RmlAlgebra.Iri
