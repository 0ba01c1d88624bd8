import RmlAlgebra.Iri.Host

/-! # IRI references

A reference is taken apart into its five components as RFC 3986 does it, and is valid if each
component holds what RFC 3987 allows there.
-/

namespace RmlAlgebra.Iri

structure Reference where
  scheme : Option (List Char)
  authority : Option (List Char)
  path : List Char
  query : Option (List Char)
  fragment : Option (List Char)
  deriving DecidableEq, Repr

def scheme? (text : List Char) : Option (List Char × List Char) :=
  match text with
  | [] => none
  | c :: _ =>
      if c.isAlpha then
        match text.dropWhile isSchemeChar with
        | ':' :: rest => some (text.takeWhile isSchemeChar, rest)
        | _ => none
      else none

def splitAt (mark : Char) (text : List Char) : List Char × Option (List Char) :=
  match text.dropWhile (· != mark) with
  | [] => (text, none)
  | _ :: rest => (text.takeWhile (· != mark), some rest)

theorem splitAt_append (mark : Char) (text : List Char) :
    (splitAt mark text).1 ++ ((splitAt mark text).2.elim [] (mark :: ·)) = text := by
  unfold splitAt
  split
  · simp
  · next c rest h =>
      have hc : (c != mark) = false := by
        have := List.head?_dropWhile_not (· != mark) text
        rw [h] at this
        simpa using this
      have hc : c = mark := by simpa using hc
      subst hc
      simpa [h] using List.takeWhile_append_dropWhile (p := (· != c)) (l := text)

namespace Reference

def ofRelative (scheme : Option (List Char)) (text : List Char) : Reference :=
  let (text, fragment) := splitAt '#' text
  let (text, query) := splitAt '?' text
  match text with
  | '/' :: '/' :: rest =>
      ⟨scheme, some (rest.takeWhile (· != '/')), rest.dropWhile (· != '/'), query, fragment⟩
  | path => ⟨scheme, none, path, query, fragment⟩

def ofChars (text : List Char) : Reference :=
  match scheme? text with
  | some (scheme, rest) => ofRelative (some scheme) rest
  | none => ofRelative none text

def toChars (r : Reference) : List Char :=
  r.scheme.elim [] (· ++ [':']) ++ r.authority.elim [] ('/' :: '/' :: ·) ++ r.path ++
    r.query.elim [] ('?' :: ·) ++ r.fragment.elim [] ('#' :: ·)

/-- Whether every component is made of what it may hold. Without an authority a path does not
start with two slashes, because these would introduce one. -/
def isValid (r : Reference) : Bool :=
  r.authority.all isAuthority && isEncoded isPathChar r.path &&
    (r.authority.isSome || !List.isPrefixOf ['/', '/'] r.path) &&
    r.query.all (isEncoded isQueryChar) && r.fragment.all (isEncoded isFragmentChar)

end Reference

/-- Whether a text is an IRI: a valid reference with a scheme. -/
def isIri (text : List Char) : Bool :=
  let r := Reference.ofChars text
  r.scheme.isSome && r.isValid

end RmlAlgebra.Iri
