import RmlAlgebra.Iri.Reference

/-! # Resolving a reference against a base

A reference with a scheme or an authority keeps its path as it is. Any other path is followed from
the place where the base stands: `.` stays there and `..` goes up one segment. The path of the base
itself is taken as it is, so dot segments in it are names like any other.
-/

namespace RmlAlgebra.Iri

/-- The segments of a path that end in a slash, each with its slash, the last one first. -/
def folders (path : List Char) : List (List Char) :=
  ((Text.pieces ['/'] path).dropLast.map (· ++ ['/'])).reverse

/-- One segment up. There is nothing above the root of an authority. -/
def goUp (rooted : Bool) : List (List Char) → List (List Char)
  | [] => []
  | [root] => if rooted then [root] else []
  | _ :: above => above

/-- Follow segments from a folder on. Without an authority the way must not lead through a path with
two slashes at its start. -/
def followSegments (rooted : Bool) (place : List (List Char)) :
    List (List Char) → Option (List Char)
  | [] => some place.reverse.flatten
  | [last] =>
      if last == ['.'] then some place.reverse.flatten
      else if last == ['.', '.'] then some (goUp rooted place).reverse.flatten
      else some (place.reverse.flatten ++ last)
  | segment :: others =>
      if segment == ['.'] then followSegments rooted place others
      else if segment == ['.', '.'] then followSegments rooted (goUp rooted place) others
      else if !rooted && segment.isEmpty && place == [['/']] then none
      else followSegments rooted ((segment ++ ['/']) :: place) others

def baseFolder (base : Reference) : List (List Char) :=
  if base.authority.isSome && base.path.isEmpty then [['/']] else folders base.path

def followPath (base : Reference) (path : List Char) : Option (List Char) :=
  match path with
  | '/' :: path => followSegments base.authority.isSome [['/']] (Text.pieces ['/'] path)
  | path => followSegments base.authority.isSome (baseFolder base) (Text.pieces ['/'] path)

def target (base r : Reference) : Option Reference :=
  if r.authority.isSome then some { r with scheme := base.scheme }
  else if r.path.isEmpty then
    some { base with query := r.query <|> base.query, fragment := r.fragment }
  else
    (followPath base r.path).map fun path =>
      { base with path := path, query := r.query, fragment := r.fragment }

/-- Whether a text has a colon before any slash, question mark or number sign. -/
def hasEarlyColon (text : List Char) : Bool :=
  (text.takeWhile fun c => c != '/' && c != '?' && c != '#').contains ':'

/-- The IRI that a reference stands for, if there is one. A reference without scheme has no colon in
its first segment. -/
def resolve? (base reference : List Char) : Option (List Char) :=
  let r := Reference.ofChars reference
  if !r.isValid then none
  else if r.scheme.isSome then some reference
  else if hasEarlyColon reference then none
  else do
    let t ← target (Reference.ofChars base) r
    if t.isValid then return t.toChars else none

end RmlAlgebra.Iri
