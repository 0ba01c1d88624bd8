import RmlAlgebra.LanguageTag
import RmlAlgebra.Turtle.Character
import RmlAlgebra.Turtle.Quoted

/-! # Tokens

A token is the longest text of its class. A dot at the end of a name or number is not part of it.
Where the input ends, a token that could go on is complete, except labels and tags: only a character
that cannot belong to them shows their end. The same holds for two quotes, which may open a long
string. A local name with an escape loses what follows the escape when the input ends in it.
-/

namespace RmlAlgebra.Turtle

inductive Token where
  /-- An IRI reference, escapes replaced. -/
  | reference (text : List Char)
  /-- A prefixed name. `checked` tells that the local part holds characters which may not fit
  where the namespace puts them. -/
  | name (space localPart : List Char) (checked : Bool)
  | label (text : List Char)
  | string (value : List Char)
  | numeral (text : List Char)
  | tag (text : List Char)
  | word (text : List Char)
  | datatypeMark
  | dot
  | comma
  | semicolon
  | openBracket
  | closeBracket
  | openParen
  | closeParen
  /-- Text that starts no token of the language, or a token without an end. -/
  | malformed
  deriving DecidableEq, Repr

/-- The input after white space and comments. -/
def skipSpace (inComment : Bool) : List Char → List Char
  | [] => []
  | c :: cs =>
      if inComment then skipSpace (c != '\n' && c != '\r') cs
      else if isSpace c then skipSpace false cs
      else if c == '#' then skipSpace true cs
      else c :: cs

/-- Split a run of characters off, leaving dots at its end to the rest. -/
def readRun (member : Char → Bool) (text : List Char) : List Char × List Char :=
  let run := text.takeWhile fun c => member c || c == '.'
  let rest := text.dropWhile fun c => member c || c == '.'
  ((run.reverse.dropWhile (· == '.')).reverse, run.reverse.takeWhile (· == '.') ++ rest)

/-- The exponent of a number with its mark, if there is one. -/
def readExponent? : List Char → Option (List Char × List Char)
  | mark :: cs =>
      let (sign, digits) :=
        match cs with
        | '+' :: ds => (['+'], ds)
        | '-' :: ds => (['-'], ds)
        | ds => ([], ds)
      if digits.head?.any Char.isDigit then
        some (mark :: sign ++ digits.takeWhile Char.isDigit, digits.dropWhile Char.isDigit)
      else none
  | [] => none

/-- The rest of a number after its digits. An exponent mark must introduce an exponent. -/
def finishNumeral (text rest : List Char) : Option (Token × List Char) :=
  if rest.head?.any fun c => c == 'e' || c == 'E' then
    (readExponent? rest).map fun (exponent, rest) => (.numeral (text ++ exponent), rest)
  else some (.numeral text, rest)

def readUnsigned (sign text : List Char) : Option (Token × List Char) :=
  let whole := text.takeWhile Char.isDigit
  match text.dropWhile Char.isDigit with
  | '.' :: afterDot =>
      let fraction := afterDot.takeWhile Char.isDigit
      let rest := afterDot.dropWhile Char.isDigit
      if whole.isEmpty && fraction.isEmpty then none
      else if fraction.isEmpty && !(rest.head?.any fun c => c == 'e' || c == 'E') then
        some (.numeral (sign ++ whole), '.' :: afterDot)
      else finishNumeral (sign ++ whole ++ '.' :: fraction) rest
  | rest => if whole.isEmpty then none else finishNumeral (sign ++ whole) rest

def readNumeral : List Char → Option (Token × List Char)
  | '+' :: text => readUnsigned ['+'] text
  | '-' :: text => readUnsigned ['-'] text
  | text => readUnsigned [] text

/-- A character of a local part, plain or behind a backslash. -/
structure LocalChar where
  value : Char
  escaped : Bool
  deriving DecidableEq, Repr

namespace LocalChar

def isPlainDot (c : LocalChar) : Bool :=
  !c.escaped && c.value == '.'

/-- Whether a character makes a check of the whole name necessary. -/
def isDoubtful (c : LocalChar) : Bool :=
  if c.escaped then "/?#@%".toList.contains c.value
  else c.value == ':' || isSpecial c.value

end LocalChar

/-- The characters that a local part may go on with, and the rest. Percent escapes are kept. -/
def readLocalChars : List Char → Option (List LocalChar × List Char)
  | [] => some ([], [])
  | '%' :: high :: low :: cs =>
      if Iri.isHexDigit high && Iri.isHexDigit low then
        (readLocalChars cs).map fun (run, rest) =>
          (⟨'%', false⟩ :: ⟨high, false⟩ :: ⟨low, false⟩ :: run, rest)
      else none
  | '\\' :: c :: cs =>
      if isLocalEscape c then
        (readLocalChars cs).map fun (run, rest) => (⟨c, true⟩ :: run, rest)
      else none
  | c :: cs =>
      if c == '%' || c == '\\' then none
      else if isNameChar c || c == ':' || c == '.' then
        (readLocalChars cs).map fun (run, rest) => (⟨c, false⟩ :: run, rest)
      else some ([], c :: cs)

/-- The end of a text that takes exactly `size` bytes, if characters are not cut. -/
def lastBytes? (size : Nat) (text : List Char) : Option (List Char) :=
  match size, text with
  | 0, _ => some []
  | _, [] => none
  | size, c :: cs =>
      if (cs.map Char.utf8Size).sum + c.utf8Size == size then some (c :: cs)
      else lastBytes? size cs

/-- The text of a local part that another token follows. Plain dots at its end are left to the
rest. -/
def closeLocal (run : List LocalChar) (rest : List Char) : List Char × List Char :=
  let kept := (run.reverse.dropWhile LocalChar.isPlainDot).reverse
  (kept.map LocalChar.value, (run.drop kept.length).map LocalChar.value ++ rest)

/-- The text of a local part with an escape that the end of the document cuts short. It goes up to
the last escape, without any dots at its end, and for each of these dots one byte of the document is
left to the rest. -/
def cutLocal? (run : List LocalChar) (source : List Char) : Option (List Char × List Char) :=
  let head := (run.reverse.dropWhile (!·.escaped)).map LocalChar.value
  let dots := head.takeWhile (· == '.')
  (lastBytes? dots.length source).map fun rest => ((head.drop dots.length).reverse, rest)

/-- The possibly empty local part of a prefixed name, whether it needs a check, and the rest. -/
def readLocal (text : List Char) : Option (List Char × Bool × List Char) :=
  if text.head?.any fun c => isNameStart c || c.isDigit || c == ':' || c == '%' || c == '\\' then do
    let (run, rest) ← readLocalChars text
    let (value, rest) ←
      if rest.isEmpty && run.any LocalChar.escaped then cutLocal? run text
      else some (closeLocal run rest)
    return (value, run.any LocalChar.isDoubtful, rest)
  else some ([], false, text)

def readName (text : List Char) : Option (Token × List Char) :=
  let isInner := fun c => isNameChar c || c == '.'
  let space := text.takeWhile isInner
  if text.head?.any fun c => isNameBase c || c == ':' then
    match text.dropWhile isInner with
    | ':' :: afterColon =>
        if space.getLast? == some '.' then none
        else (readLocal afterColon).map fun (localPart, checked, rest) =>
          (.name space localPart checked, rest)
    | _ =>
        let (word, rest) := readRun isNameChar text
        some (.word word, rest)
  else none

/-- The characters of a label and the rest. A dot belongs to a label only if a name character stands
on either side of it. -/
def readLabelChars : List Char → Option (List Char × List Char)
  | [] => none
  | c :: cs =>
      if isNameChar c || c == '.' && cs.head?.any isNameChar then
        (readLabelChars cs).map fun (text, rest) => (c :: text, rest)
      else if c == '.' && cs.isEmpty then none
      else some ([], c :: cs)

/-- A blank node label after `_:`. It starts with a letter, an underscore or a digit. -/
def readLabel (text : List Char) : Option (Token × List Char) :=
  if text.head?.any fun c => isNameStart c || c.isDigit then
    (readLabelChars text).map fun (label, rest) => (.label label, rest)
  else none

/-- The characters of a language tag and what follows it. A tag is made of letters, with single
hyphens between them. -/
def readTagChars : List Char → Option (List Char × List Char)
  | [] => none
  | c :: cs =>
      if c.isAlpha || c == '-' && cs.head?.any Char.isAlpha then
        (readTagChars cs).map fun (text, rest) => (c :: text, rest)
      else if c == '-' && cs.isEmpty then none
      else some ([], c :: cs)

def readTag (text : List Char) : Option (Token × List Char) :=
  if text.head?.any Char.isAlpha then do
    let (tag, rest) ← readTagChars text
    if LanguageTag.isWellFormed tag then return (.tag tag, rest) else none
  else none

def readString (quote : Char) (text : List Char) : Option (Token × List Char) :=
  let string := fun (value, rest) => (Token.string value, rest)
  match text with
  | c :: d :: rest =>
      if c == quote then
        if d == quote then (readQuoted (.long quote) .nothing rest).map string
        else some (.string [], d :: rest)
      else (readQuoted (.short quote) .nothing text).map string
  | _ => none

def readToken (c : Char) (cs : List Char) : Option (Token × List Char) :=
  match c with
  | '<' =>
      if cs.head? == some '<' then none
      else (readQuoted .iri .nothing cs).map fun (text, rest) => (.reference text, rest)
  | '"' => readString '"' cs
  | '\x27' => readString '\x27' cs
  | '@' => readTag cs
  | '_' => if cs.head? == some ':' then readLabel cs.tail else none
  | '.' => if cs.head?.any Char.isDigit then readNumeral (c :: cs) else some (.dot, cs)
  | '^' => if cs.head? == some '^' then some (.datatypeMark, cs.tail) else none
  | ',' => some (.comma, cs)
  | ';' => some (.semicolon, cs)
  | '[' => some (.openBracket, cs)
  | ']' => some (.closeBracket, cs)
  | '(' => some (.openParen, cs)
  | ')' => some (.closeParen, cs)
  | _ =>
      if c.isDigit || c == '+' || c == '-' then readNumeral (c :: cs) else readName (c :: cs)

def tokensWithin : Nat → List Char → List Token
  | 0, _ => [.malformed]
  | fuel + 1, text =>
      match skipSpace false text with
      | [] => []
      | c :: cs =>
          match readToken c cs with
          | none => [.malformed]
          | some (token, rest) => token :: tokensWithin fuel rest

/-- The tokens of a document. A malformed token is the last one. Every other token takes at least
one character, so the length of the document bounds their number. -/
def tokens (document : List Char) : List Token :=
  tokensWithin (document.length + 1) document

end RmlAlgebra.Turtle
