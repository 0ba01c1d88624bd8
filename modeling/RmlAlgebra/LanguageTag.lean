import RmlAlgebra.Text.Split

/-! # Language tags

Well-formed tags in the sense of RFC 5646: a language, then script, region and variants in this
order, then extensions and private use. Whether the subtags are registered does not matter.
-/

namespace RmlAlgebra.LanguageTag

/-- The tags that were registered before the grammar and do not follow it. -/
def grandfathered : List String :=
  ["art-lojban", "cel-gaulish", "en-gb-oed", "i-ami", "i-bnn", "i-default", "i-enochian", "i-hak",
    "i-klingon", "i-lux", "i-mingo", "i-navajo", "i-pwn", "i-tao", "i-tay", "i-tsu", "no-bok",
    "no-nyn", "sgn-be-fr", "sgn-be-nl", "sgn-ch-de", "zh-guoyu", "zh-hakka", "zh-min",
    "zh-min-nan", "zh-xiang"]

/-- The earliest kind of subtag that may come next. An extension or private use that was only
announced is `pending`. -/
inductive Stage where
  | extended (left : Nat)
  | script
  | region
  | variant
  | extension (pending : Bool)
  | privateUse (pending : Bool)
  deriving DecidableEq

namespace Stage

def isPending : Stage → Bool
  | extension pending => pending
  | privateUse pending => pending
  | _ => false

def allowsScript : Stage → Bool
  | extended _ => true
  | script => true
  | _ => false

def allowsRegion : Stage → Bool
  | region => true
  | stage => stage.allowsScript

/-- The stage after a subtag of a language, script, region or variant. -/
def afterPlain? (stage : Stage) (subtag : List Char) : Option Stage :=
  if stage.allowsScript && subtag.length == 4 && subtag.all Char.isAlpha then some region
  else if stage.allowsRegion &&
      (subtag.length == 2 && subtag.all Char.isAlpha ||
        subtag.length == 3 && subtag.all Char.isDigit) then some variant
  else if 5 ≤ subtag.length || subtag.length == 4 && (subtag.take 1).all Char.isDigit then
    some variant
  else none

/-- The stage after one more subtag of one to eight letters or digits. -/
def after? (stage : Stage) (subtag : List Char) : Option Stage :=
  match stage, subtag with
  | privateUse _, _ => some (privateUse false)
  | stage, [single] =>
      if stage.isPending then none
      else if single.toLower == 'x' then some (privateUse true)
      else some (extension true)
  | extension _, _ => some (extension false)
  | extended left, subtag =>
      if subtag.length == 3 && subtag.all Char.isAlpha then
        if left == 0 then none else some (extended (left - 1))
      else afterPlain? (extended left) subtag
  | stage, subtag => afterPlain? stage subtag

end Stage

def isSubtag (subtag : List Char) : Bool :=
  !subtag.isEmpty && subtag.length ≤ 8 && subtag.all Char.isAlphanum

def isTail (stage : Stage) : List (List Char) → Bool
  | [] => !stage.isPending
  | subtag :: others =>
      isSubtag subtag &&
        match stage.after? subtag with
        | some next => isTail next others
        | none => false

/-- Whether a tag starts with a language. Only a short language takes extended ones. -/
def isPlain : List (List Char) → Bool
  | [] => false
  | language :: others =>
      isSubtag language && 2 ≤ language.length && language.all Char.isAlpha &&
        isTail (if language.length ≤ 3 then .extended 3 else .script) others

def isPrivate : List (List Char) → Bool
  | [single] :: next :: others => single.toLower == 'x' && (next :: others).all isSubtag
  | _ => false

def isWellFormed (tag : List Char) : Bool :=
  let subtags := Text.pieces ['-'] tag
  grandfathered.contains (String.ofList (tag.map Char.toLower)) || isPrivate subtags ||
    isPlain subtags

end RmlAlgebra.LanguageTag
