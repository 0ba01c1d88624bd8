import RmlAlgebra.Template

/-! # Term maps

A term map says how a term of the output is made from a row: it is always the same, or taken from
one attribute, or put together from a template.
-/

namespace RmlAlgebra

inductive TermMap.Kind where
  | constant
  | reference
  | template
  deriving DecidableEq, Repr

def TermMap.Kind.name : TermMap.Kind → String
  | constant => "constant"
  | reference => "reference"
  | template => "template"

inductive TermType where
  | iri
  | blankNode
  | literal
  deriving DecidableEq, Repr

def TermType.name : TermType → String
  | iri => "iri"
  | blankNode => "blanknode"
  | literal => "literal"

/-- A term map. One without a kind has no value and makes nothing. -/
structure TermMap where
  value : String
  kind : Option TermMap.Kind
  type : TermType
  deriving DecidableEq, Repr

namespace TermMap

def references (t : TermMap) : List String :=
  match t.kind with
  | some .template => Template.references t.value
  | some .reference => [t.value]
  | _ => []

def qualify (qualifier : String) (t : TermMap) : TermMap :=
  match t.kind with
  | some .template => { t with value := Template.qualify qualifier t.value }
  | some .reference => { t with value := qualifier ++ "_" ++ t.value }
  | _ => t

def render (t : TermMap) : String :=
  t.value ++ "," ++ t.kind.elim "" Kind.name ++ "," ++ t.type.name

end TermMap

/-- A term map for objects, where literals may have a language and a datatype. -/
structure ObjectMap where
  term : TermMap
  language : Option String
  datatype : Option String
  deriving DecidableEq, Repr

def ObjectMap.render (o : ObjectMap) : String :=
  o.term.render ++ "," ++ o.language.getD "None" ++ "," ++ o.datatype.getD "None"

end RmlAlgebra
