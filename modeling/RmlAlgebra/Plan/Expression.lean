import RmlAlgebra.Plan.TermMap
import RmlAlgebra.Text.Order

/-! # Relational algebra expressions

An expression makes the terms of RDF statements from the rows of a relation, which is one source
or a join of two, each reduced to the attributes that are read.
-/

namespace RmlAlgebra

/-- A source reduced to some of its attributes, in increasing order. -/
structure Projection where
  attributes : List String
  source : String
  deriving DecidableEq, Repr

namespace Projection

/-- Reduce a source to the attributes that the given term maps and columns need. -/
def reading (terms : List TermMap) (columns : List String) (source : String) : Projection :=
  ⟨Text.sortedSet (terms.flatMap TermMap.references ++ columns), source⟩

def render (p : Projection) : String :=
  "pi[" ++ ",".intercalate p.attributes ++ "](" ++ p.source ++ ")"

end Projection

structure JoinColumns where
  child : String
  parent : String
  deriving DecidableEq, Repr

inductive Relation where
  | source (rows : Projection)
  /-- A join on a pair of columns, or else on what the two sides have in common. -/
  | join (child parent : Projection) (columns : Option JoinColumns)
  deriving DecidableEq, Repr

namespace Relation

def child : Relation → Projection
  | source rows => rows
  | join child _ _ => child

/-- The condition of a join. Columns are named by their source. -/
def condition (child parent : Projection) (columns : JoinColumns) : String :=
  child.source ++ "_" ++ columns.child ++ "=" ++ parent.source ++ "_" ++ columns.parent

def render : Relation → String
  | source rows => rows.render
  | join child parent none => "(" ++ child.render ++ ") bowtie (" ++ parent.render ++ ")"
  | join child parent (some columns) =>
      "(" ++ child.render ++ ") bowtie [" ++ condition child parent columns ++ "] (" ++
        parent.render ++ ")"

/-- What stands before the graph of an expression. Over a single source a blank follows the
comma. -/
def graphMark : Relation → String
  | source _ => ", "
  | join _ _ _ => ","

end Relation

/-- How statements are made from a relation. Without a graph they go to the default graph. -/
structure Expression where
  subject : TermMap
  predicate : TermMap
  object : ObjectMap
  graph : Option TermMap
  relation : Relation
  deriving DecidableEq, Repr

namespace Expression

def create (term column : String) : String :=
  "create(" ++ term ++ ") -> " ++ column

def columns (e : Expression) : String :=
  create e.subject.render "S" ++ "," ++ create e.predicate.render "P" ++ "," ++
    create e.object.render "O" ++
      e.graph.elim "" fun g => e.relation.graphMark ++ create g.render "G"

def render (e : Expression) : String :=
  "pi[" ++ e.columns ++ "](" ++ e.relation.render ++ ")"

end Expression

end RmlAlgebra
