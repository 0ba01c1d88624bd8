import RmlAlgebra.Iri.Resolve
import RmlAlgebra.Statement
import RmlAlgebra.Turtle.Token
import RmlAlgebra.Vocabulary

/-! # Statements from tokens

A push-down machine reads one token after the other. Its stack says what the unfinished statement
still waits for, next expectation first; between statements it is empty. Each token completes any
number of RDF statements.

An expectation may leave the token to the one below it. Recursion goes down the stack, so a token
is always consumed or refused.
-/

namespace RmlAlgebra.Turtle

inductive Expectation where
  /-- The dot that ends a statement. -/
  | dot
  | baseIri
  | namespaceName
  | namespaceIri (name : List Char)
  /-- What follows the bracket that opens a subject. -/
  | subjectProperties
  /-- The bracket that closes the properties of a subject. -/
  | subjectBracket (subject : Node)
  /-- Further properties of such a subject, or the end. -/
  | subjectTail (subject : Node)
  /-- What follows the parenthesis that opens a subject. -/
  | subjectCollection
  /-- The next element of a collection that is a subject, or its end. -/
  | subjectCell (head cell : Node)
  | verb (subject : Node)
  /-- What follows a semicolon. -/
  | nextVerb (subject : Node)
  | object (subject : Node) (predicate : String)
  /-- What follows an object. -/
  | nextObject (subject : Node) (predicate : String)
  | objectProperties (subject : Node) (predicate : String)
  | objectBracket (subject : Node) (predicate : String) (node : Node)
  | objectCollection (subject : Node) (predicate : String)
  | objectCell (cell : Node)
  /-- What follows a string: it may still get a language or a datatype. -/
  | suffix (subject : Node) (predicate : String) (value : List Char)
  | datatype (subject : Node) (predicate : String) (value : List Char)
  deriving DecidableEq, Repr

/-- What earlier statements have fixed: the base, the namespaces, latest first, and how many
anonymous nodes there are. -/
structure Scope where
  base : List Char
  namespaces : List (List Char × List Char)
  anonymous : Nat
  deriving DecidableEq, Repr

namespace Scope

def iri? (scope : Scope) (reference : List Char) : Option String :=
  (Iri.resolve? scope.base reference).map String.ofList

/-- The IRI of a prefixed name. It is looked at as a whole if the local part asks for it, or if it
may become part of an authority because the namespace has no path. -/
def name? (scope : Scope) (space localPart : List Char) (checked : Bool) : Option String := do
  let start ← scope.namespaces.lookup space
  let text := start ++ localPart
  if (checked || (Iri.Reference.ofChars start).path.isEmpty) && !Iri.isIri text then none
  else return String.ofList text

def tokenIri? (scope : Scope) : Token → Option String
  | .reference text => scope.iri? text
  | .name space localPart checked => scope.name? space localPart checked
  | _ => none

def newNode (scope : Scope) : Node × Scope :=
  (.blank (.anonymous scope.anonymous), { scope with anonymous := scope.anonymous + 1 })

end Scope

/-- What one token leads to: the new stack, the new scope, and the statements it has completed in
the order of completion. -/
structure Progress where
  stack : List Expectation
  scope : Scope
  completed : List Statement
  deriving DecidableEq, Repr

namespace Progress

def wait (stack : List Expectation) (scope : Scope) : Progress :=
  ⟨stack, scope, []⟩

def complete (stack : List Expectation) (scope : Scope) (statement : Statement) : Progress :=
  ⟨stack, scope, [statement]⟩

/-- Complete one more statement before all others. -/
def after (statement : Statement) (p : Progress) : Progress :=
  { p with completed := statement :: p.completed }

end Progress

/-- The node that a token names: an IRI or a labelled blank node. -/
def tokenNode? (scope : Scope) : Token → Option Node
  | .label text => some (.blank (.named (String.ofList text)))
  | token => (scope.tokenIri? token).map .iri

def readVerb (subject : Node) (token : Token) (scope : Scope) (below : List Expectation) :
    Option Progress := do
  let predicate ← if token == .word ['a'] then some Rdf.type else scope.tokenIri? token
  return .wait (.object subject predicate :: .nextObject subject predicate :: below) scope

/-- Read a token as an object or as the start of one. -/
def readObject (subject : Node) (predicate : String) (token : Token) (scope : Scope)
    (below : List Expectation) : Option Progress :=
  match token with
  | .string value => some (.wait (.suffix subject predicate value :: below) scope)
  | .openBracket => some (.wait (.objectProperties subject predicate :: below) scope)
  | .openParen => some (.wait (.objectCollection subject predicate :: below) scope)
  | .numeral text =>
      some (.complete below scope ⟨subject, predicate, .literal (String.ofList text)⟩)
  | .word text =>
      if text == "true".toList || text == "false".toList then
        some (.complete below scope ⟨subject, predicate, .literal (String.ofList text)⟩)
      else none
  | token => do
      let node ← tokenNode? scope token
      return .complete below scope ⟨subject, predicate, .node node⟩

/-- Read a token as the start of a directive or of a statement. -/
def readStart (token : Token) (scope : Scope) : Option Progress :=
  match token with
  | .tag text =>
      if text == "prefix".toList then some (.wait [.namespaceName, .dot] scope)
      else if text == "base".toList then some (.wait [.baseIri, .dot] scope)
      else none
  | .word text =>
      if text.map Char.toLower == "prefix".toList then some (.wait [.namespaceName] scope)
      else if text.map Char.toLower == "base".toList then some (.wait [.baseIri] scope)
      else none
  | .openBracket => some (.wait [.subjectProperties, .dot] scope)
  | .openParen => some (.wait [.subjectCollection, .dot] scope)
  | token => do
      let subject ← tokenNode? scope token
      return .wait [.verb subject, .dot] scope

def advance (token : Token) (scope : Scope) : List Expectation → Option Progress
  | [] => readStart token scope
  | .dot :: below => if token == .dot then some (.wait below scope) else none
  | .baseIri :: below =>
      match token with
      | .reference text => do
          let iri ← Iri.resolve? scope.base text
          return .wait below { scope with base := iri }
      | _ => none
  | .namespaceName :: below =>
      match token with
      | .name space [] _ => some (.wait (.namespaceIri space :: below) scope)
      | _ => none
  | .namespaceIri name :: below =>
      match token with
      | .reference text => do
          let iri ← Iri.resolve? scope.base text
          return .wait below { scope with namespaces := (name, iri) :: scope.namespaces }
      | _ => none
  | .subjectProperties :: below =>
      let (node, scope) := scope.newNode
      if token == .closeBracket then some (.wait (.verb node :: below) scope)
      else readVerb node token scope (.subjectBracket node :: below)
  | .subjectBracket subject :: below =>
      if token == .closeBracket then some (.wait (.subjectTail subject :: below) scope) else none
  | .subjectTail subject :: below =>
      if token == .dot then advance token scope below else readVerb subject token scope below
  | .subjectCollection :: below =>
      if token == .closeParen then some (.wait (.verb (.iri Rdf.nil) :: below) scope)
      else
        let (head, scope) := scope.newNode
        readObject head Rdf.first token scope (.subjectCell head head :: below)
  | .subjectCell head cell :: below =>
      if token == .closeParen then
        some (.complete (.verb head :: below) scope ⟨cell, Rdf.rest, .node (.iri Rdf.nil)⟩)
      else
        let (next, scope) := scope.newNode
        (readObject next Rdf.first token scope (.subjectCell head next :: below)).map
          (.after ⟨cell, Rdf.rest, .node next⟩)
  | .verb subject :: below => readVerb subject token scope below
  | .nextVerb subject :: below =>
      match token with
      | .semicolon => some (.wait (.nextVerb subject :: below) scope)
      | .dot | .closeBracket => advance token scope below
      | token => readVerb subject token scope below
  | .object subject predicate :: below => readObject subject predicate token scope below
  | .nextObject subject predicate :: below =>
      match token with
      | .comma =>
          some (.wait (.object subject predicate :: .nextObject subject predicate :: below) scope)
      | .semicolon => some (.wait (.nextVerb subject :: below) scope)
      | token => advance token scope below
  | .objectProperties subject predicate :: below =>
      let (node, scope) := scope.newNode
      if token == .closeBracket then
        some (.complete below scope ⟨subject, predicate, .node node⟩)
      else readVerb node token scope (.objectBracket subject predicate node :: below)
  | .objectBracket subject predicate node :: below =>
      if token == .closeBracket then
        some (.complete below scope ⟨subject, predicate, .node node⟩)
      else none
  | .objectCollection subject predicate :: below =>
      if token == .closeParen then
        some (.complete below scope ⟨subject, predicate, .node (.iri Rdf.nil)⟩)
      else
        let (head, scope) := scope.newNode
        (readObject head Rdf.first token scope (.objectCell head :: below)).map
          (.after ⟨subject, predicate, .node head⟩)
  | .objectCell cell :: below =>
      if token == .closeParen then
        some (.complete below scope ⟨cell, Rdf.rest, .node (.iri Rdf.nil)⟩)
      else
        let (next, scope) := scope.newNode
        (readObject next Rdf.first token scope (.objectCell next :: below)).map
          (.after ⟨cell, Rdf.rest, .node next⟩)
  | .suffix subject predicate value :: below =>
      let statement : Statement := ⟨subject, predicate, .literal (String.ofList value)⟩
      match token with
      | .tag _ => some (.complete below scope statement)
      | .datatypeMark => some (.wait (.datatype subject predicate value :: below) scope)
      | token => (advance token scope below).map (.after statement)
  | .datatype subject predicate value :: below => do
      let _ ← scope.tokenIri? token
      return .complete below scope ⟨subject, predicate, .literal (String.ofList value)⟩

end RmlAlgebra.Turtle
