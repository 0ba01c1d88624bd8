import RmlAlgebra.Text.Decimal
import RmlAlgebra.Text.Split

/-! # Arguments and settings

An argument names an option or is a plain text. An option has a long name and may have a short one.
Its value stands in the same argument or is the next one.
-/

namespace RmlAlgebra.CommandLine

inductive Argument where
  /-- Two hyphens alone: no option follows. -/
  | endOfOptions
  | long (name : List Char) (value? : Option (List Char))
  /-- One letter, with the characters written right behind it. -/
  | short (letter : Char) (attached : List Char)
  | plain (text : List Char)
  deriving DecidableEq, Repr

def Argument.ofChars : List Char → Argument
  | ['-', '-'] => .endOfOptions
  | '-' :: '-' :: rest =>
      match Text.cut? ['='] rest with
      | some (name, value) => .long name (some value)
      | none => .long rest none
  | '-' :: letter :: attached => .short letter attached
  | text => .plain text

inductive OptionName where
  | mapping
  | output
  | base
  | continueOnError
  | noThreading
  | noConstFolding
  | noOrdering
  | blankNodeSeed
  | emitPlan
  deriving DecidableEq, Repr

namespace OptionName

def all : List OptionName :=
  [mapping, output, base, continueOnError, noThreading, noConstFolding, noOrdering, blankNodeSeed,
    emitPlan]

def long : OptionName → String
  | mapping => "mapping"
  | output => "output"
  | base => "base"
  | continueOnError => "continue-on-error"
  | noThreading => "no-threading"
  | noConstFolding => "no-const-folding"
  | noOrdering => "no-ordering"
  | blankNodeSeed => "blank-node-seed"
  | emitPlan => "emit-plan"

def short? : OptionName → Option Char
  | mapping => some 'm'
  | output => some 'o'
  | base => some 'b'
  | _ => none

def isFlag : OptionName → Bool
  | continueOnError | noThreading | noConstFolding | noOrdering => true
  | _ => false

def ofLong? (name : List Char) : Option OptionName :=
  all.find? fun option => option.long.toList == name

def ofShort? (letter : Char) : Option OptionName :=
  all.find? fun option => option.short? == some letter

end OptionName

inductive Setting where
  | mapping (path : String)
  | output (path : String)
  | base (iri : String)
  | continueOnError
  | noThreading
  | noConstFolding
  | noOrdering
  | blankNodeSeed (seed : UInt32)
  | emitPlan (path : String)
  deriving DecidableEq, Repr

namespace Setting

def name : Setting → OptionName
  | mapping _ => .mapping
  | output _ => .output
  | base _ => .base
  | continueOnError => .continueOnError
  | noThreading => .noThreading
  | noConstFolding => .noConstFolding
  | noOrdering => .noOrdering
  | blankNodeSeed _ => .blankNodeSeed
  | emitPlan _ => .emitPlan

def ofFlag? : OptionName → Option Setting
  | .continueOnError => some continueOnError
  | .noThreading => some noThreading
  | .noConstFolding => some noConstFolding
  | .noOrdering => some noOrdering
  | _ => none

/-- A path is never empty. -/
def path? (value : List Char) : Option String :=
  if value.isEmpty then none else some (String.ofList value)

/-- A seed is an integer of 32 bits without a negative value; it may have a sign. -/
def seed? (value : List Char) : Option UInt32 :=
  match value with
  | '+' :: digits => (Text.decimalBelow? UInt32.size digits).map UInt32.ofNat
  | '-' :: digits => (Text.decimalBelow? 1 digits).map UInt32.ofNat
  | digits => (Text.decimalBelow? UInt32.size digits).map UInt32.ofNat

def ofValue? (option : OptionName) (value : List Char) : Option Setting :=
  match option with
  | .mapping => (path? value).map mapping
  | .output => (path? value).map output
  | .base => some (base (String.ofList value))
  | .blankNodeSeed => (seed? value).map blankNodeSeed
  | .emitPlan => (path? value).map emitPlan
  | _ => none

end Setting

end RmlAlgebra.CommandLine
