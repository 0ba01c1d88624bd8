import RmlAlgebra.CommandLine.Argument
import RmlAlgebra.Pipeline.Options

/-! # Requests

Arguments are read from the left. The first one that is wrong makes the whole line wrong, and a
question for the version or for help is answered as soon as it is reached.
-/

namespace RmlAlgebra.CommandLine

structure Invocation where
  mapping : String
  options : Options := {}
  /-- The file that the plan is written to, instead of the output of the program. -/
  emitPlan? : Option String := none
  deriving DecidableEq, Repr

namespace Invocation

def withSetting (invocation : Invocation) : Setting → Invocation
  | .mapping path => { invocation with mapping := path }
  | .output path => { invocation with options.outputPath := path }
  | .base iri => { invocation with options.baseUri := iri }
  | .continueOnError => { invocation with options.continueOnError := true }
  | .noThreading => { invocation with options.threadingEnabled := false }
  | .noConstFolding => { invocation with options.materializeConstants := false }
  | .noOrdering => { invocation with options.heuristicOrdering := false }
  | .blankNodeSeed seed => { invocation with options.blankNodeSeed := seed }
  | .emitPlan path => { invocation with emitPlan? := some path }

/-- A list of settings must have a mapping document; all else has a default. -/
def ofSettings? (settings : List Setting) : Option Invocation :=
  if settings.any (·.name = .mapping) then
    some (settings.foldl withSetting ⟨"", {}, none⟩)
  else none

end Invocation

inductive Question where
  | version
  | help (detailed : Bool)
  deriving DecidableEq, Repr

namespace Question

def ofLong? (name : List Char) : Option Question :=
  if name = "version".toList then some version
  else if name = "help".toList then some (help true)
  else none

def ofShort? (letter : Char) : Option Question :=
  if letter = 'V' then some version
  else if letter = 'h' then some (help false)
  else none

end Question

inductive Request where
  | answer (question : Question)
  | compile (invocation : Invocation)
  /-- The arguments are wrong. -/
  | misuse
  deriving DecidableEq, Repr

namespace Request

/-- The settings so far with one more, unless its option is among them. -/
def extend? (settings : List Setting) (setting? : Option Setting) : Option (List Setting) :=
  setting?.bind fun setting =>
    if settings.any (·.name = setting.name) then none else some (settings ++ [setting])

def ofSettings (settings : List Setting) : Request :=
  match Invocation.ofSettings? settings with
  | some invocation => compile invocation
  | none => misuse

/-- What an argument has to say where an option may stand. -/
inductive Step where
  | question (question : Question)
  | setting (setting? : Option Setting)
  /-- The value of this option comes next. -/
  | awaits (option : OptionName)
  | endOfOptions
  | unexpected
  deriving DecidableEq, Repr

def step : Argument → Step
  | .endOfOptions => .endOfOptions
  | .long name value? =>
      match Question.ofLong? name with
      | some question => if value?.isNone then .question question else .unexpected
      | none =>
          match OptionName.ofLong? name, value? with
          | none, _ => .unexpected
          | some option, none =>
              if option.isFlag then .setting (Setting.ofFlag? option) else .awaits option
          | some option, some value => .setting (Setting.ofValue? option value)
  | .short letter attached =>
      match Question.ofShort? letter with
      | some question => .question question
      | none =>
          match OptionName.ofShort? letter, attached with
          | none, _ => .unexpected
          | some option, [] => .awaits option
          | some option, '=' :: value => .setting (Setting.ofValue? option value)
          | some option, value => .setting (Setting.ofValue? option value)
  | .plain _ => .unexpected

/-- Read the arguments that are left, the first of which may be awaited as a value. -/
def readFrom (settings : List Setting) : Option OptionName → List String → Request
  | none, [] => ofSettings settings
  | some _, [] => misuse
  | some option, argument :: others =>
      match Argument.ofChars argument.toList with
      | .plain value =>
          match extend? settings (Setting.ofValue? option value) with
          | some settings => readFrom settings none others
          | none => misuse
      | _ => misuse
  | none, argument :: others =>
      match step (Argument.ofChars argument.toList) with
      | .question question => answer question
      | .setting setting? =>
          match extend? settings setting? with
          | some settings => readFrom settings none others
          | none => misuse
      | .awaits option => readFrom settings (some option) others
      | .endOfOptions => if others.isEmpty then ofSettings settings else misuse
      | .unexpected => misuse

def ofArguments (arguments : List String) : Request :=
  readFrom [] none arguments

end Request

end RmlAlgebra.CommandLine
