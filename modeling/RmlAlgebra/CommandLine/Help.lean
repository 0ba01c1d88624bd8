import RmlAlgebra.CommandLine.Argument
import RmlAlgebra.Pipeline.Options

/-! # The help text

Every option has an entry that says how it is written, what it is for and what it is by default.
-/

namespace RmlAlgebra.CommandLine

structure HelpEntry where
  short? : Option Char := none
  long : String
  valueName? : Option String := none
  summary : String
  /-- More paragraphs, for who asks for details. -/
  details : List String := []
  default? : Option String := none
  deriving Repr

namespace HelpEntry

def heading (entry : HelpEntry) : String :=
  let short :=
    match entry.short? with
    | some letter => s!"-{letter}, "
    | none => "    "
  let value :=
    match entry.valueName? with
    | some name => s!" <{name}>"
    | none => ""
  short ++ "--" ++ entry.long ++ value

def paragraphs (detailed : Bool) (entry : HelpEntry) : List String :=
  let default := entry.default?.toList.map fun value => s!"[default: {value}]"
  if detailed then entry.summary :: (entry.details ++ default)
  else [" ".intercalate (entry.summary :: default)]

def render (detailed : Bool) (entry : HelpEntry) : String :=
  let indent := "          "
  let separator := "\n" ++ indent ++ "\n" ++ indent
  "  " ++ entry.heading ++ "\n" ++ indent ++ separator.intercalate (entry.paragraphs detailed)

end HelpEntry

namespace OptionName

def summary : OptionName → String
  | mapping => "The RML mapping document to compile"
  | output => "Where the RDF output of the plan should be written"
  | base => "Base IRI of the mapping document and of the generated terms"
  | continueOnError => "Keep evaluating the plan after a failing expression"
  | noThreading => "Evaluate the plan on a single thread"
  | noConstFolding => "Do not fold constant term maps"
  | noOrdering => "Evaluate the expressions in plan order"
  | blankNodeSeed => "Blank nodes created during normalization are numbered after this value"
  | emitPlan => "File to write the serialized plan to"

def details : OptionName → List String
  | emitPlan => ["If no file is given, the plan is written to stdout."]
  | _ => []

def default? (options : Options) : OptionName → Option String
  | output => some options.outputPath
  | base => some options.baseUri
  | blankNodeSeed => some options.blankNodeSeed.toNat.repr
  | _ => none

def valueName (option : OptionName) : String :=
  option.long.map fun c => if c = '-' then '_' else c.toUpper

def helpEntry (option : OptionName) : HelpEntry where
  short? := option.short?
  long := option.long
  valueName? := if option.isFlag then none else some option.valueName
  summary := option.summary
  details := option.details
  default? := option.default? {}

end OptionName

def helpText (detailed : Bool) : String :=
  let hint := if detailed then "see a summary with '-h'" else "see more with '--help'"
  let questions : List HelpEntry :=
    [{ short? := some 'h', long := "help", summary := s!"Print help ({hint})" },
      { short? := some 'V', long := "version", summary := "Print version" }]
  let entries := OptionName.all.map OptionName.helpEntry ++ questions
  let separator := if detailed then "\n\n" else "\n"
  "Konverter command line compiler from RML mappings to relational-algebra plans\n\n" ++
    "Usage: konverter [OPTIONS] --mapping <MAPPING>\n\nOptions:\n" ++
    separator.intercalate (entries.map (HelpEntry.render detailed)) ++ "\n"

end RmlAlgebra.CommandLine
