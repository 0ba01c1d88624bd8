import RmlAlgebra.CommandLine.Host
import RmlAlgebra.CommandLine.Request
import RmlAlgebra.Engine.BuiltIn
import RmlAlgebra.Pipeline

/-! # The command line

A request is read from the arguments and carried out on a host. The outcome is told by an exit code,
and a failure also by a printed line. A question about the program is answered by its text alone.
-/

namespace RmlAlgebra.CommandLine

variable {m : Type → Type} [Monad m]

def versionText : String :=
  "konverter 0.1.0\n"

def Question.answer (wording : Wording) : Question → String
  | version => versionText
  | help detailed => wording.help detailed

inductive Exit where
  | success
  | failure
  | misuse
  deriving DecidableEq, Repr

def Exit.code : Exit → UInt32
  | success => 0
  | failure => 1
  | misuse => 2

/-- The line that tells of an error and of what lies behind it. -/
def diagnostic (error : CompileError) : String :=
  let context :=
    match error with
    | .invalidBase _ _ => "Failed to initialize the mapping engines: "
    | _ => ""
  let cause :=
    match error.cause? with
    | some cause => ": " ++ cause
    | none => ""
  context ++ error.message ++ cause ++ "\n"

/-- Compile a mapping document and deliver the plan. The base is checked before the document is
read. -/
def compile (wording : Wording) (host : Host m) (invocation : Invocation) :
    ExceptT CompileError m Pipeline.Report := do
  let engines ← ExceptT.mk (pure (invocation.options.engines wording))
  let document ← host.readDocument invocation.mapping
  Pipeline.run engines (host.consumer invocation.emitPlan?) invocation.options document

def run (wording : Wording) (host : Host m) (arguments : List String) : m Exit := do
  match Request.ofArguments arguments with
  | .misuse => return .misuse
  | .answer question =>
      host.print (question.answer wording)
      return .success
  | .compile invocation =>
      match ← (compile wording host invocation).run with
      | .ok _ => return .success
      | .error error =>
          host.print (diagnostic error)
          return .failure

end RmlAlgebra.CommandLine
