import RmlAlgebra.Engine.Interface
import RmlAlgebra.Pipeline.Block
import RmlAlgebra.Pipeline.Error
import RmlAlgebra.Pipeline.PlanText

/-! # From a mapping document to a plan

The document is parsed and normalized, and every block of the normalized mapping is planned in
sorted order. A step starts only after the one before it has succeeded.
-/

namespace RmlAlgebra.Pipeline

open Engine (Answer)

variable {m : Type → Type} [Monad m]

structure Report where
  subGraphs : Nat
  expressions : Nat
  deriving DecidableEq, Repr

structure Compilation where
  plan : String
  report : Report
  deriving DecidableEq, Repr

def load (engines : Engines m) (document : String) : ExceptT CompileError m String := do
  match Answer.ofRaw (← engines.parse document) with
  | .success text => return text
  | .refusal message => throw (.parseRefused message)
  | .absent => throw .parseAbsent

/-- Normalize a parsed mapping into sorted blocks. -/
def normalize (engines : Engines m) (parsed : String) (seed : UInt32) :
    ExceptT CompileError m (List String) := do
  match Answer.ofRaw (← engines.normalize parsed seed) with
  | .success text => return Block.sort (Block.split text)
  | .refusal message => throw (.normalizeRefused message)
  | .absent => throw .normalizeAbsent

/-- Plan the given blocks, the first of which has the given position. -/
def generateFrom (engines : Engines m) : Nat → List String → ExceptT CompileError m (List String)
  | _, [] => return []
  | index, block :: others => do
      match Answer.ofRaw (← engines.generate block) with
      | .success text =>
          let rest ← generateFrom engines (index + 1) others
          return PlanText.collect text ++ rest
      | .refusal message => throw (.generateRefused index message)
      | .absent => throw (.generateAbsent index)

def generate (engines : Engines m) (blocks : List String) :
    ExceptT CompileError m (List String) :=
  generateFrom engines 0 blocks

def compile (engines : Engines m) (options : Options) (document : String) :
    ExceptT CompileError m Compilation := do
  let parsed ← load engines document
  let blocks ← normalize engines parsed options.blankNodeSeed
  let expressions ← generate engines blocks
  return ⟨PlanText.serialize expressions, ⟨blocks.length, expressions.length⟩⟩

def run (engines : Engines m) (consumer : Consumer m) (options : Options) (document : String) :
    ExceptT CompileError m Report := do
  let compilation ← compile engines options document
  match ← consumer compilation.plan options with
  | .ok () => return compilation.report
  | .error cause => throw (.handoffFailed cause)

end RmlAlgebra.Pipeline
