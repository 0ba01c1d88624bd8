import RmlAlgebra.Engine.Answer
import RmlAlgebra.Pipeline.Options

/-! # Engines and their consumers

The three engines of a run, and whoever takes the finished plan. What they do beyond answering is
left to a monad, so that the same run can be pure, recorded or have effects.
-/

namespace RmlAlgebra

structure Engines (m : Type → Type) where
  parse : String → m Engine.Raw
  normalize : String → UInt32 → m Engine.Raw
  generate : String → m Engine.Raw

/-- Takes a plan with the options of its run, or tells why it cannot. -/
abbrev Consumer (m : Type → Type) := String → Options → m (Except String Unit)

inductive Call where
  | parse (document : String)
  | normalize (parsed : String) (seed : UInt32)
  | generate (block : String)
  | consume (plan : String) (options : Options)
  deriving DecidableEq, Repr

/-- Computations that keep a list of the calls they have made. -/
abbrev Recorded (m : Type → Type) := StateT (List Call) m

namespace Recorded

variable {m : Type → Type} [Monad m]

def record {α : Type} (call : Call) (action : m α) : Recorded m α := do
  modify (· ++ [call])
  action

def engines (e : Engines m) : Engines (Recorded m) where
  parse document := record (.parse document) (e.parse document)
  normalize parsed seed := record (.normalize parsed seed) (e.normalize parsed seed)
  generate block := record (.generate block) (e.generate block)

def consumer (c : Consumer m) : Consumer (Recorded m) :=
  fun plan options => record (.consume plan options) (c plan options)

end Recorded

end RmlAlgebra
