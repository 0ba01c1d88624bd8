import RmlAlgebra.Engine.BuiltIn
import RmlAlgebra.Pipeline

/-! # Asking an engine

Every stage asks an engine and goes on with the text of its answer, unless the engine refuses or has
none. If the engine has no effects, its answer alone decides how the stage ends.
-/

namespace RmlAlgebra

open Engine (Raw Answer)

/-- Whether an answer tells why an engine refuses. -/
def Refusal (text : String) : Prop :=
  Engine.refusalMark <+: text.toList

theorem Engine.ofRaw_of_refusal {text : String} (h : Refusal text) :
    Answer.ofRaw (some text) = .refusal text :=
  if_pos (List.isPrefixOf_iff_prefix.mpr h)

theorem Engine.ofRaw_of_not_refusal {text : String} (h : ¬Refusal text) :
    Answer.ofRaw (some text) = .success text :=
  if_neg (mt List.isPrefixOf_iff_prefix.mp h)

namespace Pipeline

variable {m : Type → Type} [Monad m] {α : Type}

/-- Go on with an answer unless it is a failure. -/
def following (refused : String → CompileError) (absent : CompileError)
    (next : String → ExceptT CompileError m α) : Answer → ExceptT CompileError m α
  | .success text => next text
  | .refusal message => throw (refused message)
  | .absent => throw absent

def asking (action : m Raw) (refused : String → CompileError) (absent : CompileError)
    (next : String → ExceptT CompileError m α) : ExceptT CompileError m α :=
  ExceptT.lift action >>= fun answer => following refused absent next (Answer.ofRaw answer)

theorem load_eq_asking (engines : Engines m) (document : String) :
    load engines document =
      asking (engines.parse document) .parseRefused .parseAbsent Pure.pure :=
  rfl

theorem normalize_eq_asking (engines : Engines m) (parsed : String) (seed : UInt32) :
    normalize engines parsed seed =
      asking (engines.normalize parsed seed) .normalizeRefused .normalizeAbsent
        fun text => Pure.pure (Block.sort (Block.split text)) :=
  rfl

theorem generateFrom_eq_asking (engines : Engines m) (index : Nat) (block : String)
    (others : List String) :
    generateFrom engines index (block :: others) =
      asking (engines.generate block) (.generateRefused index) (.generateAbsent index)
        fun text => generateFrom engines (index + 1) others >>= fun rest =>
          Pure.pure (PlanText.collect text ++ rest) :=
  rfl

/-! ## Engines without effects -/

section

variable [LawfulMonad m]

theorem asking_pure (answer : Raw) (refused : String → CompileError) (absent : CompileError)
    (next : String → ExceptT CompileError m α) :
    asking (pure answer) refused absent next =
      following refused absent next (Answer.ofRaw answer) := by
  have hlift : (ExceptT.lift (pure answer) : ExceptT CompileError m Raw) = pure answer := by
    apply ExceptT.ext
    rw [ExceptT.run_lift, ExceptT.run_pure, map_pure]
  rw [asking, hlift, pure_bind]

variable (wording : Wording) (base : String)

theorem load_builtIn (document : String) :
    load (m := m) (.builtIn wording base) document =
      following .parseRefused .parseAbsent pure (Answer.ofRaw (Engine.parse wording base document)) :=
  asking_pure _ _ _ _

theorem normalize_builtIn (parsed : String) (seed : UInt32) :
    normalize (m := m) (.builtIn wording base) parsed seed =
      following .normalizeRefused .normalizeAbsent (fun text => pure (Block.sort (Block.split text)))
        (Answer.ofRaw (Engine.normalize parsed seed)) :=
  asking_pure _ _ _ _

theorem generateFrom_builtIn_cons (index : Nat) (block : String) (others : List String) :
    generateFrom (m := m) (.builtIn wording base) index (block :: others) =
      following (.generateRefused index) (.generateAbsent index)
        (fun text => generateFrom (.builtIn wording base) (index + 1) others >>= fun rest =>
          pure (PlanText.collect text ++ rest))
        (Answer.ofRaw (Engine.generate block)) :=
  asking_pure _ _ _ _

end

/-- A stage succeeds if its engine does and the work on the text of the answer does. -/
theorem run_following_eq_ok_iff {refused : String → CompileError} {absent : CompileError}
    {next : String → ExceptT CompileError Id α} {answer : Answer} {a : α} :
    (following refused absent next answer).run = Except.ok a ↔
      ∃ text, answer = .success text ∧ (next text).run = Except.ok a := by
  constructor
  · intro h
    cases answer with
    | success text => exact ⟨text, rfl, h⟩
    | refusal message => cases h
    | absent => cases h
  · rintro ⟨text, rfl, h⟩
    exact h

end Pipeline

end RmlAlgebra
