import RmlAlgebra.Proofs.Asking
import RmlAlgebra.Proofs.PlanRoundTrip

/-! # The calls of a run

Engines may have a state of their own, so what they answer can depend on all calls before. A run is
described by its exchanges, the calls together with their answers: the parser is asked first, the
normalizer only after a parse, the generator about block after block until one fails, and the consumer
only when none did. The first failure ends the run and is its result.
-/

namespace RmlAlgebra

open Engine (Raw)

/-! ## Exchanges -/

/-- A call together with its answer. -/
inductive Exchange where
  | parse (document : String) (answer : Raw)
  | normalize (parsed : String) (seed : UInt32) (answer : Raw)
  | generate (block : String) (answer : Raw)
  | consume (plan : String) (options : Options) (answer : Except String Unit)

variable {σ α β : Type} {e : Engines (StateM σ)} {c : Consumer (StateM σ)} {s t u : σ}

namespace Exchange

def call : Exchange → Call
  | parse document _ => .parse document
  | normalize parsed seed _ => .normalize parsed seed
  | generate block _ => .generate block
  | consume plan options _ => .consume plan options

/-- The text that an engine has answered. -/
def text? : Exchange → Option String
  | parse _ answer | normalize _ _ answer | generate _ answer => answer
  | consume _ _ _ => none

/-- Whether the engines and the consumer give this answer in one state and end up in another. -/
def Given (e : Engines (StateM σ)) (c : Consumer (StateM σ)) (s t : σ) : Exchange → Prop
  | parse document answer => (e.parse document).run s = (answer, t)
  | normalize parsed seed answer => (e.normalize parsed seed).run s = (answer, t)
  | generate block answer => (e.generate block).run s = (answer, t)
  | consume plan options answer => (c plan options).run s = (answer, t)

/-- Whether all answers are given, one after the other. -/
def AllGiven (e : Engines (StateM σ)) (c : Consumer (StateM σ)) : σ → List Exchange → σ → Prop
  | s, [], t => s = t
  | s, x :: others, u => ∃ t, x.Given e c s t ∧ AllGiven e c t others u

theorem AllGiven.append {xs ys : List Exchange} (hxs : AllGiven e c s xs t)
    (hys : AllGiven e c t ys u) : AllGiven e c s (xs ++ ys) u := by
  induction xs generalizing s with
  | nil =>
      have hst : s = t := hxs
      rw [hst]
      exact hys
  | cons x others ih =>
      obtain ⟨r, hx, hothers⟩ := hxs
      exact ⟨r, hx, ih hothers⟩

end Exchange

/-! ## Computations and their records -/

theorem run_bind_of_ok {ε : Type} {x : ExceptT ε (StateM σ) α} {a : α}
    (h : x.run.run s = (.ok a, t)) (f : α → ExceptT ε (StateM σ) β) :
    (x >>= f).run.run s = (f a).run.run t := by
  rw [ExceptT.run_bind, StateT.run_bind, h]
  rfl

/-- After a failure nothing more is done. -/
theorem run_bind_of_error {ε : Type} {x : ExceptT ε (StateM σ) α} {error : ε}
    (h : x.run.run s = (.error error, t)) (f : α → ExceptT ε (StateM σ) β) :
    (x >>= f).run.run s = (.error error, t) := by
  rw [ExceptT.run_bind, StateT.run_bind, h]
  rfl

/-- An action gives the answer of an exchange and is recorded as its call. -/
structure Asks {γ : Type} (e : Engines (StateM σ)) (c : Consumer (StateM σ))
    (exchange : γ → Exchange) (action : StateM σ γ) (k : Call) : Prop where
  call : ∀ answer, (exchange answer).call = k
  given : ∀ s answer t, action.run s = (answer, t) → (exchange answer).Given e c s t

/-- A computation and its recorded form make the given exchanges, with the same result. -/
structure Performs (e : Engines (StateM σ)) (c : Consumer (StateM σ))
    (x : ExceptT CompileError (StateM σ) α) (y : ExceptT CompileError (Recorded (StateM σ)) α) (s : σ)
    (exchanges : List Exchange) (result : Except CompileError α) (t : σ) : Prop where
  given : Exchange.AllGiven e c s exchanges t
  plain : x.run.run s = (result, t)
  recorded : ∀ calls,
    (y.run.run calls).run s = ((result, calls ++ exchanges.map Exchange.call), t)

namespace Performs

variable {x : ExceptT CompileError (StateM σ) α} {y : ExceptT CompileError (Recorded (StateM σ)) α}
  {f : α → ExceptT CompileError (StateM σ) β}
  {h : α → ExceptT CompileError (Recorded (StateM σ)) β} {xs ys : List Exchange}

theorem pure (e : Engines (StateM σ)) (c : Consumer (StateM σ)) (s : σ) (a : α) :
    Performs e c (Pure.pure a) (Pure.pure a) s [] (.ok a) s where
  given := rfl
  plain := rfl
  recorded := fun calls => by
    rw [List.map_nil, List.append_nil]
    rfl

theorem throw (e : Engines (StateM σ)) (c : Consumer (StateM σ)) (s : σ) (error : CompileError) :
    Performs e c (MonadExcept.throw error : ExceptT CompileError (StateM σ) α)
      (MonadExcept.throw error) s [] (.error error) s where
  given := rfl
  plain := rfl
  recorded := fun calls => by
    rw [List.map_nil, List.append_nil]
    rfl

theorem bind {a : α} {result : Except CompileError β} (hx : Performs e c x y s xs (.ok a) t)
    (hf : Performs e c (f a) (h a) t ys result u) :
    Performs e c (x >>= f) (y >>= h) s (xs ++ ys) result u where
  given := hx.given.append hf.given
  plain := (run_bind_of_ok hx.plain f).trans hf.plain
  recorded := by
    intro calls
    rw [ExceptT.run_bind, StateT.run_bind, StateT.run_bind, hx.recorded, List.map_append,
      ← List.append_assoc]
    exact hf.recorded _

theorem bind_error {error : CompileError} (hx : Performs e c x y s xs (.error error) t) :
    Performs e c (x >>= f) (y >>= h) s xs (.error error) t where
  given := hx.given
  plain := run_bind_of_error hx.plain f
  recorded := by
    intro calls
    rw [ExceptT.run_bind, StateT.run_bind, StateT.run_bind, hx.recorded]
    rfl

theorem map {result : Except CompileError α} (hx : Performs e c x y s xs result t) (k : α → β) :
    Performs e c (x >>= fun a => Pure.pure (k a)) (y >>= fun a => Pure.pure (k a)) s xs
      (result.map k) t := by
  cases result with
  | error error => exact hx.bind_error
  | ok a =>
      have hbind := hx.bind (.pure e c t (k a)) (f := fun a => Pure.pure (k a))
        (h := fun a => Pure.pure (k a))
      rwa [List.append_nil] at hbind

/-- A call makes one exchange. -/
theorem call {γ : Type} {exchange : γ → Exchange} {action : StateM σ γ} {k : Call}
    (h : Asks e c exchange action k) (s : σ) :
    Performs e c (ExceptT.lift action) (ExceptT.lift (Recorded.record k action)) s
      [exchange (action.run s).1] (.ok (action.run s).1) (action.run s).2 where
  given := ⟨_, h.given s _ _ rfl, rfl⟩
  plain := rfl
  recorded := by
    intro calls
    rw [List.map_singleton, h.call]
    rfl

end Performs

/-! ## Failures -/

/-- The failures of a step: an engine refuses, and its words are kept, or it gives no answer. -/
inductive Fails (refused : String → CompileError) (absent : CompileError) :
    Raw → CompileError → Prop where
  | refusal {message : String} (h : Refusal message) :
      Fails refused absent (some message) (refused message)
  | absent : Fails refused absent none absent

theorem Fails.message_eq {refused : String → CompileError} {absent : CompileError} {answer : Raw}
    {error : CompileError} {message : String} (h : Fails refused absent answer error)
    (hwords : ∀ text, (refused text).message = text) (hanswer : answer = some message) :
    error.message = message := by
  cases h with
  | refusal _ =>
      rw [hwords]
      exact Option.some.inj hanswer
  | absent => cases hanswer

namespace Pipeline

/-- Asking an engine makes one exchange. Either the run goes on with the text of the answer, or it
ends there. -/
theorem performs_asking {exchange : Raw → Exchange} {action : StateM σ Raw} {k : Call}
    (h : Asks e c exchange action k) (refused : String → CompileError) (absent : CompileError)
    (next : String → ExceptT CompileError (StateM σ) α)
    (recordedNext : String → ExceptT CompileError (Recorded (StateM σ)) α) (s : σ) :
    (∃ text t, ¬Refusal text ∧ ∀ xs result u,
        Performs e c (next text) (recordedNext text) t xs result u →
        Performs e c (asking action refused absent next)
          (asking (Recorded.record k action) refused absent recordedNext) s
          (exchange (some text) :: xs) result u) ∨
      ∃ answer error t, Fails refused absent answer error ∧
        Performs e c (asking action refused absent next)
          (asking (Recorded.record k action) refused absent recordedNext) s
          [exchange answer] (.error error) t := by
  have hask := Performs.call h s
  rcases hrun : action.run s with ⟨answer, t⟩
  rw [hrun] at hask
  cases answer with
  | none =>
      exact .inr ⟨none, absent, t, .absent, hask.bind (.throw e c t absent)⟩
  | some text =>
      by_cases hrefusal : Refusal text
      · refine .inr ⟨some text, refused text, t, .refusal hrefusal, hask.bind ?_⟩
        rw [Engine.ofRaw_of_refusal hrefusal]
        exact .throw e c t (refused text)
      · refine .inl ⟨text, t, hrefusal, fun xs result u hnext => hask.bind ?_⟩
        rw [Engine.ofRaw_of_not_refusal hrefusal]
        exact hnext

/-- A stage that asks an engine once and works on the text of its answer. -/
theorem performs_asking_pure {exchange : Raw → Exchange} {action : StateM σ Raw} {k : Call}
    (h : Asks e c exchange action k) (refused : String → CompileError) (absent : CompileError)
    (work : String → α) (s : σ) :
    (∃ text t, ¬Refusal text ∧
        Performs e c (asking action refused absent fun text => Pure.pure (work text))
          (asking (Recorded.record k action) refused absent fun text => Pure.pure (work text)) s
          [exchange (some text)] (.ok (work text)) t) ∨
      ∃ answer error t, Fails refused absent answer error ∧
        Performs e c (asking action refused absent fun text => Pure.pure (work text))
          (asking (Recorded.record k action) refused absent fun text => Pure.pure (work text)) s
          [exchange answer] (.error error) t := by
  rcases performs_asking h refused absent (fun text => Pure.pure (work text))
      (fun text => Pure.pure (work text)) s with ⟨text, t, htext, hnext⟩ | hfails
  · exact .inl ⟨text, t, htext, hnext _ _ _ (.pure e c t (work text))⟩
  · exact .inr hfails

/-! ## One stage after the other -/

theorem asks_parse (e : Engines (StateM σ)) (c : Consumer (StateM σ)) (document : String) :
    Asks e c (.parse document) (e.parse document) (.parse document) :=
  ⟨fun _ => rfl, fun _ _ _ h => h⟩

theorem asks_normalize (e : Engines (StateM σ)) (c : Consumer (StateM σ)) (parsed : String)
    (seed : UInt32) :
    Asks e c (.normalize parsed seed) (e.normalize parsed seed) (.normalize parsed seed) :=
  ⟨fun _ => rfl, fun _ _ _ h => h⟩

theorem asks_generate (e : Engines (StateM σ)) (c : Consumer (StateM σ)) (block : String) :
    Asks e c (.generate block) (e.generate block) (.generate block) :=
  ⟨fun _ => rfl, fun _ _ _ h => h⟩

theorem asks_consume (e : Engines (StateM σ)) (c : Consumer (StateM σ)) (plan : String)
    (options : Options) : Asks e c (.consume plan options) (c plan options) (.consume plan options) :=
  ⟨fun _ => rfl, fun _ _ _ h => h⟩

theorem performs_load (e : Engines (StateM σ)) (c : Consumer (StateM σ)) (document : String) (s : σ) :
    (∃ parsed t, ¬Refusal parsed ∧
        Performs e c (load e document) (load (Recorded.engines e) document) s
          [.parse document (some parsed)] (.ok parsed) t) ∨
      ∃ answer error t, Fails .parseRefused .parseAbsent answer error ∧
        Performs e c (load e document) (load (Recorded.engines e) document) s
          [.parse document answer] (.error error) t := by
  rw [load_eq_asking, load_eq_asking]
  exact performs_asking_pure (asks_parse e c document) .parseRefused .parseAbsent id s

theorem performs_normalize (e : Engines (StateM σ)) (c : Consumer (StateM σ)) (parsed : String)
    (seed : UInt32) (s : σ) :
    (∃ text t, ¬Refusal text ∧
        Performs e c (normalize e parsed seed) (normalize (Recorded.engines e) parsed seed) s
          [.normalize parsed seed (some text)] (.ok (Block.sort (Block.split text))) t) ∨
      ∃ answer error t, Fails .normalizeRefused .normalizeAbsent answer error ∧
        Performs e c (normalize e parsed seed) (normalize (Recorded.engines e) parsed seed) s
          [.normalize parsed seed answer] (.error error) t := by
  rw [normalize_eq_asking, normalize_eq_asking]
  exact performs_asking_pure (asks_normalize e c parsed seed) .normalizeRefused .normalizeAbsent
    (fun text => Block.sort (Block.split text)) s

/-- A block with the answer about it and the expressions in the answer. -/
structure PlannedBlock where
  block : String
  answer : String
  expressions : List String

namespace PlannedBlock

def exchange (x : PlannedBlock) : Exchange :=
  .generate x.block (some x.answer)

/-- Whether the answer is no refusal and its expressions are the lines that are not blank, in order. -/
structure Sound (x : PlannedBlock) : Prop where
  answered : ¬Refusal x.answer
  expressions : ∃ ls, Text.Lined x.answer.toList ls ∧ x.expressions.map String.toList =
    ls.filter fun line => line.any fun c => !Text.isBlank c

theorem sound_collect {block text : String} (h : ¬Refusal text) :
    Sound ⟨block, text, PlanText.collect text⟩ :=
  ⟨h, PlanText.collect_eq_iff.mp rfl⟩

end PlannedBlock

/-- How blocks are planned: all of them, or up to the first that fails. The first block has the given
position. -/
inductive Generates (index : Nat) (blocks : List String) :
    List Exchange → Except CompileError (List String) → Prop where
  | all (planned : List PlannedBlock) (hblocks : blocks = planned.map PlannedBlock.block)
      (hplanned : ∀ x ∈ planned, x.Sound) :
      Generates index blocks (planned.map PlannedBlock.exchange)
        (.ok (planned.flatMap PlannedBlock.expressions))
  | stopped (planned : List PlannedBlock) (block : String) (others : List String) {answer : Raw}
      {error : CompileError} (hblocks : blocks = planned.map PlannedBlock.block ++ block :: others)
      (hplanned : ∀ x ∈ planned, x.Sound)
      (hfails : Fails (.generateRefused (index + planned.length))
        (.generateAbsent (index + planned.length)) answer error) :
      Generates index blocks (planned.map PlannedBlock.exchange ++ [.generate block answer])
        (.error error)

theorem Generates.cons {index : Nat} {block text : String} {others : List String}
    {xs : List Exchange} {result : Except CompileError (List String)} (htext : ¬Refusal text)
    (h : Generates (index + 1) others xs result) :
    Generates index (block :: others) (.generate block (some text) :: xs)
      (result.map (PlanText.collect text ++ ·)) := by
  have hcons : ∀ planned : List PlannedBlock, (∀ x ∈ planned, x.Sound) →
      ∀ x ∈ ⟨block, text, PlanText.collect text⟩ :: planned, PlannedBlock.Sound x :=
    fun planned hplanned => List.forall_mem_cons.mpr ⟨PlannedBlock.sound_collect htext, hplanned⟩
  cases h with
  | all planned hblocks hplanned =>
      exact .all (⟨block, text, PlanText.collect text⟩ :: planned) (by rw [hblocks, List.map_cons])
        (hcons planned hplanned)
  | stopped planned last rest hblocks hplanned hfails =>
      refine .stopped (⟨block, text, PlanText.collect text⟩ :: planned) last rest ?_
        (hcons planned hplanned) ?_
      · rw [hblocks, List.map_cons, List.cons_append]
      · rwa [List.length_cons, ← Nat.add_assoc, Nat.add_right_comm]

theorem performs_generateFrom (e : Engines (StateM σ)) (c : Consumer (StateM σ)) (index : Nat)
    (blocks : List String) (s : σ) :
    ∃ xs result t, Generates index blocks xs result ∧
      Performs e c (generateFrom e index blocks) (generateFrom (Recorded.engines e) index blocks) s
        xs result t := by
  -- Positions and states move on with the blocks.
  induction blocks generalizing index s with
  | nil =>
      exact ⟨[], .ok [], s, .all [] rfl (fun _ hx => absurd hx List.not_mem_nil), .pure e c s []⟩
  | cons block others ih =>
      rw [generateFrom_eq_asking, generateFrom_eq_asking]
      rcases performs_asking (asks_generate e c block) (.generateRefused index)
          (.generateAbsent index)
          (fun text => generateFrom e (index + 1) others >>= fun rest =>
            Pure.pure (PlanText.collect text ++ rest))
          (fun text => generateFrom (Recorded.engines e) (index + 1) others >>= fun rest =>
            Pure.pure (PlanText.collect text ++ rest)) s with
        ⟨text, t, htext, hnext⟩ | ⟨answer, error, t, hfails, hperforms⟩
      · obtain ⟨xs, result, u, hgenerates, hrest⟩ := ih (index + 1) t
        exact ⟨_, _, u, hgenerates.cons htext, hnext _ _ _ (hrest.map _)⟩
      · exact ⟨_, _, t, .stopped [] block others rfl
          (fun _ hx => absurd hx List.not_mem_nil) hfails, hperforms⟩

/-! ## Whole runs -/

/-- The blocks of a text, and no others, in order. They are what is left of the pieces between the
delimiters without their blank ends, where anything is left. -/
structure SortedBlocks (text : String) (blocks : List String) : Prop where
  perm : ∃ pieces : List (List Char × List Char),
    Text.Divided Block.delimiter text.toList (pieces.map Prod.fst) ∧
    (∀ piece ∈ pieces, Text.IsCore piece.1 piece.2) ∧
    blocks.Perm (((pieces.map Prod.snd).filter (!·.isEmpty)).map String.ofList)
  sorted : blocks.Pairwise (· ≤ ·)

theorem sortedBlocks_iff {text : String} {blocks : List String} :
    SortedBlocks text blocks ↔ Block.sort (Block.split text) = blocks := by
  rw [Block.sort_eq_iff]
  constructor
  · rintro ⟨⟨pieces, hpieces, hcores, hperm⟩, hsorted⟩
    rw [Block.split_eq hpieces hcores]
    exact ⟨hperm, hsorted⟩
  · rintro ⟨hperm, hsorted⟩
    let pieces := (Text.pieces Block.delimiter text.toList).map fun piece => (piece, Text.trim piece)
    have hfst : pieces.map Prod.fst = Text.pieces Block.delimiter text.toList := by
      rw [List.map_map]
      exact List.map_id _
    have hpieces : Text.Divided Block.delimiter text.toList (pieces.map Prod.fst) := by
      rw [hfst]
      exact Text.divided_pieces Block.delimiter_ne_nil _
    have hcores : ∀ piece ∈ pieces, Text.IsCore piece.1 piece.2 := by
      rw [List.forall_mem_map]
      exact fun piece _ => Text.isCore_trim piece
    rw [Block.split_eq hpieces hcores] at hperm
    exact ⟨⟨pieces, hpieces, hcores, hperm⟩, hsorted⟩

/-- How a document is compiled: a stage is entered only when the one before has succeeded. -/
inductive Compiles (options : Options) (document : String) :
    List Exchange → Except CompileError Compilation → Prop where
  | unparsed {answer : Raw} {error : CompileError}
      (hfails : Fails .parseRefused .parseAbsent answer error) :
      Compiles options document [.parse document answer] (.error error)
  | unnormalized {parsed : String} {answer : Raw} {error : CompileError} (hparsed : ¬Refusal parsed)
      (hfails : Fails .normalizeRefused .normalizeAbsent answer error) :
      Compiles options document
        [.parse document (some parsed), .normalize parsed options.blankNodeSeed answer]
        (.error error)
  | unplanned {parsed text : String} {blocks : List String} {xs : List Exchange}
      {error : CompileError} (hparsed : ¬Refusal parsed) (htext : ¬Refusal text)
      (hblocks : SortedBlocks text blocks) (hplan : Generates 0 blocks xs (.error error)) :
      Compiles options document
        (.parse document (some parsed) :: .normalize parsed options.blankNodeSeed (some text) :: xs)
        (.error error)
  | compiled {parsed text : String} {blocks expressions : List String} {xs : List Exchange}
      (hparsed : ¬Refusal parsed) (htext : ¬Refusal text) (hblocks : SortedBlocks text blocks)
      (hplan : Generates 0 blocks xs (.ok expressions)) :
      Compiles options document
        (.parse document (some parsed) :: .normalize parsed options.blankNodeSeed (some text) :: xs)
        (.ok ⟨String.join (expressions.map (· ++ "\n")), ⟨blocks.length, expressions.length⟩⟩)

theorem performs_compile (e : Engines (StateM σ)) (c : Consumer (StateM σ)) (options : Options)
    (document : String) (s : σ) :
    ∃ xs result t, Compiles options document xs result ∧
      Performs e c (compile e options document) (compile (Recorded.engines e) options document) s
        xs result t := by
  rcases performs_load e c document s with
    ⟨parsed, s₁, hparsed, hload⟩ | ⟨answer, error, t, hfails, hload⟩
  · rcases performs_normalize e c parsed options.blankNodeSeed s₁ with
      ⟨text, s₂, htext, hnormalize⟩ | ⟨answer, error, t, hfails, hnormalize⟩
    · have hblocks := sortedBlocks_iff.mpr (Eq.refl (Block.sort (Block.split text)))
      obtain ⟨xs, result, t, hplan, hgenerate⟩ :=
        performs_generateFrom e c 0 (Block.sort (Block.split text)) s₂
      cases result with
      | error error =>
          exact ⟨_, _, t, .unplanned hparsed htext hblocks hplan,
            hload.bind (hnormalize.bind hgenerate.bind_error)⟩
      | ok expressions =>
          refine ⟨_, _, t, .compiled hparsed htext hblocks hplan, ?_⟩
          rw [← PlanText.serialize_eq_join]
          exact hload.bind (hnormalize.bind (hgenerate.map _))
    · exact ⟨_, _, t, .unnormalized hparsed hfails, hload.bind hnormalize.bind_error⟩
  · exact ⟨_, _, t, .unparsed hfails, hload.bind_error⟩

/-- How a document is run: the plan is handed over, with the options as they are, when the document
compiles. -/
inductive Runs (options : Options) (document : String) :
    List Exchange → Except CompileError Report → Prop where
  | uncompiled {xs : List Exchange} {error : CompileError}
      (h : Compiles options document xs (.error error)) : Runs options document xs (.error error)
  | declined {xs : List Exchange} {compilation : Compilation} {cause : String}
      (h : Compiles options document xs (.ok compilation)) :
      Runs options document (xs ++ [.consume compilation.plan options (.error cause)])
        (.error (.handoffFailed cause))
  | taken {xs : List Exchange} {compilation : Compilation}
      (h : Compiles options document xs (.ok compilation)) :
      Runs options document (xs ++ [.consume compilation.plan options (.ok ())])
        (.ok compilation.report)

theorem performs_run (e : Engines (StateM σ)) (c : Consumer (StateM σ)) (options : Options)
    (document : String) (s : σ) :
    ∃ xs result t, Runs options document xs result ∧
      Performs e c (run e c options document)
        (run (Recorded.engines e) (Recorded.consumer c) options document) s xs result t := by
  obtain ⟨xs, result, t, hcompiles, hperforms⟩ := performs_compile e c options document s
  cases result with
  | error error => exact ⟨xs, _, t, .uncompiled hcompiles, hperforms.bind_error⟩
  | ok compilation =>
      have hconsume := Performs.call (asks_consume e c compilation.plan options) t
      rcases hrun : (c compilation.plan options).run t with ⟨answer, u⟩
      rw [hrun] at hconsume
      cases answer with
      | error cause =>
          exact ⟨_, _, u, .declined hcompiles,
            hperforms.bind (hconsume.bind (.throw e c u (.handoffFailed cause)))⟩
      | ok _ =>
          exact ⟨_, _, u, .taken hcompiles,
            hperforms.bind (hconsume.bind (.pure e c u compilation.report))⟩

/-! ## The words of a refusal -/

/-- The text in the last answer. -/
def lastText? (xs : List Exchange) : Option String :=
  xs.getLast?.bind Exchange.text?

theorem lastText?_concat (xs : List Exchange) (x : Exchange) : lastText? (xs ++ [x]) = x.text? := by
  rw [lastText?, List.getLast?_concat, Option.bind_some]

variable {options : Options} {document message : String} {xs : List Exchange} {error : CompileError}

theorem Compiles.message_eq (h : Compiles options document xs (.error error))
    (hlast : lastText? xs = some message) : error.message = message := by
  cases h with
  | unparsed hfails => exact hfails.message_eq (fun _ => rfl) hlast
  | unnormalized _ hfails => exact hfails.message_eq (fun _ => rfl) hlast
  | unplanned _ _ _ hplan =>
      cases hplan with
      | stopped planned block others _ _ hfails =>
          rw [← List.cons_append, ← List.cons_append, lastText?_concat] at hlast
          exact hfails.message_eq (fun _ => rfl) hlast

theorem Runs.message_eq (h : Runs options document xs (.error error))
    (hlast : lastText? xs = some message) : error.message = message := by
  cases h with
  | uncompiled hcompiles => exact hcompiles.message_eq hlast
  | declined _ =>
      rw [lastText?_concat] at hlast
      cases hlast

/-- A run stops at the first step that fails. Its recorded calls are those of its exchanges, whose
answers are what the engines and the consumer give one after the other, and an error has the words of
the last answer if there were any. -/
theorem run_failFast (e : Engines (StateM σ)) (c : Consumer (StateM σ)) (options : Options)
    (document : String) (s : σ) :
    ∃ exchanges result t, Exchange.AllGiven e c s exchanges t ∧
      Runs options document exchanges result ∧
      (∀ error message, result = .error error → lastText? exchanges = some message →
        error.message = message) ∧
      (run e c options document).run.run s = (result, t) ∧
      ((run (Recorded.engines e) (Recorded.consumer c) options document).run.run []).run s =
        ((result, exchanges.map Exchange.call), t) := by
  obtain ⟨xs, result, t, hruns, hperforms⟩ := performs_run e c options document s
  refine ⟨xs, result, t, hperforms.given, hruns, ?_, hperforms.plain, hperforms.recorded []⟩
  rintro error message rfl hlast
  exact hruns.message_eq hlast

end Pipeline

end RmlAlgebra
