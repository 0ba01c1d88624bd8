import RmlAlgebra.Proofs.CallTrace

/-! # The order in which blocks are written

A normalizer is free to write its blocks in any order. They are planned in sorted order, and since no
two different texts are equal in that order, a sorted list of blocks tells nothing about the order in
which they were found. So neither do the plan, the report and the position of a failing block.
-/

namespace RmlAlgebra

namespace Block

/-- Blocks that are the same up to order are sorted alike, repeated ones included. -/
theorem sort_eq_of_perm {xs ys : List String} (h : xs.Perm ys) : sort xs = sort ys :=
  sort_eq_iff.mpr ⟨(sort_perm ys).trans h.symm, pairwise_sort ys⟩

end Block

variable {m : Type → Type} [Monad m]

/-- The same parser and generator with a normalizer that gives certain texts. -/
def Engines.emitting (engines : Engines m) (text : String → UInt32 → String) : Engines m :=
  { engines with normalize := fun parsed seed => pure (some (text parsed seed)) }

namespace Pipeline

/-- Planning asks no engine but the generator. -/
theorem generateFrom_emitting (engines : Engines m) (text : String → UInt32 → String) (index : Nat)
    (blocks : List String) :
    generateFrom (engines.emitting text) index blocks = generateFrom engines index blocks := by
  induction blocks generalizing index with
  | nil => rfl
  | cons block others ih =>
      rw [generateFrom_eq_asking, generateFrom_eq_asking, ih]
      rfl

variable [LawfulMonad m]

/-- A run sees the blocks of a normalizer's text only in sorted order. -/
theorem compile_emitting (engines : Engines m) {text : String → UInt32 → String}
    (htext : ∀ parsed seed, ¬Refusal (text parsed seed)) (options : Options) (document : String) :
    compile (engines.emitting text) options document =
      load engines document >>= fun parsed =>
        let blocks := Block.sort (Block.split (text parsed options.blankNodeSeed))
        generate engines blocks >>= fun expressions =>
          pure ⟨PlanText.serialize expressions, ⟨blocks.length, expressions.length⟩⟩ := by
  have hload : load (engines.emitting text) document = load engines document := rfl
  have hnormalize (parsed : String) (seed : UInt32) :
      normalize (engines.emitting text) parsed seed =
        pure (Block.sort (Block.split (text parsed seed))) := by
    rw [normalize_eq_asking, Engines.emitting, asking_pure,
      Engine.ofRaw_of_not_refusal (htext parsed seed)]
    rfl
  rw [compile, hload]
  simp only [hnormalize, pure_bind, generate, generateFrom_emitting]

/-- The order in which a normalizer writes its blocks has no effect: two normalizers whose blocks are
the same up to order lead to the same plan and report, or to the same failure. -/
theorem compile_eq_of_perm_blocks (engines : Engines m) {first second : String → UInt32 → String}
    (hfirst : ∀ parsed seed, ¬Refusal (first parsed seed))
    (hsecond : ∀ parsed seed, ¬Refusal (second parsed seed))
    (hblocks : ∀ parsed seed,
      (Block.split (first parsed seed)).Perm (Block.split (second parsed seed)))
    (options : Options) (document : String) :
    compile (engines.emitting first) options document =
      compile (engines.emitting second) options document := by
  rw [compile_emitting engines hfirst, compile_emitting engines hsecond]
  congr 1
  funext parsed
  rw [Block.sort_eq_of_perm (hblocks parsed options.blankNodeSeed)]

/-- A parser that hands a document on and a generator that has no answer for one of the blocks. -/
def partialEngines : Engines Id where
  parse document := some document
  normalize _ _ := none
  generate block := if block = "b" then none else some block

/-- The block without an answer is written first by one normalizer and in the middle by the other. -/
theorem compile_partialEngines_eq :
    (Block.split "b====a====b").Perm (Block.split "a\n======== b ====b====") ∧
      compile (partialEngines.emitting fun _ _ => "a\n======== b ====b====") {} "d" =
        .error (.generateAbsent 1) ∧
      compile (partialEngines.emitting fun _ _ => "b====a====b") {} "d" =
        .error (.generateAbsent 1) := by
  have hfirst : ¬Refusal "b====a====b" := by
    rw [Refusal]
    decide +kernel
  have hsecond : ¬Refusal "a\n======== b ====b====" := by
    rw [Refusal]
    decide +kernel
  have hblocks : (Block.split "b====a====b").Perm (Block.split "a\n======== b ====b====") := by
    decide +kernel
  have hrun : compile (partialEngines.emitting fun _ _ => "b====a====b") {} "d" =
      .error (.generateAbsent 1) := by
    have hsort : Block.sort (Block.split "b====a====b") = ["a", "b", "b"] :=
      Block.sort_eq_iff.mpr ⟨by decide +kernel, by decide⟩
    rw [compile_emitting partialEngines fun _ _ => hfirst, hsort]
    rfl
  refine ⟨hblocks, ?_, hrun⟩
  rw [← compile_eq_of_perm_blocks partialEngines (fun _ _ => hfirst) (fun _ _ => hsecond)
    (fun _ _ => hblocks), hrun]

end Pipeline

end RmlAlgebra
