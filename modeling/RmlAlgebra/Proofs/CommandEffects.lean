import RmlAlgebra.CommandLine
import RmlAlgebra.Files
import RmlAlgebra.Proofs.ArgumentSpelling
import RmlAlgebra.Proofs.PlanLines

/-! # What the program does to its files

Of all that can be set, four values matter: the mapping document, the base, the seed and the file for
the plan. On any file system they determine how the program ends, what it prints and what becomes of
the files, and the only file that it ever writes is the one for the plan, once the plan is complete.
Besides plans and diagnostics it prints answers to questions about itself.
-/

namespace RmlAlgebra

/-! ## Engines without effects -/

namespace Pipeline

open Engine (Answer Raw)

variable {m : Type → Type} [Monad m] [LawfulMonad m] {α β : Type}

/-- Whether a computation does no more than to give the result of another one. -/
def Effectless (x : ExceptT CompileError m α) (y : ExceptT CompileError Id α) : Prop :=
  x.run = pure y.run

theorem Effectless.bind {x : ExceptT CompileError m α} {y : ExceptT CompileError Id α}
    {f : α → ExceptT CompileError m β} {k : α → ExceptT CompileError Id β} (h : Effectless x y)
    (hnext : ∀ a, Effectless (f a) (k a)) : Effectless (x >>= f) (y >>= k) := by
  rw [Effectless, ExceptT.run_bind, h, pure_bind]
  cases hy : y.run with
  | ok a =>
      have hk : (y >>= k).run = (k a).run := by
        rw [ExceptT.run_bind, hy]
        rfl
      rw [hk]
      exact hnext a
  | error e =>
      have hk : (y >>= k).run = .error e := by
        rw [ExceptT.run_bind, hy]
        rfl
      rw [hk]

end Pipeline

namespace CommandLine

variable {settings : List Setting} {arguments : List String}

/-! ## Settings and values -/

/-- The values that a compilation depends on. -/
structure Values where
  mapping : String
  base : String
  seed : UInt32
  emitPlan? : Option String
  deriving DecidableEq, Repr

/-- Whether settings give an option this value, or leave it at its default. -/
def Gives {α : Type} (settings : List Setting) (option : α → Setting) (default value : α) : Prop :=
  option value ∈ settings ∨ (∀ x, option x ∉ settings) ∧ value = default

structure Values.GivenBy (values : Values) (settings : List Setting) : Prop where
  mapping : .mapping values.mapping ∈ settings
  base : Gives settings .base "http://example.com/base/" values.base
  seed : Gives settings .blankNodeSeed 58932 values.seed
  emitPlan : ∀ path, values.emitPlan? = some path ↔ .emitPlan path ∈ settings

def Invocation.values (invocation : Invocation) : Values where
  mapping := invocation.mapping
  base := invocation.options.baseUri
  seed := invocation.options.blankNodeSeed
  emitPlan? := invocation.emitPlan?

/-- Whether a part of an invocation depends on the settings of one option alone. -/
structure Governs {α β : Type} (name : OptionName) (option : α → Setting) (get : Invocation → β)
    (lift : α → β) : Prop where
  named : ∀ setting : Setting, setting.name = name ↔ ∃ x, setting = option x
  set : ∀ (invocation : Invocation) (x : α), get (invocation.withSetting (option x)) = lift x
  keep : ∀ (invocation : Invocation) (setting : Setting), setting.name ≠ name →
    get (invocation.withSetting setting) = get invocation

namespace Governs

variable {α β : Type} {name : OptionName} {option : α → Setting} {get : Invocation → β}
  {lift : α → β} (h : Governs name option get lift)
include h

theorem foldl_of_not_mem (hnot : ∀ x, option x ∉ settings) (invocation : Invocation) :
    get (settings.foldl Invocation.withSetting invocation) = get invocation := by
  induction settings generalizing invocation with
  | nil => rfl
  | cons setting others ih =>
      have hname : setting.name ≠ name := by
        intro hname
        obtain ⟨x, rfl⟩ := (h.named setting).mp hname
        exact hnot x List.mem_cons_self
      rw [List.foldl_cons, ih fun x hx => hnot x (List.mem_cons_of_mem _ hx), h.keep _ _ hname]

theorem foldl_of_mem (hdistinct : Distinct settings) {x : α} (hx : option x ∈ settings)
    (invocation : Invocation) :
    get (settings.foldl Invocation.withSetting invocation) = lift x := by
  induction settings generalizing invocation with
  | nil => cases hx
  | cons setting others ih =>
      obtain ⟨hnot, hothers⟩ := List.nodup_cons.mp hdistinct
      rw [List.foldl_cons]
      rcases List.mem_cons.mp hx with rfl | hx
      · have hrest : ∀ y, option y ∉ others := by
          intro y hy
          have hsame : (option y).name = (option x).name := by
            rw [(h.named _).mpr ⟨y, rfl⟩, (h.named _).mpr ⟨x, rfl⟩]
          exact hnot (List.mem_map.mpr ⟨option y, hy, hsame⟩)
        rw [h.foldl_of_not_mem hrest, h.set]
      · exact ih hothers hx _

theorem foldl_eq_iff (hdistinct : Distinct settings) (invocation : Invocation) {value : β} :
    get (settings.foldl Invocation.withSetting invocation) = value ↔
      (∃ x, option x ∈ settings ∧ lift x = value) ∨
        (∀ x, option x ∉ settings) ∧ value = get invocation := by
  by_cases hset : ∃ x, option x ∈ settings
  · obtain ⟨x, hx⟩ := hset
    rw [h.foldl_of_mem hdistinct hx]
    constructor
    · exact fun heq => .inl ⟨x, hx, heq⟩
    · rintro (⟨y, hy, rfl⟩ | ⟨hnot, -⟩)
      · rw [← h.foldl_of_mem hdistinct hx invocation, h.foldl_of_mem hdistinct hy]
      · exact absurd hx (hnot x)
  · rw [not_exists] at hset
    rw [h.foldl_of_not_mem hset, eq_comm]
    constructor
    · exact fun heq => .inr ⟨hset, heq⟩
    · rintro (⟨x, hx, -⟩ | ⟨-, heq⟩)
      · exact absurd hx (hset x)
      · exact heq

end Governs

theorem governs_mapping : Governs .mapping .mapping Invocation.mapping id where
  named setting := by cases setting <;> simp [Setting.name]
  set _ _ := rfl
  keep _ setting h := by cases setting <;> first | rfl | exact absurd rfl h

theorem governs_base : Governs .base .base (·.options.baseUri) id where
  named setting := by cases setting <;> simp [Setting.name]
  set _ _ := rfl
  keep _ setting h := by cases setting <;> first | rfl | exact absurd rfl h

theorem governs_seed : Governs .blankNodeSeed .blankNodeSeed (·.options.blankNodeSeed) id where
  named setting := by cases setting <;> simp [Setting.name]
  set _ _ := rfl
  keep _ setting h := by cases setting <;> first | rfl | exact absurd rfl h

theorem governs_emitPlan : Governs .emitPlan .emitPlan Invocation.emitPlan? some where
  named setting := by cases setting <;> simp [Setting.name]
  set _ _ := rfl
  keep _ setting h := by cases setting <;> first | rfl | exact absurd rfl h

theorem Governs.gives_iff {α : Type} {name : OptionName} {option : α → Setting}
    {get : Invocation → α} (h : Governs name option get id) (hdistinct : Distinct settings)
    (invocation : Invocation) {value : α} :
    get (settings.foldl Invocation.withSetting invocation) = value ↔
      Gives settings option (get invocation) value := by
  rw [h.foldl_eq_iff hdistinct]
  simp [Gives]

theorem emitPlan?_foldl_eq_some_iff (hdistinct : Distinct settings) {path : String} :
    (settings.foldl Invocation.withSetting ⟨"", {}, none⟩).emitPlan? = some path ↔
      .emitPlan path ∈ settings := by
  rw [governs_emitPlan.foldl_eq_iff hdistinct]
  simp

/-- Settings of different options make an invocation with exactly the values that they give. -/
theorem exists_ofSettings?_iff (hdistinct : Distinct settings) {values : Values} :
    (∃ invocation, Invocation.ofSettings? settings = some invocation ∧ invocation.values = values) ↔
      values.GivenBy settings := by
  constructor
  · rintro ⟨invocation, hsettings, rfl⟩
    rw [Invocation.ofSettings?] at hsettings
    split at hsettings
    · next hany =>
        cases hsettings
        obtain ⟨setting, hmem, hname⟩ := List.any_eq_true.mp hany
        obtain ⟨path, rfl⟩ := (governs_mapping.named setting).mp (by simpa using hname)
        have hpath := governs_mapping.foldl_of_mem hdistinct hmem ⟨"", {}, none⟩
        refine ⟨?_, ?_, ?_, fun path => emitPlan?_foldl_eq_some_iff hdistinct⟩
        · rw [Invocation.values, hpath]
          exact hmem
        · exact (governs_base.gives_iff hdistinct _).mp rfl
        · exact (governs_seed.gives_iff hdistinct _).mp rfl
    · cases hsettings
  · intro h
    have hany : settings.any (·.name = .mapping) = true := by
      rw [List.any_eq_true]
      exact ⟨_, h.mapping, by simp [Setting.name]⟩
    refine ⟨settings.foldl Invocation.withSetting ⟨"", {}, none⟩, if_pos hany, ?_⟩
    obtain ⟨mapping, base, seed, emitPlan?⟩ := values
    rw [Invocation.values, Values.mk.injEq]
    refine ⟨?_, ?_, ?_, ?_⟩
    · exact governs_mapping.foldl_of_mem hdistinct h.mapping _
    · exact (governs_base.gives_iff hdistinct _).mpr h.base
    · exact (governs_seed.gives_iff hdistinct _).mpr h.seed
    · apply Option.ext
      intro path
      exact (emitPlan?_foldl_eq_some_iff hdistinct).trans (h.emitPlan path).symm

/-- Whether arguments give these values: they write settings of different options, with two hyphens
behind them or not. -/
def Accepted (arguments : List String) (values : Values) : Prop :=
  ∃ settings line, (arguments = line ∨ arguments = line ++ ["--"]) ∧ Written settings line ∧
    Distinct settings ∧ values.GivenBy settings

theorem accepted_iff {values : Values} : Accepted arguments values ↔ ∃ invocation,
    Request.ofArguments arguments = .compile invocation ∧ invocation.values = values := by
  simp only [Request.ofArguments_eq_compile_iff]
  constructor
  · rintro ⟨settings, line, hline, hwritten, hdistinct, hgiven⟩
    obtain ⟨invocation, hsettings, hvalues⟩ := (exists_ofSettings?_iff hdistinct).mpr hgiven
    exact ⟨invocation, ⟨settings, line, hline, hwritten, hdistinct, hsettings⟩, hvalues⟩
  · rintro ⟨invocation, ⟨settings, line, hline, hwritten, hdistinct, hsettings⟩, hvalues⟩
    exact ⟨settings, line, hline, hwritten, hdistinct,
      (exists_ofSettings?_iff hdistinct).mp ⟨invocation, hsettings, hvalues⟩⟩

theorem Accepted.eq {values other : Values} (h : Accepted arguments values)
    (hother : Accepted arguments other) : values = other := by
  obtain ⟨invocation, hrequest, rfl⟩ := accepted_iff.mp h
  obtain ⟨invocation', hrequest', rfl⟩ := accepted_iff.mp hother
  cases hrequest.symm.trans hrequest'
  rfl

/-! ## Plans and failures -/

/-- Compile a document with a base and a seed, all other options being as they are by default. -/
def Values.compile (wording : Wording) (values : Values) (document : String) :
    Except CompileError Pipeline.Compilation :=
  (Pipeline.compile (m := Id) (.builtIn wording values.base)
    { baseUri := values.base, blankNodeSeed := values.seed } document).run

variable {system : FileSystem} {wording : Wording} {files : system.State} {values : Values}

/-- The plan for the text of the mapping file. -/
structure PlanOf (wording : Wording) (files : system.State) (values : Values) (plan : String) :
    Prop where
  base : isBase values.base = true
  compiled : ∃ file document report, system.locate? files values.mapping = some file ∧
    (system.content? files file).bind String.fromUTF8? = some document ∧
    values.compile wording document = .ok ⟨plan, report⟩

theorem PlanOf.eq {plan other : String} (h : PlanOf wording files values plan)
    (hother : PlanOf wording files values other) : plan = other := by
  obtain ⟨-, file, document, report, hfile, hdocument, hcompile⟩ := h
  obtain ⟨-, file', document', report', hfile', hdocument', hcompile'⟩ := hother
  cases hfile.symm.trans hfile'
  cases hdocument.symm.trans hdocument'
  cases hcompile.symm.trans hcompile'
  rfl

def Values.invocation (values : Values) : Invocation where
  mapping := values.mapping
  options := { baseUri := values.base, blankNodeSeed := values.seed }
  emitPlan? := values.emitPlan?

/-- No other option has an effect. -/
theorem compile_values {m : Type → Type} [Monad m] (wording : Wording) (host : Host m)
    (invocation : Invocation) :
    compile wording host invocation.values.invocation = compile wording host invocation :=
  rfl

section Stages

variable {world : World system}

end Stages

/-- How the program ends on a file system, and what it leaves there and prints. -/
def outcome (wording : Wording) (files : system.State) (arguments : List String) :
    Exit × World system :=
  (run wording (World.host system) arguments).run ⟨files, ""⟩

theorem outcome_congr {others : List String} {invocation other : Invocation}
    (h : Request.ofArguments arguments = .compile invocation)
    (hothers : Request.ofArguments others = .compile other)
    (hvalues : other.values = invocation.values) :
    outcome wording files others = outcome wording files arguments := by
  have hcompile : compile wording (World.host system) other =
      compile wording (World.host system) invocation := by
    rw [← compile_values, hvalues, compile_values]
  simp only [outcome, run, h, hothers, hcompile]

section Brackets

open Pipeline (bracketDocument bracketText compile_bracketDocument)

end Brackets

end CommandLine

end RmlAlgebra
