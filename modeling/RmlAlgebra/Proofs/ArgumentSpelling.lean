import RmlAlgebra.CommandLine.Request
import RmlAlgebra.Proofs.Separator

/-! # Spellings of a command line

A flag is written in one way, and an option with a value in up to five. The arguments are understood
exactly if settings of different options follow each other, each in one of its ways: then they ask for
a compilation, or a question about the program if one comes next. What is compiled depends on the
settings alone.
-/

namespace RmlAlgebra.CommandLine

/-! ## Arguments and their characters -/

namespace Argument

def toChars : Argument → List Char
  | endOfOptions => ['-', '-']
  | long name none => '-' :: '-' :: name
  | long name (some value) => '-' :: '-' :: (name ++ ['='] ++ value)
  | short letter attached => '-' :: letter :: attached
  | plain text => text

/-- Whether an argument is not written like one of another form. -/
def Proper : Argument → Prop
  | endOfOptions => True
  | long name none => name ≠ [] ∧ '=' ∉ name
  | long name (some _) => '=' ∉ name
  | short letter _ => letter ≠ '-'
  | plain text => text.head? = some '-' → text = ['-']

theorem ofChars_toChars {argument : Argument} (h : argument.Proper) :
    ofChars argument.toChars = argument := by
  cases argument with
  | endOfOptions => rfl
  | long name value? =>
      cases value? with
      | none =>
          obtain ⟨hne, hname⟩ := h
          cases name with
          | nil => exact absurd rfl hne
          | cons c cs =>
              have hcut : Text.cut? ['='] (c :: cs) = none := by
                rwa [Text.cut?_eq_none_iff (by decide), Text.singleton_infix_iff]
              simp only [toChars, ofChars, hcut]
      | some value =>
          have hcut := Text.cut?_append (by decide) (Text.clear_singleton_iff.mpr h) value
          cases hrest : name ++ ['='] ++ value with
          | nil => simp at hrest
          | cons c cs =>
              rw [hrest] at hcut
              simp only [toChars, hrest, ofChars, hcut]
  | short letter attached =>
      have hletter : letter ≠ '-' := h
      unfold ofChars toChars
      split
      · next heq => simp_all
      · next heq => simp_all
      · next heq => simp_all
      · next hother => exact absurd rfl (hother letter attached)
  | plain text =>
      have hplain : text.head? = some '-' → text = ['-'] := h
      cases text with
      | nil => rfl
      | cons c cs =>
          by_cases hc : c = '-'
          · rw [hplain (by rw [hc]; rfl)]
            rfl
          · unfold ofChars toChars
            split
            · next heq => simp_all
            · next heq => simp_all
            · next heq => simp_all
            · rfl

theorem proper_ofChars (text : List Char) :
    (ofChars text).Proper ∧ (ofChars text).toChars = text := by
  unfold ofChars
  split
  · exact ⟨trivial, rfl⟩
  · next rest hne =>
      split
      · next name value hcut =>
          have hname := Text.clear_singleton_iff.mp (Text.clear_of_cut? (by decide) hcut)
          exact ⟨hname, by rw [toChars, ← Text.eq_of_cut? hcut]⟩
      · next hcut =>
          rw [Text.cut?_eq_none_iff (by decide), Text.singleton_infix_iff] at hcut
          exact ⟨⟨fun hnil => hne (hnil ▸ rfl), hcut⟩, rfl⟩
  · next letter attached hne _ =>
      exact ⟨fun hletter => by simp_all, rfl⟩
  · next hshort =>
      refine ⟨?_, rfl⟩
      intro hhead
      rcases text with _ | ⟨c, _ | ⟨letter, attached⟩⟩
      · cases hhead
      · simpa using hhead
      · obtain rfl : c = '-' := by simpa using hhead
        exact absurd rfl (hshort letter attached)

/-- The characters of an argument tell its form. -/
theorem ofChars_eq_iff {text : List Char} {argument : Argument} :
    ofChars text = argument ↔ argument.Proper ∧ argument.toChars = text := by
  constructor
  · rintro rfl
    exact proper_ofChars text
  · rintro ⟨hproper, rfl⟩
    exact ofChars_toChars hproper

end Argument

/-! ## Names of options -/

namespace OptionName

variable {option : OptionName}

theorem ofLong?_eq_some_iff {name : List Char} :
    ofLong? name = some option ↔ option.long.toList = name := by
  constructor
  · intro h
    simpa using List.find?_some h
  · rintro rfl
    cases option <;> decide

theorem ofShort?_eq_some_iff {letter : Char} :
    ofShort? letter = some option ↔ option.short? = some letter := by
  constructor
  · intro h
    simpa using List.find?_some h
  · intro h
    cases option <;> cases h <;> decide

theorem short?_proper {letter : Char} (h : option.short? = some letter) :
    letter ≠ '-' ∧ Question.ofShort? letter = none := by
  cases option <;> cases h <;> decide

theorem long_proper (option : OptionName) :
    option.long.toList ≠ [] ∧ '=' ∉ option.long.toList := by
  cases option <;> decide

end OptionName

/-! ## Spellings -/

variable {option : OptionName} {setting : Setting} {settings more : List Setting}
  {argument value : String} {arguments line rest : List String}

/-- Whether a text is taken as a value where one is awaited. -/
def IsPlain (text : String) : Prop :=
  text.toList.head? = some '-' → text = "-"

/-- The ways to write a setting. -/
inductive Setting.WrittenAs : Setting → List String → Prop where
  | flag {option : OptionName} {setting : Setting} :
      Setting.ofFlag? option = some setting → WrittenAs setting ["--" ++ option.long]
  | long {option : OptionName} {setting : Setting} {value : String} :
      Setting.ofValue? option value.toList = some setting → IsPlain value →
      WrittenAs setting ["--" ++ option.long, value]
  | longEquals {option : OptionName} {setting : Setting} {value : String} :
      Setting.ofValue? option value.toList = some setting →
      WrittenAs setting ["--" ++ option.long ++ "=" ++ value]
  | short {option : OptionName} {letter : Char} {setting : Setting} {value : String} :
      option.short? = some letter → Setting.ofValue? option value.toList = some setting →
      IsPlain value → WrittenAs setting ["-" ++ letter.toString, value]
  | shortGlued {option : OptionName} {letter : Char} {setting : Setting} {value : String} :
      option.short? = some letter → Setting.ofValue? option value.toList = some setting →
      value ≠ "" → value.toList.head? ≠ some '=' →
      WrittenAs setting ["-" ++ letter.toString ++ value]
  | shortEquals {option : OptionName} {letter : Char} {setting : Setting} {value : String} :
      option.short? = some letter → Setting.ofValue? option value.toList = some setting →
      WrittenAs setting ["-" ++ letter.toString ++ "=" ++ value]

/-- Arguments that write settings one after the other. -/
inductive Written : List Setting → List String → Prop where
  | nil : Written [] []
  | cons {setting : Setting} {settings : List Setting} {first others : List String} :
      setting.WrittenAs first → Written settings others →
      Written (setting :: settings) (first ++ others)

/-- The ways to ask a question. What is attached to its letter is not looked at. -/
inductive Question.AskedBy : Question → String → Prop where
  | longVersion : AskedBy .version "--version"
  | shortVersion (attached : String) : AskedBy .version ("-V" ++ attached)
  | longHelp : AskedBy (.help true) "--help"
  | shortHelp (attached : String) : AskedBy (.help false) ("-h" ++ attached)

/-- Whether every option is set once at most. -/
def Distinct (settings : List Setting) : Prop :=
  (settings.map Setting.name).Nodup

namespace Request

/-! ## One setting -/

theorem step_long_none (option : OptionName) : step (.long option.long.toList none) =
    if option.isFlag then .setting (Setting.ofFlag? option) else .awaits option := by
  cases option <;> rfl

theorem step_long_some (option : OptionName) (value : List Char) :
    step (.long option.long.toList (some value)) = .setting (Setting.ofValue? option value) := by
  cases option <;> rfl

theorem isFlag_of_ofFlag? (h : Setting.ofFlag? option = some setting) : option.isFlag = true := by
  cases option <;> first | rfl | cases h

theorem isFlag_of_ofValue? {value : List Char} (h : Setting.ofValue? option value = some setting) :
    option.isFlag = false := by
  cases option <;> first | rfl | cases h

theorem ofChars_long (option : OptionName) :
    Argument.ofChars ("--" ++ option.long).toList = .long option.long.toList none := by
  obtain ⟨hne, hequals⟩ := option.long_proper
  rw [Argument.ofChars_eq_iff]
  exact ⟨⟨hne, hequals⟩, by simp [Argument.toChars]⟩

theorem ofChars_plain (h : IsPlain value) : Argument.ofChars value.toList = .plain value.toList := by
  rw [Argument.ofChars_eq_iff]
  exact ⟨fun hhead => by rw [h hhead]; rfl, rfl⟩

theorem ofChars_short {letter : Char} (h : option.short? = some letter) (attached : String) :
    Argument.ofChars ("-" ++ letter.toString ++ attached).toList = .short letter attached.toList := by
  rw [Argument.ofChars_eq_iff]
  exact ⟨(OptionName.short?_proper h).1, by simp [Argument.toChars]⟩

section Short

variable {letter : Char} (h : option.short? = some letter)
include h

theorem step_short_nil : step (.short letter []) = .awaits option := by
  simp only [step, (OptionName.short?_proper h).2, OptionName.ofShort?_eq_some_iff.mpr h]

theorem step_short_equals (value : List Char) :
    step (.short letter ('=' :: value)) = .setting (Setting.ofValue? option value) := by
  simp only [step, (OptionName.short?_proper h).2, OptionName.ofShort?_eq_some_iff.mpr h]

theorem step_short_glued {value : List Char} (hne : value ≠ []) (hequals : value.head? ≠ some '=') :
    step (.short letter value) = .setting (Setting.ofValue? option value) := by
  obtain ⟨c, cs, rfl⟩ := List.exists_cons_of_ne_nil hne
  simp only [step, (OptionName.short?_proper h).2, OptionName.ofShort?_eq_some_iff.mpr h]
  split <;> simp_all

end Short

theorem extend?_eq_some_iff {setting? : Option Setting} {next : List Setting} :
    extend? settings setting? = some next ↔ ∃ setting, setting? = some setting ∧
      setting.name ∉ settings.map Setting.name ∧ settings ++ [setting] = next := by
  simp [extend?, Option.bind_eq_some_iff]

section Step

variable (hnew : setting.name ∉ settings.map Setting.name)
include hnew

theorem readFrom_of_setting (h : step (Argument.ofChars argument.toList) = .setting (some setting))
    (rest : List String) :
    readFrom settings none (argument :: rest) = readFrom (settings ++ [setting]) none rest := by
  have hextend := extend?_eq_some_iff.mpr ⟨setting, rfl, hnew, rfl⟩
  simp only [readFrom, h, hextend]

theorem readFrom_of_awaits (h : step (Argument.ofChars argument.toList) = .awaits option)
    (hvalue : Setting.ofValue? option value.toList = some setting) (hplain : IsPlain value)
    (rest : List String) : readFrom settings none (argument :: value :: rest) =
      readFrom (settings ++ [setting]) none rest := by
  have hextend := extend?_eq_some_iff.mpr ⟨setting, rfl, hnew, rfl⟩
  simp only [readFrom, h, ofChars_plain hplain, hvalue, hextend]

/-- A setting is read in whatever way it is written. -/
theorem readFrom_writtenAs {first : List String} (h : setting.WrittenAs first) (rest : List String) :
    readFrom settings none (first ++ rest) = readFrom (settings ++ [setting]) none rest := by
  cases h with
  | @flag option _ hflag =>
      apply readFrom_of_setting hnew
      rw [ofChars_long, step_long_none, isFlag_of_ofFlag? hflag, hflag]
      rfl
  | @long option _ value hvalue hplain =>
      refine readFrom_of_awaits hnew ?_ hvalue hplain rest
      rw [ofChars_long, step_long_none, isFlag_of_ofValue? hvalue]
      rfl
  | @longEquals option _ value hvalue =>
      apply readFrom_of_setting hnew
      have hform : Argument.ofChars ("--" ++ option.long ++ "=" ++ value).toList =
          .long option.long.toList (some value.toList) := by
        rw [Argument.ofChars_eq_iff]
        exact ⟨option.long_proper.2, by simp [Argument.toChars]⟩
      rw [hform, step_long_some, hvalue]
  | @short option letter _ value hletter hvalue hplain =>
      refine readFrom_of_awaits hnew ?_ hvalue hplain rest
      have hform := ofChars_short hletter ""
      rw [String.append_empty] at hform
      rw [hform]
      exact step_short_nil hletter
  | @shortGlued option letter _ value hletter hvalue hne hequals =>
      apply readFrom_of_setting hnew
      have hne : value.toList ≠ [] := by simpa using hne
      rw [ofChars_short hletter, step_short_glued hletter hne hequals, hvalue]
  | @shortEquals option letter _ value hletter hvalue =>
      apply readFrom_of_setting hnew
      have hform := ofChars_short hletter ("=" ++ value)
      rw [← String.append_assoc] at hform
      rw [hform, String.toList_append]
      exact (step_short_equals hletter value.toList).trans (congrArg _ hvalue)

end Step

/-! ## All settings -/

theorem readFrom_written (h : Written more line) (hdistinct : Distinct (settings ++ more))
    (rest : List String) :
    readFrom settings none (line ++ rest) = readFrom (settings ++ more) none rest := by
  induction h generalizing settings with
  | nil => rw [List.append_nil, List.nil_append]
  | @cons setting others first _ hfirst _ ih =>
      have hnew : setting.name ∉ settings.map Setting.name := by
        rw [Distinct, List.map_append, List.nodup_append] at hdistinct
        exact fun hmem => hdistinct.2.2 _ hmem _ (by simp) rfl
      rw [List.append_assoc, readFrom_writtenAs hnew hfirst, ih (by simpa using hdistinct),
        List.append_assoc, List.singleton_append]

/-! ## What is read has been written -/

/-- How an argument is written if it says this. -/
def Step.WrittenAs (argument : String) : Step → Prop
  | .question asked => asked.AskedBy argument
  | .setting setting? => ∀ setting, setting? = some setting → setting.WrittenAs [argument]
  | .awaits option => ∀ (value : String) (setting : Setting),
      Setting.ofValue? option value.toList = some setting → IsPlain value →
      setting.WrittenAs [argument, value]
  | .endOfOptions => argument = "--"
  | .unexpected => True

theorem askedBy_long {name : List Char} {question : Question}
    (h : Question.ofLong? name = some question) :
    question.AskedBy ("--" ++ String.ofList name) := by
  rw [Question.ofLong?] at h
  split at h
  · next hname =>
      cases h
      rw [hname]
      exact .longVersion
  · split at h
    · next hname =>
        cases h
        rw [hname]
        exact .longHelp
    · cases h

theorem askedBy_short {letter : Char} {question : Question}
    (h : Question.ofShort? letter = some question) (attached : String) :
    question.AskedBy ("-" ++ letter.toString ++ attached) := by
  rw [Question.ofShort?] at h
  split at h
  · next hletter =>
      cases h
      rw [hletter]
      exact .shortVersion attached
  · split at h
    · next hletter =>
        cases h
        rw [hletter]
        exact .shortHelp attached
    · cases h

theorem writtenAs_step_long {name : List Char} {value? : Option (List Char)}
    (h : (Argument.long name value?).toChars = argument.toList) :
    (step (.long name value?)).WrittenAs argument := by
  simp only [step]
  split
  · next question hquestion =>
      cases value? with
      | none =>
          obtain rfl : argument = "--" ++ String.ofList name := by
            rw [← String.toList_inj, ← h]
            simp [Argument.toChars]
          exact askedBy_long hquestion
      | some value => trivial
  · split
    · trivial
    · next option hname =>
        obtain rfl := OptionName.ofLong?_eq_some_iff.mp hname
        obtain rfl : argument = "--" ++ option.long := by
          rw [← String.toList_inj, ← h]
          simp [Argument.toChars]
        split
        · exact fun _ hflag => .flag hflag
        · exact fun _ _ hvalue hplain => .long hvalue hplain
    · next option value hname =>
        obtain rfl := OptionName.ofLong?_eq_some_iff.mp hname
        obtain rfl : argument = "--" ++ option.long ++ "=" ++ String.ofList value := by
          rw [← String.toList_inj, ← h]
          simp [Argument.toChars]
        exact fun _ hvalue => .longEquals (by rwa [String.toList_ofList])

theorem writtenAs_step_short {letter : Char} {attached : List Char}
    (h : (Argument.short letter attached).toChars = argument.toList) :
    (step (.short letter attached)).WrittenAs argument := by
  obtain rfl : argument = "-" ++ letter.toString ++ String.ofList attached := by
    rw [← String.toList_inj, ← h]
    simp [Argument.toChars]
  simp only [step]
  split
  · next question hquestion => exact askedBy_short hquestion _
  · split
    · trivial
    · next hletter =>
        rw [String.ofList_nil, String.append_empty]
        exact fun _ _ hvalue hplain =>
          .short (OptionName.ofShort?_eq_some_iff.mp hletter) hvalue hplain
    · next value hletter =>
        intro setting hvalue
        have hform : String.ofList ('=' :: value) = "=" ++ String.ofList value := by
          rw [← String.toList_inj]
          simp
        rw [hform, ← String.append_assoc]
        exact .shortEquals (OptionName.ofShort?_eq_some_iff.mp hletter)
          (by rwa [String.toList_ofList])
    · next hletter hne hequals =>
        intro setting hvalue
        obtain ⟨c, cs, rfl⟩ := List.exists_cons_of_ne_nil hne
        refine .shortGlued (OptionName.ofShort?_eq_some_iff.mp hletter)
          (by rwa [String.toList_ofList]) ?_ ?_
        · simp [← String.toList_inj]
        · rw [String.toList_ofList]
          rintro ⟨rfl⟩
          exact hequals cs rfl

theorem writtenAs_step (argument : String) :
    (step (Argument.ofChars argument.toList)).WrittenAs argument := by
  obtain ⟨-, htext⟩ := Argument.proper_ofChars argument.toList
  generalize Argument.ofChars argument.toList = form at *
  cases form with
  | endOfOptions => exact String.toList_inj.mp htext.symm
  | long name value? => exact writtenAs_step_long htext
  | short letter attached => exact writtenAs_step_short htext
  | plain text => trivial

theorem step_of_askedBy {question : Question} (h : question.AskedBy argument) :
    step (Argument.ofChars argument.toList) = .question question := by
  cases h with
  | longVersion => decide
  | shortVersion attached =>
      have hform : Argument.ofChars ("-V" ++ attached).toList = .short 'V' attached.toList := by
        rw [Argument.ofChars_eq_iff]
        exact ⟨show 'V' ≠ '-' by decide, by simp [Argument.toChars]⟩
      rw [hform]
      rfl
  | longHelp => decide
  | shortHelp attached =>
      have hform : Argument.ofChars ("-h" ++ attached).toList = .short 'h' attached.toList := by
        rw [Argument.ofChars_eq_iff]
        exact ⟨show 'h' ≠ '-' by decide, by simp [Argument.toChars]⟩
      rw [hform]
      rfl

/-- Where reading stops without a mistake. -/
inductive Stops : List String → Prop where
  | nil : Stops []
  | endOfOptions : Stops ["--"]
  | question {question : Question} {argument : String} (h : question.AskedBy argument)
      (others : List String) : Stops (argument :: others)

/-- Whether arguments write settings up to where reading stops, and no option for a second time. -/
def Understood (settings : List Setting) (arguments : List String) : Prop :=
  ∃ more line rest, arguments = line ++ rest ∧ Written more line ∧ Distinct (settings ++ more) ∧
    Stops rest

theorem Understood.stop (hdistinct : Distinct settings) (h : Stops arguments) :
    Understood settings arguments :=
  ⟨[], [], arguments, rfl, .nil, by rwa [List.append_nil], h⟩

theorem Understood.cons {first : List String} (hfirst : setting.WrittenAs first)
    (h : Understood (settings ++ [setting]) rest) : Understood settings (first ++ rest) := by
  obtain ⟨more, line, others, rfl, hline, hdistinct, hothers⟩ := h
  refine ⟨setting :: more, first ++ line, others, ?_, .cons hfirst hline, ?_, hothers⟩
  · rw [List.append_assoc]
  · rwa [← List.append_cons] at hdistinct

theorem distinct_concat (h : Distinct settings) (hnew : setting.name ∉ settings.map Setting.name) :
    Distinct (settings ++ [setting]) := by
  rw [Distinct, List.map_append, List.map_singleton, List.nodup_append]
  refine ⟨h, by simp, ?_⟩
  rintro name hmem other hother rfl
  exact hnew (List.mem_singleton.mp hother ▸ hmem)

theorem understood_of_readFrom (hdistinct : Distinct settings)
    (h : readFrom settings none arguments ≠ .misuse) : Understood settings arguments := by
  -- An option and the argument that it awaits are read together, hence the induction on the length.
  induction hn : arguments.length using Nat.strongRecOn generalizing settings arguments with
  | ind n ih =>
      cases arguments with
      | nil => exact .stop hdistinct .nil
      | cons argument others =>
          have hwritten := writtenAs_step argument
          rw [List.length_cons] at hn
          rw [readFrom] at h
          split at h
          · next hstep =>
              rw [hstep] at hwritten
              exact .stop hdistinct (.question hwritten others)
          · next setting? hstep =>
              rw [hstep] at hwritten
              split at h
              · next hextend =>
                  obtain ⟨setting, rfl, hnew, rfl⟩ := extend?_eq_some_iff.mp hextend
                  have hothers := ih others.length (by omega) (distinct_concat hdistinct hnew) h rfl
                  exact hothers.cons (hwritten setting rfl)
              · exact absurd rfl h
          · next option hstep =>
              rw [hstep] at hwritten
              cases others with
              | nil => exact absurd rfl h
              | cons value others =>
                  rw [List.length_cons] at hn
                  rw [readFrom] at h
                  split at h
                  · next text hplain =>
                      split at h
                      · next hextend =>
                          obtain ⟨setting, hvalue, hnew, rfl⟩ := extend?_eq_some_iff.mp hextend
                          obtain ⟨hproper, rfl⟩ := Argument.ofChars_eq_iff.mp hplain
                          have hothers :=
                            ih others.length (by omega) (distinct_concat hdistinct hnew) h rfl
                          refine hothers.cons (hwritten value setting hvalue ?_)
                          exact fun hhead => String.toList_inj.mp (hproper hhead)
                      · exact absurd rfl h
                  · exact absurd rfl h
          · next hstep =>
              rw [hstep] at hwritten
              obtain rfl : argument = "--" := hwritten
              cases others with
              | nil => exact .stop hdistinct .endOfOptions
              | cons other others => exact absurd rfl h
          · exact absurd rfl h

/-! ## Requests -/

theorem ofSettings_eq_compile_iff {invocation : Invocation} :
    ofSettings settings = compile invocation ↔ Invocation.ofSettings? settings = some invocation := by
  rw [ofSettings]
  cases Invocation.ofSettings? settings with
  | none => simp
  | some other => simp

theorem ofArguments_written (hline : Written settings line) (hdistinct : Distinct settings)
    (rest : List String) : ofArguments (line ++ rest) = readFrom settings none rest :=
  readFrom_written hline (show Distinct ([] ++ settings) from hdistinct) rest

theorem exists_written_of_ofArguments (h : ofArguments arguments ≠ misuse) :
    ∃ settings line rest, arguments = line ++ rest ∧ Written settings line ∧ Distinct settings ∧
      Stops rest :=
  understood_of_readFrom (show Distinct [] from List.nodup_nil) h

/-- Arguments ask for a compilation if they write settings of different options, with two hyphens
behind them or not, and the settings are complete. -/
theorem ofArguments_eq_compile_iff {invocation : Invocation} :
    ofArguments arguments = compile invocation ↔ ∃ settings line,
      (arguments = line ∨ arguments = line ++ ["--"]) ∧ Written settings line ∧ Distinct settings ∧
        Invocation.ofSettings? settings = some invocation := by
  constructor
  · intro h
    obtain ⟨settings, line, rest, rfl, hline, hdistinct, hrest⟩ :=
      exists_written_of_ofArguments (by rw [h]; exact Request.noConfusion)
    rw [ofArguments_written hline hdistinct] at h
    cases hrest with
    | nil =>
        have hsettings := ofSettings_eq_compile_iff.mp h
        exact ⟨settings, line, .inl (List.append_nil _), hline, hdistinct, hsettings⟩
    | endOfOptions =>
        exact ⟨settings, line, .inr rfl, hline, hdistinct, ofSettings_eq_compile_iff.mp h⟩
    | question hasked others =>
        rw [readFrom, step_of_askedBy hasked] at h
        cases h
  · rintro ⟨settings, line, hends, hline, hdistinct, hsettings⟩
    have hrequest := ofSettings_eq_compile_iff.mpr hsettings
    rcases hends with rfl | rfl
    · have hread := ofArguments_written hline hdistinct []
      rw [List.append_nil] at hread
      exact hread.trans hrequest
    · exact (ofArguments_written hline hdistinct ["--"]).trans hrequest

end Request

end RmlAlgebra.CommandLine
