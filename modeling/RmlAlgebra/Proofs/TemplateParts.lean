import RmlAlgebra.Plan.TermMap
import RmlAlgebra.Proofs.Separator

/-! # Qualified templates

A template has one list of parts, which are read from left to right. `Scanned` says what stands next:
a character of text, a closed placeholder, or an opening brace that is never closed. The two searches
for placeholders, for their names and for where a qualifier goes, find the same parts, although they
jump from brace to brace and go on from different places. A qualifier goes into the placeholders only,
so a qualified template has the same parts as before, with longer names. This needs a qualifier
without a closing brace, which would end the name too early. Whatever the qualifier, no two templates
become the same.
-/

namespace RmlAlgebra

namespace Template

/-! ## Parts -/

/-- A part of a template: one character of text or a placeholder with its name. -/
inductive Part where
  | char (c : Char)
  | placeholder (name : List Char)
  deriving DecidableEq, Repr

/-- Where a reader of templates stands: in the text, remembering whether the last character was a
backslash, or in a placeholder, with the name so far in reverse. -/
inductive Place where
  | text (escaped : Bool)
  | name (reversed : List Char)

/-- The parts of a template from a given place on. -/
def partsFrom : Place → List Char → List Part
  | .text _, [] => []
  | .name reversed, [] => ('{' :: reversed.reverse).map .char
  | .text escaped, c :: cs =>
      if c == '{' && !escaped then partsFrom (.name []) cs
      else .char c :: partsFrom (.text (c == '\\')) cs
  | .name reversed, c :: cs =>
      if c == '}' then .placeholder reversed.reverse :: partsFrom (.text false) cs
      else partsFrom (.name (c :: reversed)) cs

def parts (template : List Char) : List Part :=
  partsFrom (.text false) template

namespace Part

def toChars : Part → List Char
  | .char c => [c]
  | .placeholder name => '{' :: name ++ ['}']

def name? : Part → Option (List Char)
  | .char _ => none
  | .placeholder name => some name

/-- Put a qualifier and an underscore before the name of a placeholder. -/
def qualify (qualifier : List Char) : Part → Part
  | .char c => .char c
  | .placeholder name => .placeholder (qualifier ++ '_' :: name)

end Part

/-- Write a template from its parts. -/
def ofParts (parts : List Part) : List Char :=
  parts.flatMap Part.toChars

theorem ofParts_map_char (text : List Char) : ofParts (text.map .char) = text := by
  induction text with
  | nil => rfl
  | cons c cs ih => simpa [ofParts, Part.toChars] using ih

theorem ofParts_partsFrom (place : Place) (text : List Char) :
    ofParts (partsFrom place text) =
      match place with
      | .text _ => text
      | .name reversed => '{' :: reversed.reverse ++ text := by
  induction text generalizing place with
  | nil =>
      cases place with
      | text escaped => rfl
      | name reversed => simpa [partsFrom] using ofParts_map_char ('{' :: reversed.reverse)
  | cons c cs ih =>
      cases place with
      | text escaped =>
          rw [partsFrom]
          split
          · next hopen =>
              have hc : c = '{' := by simpa using (Bool.and_eq_true_iff.mp hopen).1
              rw [ih (.name []), hc]
              rfl
          · have hrest : ofParts (partsFrom (.text (c == '\\')) cs) = cs := ih _
            exact congrArg (c :: ·) hrest
      | name reversed =>
          rw [partsFrom]
          split
          · next hclose =>
              have hc : c = '}' := by simpa using hclose
              have hrest : ofParts (partsFrom (.text false) cs) = cs := ih _
              rw [ofParts, List.flatMap_cons, ← ofParts, hrest, hc]
              simp [Part.toChars]
          · rw [ih (.name (c :: reversed))]
            simp

/-- Taking a template apart loses nothing. -/
theorem ofParts_parts (template : List Char) : ofParts (parts template) = template :=
  ofParts_partsFrom (.text false) template

variable {escaped : Bool} {text text' name : List Char} {ps ps' : List Part}

/-! ## Reading a template -/

theorem partsFrom_name_closed (reversed : List Char) (rest : List Char) (h : '}' ∉ name) :
    partsFrom (.name reversed) (name ++ '}' :: rest) =
      .placeholder (reversed.reverse ++ name) :: partsFrom (.text false) rest := by
  induction name generalizing reversed with
  | nil => simp [partsFrom]
  | cons c cs ih =>
      have hne : (c == '}') = false := beq_eq_false_iff_ne.mpr (List.ne_of_not_mem_cons h).symm
      rw [List.cons_append, partsFrom, hne, if_neg Bool.false_ne_true,
        ih _ (List.not_mem_of_not_mem_cons h)]
      simp

theorem partsFrom_name_open (reversed : List Char) (h : '}' ∉ text) :
    partsFrom (.name reversed) text = ('{' :: reversed.reverse ++ text).map .char := by
  induction text generalizing reversed with
  | nil => simp [partsFrom]
  | cons c cs ih =>
      have hne : (c == '}') = false := beq_eq_false_iff_ne.mpr (List.ne_of_not_mem_cons h).symm
      rw [partsFrom, hne, if_neg Bool.false_ne_true, ih _ (List.not_mem_of_not_mem_cons h)]
      simp

/-- The parts of a text, given whether a backslash precedes it. -/
inductive Scanned : Bool → List Char → List Part → Prop where
  | nil (escaped : Bool) : Scanned escaped [] []
  | char {escaped : Bool} {c : Char} {text : List Char} {ps : List Part}
      (hplain : c = '{' → escaped = true) (hrest : Scanned (c == '\\') text ps) :
      Scanned escaped (c :: text) (.char c :: ps)
  | placeholder {name text : List Char} {ps : List Part} (hname : '}' ∉ name)
      (hrest : Scanned false text ps) :
      Scanned false ('{' :: (name ++ '}' :: text)) (.placeholder name :: ps)
  | unclosed {text : List Char} (htext : '}' ∉ text) :
      Scanned false ('{' :: text) (('{' :: text).map .char)

theorem scanned_partsFrom (escaped : Bool) (text : List Char) :
    Scanned escaped text (partsFrom (.text escaped) text) := by
  match text with
  | [] => exact .nil escaped
  | c :: cs =>
      rw [partsFrom]
      split
      · next hopen =>
          simp only [Bool.and_eq_true, beq_iff_eq, Bool.not_eq_true'] at hopen
          obtain ⟨rfl, rfl⟩ := hopen
          by_cases hclose : '}' ∈ cs
          · -- The placeholder ends at the first closing brace, and reading goes on behind it.
            obtain ⟨name, rest, hcs, hname⟩ := List.eq_append_cons_of_mem hclose
            have hshorter : rest.length < cs.length := by
              rw [hcs, List.length_append, List.length_cons]
              omega
            rw [hcs, partsFrom_name_closed [] rest hname]
            exact .placeholder hname (scanned_partsFrom false rest)
          · rw [partsFrom_name_open [] hclose]
            exact .unclosed hclose
      · next hopen =>
          refine .char (fun hc => ?_) (scanned_partsFrom _ cs)
          simpa [hc] using hopen
termination_by text.length
decreasing_by all_goals simp_wf <;> omega

theorem Scanned.eq_partsFrom (h : Scanned escaped text ps) :
    ps = partsFrom (.text escaped) text := by
  induction h with
  | nil => rfl
  | @char escaped c text ps hplain hrest ih =>
      rw [partsFrom, if_neg, ih]
      simpa using hplain
  | placeholder hname hrest ih =>
      rw [partsFrom, if_pos (by rfl), partsFrom_name_closed [] _ hname, ih]
      rfl
  | unclosed htext =>
      rw [partsFrom, if_pos (by rfl), partsFrom_name_open [] htext]
      rfl

/-! ## Renamed placeholders -/

/-- A part with its placeholder, if it is one, renamed. -/
def Part.rename (f : List Char → List Char) : Part → Part
  | .char c => .char c
  | .placeholder name => .placeholder (f name)

theorem map_rename_char (f : List Char → List Char) (text : List Char) :
    (text.map Part.char).map (Part.rename f) = text.map .char := by
  rw [List.map_map]
  rfl

/-- A text with renamed placeholders has the renamed parts, if no new name ends too early. -/
theorem Scanned.rename {f : List Char → List Char} (hf : ∀ name, '}' ∉ name → '}' ∉ f name)
    (h : Scanned escaped text ps) :
    Scanned escaped (ofParts (ps.map (Part.rename f))) (ps.map (Part.rename f)) := by
  induction h with
  | nil escaped => exact .nil escaped
  | char hplain hrest ih => exact .char hplain ih
  | @placeholder name text ps hname hrest ih =>
      have htext : ofParts ((Part.placeholder name :: ps).map (Part.rename f)) =
          '{' :: (f name ++ '}' :: ofParts (ps.map (Part.rename f))) := by
        simp [ofParts, Part.rename, Part.toChars]
      rw [htext]
      exact .placeholder (hf name hname) ih
  | unclosed htext =>
      rw [map_rename_char, ofParts_map_char]
      exact .unclosed htext

/-! ## Qualifiers -/

theorem Part.qualify_eq_rename (qualifier : List Char) :
    Part.qualify qualifier = Part.rename (qualifier ++ '_' :: ·) := by
  funext p
  cases p with
  | char c => rfl
  | placeholder name => rfl

section

variable (qualifier : List Char)

theorem ofParts_qualify_char (c : Char) (ps : List Part) :
    ofParts ((.char c :: ps).map (Part.qualify qualifier)) =
      c :: ofParts (ps.map (Part.qualify qualifier)) :=
  rfl

theorem ofParts_qualify_placeholder (name : List Char) (ps : List Part) :
    ofParts ((.placeholder name :: ps).map (Part.qualify qualifier)) =
      '{' :: ((qualifier ++ '_' :: name) ++ '}' :: ofParts (ps.map (Part.qualify qualifier))) := by
  simp [ofParts, Part.qualify, Part.toChars]

theorem ofParts_qualify_text (text : List Char) :
    ofParts ((text.map Part.char).map (Part.qualify qualifier)) = text := by
  rw [Part.qualify_eq_rename, map_rename_char, ofParts_map_char]

end

/-! ## Searches from brace to brace -/

/-- Up to the first brace there is text only, and its last character decides about the brace. -/
theorem partsFrom_text_append (escaped : Bool) {before : List Char} (h : '{' ∉ before)
    (rest : List Char) : partsFrom (.text escaped) (before ++ rest) =
      before.map .char ++
        partsFrom (.text ((before.getLast?.map (· == '\\')).getD escaped)) rest := by
  induction before generalizing escaped with
  | nil => rfl
  | cons c cs ih =>
      have hopen : (c == '{') = false := beq_eq_false_iff_ne.mpr (List.ne_of_not_mem_cons h).symm
      have hlast : ((c :: cs).getLast?.map (· == '\\')).getD escaped =
          (cs.getLast?.map (· == '\\')).getD (c == '\\') := by
        rw [List.getLast?_cons]
        cases cs.getLast? <;> rfl
      rw [List.cons_append, partsFrom, hopen, Bool.false_and, if_neg Bool.false_ne_true,
        ih _ (List.not_mem_of_not_mem_cons h), hlast]
      rfl

theorem getD_map_getLast? (before : List Char) :
    (before.getLast?.map (· == '\\')).getD false = escapes before := by
  rw [escapes]
  cases before.getLast? <;> rfl

/-- The parts of a text that is cut at its first opening brace. -/
theorem parts_of_cut? {before rest : List Char} (h : Text.cut? ['{'] text = some (before, rest)) :
    parts text = before.map .char ++
      if escapes before then .char '{' :: parts rest else partsFrom (.name []) rest := by
  have hbefore := Text.clear_singleton_iff.mp (Text.clear_of_cut? (by decide) h)
  rw [Text.eq_of_cut? h, List.append_assoc, parts, partsFrom_text_append false hbefore,
    getD_map_getLast?, List.singleton_append, partsFrom]
  cases escapes before <;> rfl

theorem parts_of_not_mem (h : '{' ∉ text) : parts text = text.map .char := by
  have hparts := partsFrom_text_append false h []
  rw [List.append_nil] at hparts
  rw [parts, hparts, partsFrom, List.append_nil]

/-- The rest of a text behind an opening brace, cut where the placeholder closes. -/
theorem partsFrom_name_of_cut? {name after : List Char}
    (h : Text.cut? ['}'] text = some (name, after)) :
    partsFrom (.name []) text = .placeholder name :: parts after := by
  have hname := Text.clear_singleton_iff.mp (Text.clear_of_cut? (by decide) h)
  rw [Text.eq_of_cut? h, List.append_assoc, List.singleton_append,
    partsFrom_name_closed [] after hname]
  rfl

theorem Scanned.eq_map_char (h : Scanned escaped text ps) (hclose : '}' ∉ text) :
    ps = text.map .char := by
  induction h with
  | nil => rfl
  | char hplain hrest ih => rw [List.map_cons, ih (List.not_mem_of_not_mem_cons hclose)]
  | placeholder => exact absurd (by simp) hclose
  | unclosed => rfl

theorem not_mem_of_cut?_eq_none {c : Char} (h : Text.cut? [c] text = none) : c ∉ text := by
  rwa [Text.cut?_eq_none_iff (by simp), Text.singleton_infix_iff] at h

theorem filterMap_name?_map_char (text : List Char) :
    (text.map Part.char).filterMap Part.name? = [] := by
  rw [List.filterMap_map]
  exact List.filterMap_eq_nil_iff.mpr fun _ _ => rfl

theorem referencesIn_eq_parts (text : List Char) :
    referencesIn text = (parts text).filterMap Part.name? := by
  fun_induction referencesIn text with
  | case1 text hopen =>
      rw [parts_of_not_mem (not_mem_of_cut?_eq_none hopen), filterMap_name?_map_char]
  | case2 text before rest hopen hescapes ih =>
      rw [ih, parts_of_cut? hopen, if_pos hescapes, List.filterMap_append,
        filterMap_name?_map_char]
      rfl
  | case3 text before rest hopen hescapes hclose =>
      rw [parts_of_cut? hopen, if_neg hescapes,
        partsFrom_name_open [] (not_mem_of_cut?_eq_none hclose), List.filterMap_append,
        filterMap_name?_map_char, filterMap_name?_map_char]
      rfl
  | case4 text before rest hopen hescapes name after hclose ih =>
      rw [ih, parts_of_cut? hopen, if_neg hescapes, partsFrom_name_of_cut? hclose,
        List.filterMap_append, filterMap_name?_map_char]
      rfl

theorem references_eq_parts (template : String) :
    references template =
      ((parts template.toList).filterMap Part.name?).map String.ofList := by
  rw [references, referencesIn_eq_parts]

theorem ofParts_append (ps ps' : List Part) : ofParts (ps ++ ps') = ofParts ps ++ ofParts ps' :=
  List.flatMap_append

theorem parts_close (text : List Char) : parts ('}' :: text) = .char '}' :: parts text :=
  rfl

theorem qualifyIn_eq_parts (qualifier text : List Char) :
    qualifyIn qualifier text = ofParts ((parts text).map (Part.qualify qualifier)) := by
  fun_induction qualifyIn qualifier text with
  | case1 text hopen =>
      rw [parts_of_not_mem (not_mem_of_cut?_eq_none hopen), ofParts_qualify_text]
  | case2 text before rest hopen hclose =>
      have hrest := not_mem_of_cut?_eq_none hclose
      have hparts : parts text = (before ++ '{' :: rest).map .char := by
        rw [parts_of_cut? hopen, parts, (scanned_partsFrom false rest).eq_map_char hrest,
          partsFrom_name_open [] hrest]
        split <;> simp
      rw [hparts, ofParts_qualify_text, Text.eq_of_cut? hopen, List.append_assoc,
        List.singleton_append]
  | case3 text before rest hopen name after hclose hescapes ih =>
      rw [parts_of_cut? hopen, if_pos hescapes, List.map_append, ofParts_append,
        ofParts_qualify_text, ofParts_qualify_char, ih]
  | case4 text before rest hopen name after hclose hescapes ih =>
      rw [parts_of_cut? hopen, if_neg hescapes, partsFrom_name_of_cut? hclose, List.map_append,
        ofParts_append, ofParts_qualify_text, ofParts_qualify_placeholder, ih, parts_close,
        ofParts_qualify_char]

theorem qualify_eq_parts (qualifier template : String) : qualify qualifier template =
    String.ofList (ofParts ((parts template.toList).map (Part.qualify qualifier.toList))) := by
  rw [qualify, qualifyIn_eq_parts]

/-! ## Qualified parts -/

/-- A qualified text has the qualified parts. -/
theorem Scanned.qualify {qualifier : List Char} (hqualifier : '}' ∉ qualifier)
    (h : Scanned escaped text ps) :
    Scanned escaped (ofParts (ps.map (Part.qualify qualifier))) (ps.map (Part.qualify qualifier)) := by
  rw [Part.qualify_eq_rename]
  refine h.rename fun name hname => ?_
  simp [hqualifier, hname]

theorem parts_qualify {qualifier : String} (h : '}' ∉ qualifier.toList) (template : String) :
    parts (qualify qualifier template).toList =
      (parts template.toList).map (Part.qualify qualifier.toList) := by
  rw [qualify_eq_parts, String.toList_ofList]
  exact ((scanned_partsFrom false template.toList).qualify h).eq_partsFrom.symm

theorem Part.name?_qualify (qualifier : List Char) (p : Part) :
    (p.qualify qualifier).name? = p.name?.map (qualifier ++ '_' :: ·) := by
  cases p with
  | char c => rfl
  | placeholder name => rfl

theorem ofList_qualified (qualifier : String) (name : List Char) :
    String.ofList (qualifier.toList ++ '_' :: name) = qualifier ++ "_" ++ String.ofList name := by
  rw [← String.toList_inj]
  simp

/-- The placeholders of a qualified template are the qualified placeholders. -/
theorem references_qualify {qualifier : String} (h : '}' ∉ qualifier.toList) (template : String) :
    references (qualify qualifier template) =
      (references template).map (qualifier ++ "_" ++ ·) := by
  have hnames : Part.name? ∘ Part.qualify qualifier.toList =
      fun p => p.name?.map (qualifier.toList ++ '_' :: ·) :=
    funext (Part.name?_qualify qualifier.toList)
  rw [references_eq_parts, parts_qualify h, List.filterMap_map, hnames, ← List.map_filterMap,
    references_eq_parts, List.map_map, List.map_map]
  exact List.map_congr_left fun name _ => ofList_qualified qualifier name

theorem append_close_inj {name name' rest rest' : List Char} (hname : '}' ∉ name)
    (hname' : '}' ∉ name') (h : name ++ '}' :: rest = name' ++ '}' :: rest') :
    name = name' ∧ rest = rest' := by
  induction name generalizing name' with
  | nil =>
      cases name' with
      | nil => simpa using h
      | cons d ds =>
          rw [List.nil_append, List.cons_append, List.cons.injEq] at h
          exact absurd (h.1 ▸ List.mem_cons_self) hname'
  | cons c cs ih =>
      cases name' with
      | nil =>
          rw [List.nil_append, List.cons_append, List.cons.injEq] at h
          exact absurd (h.1 ▸ List.mem_cons_self) hname
      | cons d ds =>
          rw [List.cons_append, List.cons_append, List.cons.injEq] at h
          obtain ⟨rfl, hrest⟩ := ih (List.not_mem_of_not_mem_cons hname)
            (List.not_mem_of_not_mem_cons hname') h.2
          exact ⟨by rw [h.1], hrest⟩

/-- Two texts that are the same once they are qualified were the same before. The scans of the two
run in step: neither can open a placeholder where the other does not. -/
theorem Scanned.eq_of_qualify {qualifier : List Char} (h : Scanned escaped text ps)
    (h' : Scanned escaped text' ps')
    (heq : ofParts (ps.map (Part.qualify qualifier)) = ofParts (ps'.map (Part.qualify qualifier))) :
    text = text' := by
  induction h generalizing text' ps' with
  | nil =>
      cases h' with
      | nil => rfl
      | char => exact absurd heq.symm (List.cons_ne_nil _ _)
      | placeholder => exact absurd heq.symm (List.cons_ne_nil _ _)
      | unclosed => exact absurd heq.symm (List.cons_ne_nil _ _)
  | @char escaped c text ps hplain hrest ih =>
      rw [ofParts_qualify_char] at heq
      cases h' with
      | nil => exact absurd heq (List.cons_ne_nil _ _)
      | char hplain' hrest' =>
          obtain ⟨rfl, htail⟩ := List.cons.inj heq
          rw [ih hrest' htail]
      | placeholder =>
          rw [ofParts_qualify_placeholder] at heq
          exact absurd (hplain (List.cons.inj heq).1) Bool.false_ne_true
      | unclosed =>
          rw [ofParts_qualify_text] at heq
          exact absurd (hplain (List.cons.inj heq).1) Bool.false_ne_true
  | @placeholder name text ps hname hrest ih =>
      rw [ofParts_qualify_placeholder] at heq
      cases h' with
      | nil => exact absurd heq (List.cons_ne_nil _ _)
      | char hplain' =>
          rw [ofParts_qualify_char] at heq
          exact absurd (hplain' (List.cons.inj heq).1.symm) Bool.false_ne_true
      | placeholder hname' hrest' =>
          rw [ofParts_qualify_placeholder, List.append_assoc, List.append_assoc, List.cons.injEq,
            List.append_cancel_left_eq, List.cons_append, List.cons_append, List.cons.injEq] at heq
          obtain ⟨rfl, htail⟩ := append_close_inj hname hname' heq.2.2
          rw [ih hrest' htail]
      | unclosed htext' =>
          rw [ofParts_qualify_text] at heq
          exact absurd ((List.cons.inj heq).2 ▸ List.mem_append_right _ List.mem_cons_self) htext'
  | @unclosed text htext =>
      rw [ofParts_qualify_text] at heq
      cases h' with
      | nil => exact absurd heq (List.cons_ne_nil _ _)
      | char hplain' =>
          rw [ofParts_qualify_char] at heq
          exact absurd (hplain' (List.cons.inj heq).1.symm) Bool.false_ne_true
      | placeholder =>
          rw [ofParts_qualify_placeholder] at heq
          exact absurd ((List.cons.inj heq).2 ▸ List.mem_append_right _ List.mem_cons_self) htext
      | unclosed =>
          rw [ofParts_qualify_text] at heq
          exact heq

theorem qualify_inj {qualifier template template' : String}
    (h : qualify qualifier template = qualify qualifier template') : template = template' := by
  rw [qualify_eq_parts, qualify_eq_parts, String.ofList_inj] at h
  exact String.toList_inj.mp
    ((scanned_partsFrom false _).eq_of_qualify (scanned_partsFrom false _) h)

end Template

namespace TermMap

variable {qualifier : String}

theorem references_qualify (h : '}' ∉ qualifier.toList) (t : TermMap) :
    (t.qualify qualifier).references = t.references.map (qualifier ++ "_" ++ ·) := by
  obtain ⟨value, kind, type⟩ := t
  rcases kind with _ | _ | _ | _
  · rfl
  · rfl
  · rfl
  · exact Template.references_qualify h value

theorem qualify_inj {t u : TermMap} (h : t.qualify qualifier = u.qualify qualifier) : t = u := by
  obtain ⟨value, kind, type⟩ := t
  obtain ⟨value', kind', type'⟩ := u
  -- Only terms of one kind can agree, and a kind is qualified in one way.
  have hkind : kind = kind' := by
    have := congrArg TermMap.kind h
    rcases kind with _ | _ | _ | _ <;> rcases kind' with _ | _ | _ | _ <;> simp_all [qualify]
  subst hkind
  rcases kind with _ | _ | _ | _
  · exact h
  · exact h
  · simpa [qualify, ← String.toList_inj] using h
  · simp only [qualify, mk.injEq] at h ⊢
    exact ⟨Template.qualify_inj h.1, h.2⟩

end TermMap

end RmlAlgebra
