import RmlAlgebra.Iri.Resolve
import RmlAlgebra.Proofs.Separator

/-! # The text of an IRI

A valid reference holds only certain characters, whichever of its components they stand in, and a
text is put together again from the components of its reference. So every IRI that resolving gives
starts with the letter of a scheme and holds no character that could separate it from other text.
-/

namespace RmlAlgebra

namespace Text

/-- A character of a text belongs to a separator or to a piece. -/
theorem mem_pieces_of_mem {separator : List Char} (hne : separator ≠ []) {text : List Char} {c : Char}
    (h : c ∈ text) : c ∈ separator ∨ ∃ piece ∈ pieces separator text, c ∈ piece := by
  induction hn : text.length using Nat.strongRecOn generalizing text with
  | ind n ih =>
      rw [pieces_eq_cut? hne]
      cases hcut : cut? separator text with
      | none => exact .inr ⟨text, by simp, h⟩
      | some pair =>
          obtain ⟨before, after⟩ := pair
          have htext := eq_of_cut? hcut
          have hpos := List.length_pos_iff.mpr hne
          have hlt : after.length < n := by
            rw [← hn, htext]
            simp only [List.length_append]
            omega
          rw [htext, List.mem_append, List.mem_append] at h
          rcases h with (h | h) | h
          · exact .inr ⟨before, by simp, h⟩
          · exact .inl h
          · rcases ih after.length hlt h rfl with h | ⟨piece, hpiece, h⟩
            · exact .inl h
            · exact .inr ⟨piece, List.mem_cons_of_mem _ hpiece, h⟩

end Text

namespace Iri

/-- Whether a character may stand anywhere in an IRI. -/
def isIriChar (c : Char) : Bool :=
  isQueryChar c || c == '%' || c == '[' || c == ']' || c == '#'

/-! ## Character classes -/

theorem isIriChar_of_query {c : Char} (h : isQueryChar c = true) : isIriChar c = true := by
  simp [isIriChar, h]

theorem isIriChar_of_fragment {c : Char} (h : isFragmentChar c = true) : isIriChar c = true :=
  isIriChar_of_query (by simp [isQueryChar, h])

theorem isIriChar_of_path {c : Char} (h : isPathChar c = true) : isIriChar c = true :=
  isIriChar_of_fragment (by simp [isFragmentChar, h])

theorem isIriChar_of_host {c : Char} (h : isHostChar c = true) : isIriChar c = true :=
  isIriChar_of_path (by simp [isPathChar, h])

theorem isIriChar_of_user {c : Char} (h : isUserChar c = true) : isIriChar c = true := by
  simp only [isUserChar, Bool.or_eq_true, beq_iff_eq] at h
  rcases h with h | rfl
  · exact isIriChar_of_host h
  · decide

theorem isIriChar_of_alphanum {c : Char} (h : c.isAlphanum = true) : isIriChar c = true :=
  isIriChar_of_host (by simp [isHostChar, isUnreserved, h])

theorem isIriChar_of_digit {c : Char} (h : c.isDigit = true) : isIriChar c = true :=
  isIriChar_of_alphanum (by simp [Char.isAlphanum, h])

theorem isIriChar_of_scheme {c : Char} (h : isSchemeChar c = true) : isIriChar c = true := by
  simp only [isSchemeChar, Bool.or_eq_true, beq_iff_eq] at h
  rcases h with ((h | rfl) | rfl) | rfl
  · exact isIriChar_of_alphanum h
  · decide
  · decide
  · decide

theorem isIriChar_of_hex {c : Char} (h : isHexDigit c = true) : isIriChar c = true := by
  simp only [isHexDigit, Bool.or_eq_true, Bool.and_eq_true, decide_eq_true_eq] at h
  apply isIriChar_of_alphanum
  show (c.isUpper || c.isLower || c.isDigit) = true
  rcases h with (h | ⟨hlow, hhigh⟩) | ⟨hlow, hhigh⟩
  · simp [h]
  · have hlower : c.isLower = true := by
      show (decide ('a' ≤ c) && decide (c ≤ 'z')) = true
      simp only [Bool.and_eq_true, decide_eq_true_eq]
      exact ⟨hlow, Char.le_trans hhigh (by decide)⟩
    simp [hlower]
  · have hupper : c.isUpper = true :=
      decide_eq_true ⟨hlow, Char.le_trans hhigh (by decide)⟩
    simp [hupper]

theorem isIriChar_marks (marks : List Char) (h : marks.all isIriChar = true) :
    ∀ c ∈ marks, isIriChar c = true :=
  List.all_eq_true.mp h

theorem isIriChar_of_isEncoded {allowed : Char → Bool}
    (hallowed : ∀ c, allowed c = true → isIriChar c = true) {text : List Char}
    (h : isEncoded allowed text = true) : ∀ c ∈ text, isIriChar c = true := by
  fun_induction isEncoded allowed text with
  | case1 => simp
  | case2 high low cs ih =>
      simp only [Bool.and_eq_true] at h
      simp only [List.forall_mem_cons]
      exact ⟨by decide, isIriChar_of_hex h.1.1, isIriChar_of_hex h.1.2, ih h.2⟩
  | case3 c cs _ ih =>
      simp only [Bool.and_eq_true] at h
      simp only [List.forall_mem_cons]
      exact ⟨hallowed c h.1.2, ih h.2⟩

/-! ## Authorities -/

theorem isIriChar_of_isNumeral {text : List Char} (h : Text.isNumeral text = true) :
    ∀ c ∈ text, isIriChar c = true := by
  simp only [Text.isNumeral, Bool.and_eq_true, List.all_eq_true] at h
  exact fun c hc => isIriChar_of_digit (h.2 c hc)

theorem isIriChar_of_pieces (mark : Char) (hmark : isIriChar mark = true) {text : List Char}
    (h : ∀ piece ∈ Text.pieces [mark] text, ∀ c ∈ piece, isIriChar c = true) :
    ∀ c ∈ text, isIriChar c = true := by
  intro c hc
  rcases Text.mem_pieces_of_mem (List.cons_ne_nil mark []) hc with hc | ⟨piece, hpiece, hc⟩
  · rw [List.mem_singleton.mp hc]
    exact hmark
  · exact h piece hpiece c hc

theorem isIriChar_of_isAddress4 {text : List Char} (h : isAddress4 text = true) :
    ∀ c ∈ text, isIriChar c = true := by
  simp only [isAddress4, Bool.and_eq_true, List.all_eq_true] at h
  apply isIriChar_of_pieces '.' (by decide)
  intro piece hpiece
  have hoctet := h.2 piece hpiece
  simp only [isOctet, Bool.and_eq_true] at hoctet
  exact isIriChar_of_isNumeral hoctet.1.1

theorem isIriChar_of_isGroup {text : List Char} (h : isGroup text = true) :
    ∀ c ∈ text, isIriChar c = true := by
  simp only [isGroup, Bool.and_eq_true, List.all_eq_true] at h
  exact fun c hc => isIriChar_of_hex (h.2 c hc)

theorem isIriChar_of_groupCount? {octetsAllowed : Bool} {texts : List (List Char)} {n : Nat}
    (h : groupCount? octetsAllowed texts = some n) :
    ∀ text ∈ texts, ∀ c ∈ text, isIriChar c = true := by
  fun_induction groupCount? octetsAllowed texts generalizing n with
  | case1 => simp
  | case2 last hgroup => simpa using isIriChar_of_isGroup hgroup
  | case3 last _ haddress =>
      simp only [Bool.and_eq_true] at haddress
      simpa using isIriChar_of_isAddress4 haddress.2
  | case4 => simp at h
  | case5 group others _ hgroup ih =>
      obtain ⟨m, hm, -⟩ := Option.map_eq_some_iff.mp h
      simp only [List.forall_mem_cons]
      exact ⟨isIriChar_of_isGroup hgroup, ih hm⟩
  | case6 => simp at h

theorem isIriChar_of_groups {octetsAllowed : Bool} {text : List Char} {n : Nat}
    (h : groupCount? octetsAllowed (groups text) = some n) : ∀ c ∈ text, isIriChar c = true := by
  by_cases hempty : text.isEmpty = true
  · simp [List.isEmpty_iff.mp hempty]
  · rw [groups, if_neg hempty] at h
    exact isIriChar_of_pieces ':' (by decide) (isIriChar_of_groupCount? h)

theorem isIriChar_of_isAddress6 {text : List Char} (h : isAddress6 text = true) :
    ∀ c ∈ text, isIriChar c = true := by
  unfold isAddress6 at h
  split at h
  · exact isIriChar_of_groups (by simpa using h)
  · next left right hcut =>
      split at h
      · next before after hleft hright =>
          rw [Text.eq_of_cut? hcut]
          simp only [List.forall_mem_append]
          exact ⟨⟨isIriChar_of_groups hleft, isIriChar_marks [':', ':'] rfl⟩, isIriChar_of_groups hright⟩
      · simp at h

theorem isIriChar_of_isFutureAddress {text : List Char} (h : isFutureAddress text = true) :
    ∀ c ∈ text, isIriChar c = true := by
  unfold isFutureAddress at h
  split at h
  · next v rest =>
      split at h
      · next version address hcut =>
          simp only [Bool.and_eq_true, Bool.or_eq_true, beq_iff_eq, List.all_eq_true] at h
          obtain ⟨⟨⟨⟨hv, -⟩, hversion⟩, -⟩, haddress⟩ := h
          rw [Text.eq_of_cut? hcut]
          rw [List.forall_mem_cons, List.forall_mem_append, List.forall_mem_append]
          refine ⟨?_, ⟨fun c hc => isIriChar_of_hex (hversion c hc), isIriChar_marks ['.'] rfl⟩,
            fun c hc => isIriChar_of_user (haddress c hc).1⟩
          rcases hv with rfl | rfl <;> decide
      · simp at h
  · simp at h

theorem isIriChar_of_isPortPart {text : List Char} (h : isPortPart text = true) :
    ∀ c ∈ text, isIriChar c = true := by
  cases text with
  | nil => simp
  | cons c digits =>
      simp only [isPortPart, Bool.and_eq_true, beq_iff_eq, List.all_eq_true] at h
      obtain ⟨rfl, hdigits⟩ := h
      simp only [List.forall_mem_cons]
      exact ⟨by decide, fun c hc => isIriChar_of_digit (hdigits c hc)⟩

theorem isIriChar_of_isHostPart {text : List Char} (h : isHostPart text = true) :
    ∀ c ∈ text, isIriChar c = true := by
  unfold isHostPart at h
  split at h
  · next rest =>
      split at h
      · next address port hcut =>
          simp only [Bool.and_eq_true, Bool.or_eq_true] at h
          have haddress : ∀ c ∈ address, isIriChar c = true :=
            h.1.elim isIriChar_of_isAddress6 isIriChar_of_isFutureAddress
          rw [Text.eq_of_cut? hcut]
          rw [List.forall_mem_cons, List.forall_mem_append, List.forall_mem_append]
          exact ⟨by decide, ⟨haddress, isIriChar_marks [']'] rfl⟩, isIriChar_of_isPortPart h.2⟩
      · simp at h
  · simp only [Bool.and_eq_true] at h
    rw [← List.takeWhile_append_dropWhile (p := (· != ':')) (l := text)]
    simp only [List.forall_mem_append]
    exact ⟨isIriChar_of_isEncoded (fun c => isIriChar_of_host) h.1, isIriChar_of_isPortPart h.2⟩

theorem isIriChar_of_isAuthority {text : List Char} (h : isAuthority text = true) :
    ∀ c ∈ text, isIriChar c = true := by
  unfold isAuthority at h
  split at h
  · next user host hcut =>
      simp only [Bool.and_eq_true] at h
      rw [Text.eq_of_cut? hcut]
      simp only [List.forall_mem_append]
      exact ⟨⟨isIriChar_of_isEncoded (fun c => isIriChar_of_user) h.1, isIriChar_marks ['@'] rfl⟩,
        isIriChar_of_isHostPart h.2⟩
  · exact isIriChar_of_isHostPart h

/-! ## References -/

/-- A text that can be the scheme of an IRI. -/
def IsScheme (text : List Char) : Prop :=
  text.head?.any Char.isAlpha = true ∧ ∀ c ∈ text, isSchemeChar c = true

theorem scheme?_eq_some_iff {text scheme rest : List Char} :
    scheme? text = some (scheme, rest) ↔
      text = scheme ++ ':' :: rest ∧ IsScheme scheme := by
  constructor
  · intro h
    unfold scheme? at h
    split at h
    · simp at h
    · next c cs =>
        split at h
        · next halpha =>
            split at h
            · next rest' hdrop =>
                obtain ⟨rfl, rfl⟩ : (c :: cs).takeWhile isSchemeChar = scheme ∧ rest' = rest := by
                  simpa using h
                have hscheme : isSchemeChar c = true := by
                  simp [isSchemeChar, Char.isAlphanum, halpha]
                refine ⟨?_, by simp [hscheme, halpha], ?_⟩
                · rw [← hdrop, List.takeWhile_append_dropWhile]
                · exact fun d hd => List.all_eq_true.mp List.all_takeWhile d hd
            · simp at h
        · simp at h
  · rintro ⟨rfl, hhead, hall⟩
    cases scheme with
    | nil => simp at hhead
    | cons c cs =>
        have halpha : c.isAlpha = true := by simpa using hhead
        have hcolon : isSchemeChar ':' = false := by decide
        have htake : (c :: cs ++ ':' :: rest).takeWhile isSchemeChar = c :: cs := by
          rw [List.takeWhile_append_of_pos hall]
          simp [hcolon]
        have hdrop : (c :: cs ++ ':' :: rest).dropWhile isSchemeChar = ':' :: rest := by
          rw [List.dropWhile_append_of_pos hall]
          simp [hcolon]
        rw [List.cons_append] at htake hdrop ⊢
        simp [scheme?, halpha, htake, hdrop]

namespace Reference

theorem toChars_ofRelative (scheme : Option (List Char)) (text : List Char) :
    (ofRelative scheme text).toChars = scheme.elim [] (· ++ [':']) ++ text ∧
      (ofRelative scheme text).scheme = scheme := by
  have hfragment := splitAt_append '#' text
  have hquery := splitAt_append '?' (splitAt '#' text).1
  unfold ofRelative
  rcases hf : splitAt '#' text with ⟨front, fragment⟩
  rw [hf] at hfragment hquery
  rcases hq : splitAt '?' front with ⟨path, query⟩
  rw [hq] at hquery
  simp only at hfragment hquery ⊢
  simp only [hq]
  split
  · next rest =>
      refine ⟨?_, rfl⟩
      have hrest := List.takeWhile_append_dropWhile (p := (· != '/')) (l := rest)
      simp only [toChars, Option.elim_some]
      rw [← hfragment, ← hquery]
      conv => rhs; rw [← hrest]
      simp
  · refine ⟨?_, rfl⟩
    simp only [toChars, Option.elim_none, List.append_nil]
    rw [← hfragment, ← hquery]
    simp

theorem toChars_ofChars (text : List Char) : (ofChars text).toChars = text := by
  unfold ofChars
  split
  · next scheme rest h =>
      rw [(toChars_ofRelative (some scheme) rest).1, (scheme?_eq_some_iff.mp h).1]
      simp
  · simpa using (toChars_ofRelative none text).1

theorem scheme_ofChars (text : List Char) :
    (ofChars text).scheme = (scheme? text).map Prod.fst := by
  unfold ofChars
  split
  · next scheme rest h => simp [h, toChars_ofRelative]
  · next h => simp [h, toChars_ofRelative]

theorem isIriChar_of_isValid {r : Reference} (h : r.isValid = true)
    (hscheme : ∀ scheme, r.scheme = some scheme → ∀ c ∈ scheme, isIriChar c = true) :
    ∀ c ∈ r.toChars, isIriChar c = true := by
  obtain ⟨scheme, authority, path, query, fragment⟩ := r
  simp only [isValid, Bool.and_eq_true] at h
  obtain ⟨⟨⟨⟨hauthority, hpath⟩, -⟩, hquery⟩, hfragment⟩ := h
  -- A component that may be missing, with the characters that introduce or end it.
  have part {o : Option (List Char)} {f : List Char → List Char}
      (ho : ∀ text, o = some text → ∀ c ∈ f text, isIriChar c = true) :
      ∀ c ∈ o.elim [] f, isIriChar c = true := by
    cases o with
    | none => simp
    | some text => exact ho text rfl
  simp only [toChars, List.forall_mem_append]
  refine ⟨⟨⟨⟨part ?_, part ?_⟩, ?_⟩, part ?_⟩, part ?_⟩
  · intro text htext
    simp only [List.forall_mem_append]
    exact ⟨hscheme text htext, isIriChar_marks [':'] rfl⟩
  · rintro text rfl
    simp only [List.forall_mem_cons]
    exact ⟨by decide, by decide, isIriChar_of_isAuthority hauthority⟩
  · exact isIriChar_of_isEncoded (fun c => isIriChar_of_path) hpath
  · rintro text rfl
    simp only [List.forall_mem_cons]
    exact ⟨by decide, isIriChar_of_isEncoded (fun c => isIriChar_of_query) hquery⟩
  · rintro text rfl
    simp only [List.forall_mem_cons]
    exact ⟨by decide, isIriChar_of_isEncoded (fun c => isIriChar_of_fragment) hfragment⟩

end Reference

/-! ## Absolute texts -/

/-- A text with a scheme and without the bar that separates terms. -/
structure Absolute (text : List Char) : Prop where
  scheme : (scheme? text).isSome = true
  bar : '|' ∉ text

theorem Absolute.head_isAlpha {text : List Char} (h : Absolute text) :
    text.head?.any Char.isAlpha = true := by
  obtain ⟨⟨scheme, rest⟩, hscheme⟩ := Option.isSome_iff_exists.mp h.scheme
  obtain ⟨rfl, halpha, -⟩ := scheme?_eq_some_iff.mp hscheme
  cases scheme with
  | nil => simp at halpha
  | cons c cs => simpa using halpha

theorem Absolute.append {text : List Char} (h : Absolute text) {more : List Char}
    (hmore : '|' ∉ more) : Absolute (text ++ more) := by
  obtain ⟨⟨scheme, rest⟩, hcut⟩ := Option.isSome_iff_exists.mp h.scheme
  obtain ⟨htext, hscheme⟩ := scheme?_eq_some_iff.mp hcut
  constructor
  · rw [Option.isSome_iff_exists]
    refine ⟨(scheme, rest ++ more), scheme?_eq_some_iff.mpr ⟨?_, hscheme⟩⟩
    rw [htext, List.append_assoc, List.cons_append]
  · rw [List.mem_append]
    exact fun hbar => hbar.elim h.bar hmore

theorem isScheme_of_ofChars {text scheme : List Char}
    (h : (Reference.ofChars text).scheme = some scheme) : IsScheme scheme := by
  rw [Reference.scheme_ofChars] at h
  obtain ⟨⟨scheme', rest⟩, hscheme, rfl⟩ := Option.map_eq_some_iff.mp h
  exact (scheme?_eq_some_iff.mp hscheme).2

theorem absolute_toChars {r : Reference} {scheme : List Char} (hr : r.scheme = some scheme)
    (hscheme : IsScheme scheme) (hvalid : r.isValid = true) : Absolute r.toChars where
  scheme := by
    have htext : r.toChars = scheme ++ ':' :: Reference.toChars { r with scheme := none } := by
      simp [Reference.toChars, hr]
    rw [scheme?_eq_some_iff.mpr ⟨htext, hscheme⟩]
    rfl
  bar := by
    have hchars : ∀ c ∈ r.toChars, isIriChar c = true := by
      apply Reference.isIriChar_of_isValid hvalid
      intro text htext c hc
      rw [hr, Option.some.injEq] at htext
      subst htext
      exact isIriChar_of_scheme (hscheme.2 c hc)
    exact fun hbar => absurd (hchars _ hbar) (by decide)

theorem absolute_of_isValid {text : List Char}
    (hscheme : (Reference.ofChars text).scheme.isSome = true)
    (hvalid : (Reference.ofChars text).isValid = true) : Absolute text := by
  obtain ⟨scheme, hr⟩ := Option.isSome_iff_exists.mp hscheme
  have h := absolute_toChars hr (isScheme_of_ofChars hr) hvalid
  rwa [Reference.toChars_ofChars] at h

theorem absolute_of_isIri {text : List Char} (h : isIri text = true) : Absolute text := by
  simp only [isIri, Bool.and_eq_true] at h
  exact absolute_of_isValid h.1 h.2

theorem scheme_of_target {base r t : Reference} (h : target base r = some t) :
    t.scheme = base.scheme := by
  unfold target at h
  split at h
  · cases h
    rfl
  · split at h
    · cases h
      rfl
    · obtain ⟨path, -, rfl⟩ := Option.map_eq_some_iff.mp h
      rfl

/-- Resolving against a base with a scheme gives absolute texts. -/
theorem absolute_of_resolve? {base reference iri : List Char} (hbase : (scheme? base).isSome = true)
    (h : resolve? base reference = some iri) : Absolute iri := by
  unfold resolve? at h
  simp only at h
  split at h
  · simp at h
  · next hinvalid =>
      have hvalid : (Reference.ofChars reference).isValid = true := by simpa using hinvalid
      split at h
      · next hscheme =>
          cases h
          exact absolute_of_isValid hscheme hvalid
      · split at h
        · simp at h
        · simp only [Option.bind_eq_bind, Option.bind_eq_some_iff] at h
          obtain ⟨t, ht, h⟩ := h
          split at h
          · next htvalid =>
              simp only [Option.pure_def, Option.some.injEq] at h
              subst h
              obtain ⟨⟨scheme, rest⟩, hscheme⟩ := Option.isSome_iff_exists.mp hbase
              have hts : t.scheme = some scheme := by
                rw [scheme_of_target ht, Reference.scheme_ofChars, hscheme]
                rfl
              exact absolute_toChars hts (scheme?_eq_some_iff.mp hscheme).2 htvalid
          · simp at h

end Iri

end RmlAlgebra
