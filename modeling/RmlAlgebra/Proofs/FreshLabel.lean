import RmlAlgebra.Normal
import RmlAlgebra.Proofs.BlockFraming

/-! # New labels

A label is printed in decimal, and reading the digits gives the number back. Numbers above the highest
one of a graph therefore give labels that the graph does not mention, as long as they fit in the 64
bits that reading them allows: labels with leading zeros or with larger numbers are other texts.
-/

namespace RmlAlgebra

namespace Text

theorem decimalValue_toDigits (n : Nat) : decimalValue (Nat.toDigits 10 n) = n :=
  Nat.ofDigitChars_ten_toDigits

theorem isDigit_of_mem_toDigits {n : Nat} {c : Char} (h : c ∈ Nat.toDigits 10 n) :
    c.isDigit = true :=
  Nat.isDigit_of_mem_toDigits (by decide) (by decide) h

theorem isNumeral_toDigits (n : Nat) : isNumeral (Nat.toDigits 10 n) = true := by
  have hall : (Nat.toDigits 10 n).all Char.isDigit = true :=
    List.all_eq_true.mpr fun c hc => isDigit_of_mem_toDigits hc
  simp [isNumeral, hall, Nat.toDigits_ne_nil]

end Text

namespace Label

theorem toList_ofNat (n : Nat) : (ofNat n).toList = 'b' :: Nat.toDigits 10 n := by
  simp [ofNat, Nat.toList_repr]

theorem digits?_ofNat (n : Nat) : digits? (ofNat n) = some (Nat.toDigits 10 n) := by
  simp [digits?, toList_ofNat, Text.isNumeral_toDigits]

theorem isLabel_ofNat (n : Nat) : isLabel (ofNat n) = true := by
  simp [isLabel, digits?_ofNat]

theorem ofNat_injective {m n : Nat} (h : ofNat m = ofNat n) : m = n := by
  have hdigits : Nat.toDigits 10 m = Nat.toDigits 10 n := by
    simpa [toList_ofNat] using congrArg String.toList h
  rw [← Text.decimalValue_toDigits m, hdigits, Text.decimalValue_toDigits]

theorem number?_ofNat {n : Nat} (h : n < UInt64.size) : number? (ofNat n) = some n := by
  have hvalue : Text.decimalBelow? UInt64.size (Nat.toDigits 10 n) = some n := by
    rw [Text.decimalBelow?, Text.isNumeral_toDigits, Text.decimalValue_toDigits, if_pos (by simpa)]
  rw [number?, digits?_ofNat, Option.bind_some, hvalue]

theorem eq_cons_of_isLabel {term : String} (h : isLabel term = true) :
    ∃ digits, term.toList = 'b' :: digits ∧ Text.isNumeral digits = true := by
  rw [isLabel, digits?] at h
  split at h
  · next digits heq =>
      refine ⟨digits, heq, ?_⟩
      by_cases hn : Text.isNumeral digits = true
      · exact hn
      · simp [hn] at h
  · simp at h

theorem isDigit_of_mem_label {term : String} (h : isLabel term = true) {c : Char}
    (hc : c ∈ term.toList) : c = 'b' ∨ c.isDigit = true := by
  obtain ⟨digits, heq, hn⟩ := eq_cons_of_isLabel h
  rw [heq] at hc
  rcases List.mem_cons.mp hc with rfl | hc
  · exact .inl rfl
  · simp only [Text.isNumeral, Bool.and_eq_true, List.all_eq_true] at hn
    exact .inr (hn.2 c hc)

theorem not_mem_ofNat {c : Char} (hb : c ≠ 'b') (hdigit : c.isDigit = false) (n : Nat) :
    c ∉ (ofNat n).toList := by
  intro hc
  rcases isDigit_of_mem_label (isLabel_ofNat n) hc with h | h
  · exact hb h
  · rw [hdigit] at h
    cases h

theorem head_ofNat_isAlpha (n : Nat) : (ofNat n).toList.head?.any Char.isAlpha = true := by
  rw [toList_ofNat]
  rfl

theorem opensBlank_ofNat (n : Nat) : Text.opensBlank (ofNat n).toList = false := by
  rw [toList_ofNat]
  rfl

theorem closesBlank_of_isLabel {term : String} (h : isLabel term = true) :
    Text.closesBlank term.toList = false := by
  cases hlast : term.toList.getLast? with
  | none => simp [Text.closesBlank, hlast]
  | some c =>
      rcases isDigit_of_mem_label h (List.mem_of_getLast? hlast) with rfl | hc
      · simp [Text.closesBlank, hlast, Text.isBlank]
      · simp [Text.closesBlank, hlast, Text.isBlank_of_isDigit hc]

theorem closesBlank_ofNat (n : Nat) : Text.closesBlank (ofNat n).toList = false :=
  closesBlank_of_isLabel (isLabel_ofNat n)

end Label

namespace Graph

theorem toList_separatedName (triplesMap : String) (n : Nat) :
    (separatedName triplesMap n).toList = triplesMap.toList ++ '_' :: Nat.toDigits 10 n := by
  simp [separatedName, Nat.toList_repr]

theorem not_mem_separatedName {c : Char} {triplesMap : String} (h : c ∉ triplesMap.toList)
    (hmark : c ≠ '_') (hdigit : c.isDigit = false) (n : Nat) :
    c ∉ (separatedName triplesMap n).toList := by
  rw [toList_separatedName, List.mem_append, List.mem_cons]
  rintro (hc | hc | hc)
  · exact h hc
  · exact hmark hc
  · rw [Text.isDigit_of_mem_toDigits hc] at hdigit
    cases hdigit

theorem opensBlank_separatedName {triplesMap : String}
    (h : Text.opensBlank triplesMap.toList = false) (n : Nat) :
    Text.opensBlank (separatedName triplesMap n).toList = false := by
  rw [toList_separatedName]
  exact Text.opensBlank_append h (by decide) _

/-- Whether a text is a subject or an object of a graph. -/
def Mentions (g : Graph) (term : String) : Prop :=
  ∃ t ∈ g, t.subject = term ∨ t.object = term

instance (g : Graph) (term : String) : Decidable (g.Mentions term) :=
  decidable_of_iff (g.any fun t => t.subject == term || t.object == term) (by simp [Mentions])

theorem le_foldl_max {ns : List Nat} (start : Nat) : start ≤ ns.foldl max start ∧
    ∀ n ∈ ns, n ≤ ns.foldl max start := by
  induction ns generalizing start with
  | nil => simp
  | cons n others ih =>
      obtain ⟨hstart, hall⟩ := ih (max start n)
      simp only [List.foldl_cons, List.forall_mem_cons]
      exact ⟨by omega, by omega, hall⟩

theorem le_highestLabel {g : Graph} {term : String} {n : Nat} (h : g.Mentions term)
    (hn : Label.number? term = some n) : n ≤ g.highestLabel := by
  obtain ⟨t, ht, hterm⟩ := h
  have hmem : term ∈ g.flatMap fun t => [t.subject, t.object] := by
    refine List.mem_flatMap.mpr ⟨t, ht, ?_⟩
    rcases hterm with rfl | rfl <;> simp
  exact (le_foldl_max 0).2 n (List.mem_filterMap.mpr ⟨term, hmem, hn⟩)

/-- Labels above the highest one are new. -/
theorem not_mentions_ofNat {g : Graph} {n : Nat} (hlow : g.highestLabel < n) (hhigh : n < UInt64.size) :
    ¬g.Mentions (Label.ofNat n) := by
  intro h
  have hle := le_highestLabel h (Label.number?_ofNat hhigh)
  omega

end Graph

end RmlAlgebra
