import RmlAlgebra.Pipeline.Block
import RmlAlgebra.Proofs.LineFormat

/-! # Blocks and the graphs they hold

The blocks of a list of graphs are found again if no graph's text holds a delimiter and no graph
starts with a blank character. Each block is then the text of its graph without the blank ending, and
reading it gives the graph with the last object cut short and carriage returns at the end of the
others lost.
-/

namespace RmlAlgebra

namespace Text

def opensBlank (text : List Char) : Bool :=
  text.head?.any isBlank

def closesBlank (text : List Char) : Bool :=
  text.getLast?.any isBlank

theorem trimEnd_append {start : List Char} (hne : start ≠ []) (h : closesBlank start = false)
    (rest : List Char) : trimEnd (start ++ rest) = start ++ trimEnd rest := by
  obtain ⟨init, c, rfl⟩ := (List.eq_nil_or_concat start).resolve_left hne
  have hc : isBlank c = false := by simpa [closesBlank] using h
  unfold trimEnd
  rw [List.reverse_append, List.dropWhile_append]
  split
  · next hall =>
      rw [List.isEmpty_iff] at hall
      simp [hall, hc]
  · simp

theorem trimEnd_append_blank (text : List Char) {c : Char} (h : isBlank c = true) :
    trimEnd (text ++ [c]) = trimEnd text := by
  simp [trimEnd, h]

theorem trim_append_blank (text : List Char) {c : Char} (h : isBlank c = true) :
    trim (text ++ [c]) = trim text := by
  unfold trim
  rw [List.dropWhile_append]
  split
  · next hall =>
      rw [List.isEmpty_iff] at hall
      simp [hall, h]
  · exact trimEnd_append_blank _ h

theorem opensBlank_dropWhile (text : List Char) : opensBlank (text.dropWhile isBlank) = false := by
  rw [opensBlank, Option.any_eq_false]
  intro c hc
  have hkept := List.head?_dropWhile_not isBlank text
  rw [hc] at hkept
  simpa using hkept

theorem closesBlank_trimEnd (text : List Char) : closesBlank (trimEnd text) = false := by
  rw [closesBlank, trimEnd, List.getLast?_reverse]
  exact opensBlank_dropWhile text.reverse

theorem trim_eq_trimEnd {text : List Char} (h : opensBlank text = false) :
    trim text = trimEnd text := by
  cases text with
  | nil => rfl
  | cons c cs =>
      have hc : isBlank c = false := by simpa [opensBlank] using h
      simp [trim, hc]

theorem isPrefix_trimEnd (text : List Char) : trimEnd text <+: text := by
  have h : text.reverse.dropWhile isBlank <:+ text.reverse := List.dropWhile_suffix isBlank
  simpa [trimEnd] using List.reverse_prefix.mpr h

theorem trimEnd_eq_self {text : List Char} (h : closesBlank text = false) :
    trimEnd text = text := by
  by_cases hne : text = []
  · simp [hne, trimEnd]
  · simpa [trimEnd] using trimEnd_append hne h []

theorem dropReturn_eq_self {text : List Char} (h : closesBlank text = false) :
    dropReturn text = text := by
  rw [dropReturn, if_neg]
  intro hlast
  simp [closesBlank, hlast, isBlank] at h

theorem trimEnd_length_lt {text : List Char} (h : closesBlank text = true) :
    (trimEnd text).length < text.length := by
  cases hlast : text.getLast? with
  | none => simp [closesBlank, hlast] at h
  | some c =>
      obtain ⟨init, rfl⟩ := List.getLast?_eq_some_iff.mp hlast
      have hc : isBlank c = true := by simpa [closesBlank] using h
      have hle := (isPrefix_trimEnd init).length_le
      rw [trimEnd_append_blank init hc]
      simp only [List.length_append, List.length_singleton]
      omega

theorem length_trim_le (text : List Char) : (trim text).length ≤ text.length := by
  have hend := (isPrefix_trimEnd (text.dropWhile isBlank)).length_le
  have hstart := (List.dropWhile_suffix (l := text) isBlank).length_le
  unfold trim
  omega

theorem trim_cons_ne_nil {c : Char} (h : isBlank c = false) (cs : List Char) :
    trim (c :: cs) ≠ [] := by
  have hclose : closesBlank [c] = false := by simpa [closesBlank] using h
  rw [trim_eq_trimEnd (by simpa [opensBlank] using h), ← List.singleton_append,
    trimEnd_append (by simp) hclose]
  simp

/-- Trimming leaves nothing of a text exactly if all its characters are blank. -/
theorem trim_eq_nil_iff {text : List Char} : trim text = [] ↔ ∀ c ∈ text, isBlank c = true := by
  cases hkept : text.dropWhile isBlank with
  | nil =>
      have hall : text.takeWhile isBlank = text := by
        simpa [hkept] using List.takeWhile_append_dropWhile (p := isBlank) (l := text)
      refine iff_of_true (by rw [trim, hkept]; rfl) (List.all_eq_true.mp ?_)
      exact hall ▸ List.all_takeWhile
  | cons c cs =>
      have hc : isBlank c = false := by simpa [hkept, opensBlank] using opensBlank_dropWhile text
      have hmem : c ∈ text := (List.dropWhile_suffix isBlank).subset (hkept ▸ List.mem_cons_self)
      have htrim : trim text = trim (c :: cs) := by simp [trim, hkept, hc]
      refine iff_of_false ?_ fun hall => ?_
      · rw [htrim]
        exact trim_cons_ne_nil hc cs
      · exact Bool.false_ne_true (hc.symm.trans (hall c hmem))

theorem opensBlank_of_prefix {start text : List Char} (h : start <+: text)
    (htext : opensBlank text = false) : opensBlank start = false := by
  obtain ⟨rest, rfl⟩ := h
  cases start with
  | nil => rfl
  | cons c cs => exact htext

theorem opensBlank_trim (text : List Char) : opensBlank (trim text) = false :=
  opensBlank_of_prefix (isPrefix_trimEnd _) (opensBlank_dropWhile text)

theorem closesBlank_trim (text : List Char) : closesBlank (trim text) = false :=
  closesBlank_trimEnd _

theorem trim_eq_self {text : List Char} (hopens : opensBlank text = false)
    (hcloses : closesBlank text = false) : trim text = text := by
  rw [trim_eq_trimEnd hopens, trimEnd_eq_self hcloses]

/-- What is left of a text without the blank characters at its ends. -/
structure IsCore (text core : List Char) : Prop where
  opens : opensBlank core = false
  closes : closesBlank core = false
  around : ∃ before after, text = before ++ core ++ after ∧
    (∀ c ∈ before, isBlank c = true) ∧ ∀ c ∈ after, isBlank c = true

theorem isCore_trim (text : List Char) : IsCore text (trim text) where
  opens := opensBlank_trim text
  closes := closesBlank_trim text
  around := by
    have hblank (text : List Char) : ∀ c ∈ text.takeWhile isBlank, isBlank c = true :=
      List.all_eq_true.mp List.all_takeWhile
    refine ⟨text.takeWhile isBlank, ((text.dropWhile isBlank).reverse.takeWhile isBlank).reverse, ?_,
      hblank text, fun c hc => hblank _ c (List.mem_reverse.mp hc)⟩
    rw [trim, trimEnd, List.append_assoc, ← List.reverse_append, List.takeWhile_append_dropWhile,
      List.reverse_reverse, List.takeWhile_append_dropWhile]

theorem trim_append_blanks (text : List Char) {after : List Char}
    (h : ∀ c ∈ after, isBlank c = true) : trim (text ++ after) = trim text := by
  induction after generalizing text with
  | nil => rw [List.append_nil]
  | cons c cs ih =>
      rw [List.forall_mem_cons] at h
      rw [List.append_cons, ih _ h.2, trim_append_blank text h.1]

/-- Nothing else is left of a text when it is trimmed. -/
theorem trim_eq_iff {text core : List Char} : trim text = core ↔ IsCore text core := by
  constructor
  · rintro rfl
    exact isCore_trim text
  · rintro ⟨hopens, hcloses, before, after, rfl, hbefore, hafter⟩
    have htrim : trim (before ++ core) = trim core := by
      rw [trim, List.dropWhile_append_of_pos hbefore, ← trim]
    rw [trim_append_blanks _ hafter, htrim, trim_eq_self hopens hcloses]

theorem opensBlank_append {start : List Char} (h : opensBlank start = false) {c : Char}
    (hc : isBlank c = false) (rest : List Char) : opensBlank (start ++ c :: rest) = false := by
  cases start with
  | nil => simpa [opensBlank] using hc
  | cons d ds => simpa [opensBlank] using h

theorem isBlank_of_isDigit {c : Char} (h : c.isDigit = true) : isBlank c = false := by
  have hrange : 48 ≤ c.toNat ∧ c.toNat ≤ 57 := by
    simpa [Char.isDigit, UInt32.le_iff_toNat_le] using h
  simp only [isBlank, Bool.or_eq_false_iff, Bool.and_eq_false_iff, decide_eq_false_iff_not,
    beq_eq_false_iff_ne]
  omega

theorem isBlank_of_isAlpha {c : Char} (h : c.isAlpha = true) : isBlank c = false := by
  have hrange : (65 ≤ c.toNat ∧ c.toNat ≤ 90) ∨ (97 ≤ c.toNat ∧ c.toNat ≤ 122) := by
    have hletter : (c.isUpper || c.isLower) = true := h
    rw [Bool.or_eq_true] at hletter
    rcases hletter with hupper | hlower
    · exact .inl (of_decide_eq_true hupper)
    · have hlower : (decide (c.val ≥ 'a'.val) && decide (c.val ≤ 'z'.val)) = true := hlower
      simp only [Bool.and_eq_true, decide_eq_true_eq] at hlower
      exact .inr hlower
  simp only [isBlank, Bool.or_eq_false_iff, Bool.and_eq_false_iff, decide_eq_false_iff_not,
    beq_eq_false_iff_ne]
  omega

theorem infix_append_cons {part before after : List Char} {c : Char} (hc : c ∉ part)
    (h : part <:+: before ++ c :: after) : part <:+: before ∨ part <:+: after := by
  obtain ⟨left, right, heq⟩ := h
  rw [List.append_eq_append_iff] at heq
  rcases heq with ⟨mid, hbefore, -⟩ | ⟨mid, hleft, hafter⟩
  · exact .inl ⟨left, mid, hbefore.symm⟩
  · -- The part ends behind the character, so it starts behind it too.
    rw [List.append_eq_append_iff] at hleft
    rcases hleft with ⟨inner, hb, hpart⟩ | ⟨inner, hl, hmid⟩
    · cases mid with
      | nil =>
          rw [List.append_nil] at hpart
          exact .inl ⟨left, [], by simp [hb, hpart]⟩
      | cons d ds =>
          rw [List.cons_append, List.cons.injEq] at hafter
          rw [hpart, hafter.1] at hc
          simp at hc
    · subst hmid
      cases inner with
      | nil =>
          cases part with
          | nil => exact .inl List.nil_infix
          | cons d ds =>
              rw [List.nil_append, List.cons_append, List.cons.injEq] at hafter
              exact absurd (hafter.1 ▸ List.mem_cons_self) hc
      | cons d ds =>
          rw [List.cons_append, List.cons_append, List.cons.injEq] at hafter
          exact .inr ⟨ds, right, hafter.2.symm⟩

theorem infix_of_infix_cons {part after : List Char} {c : Char} (hc : c ∉ part)
    (h : part <:+: c :: after) : part <:+: after := by
  rw [← List.nil_append (c :: after)] at h
  rcases infix_append_cons hc h with h | h
  · rw [List.eq_nil_of_infix_nil h]
    exact List.nil_infix
  · exact h

/-- A character that the separator does not hold keeps it apart from the text in front. -/
theorem clear_concat {separator before : List Char} {c : Char} (hne : separator ≠ [])
    (hc : c ∉ separator) (h : ¬separator <:+: before) : Clear separator (before ++ [c]) := by
  intro hin
  rw [List.append_assoc, List.singleton_append] at hin
  rcases infix_append_cons hc hin with hin | hin
  · exact h hin
  · have hlen := hin.length_le
    have hpos := List.length_pos_iff.mpr hne
    rw [List.length_dropLast] at hlen
    omega

theorem isBlank_lineFeed : isBlank '\n' = true := by decide

theorem isBlank_bar : isBlank '|' = false := by decide

end Text

namespace Triple

def trimmed (t : Triple) : Triple :=
  { t with object := String.ofList (Text.trimEnd t.object.toList) }

theorem Readable.trimmed {t : Triple} (h : t.Readable) : t.trimmed.Readable := by
  apply h.setObject
  rw [String.toList_ofList]
  exact fun hmem => h.not_mem_object ((Text.isPrefix_trimEnd _).subset hmem)

theorem front_ne_nil (t : Triple) : t.front ≠ [] := by
  simp [front, separator]

theorem opensBlank_toChars (t : Triple) (h : Text.opensBlank t.subject.toList = false)
    (rest : List Char) : Text.opensBlank (t.toChars ++ rest) = false := by
  cases hs : t.subject.toList with
  | nil => simp [toChars, separator, hs, Text.opensBlank, Text.isBlank_bar]
  | cons c cs =>
      rw [hs] at h
      simpa [toChars, hs, Text.opensBlank] using h

theorem infix_toChars {t : Triple} {part : List Char} (hbar : '|' ∉ part)
    (h : part <:+: t.toChars) :
    part <:+: t.subject.toList ∨ part <:+: t.predicate.toList ∨ part <:+: t.object.toList := by
  have skip {before after : List Char} (hin : part <:+: before ++ separator ++ after) :
      part <:+: before ∨ part <:+: after := by
    simp only [separator, List.append_assoc, List.cons_append, List.nil_append] at hin
    rcases Text.infix_append_cons hbar hin with hin | hin
    · exact .inl hin
    · exact .inr (Text.infix_of_infix_cons hbar (Text.infix_of_infix_cons hbar hin))
  rw [toChars_eq_append] at h
  exact (skip h).imp id skip

end Triple

namespace Graph

/-- A graph as it is read from its block. -/
def handedOver (g : Graph) : Graph :=
  g.dropLast.map Triple.withoutReturn ++ g.getLast?.toList.map Triple.trimmed

/-- What keeps a graph's block apart from other blocks and from blank text. -/
structure Framed (g : Graph) : Prop where
  nonempty : g ≠ []
  start : ∀ t, g.head? = some t → Text.opensBlank t.subject.toList = false
  undivided : ¬Block.delimiter <:+: g.toText.toList

theorem toChars_toText_append {g : Graph} (hne : g ≠ []) :
    ∃ t, g.getLast? = some t ∧
      g.toText.toList = Text.unlines (g.dropLast.map Triple.toChars) ++ (t.toChars ++ ['\n']) := by
  obtain ⟨init, t, rfl⟩ := (List.eq_nil_or_concat g).resolve_left hne
  refine ⟨t, by simp, ?_⟩
  simp [Text.unlines_append, Text.unlines]

theorem opensBlank_toText {g : Graph}
    (h : ∀ t, g.head? = some t → Text.opensBlank t.subject.toList = false) :
    Text.opensBlank g.toText.toList = false := by
  cases g with
  | nil => rfl
  | cons t others =>
      rw [toList_toText, List.map_cons, Text.unlines]
      exact t.opensBlank_toChars (h t rfl) _

/-- A block is the lines of its graph, the last one without its blank ending. -/
theorem trim_toText {g : Graph} (hne : g ≠ [])
    (h : ∀ t, g.head? = some t → Text.opensBlank t.subject.toList = false) :
    ∃ t, g.getLast? = some t ∧ Text.trim g.toText.toList =
      Text.unlines (g.dropLast.map Triple.toChars) ++ t.trimmed.toChars := by
  obtain ⟨t, hlast, htext⟩ := toChars_toText_append hne
  refine ⟨t, hlast, ?_⟩
  have hclose : Text.closesBlank (Text.unlines (g.dropLast.map Triple.toChars) ++ t.front) = false := by
    simp [Text.closesBlank, Text.isBlank_bar, List.getLast?_append]
  have hstart : Text.unlines (g.dropLast.map Triple.toChars) ++ t.front ≠ [] := by
    simp [t.front_ne_nil]
  rw [Text.trim_eq_trimEnd (opensBlank_toText h), htext, ← List.append_assoc,
    Text.trimEnd_append_blank _ Text.isBlank_lineFeed, Triple.toChars_eq_front, ← List.append_assoc,
    Text.trimEnd_append hstart hclose]
  simp [Triple.toChars_eq_front, Triple.trimmed, Triple.front]

theorem ofText_trim_toText {g : Graph} (hne : g ≠ []) (hread : ∀ t ∈ g, t.Readable)
    (h : ∀ t, g.head? = some t → Text.opensBlank t.subject.toList = false) :
    ofText (String.ofList (Text.trim g.toText.toList)) = .ok g.handedOver := by
  obtain ⟨t, hlast, htrim⟩ := trim_toText hne h
  have hmem : t ∈ g := List.mem_of_getLast? hlast
  have hinit : ∀ l ∈ g.dropLast.map Triple.toChars, '\n' ∉ l := by
    intro l hl
    obtain ⟨u, hu, rfl⟩ := List.mem_map.mp hl
    exact (hread u (List.dropLast_subset g hu)).line
  have hlines : Text.lines (Text.trim g.toText.toList) = g.handedOver.map Triple.toChars := by
    rw [htrim, Text.lines_unlines_append hinit,
      Text.lines_of_not_mem (hread t hmem).trimmed.line t.trimmed.toChars_ne_nil]
    simp [handedOver, hlast, Triple.dropReturn_comp_toChars]
  rw [ofText, String.toList_ofList, hlines]
  apply Triple.ofLines_map_toChars
  intro u hu
  rcases List.mem_append.mp hu with hu | hu
  · obtain ⟨v, hv, rfl⟩ := List.mem_map.mp hu
    exact (hread v (List.dropLast_subset g hv)).withoutReturn
  · simp only [hlast, Option.toList_some, List.map_cons, List.map_nil, List.mem_singleton] at hu
    subst hu
    exact (hread t hmem).trimmed

theorem not_infix_toText {g : Graph}
    (h : ∀ t ∈ g, ¬Block.delimiter <:+: t.subject.toList ∧ ¬Block.delimiter <:+: t.predicate.toList ∧
      ¬Block.delimiter <:+: t.object.toList) : ¬Block.delimiter <:+: g.toText.toList := by
  rw [toList_toText]
  induction g with
  | nil => simp [Text.unlines, Block.delimiter]
  | cons t others ih =>
      intro hin
      rw [List.map_cons, Text.unlines] at hin
      rcases Text.infix_append_cons (by decide) hin with hin | hin
      · obtain ⟨hs, hp, ho⟩ := h t List.mem_cons_self
        rcases Triple.infix_toChars (by decide) hin with hin | hin | hin
        · exact hs hin
        · exact hp hin
        · exact ho hin
      · exact ih (fun u hu => h u (List.mem_cons_of_mem _ hu)) hin

theorem Framed.clear {g : Graph} (h : g.Framed) : Text.Clear Block.delimiter g.toText.toList := by
  obtain ⟨t, -, htext⟩ := toChars_toText_append h.nonempty
  have hundivided := h.undivided
  -- The text ends in a line feed, which no delimiter holds.
  rw [htext, ← List.append_assoc] at hundivided ⊢
  refine Text.clear_concat (by decide) (by decide) fun hin => hundivided ?_
  exact hin.trans (List.prefix_append _ _).isInfix

end Graph

namespace Block

theorem delimiter_ne_nil : delimiter ≠ [] :=
  List.cons_ne_nil _ _

def ofGraph (g : Graph) : String :=
  String.ofList (Text.trim g.toText.toList)

theorem toList_ofGraphs (graphs : List Graph) :
    (ofGraphs graphs).toList = graphs.flatMap fun g => g.toText.toList ++ delimiter := by
  simp [ofGraphs, String.toList_join, List.flatMap_map]

theorem toList_ofGraphs_cons (g : Graph) (others : List Graph) :
    (ofGraphs (g :: others)).toList =
      g.toText.toList ++ delimiter ++ (ofGraphs others).toList := by
  simp [toList_ofGraphs]

theorem split_append {text : String} {before after : List Char}
    (htext : text.toList = before ++ delimiter ++ after) (hclear : Text.Clear delimiter before)
    (hne : Text.trim before ≠ []) :
    split text = String.ofList (Text.trim before) :: split (String.ofList after) := by
  rw [split, htext, Text.pieces_append (by simp [delimiter]) hclear, List.map_cons,
    List.filter_cons_of_pos (by simpa using hne)]
  simp [split]

theorem trim_toText_ne_nil {g : Graph} (h : g.Framed) : Text.trim g.toText.toList ≠ [] := by
  obtain ⟨t, -, htrim⟩ := Graph.trim_toText h.nonempty h.start
  rw [htrim]
  simp [t.trimmed.toChars_ne_nil]

theorem split_ofGraphs_cons {g : Graph} (h : g.Framed) (others : List Graph) :
    split (ofGraphs (g :: others)) = ofGraph g :: split (ofGraphs others) := by
  rw [split_append (toList_ofGraphs_cons g others) h.clear (trim_toText_ne_nil h),
    String.ofList_toList]
  rfl

/-- Blocks are found in the order in which they were written. -/
theorem split_ofGraphs {graphs : List Graph} (h : ∀ g ∈ graphs, g.Framed) :
    split (ofGraphs graphs) = graphs.map ofGraph := by
  induction graphs with
  | nil => rfl
  | cons g others ih =>
      rw [List.forall_mem_cons] at h
      rw [split_ofGraphs_cons h.1, ih h.2, List.map_cons]

theorem sort_perm (blocks : List String) : (sort blocks).Perm blocks :=
  List.mergeSort_perm blocks _

theorem pairwise_sort (blocks : List String) : (sort blocks).Pairwise (· ≤ ·) := by
  have hsorted : (sort blocks).Pairwise fun a b => decide (a ≤ b) = true := by
    apply List.pairwise_mergeSort
    · intro a b c hab hbc
      simp only [decide_eq_true_eq] at hab hbc ⊢
      exact String.le_trans hab hbc
    · intro a b
      simpa using String.le_total a b
  simpa using hsorted

/-- There is one way only to put texts in order. -/
theorem sort_eq_iff {xs ys : List String} :
    sort xs = ys ↔ ys.Perm xs ∧ ys.Pairwise (· ≤ ·) := by
  constructor
  · rintro rfl
    exact ⟨sort_perm xs, pairwise_sort xs⟩
  · rintro ⟨hperm, hsorted⟩
    refine ((sort_perm xs).trans hperm.symm).eq_of_pairwise ?_ (pairwise_sort xs) hsorted
    intro a b _ _ hab hba
    exact String.le_antisymm hab hba

/-- The blocks of a text are known from its pieces and from what is left of these. -/
theorem split_eq {text : String} {pieces : List (List Char × List Char)}
    (hpieces : Text.Divided delimiter text.toList (pieces.map Prod.fst))
    (hcores : ∀ piece ∈ pieces, Text.IsCore piece.1 piece.2) :
    split text = ((pieces.map Prod.snd).filter (!·.isEmpty)).map String.ofList := by
  have htrim : (pieces.map Prod.fst).map Text.trim = pieces.map Prod.snd := by
    rw [List.map_map]
    exact List.map_congr_left fun piece hpiece => Text.trim_eq_iff.mpr (hcores piece hpiece)
  rw [split, hpieces.pieces_eq delimiter_ne_nil, htrim]

end Block

end RmlAlgebra
