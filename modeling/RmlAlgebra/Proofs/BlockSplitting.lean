import RmlAlgebra.Proofs.EmissionOrder

/-! # The blocks of any text

Whatever text is split, its blocks are proper: they hold something, have no blank character at either
end and no delimiter inside. The delimiter is searched from the left, so a block may begin with an equals
sign and, before blank text, end in some. Proper blocks are found again when each is written with a line
feed and a delimiter behind it. The line feed is needed: it keeps the delimiter apart from a block that
ends in an equals sign.
-/

namespace RmlAlgebra

namespace Text

theorem trim_infix (text : List Char) : trim text <:+: text :=
  (isPrefix_trimEnd _).isInfix.trans (List.dropWhile_suffix isBlank).isInfix

end Text

namespace Block

/-- A text that splitting can give. -/
structure Proper (block : String) : Prop where
  nonempty : block ≠ ""
  opens : Text.opensBlank block.toList = false
  closes : Text.closesBlank block.toList = false
  undivided : ¬delimiter <:+: block.toList

theorem mem_split_iff {text block : String} :
    block ∈ split text ↔
      block ≠ "" ∧ ∃ piece ∈ Text.pieces delimiter text.toList, Text.trim piece = block.toList := by
  simp only [split, List.mem_map, List.mem_filter]
  constructor
  · rintro ⟨_, ⟨⟨piece, hpiece, rfl⟩, hne⟩, rfl⟩
    refine ⟨fun hempty => ?_, piece, hpiece, String.toList_ofList.symm⟩
    rw [← String.toList_eq_nil_iff, String.toList_ofList] at hempty
    simp [hempty] at hne
  · rintro ⟨hne, piece, hpiece, htrim⟩
    refine ⟨_, ⟨⟨piece, hpiece, rfl⟩, ?_⟩, ?_⟩
    · simpa [htrim, String.toList_eq_nil_iff] using hne
    · rw [htrim, String.ofList_toList]

theorem proper_of_mem_split {text block : String} (h : block ∈ split text) : Proper block := by
  obtain ⟨hne, piece, hpiece, htrim⟩ := mem_split_iff.mp h
  have hdivided := Text.divided_pieces delimiter_ne_nil text.toList
  refine ⟨hne, ?_, ?_, ?_⟩
  · rw [← htrim]
    exact Text.opensBlank_trim piece
  · rw [← htrim]
    exact Text.closesBlank_trim piece
  · rw [← htrim]
    exact fun hin => hdivided.not_infix piece hpiece (hin.trans (Text.trim_infix piece))

/-- Blocks as they are handed over, each with a line feed and a delimiter behind it. -/
def frame (blocks : List String) : String :=
  String.join (blocks.map fun block => block ++ "\n" ++ String.ofList delimiter)

theorem toList_frame (blocks : List String) :
    (frame blocks).toList =
      (blocks.map fun block => block.toList ++ ['\n']).flatMap (· ++ delimiter) := by
  simp [frame, String.toList_join, List.flatMap_map]

theorem Proper.clear {block : String} (h : Proper block) :
    Text.Clear delimiter (block.toList ++ ['\n']) :=
  Text.clear_concat delimiter_ne_nil (by decide) h.undivided

theorem Proper.trim_lineFeed {block : String} (h : Proper block) :
    Text.trim (block.toList ++ ['\n']) = block.toList := by
  rw [Text.trim_append_blank _ Text.isBlank_lineFeed, Text.trim_eq_self h.opens h.closes]

/-- Proper blocks are found again, and nothing else is. -/
theorem split_frame {blocks : List String} (h : ∀ block ∈ blocks, Proper block) :
    split (frame blocks) = blocks := by
  have hclear : ∀ text ∈ blocks.map fun block => block.toList ++ ['\n'],
      Text.Clear delimiter text := by
    rw [List.forall_mem_map]
    exact fun block hblock => (h block hblock).clear
  have htrim : (blocks.map fun block => block.toList ++ ['\n']).map Text.trim =
      blocks.map String.toList := by
    rw [List.map_map]
    exact List.map_congr_left fun block hblock => (h block hblock).trim_lineFeed
  have hkeep : (blocks.map String.toList).filter (!·.isEmpty) = blocks.map String.toList := by
    rw [List.filter_eq_self, List.forall_mem_map]
    intro block hblock
    simpa [String.toList_eq_nil_iff] using (h block hblock).nonempty
  -- What follows the last delimiter is empty and no block.
  rw [split, toList_frame, Text.pieces_flatMap delimiter_ne_nil hclear, List.map_append, htrim,
    List.filter_append, hkeep]
  simp [Text.trim, Text.trimEnd]

theorem sort_sort (blocks : List String) : sort (sort blocks) = sort blocks :=
  sort_eq_of_perm (sort_perm blocks)

/-- Splitting any text gives proper blocks. The pieces from which they are cut make up the text, and
none of them is lost unless it is blank. The blocks are the same when they are written and split again,
and sorting puts them in ascending order once and for all. -/
theorem split_proper_stable (text : String) :
    (∀ block ∈ split text, Proper block) ∧
      delimiter.intercalate (Text.pieces delimiter text.toList) = text.toList ∧
      (∀ piece ∈ Text.pieces delimiter text.toList,
        Text.trim piece ≠ [] → String.ofList (Text.trim piece) ∈ split text) ∧
      split (frame (split text)) = split text ∧
      (sort (split text)).Perm (split text) ∧ (sort (split text)).Pairwise (· ≤ ·) ∧
      sort (sort (split text)) = sort (split text) := by
  have hproper : ∀ block ∈ split text, Proper block := fun _ => proper_of_mem_split
  refine ⟨hproper, (Text.divided_pieces delimiter_ne_nil text.toList).intercalate_eq, ?_,
    split_frame hproper, sort_perm _, pairwise_sort _, sort_sort _⟩
  intro piece hpiece hne
  refine mem_split_iff.mpr ⟨?_, piece, hpiece, String.toList_ofList.symm⟩
  rwa [Ne, ← String.toList_eq_nil_iff, String.toList_ofList]

/-- Of nine equals signs, the last one belongs to the next block. -/
example : split "a= \n=========b==== \n====" = ["a=", "=b"] := by decide +kernel

end Block

end RmlAlgebra
