import RmlAlgebra.Proofs.TemplateParts

/-! # What a qualifier changes

A template consists of the names of its placeholders and of the text that is left when these names are
deleted: two templates that agree in both are the same. A qualifier without a closing brace changes the
names and leaves the text alone, whatever else stands in the qualifier and however the braces of the
template are escaped or left open. A second qualifier then goes in front of the first one.
-/

namespace RmlAlgebra

namespace Template

namespace Part

/-- A part without the name of its placeholder. -/
def emptied : Part → Part :=
  rename fun _ => []

theorem emptied_qualify (qualifier : List Char) (p : Part) :
    (p.qualify qualifier).emptied = p.emptied := by
  cases p with
  | char c => rfl
  | placeholder name => rfl

theorem qualify_qualify (first second : List Char) (p : Part) :
    (p.qualify first).qualify second = p.qualify (second ++ '_' :: first) := by
  cases p with
  | char c => rfl
  | placeholder name => simp [qualify]

/-- Parts are known from their names and from what is left without them. -/
theorem eq_of_map_emptied {ps qs : List Part} (hemptied : ps.map emptied = qs.map emptied)
    (hnames : ps.filterMap name? = qs.filterMap name?) : ps = qs := by
  induction ps generalizing qs with
  | nil => exact (List.map_eq_nil_iff.mp hemptied.symm).symm
  | cons p ps ih =>
      cases qs with
      | nil => cases hemptied
      | cons q qs =>
          rw [List.map_cons, List.map_cons, List.cons.injEq] at hemptied
          cases p with
          | char c =>
              cases q with
              | placeholder name => cases hemptied.1
              | char d =>
                  rw [List.filterMap_cons_none rfl, List.filterMap_cons_none rfl] at hnames
                  rw [ih hemptied.2 hnames]
                  exact congrArg (· :: qs) hemptied.1
          | placeholder name =>
              cases q with
              | char d => cases hemptied.1
              | placeholder name' =>
                  simp only [List.filterMap_cons, name?, List.cons.injEq] at hnames
                  rw [ih hemptied.2 hnames.2, hnames.1]

end Part

variable {qualifier template : String}

/-- A template without the names of its placeholders. -/
def emptied (template : String) : String :=
  String.ofList (ofParts ((parts template.toList).map Part.emptied))

theorem parts_emptied (template : String) :
    parts (emptied template).toList = (parts template.toList).map Part.emptied := by
  rw [emptied, String.toList_ofList]
  have hscanned := scanned_partsFrom false template.toList
  exact (hscanned.rename fun _ _ => List.not_mem_nil).eq_partsFrom.symm

theorem eq_of_parts {text : String} (h : parts text.toList = parts template.toList) :
    text = template := by
  rw [← String.toList_inj, ← ofParts_parts text.toList, h, ofParts_parts]

/-- A template is known from the names of its placeholders and from the text without them. -/
theorem eq_of_emptied {text : String} (hnames : references text = references template)
    (hemptied : emptied text = emptied template) : text = template := by
  refine eq_of_parts (Part.eq_of_map_emptied ?_ ?_)
  · rw [← parts_emptied, hemptied, parts_emptied]
  · rw [references_eq_parts, references_eq_parts] at hnames
    exact (List.map_inj_right fun _ _ => String.ofList_inj.mp).mp hnames

theorem emptied_qualify (h : '}' ∉ qualifier.toList) (template : String) :
    emptied (qualify qualifier template) = emptied template := by
  rw [emptied, parts_qualify h, List.map_map, emptied]
  congr 2
  exact List.map_congr_left fun p _ => Part.emptied_qualify qualifier.toList p

/-- A qualified template is the only one with the qualified names in the same text. -/
theorem eq_qualify_iff (h : '}' ∉ qualifier.toList) {text : String} :
    text = qualify qualifier template ↔
      references text = (references template).map (qualifier ++ "_" ++ ·) ∧
        emptied text = emptied template := by
  rw [← references_qualify h template, ← emptied_qualify h template]
  constructor
  · rintro rfl
    exact ⟨rfl, rfl⟩
  · rintro ⟨hnames, hemptied⟩
    exact eq_of_emptied hnames hemptied

theorem qualify_of_references_eq_nil (h : '}' ∉ qualifier.toList)
    (hnone : references template = []) : qualify qualifier template = template := by
  refine ((eq_qualify_iff h).mpr ⟨?_, rfl⟩).symm
  rw [hnone, List.map_nil]

/-- The second qualifier may hold anything, since the template is not read again. -/
theorem qualify_qualify (h : '}' ∉ qualifier.toList) (second template : String) :
    qualify second (qualify qualifier template) = qualify (second ++ "_" ++ qualifier) template := by
  rw [qualify_eq_parts, parts_qualify h, List.map_map, qualify_eq_parts]
  congr 2
  refine List.map_congr_left fun p _ => ?_
  simp [Part.qualify_qualify]

/-- A qualifier renames the placeholders of a template and does nothing else: the names come with the
qualifier and an underscore in front, the text without the names is the same, and no other template
has both. A template without placeholders stays as it is. Two qualifiers are one. -/
theorem qualify_renames_placeholders (h : '}' ∉ qualifier.toList) (template : String) :
    (∀ text, text = qualify qualifier template ↔
      references text = (references template).map (qualifier ++ "_" ++ ·) ∧
        emptied text = emptied template) ∧
      (references template = [] → qualify qualifier template = template) ∧
      ∀ second, qualify second (qualify qualifier template) =
        qualify (second ++ "_" ++ qualifier) template :=
  ⟨fun _ => eq_qualify_iff h, qualify_of_references_eq_nil h,
    fun second => qualify_qualify h second template⟩

/-- The template has escaped braces before and behind its two placeholders, one of which holds another
escaped brace, and ends in a brace that is never closed. The qualifiers hold braces and a backslash. -/
theorem qualify_renames_bracedNames :
    '}' ∉ "x\\\x7b".toList ∧
      references (qualify "x\\\x7b" "\\\x7ba\x7d/\x7bb\\\x7b\x7d\x7bc\x7d\\\x7b\x7bd") =
        ["x\\\x7b_b\\\x7b", "x\\\x7b_c"] ∧
      emptied (qualify "x\\\x7b" "\\\x7ba\x7d/\x7bb\\\x7b\x7d\x7bc\x7d\\\x7b\x7bd") =
        "\\\x7ba\x7d/\x7b\x7d\x7b\x7d\\\x7b\x7bd" ∧
      qualify "\x7d" (qualify "x\\\x7b" "\\\x7ba\x7d/\x7bb\\\x7b\x7d\x7bc\x7d\\\x7b\x7bd") =
        "\\\x7ba\x7d/\x7b\x7d_x\\\x7b_b\\\x7b\x7d\x7b\x7d_x\\\x7b_c\x7d\\\x7b\x7bd" := by
  have hqualifier : '}' ∉ "x\\\x7b".toList := by decide
  obtain ⟨hexact, -, htwice⟩ :=
    qualify_renames_placeholders hqualifier "\\\x7ba\x7d/\x7bb\\\x7b\x7d\x7bc\x7d\\\x7b\x7bd"
  obtain ⟨hnames, hemptied⟩ := (hexact _).mp rfl
  refine ⟨hqualifier, ?_, ?_, ?_⟩
  · rw [hnames]
    decide +kernel
  · rw [hemptied]
    decide +kernel
  · rw [htwice]
    decide +kernel

end Template

end RmlAlgebra
