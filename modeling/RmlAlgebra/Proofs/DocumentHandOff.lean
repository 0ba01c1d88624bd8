import RmlAlgebra.Proofs.DocumentTerms
import RmlAlgebra.Proofs.HandOff

/-! # Which documents survive the hand-off

A document is refused if one of its terms does not fit on a line. That is not enough for the blocks
of its sub-graphs: a literal may hold the delimiter, and one at the end of a block may lose its blank
ending. These two are all that can go wrong. A graph that is divided by a delimiter is never read
back, because what is left of it in its block is too short.
-/

namespace RmlAlgebra

/-! ## The terms of sub-graphs -/

theorem Shape.documented_stable : Shape.documented.Stable where
  subjectLabel n := by
    have hline := Label.not_mem_ofNat (c := '\n') (by decide) (by decide) n
    have hbar := Label.not_mem_ofNat (c := '|') (by decide) (by decide) n
    exact ⟨hline, hbar, Label.head_ofNat_isAlpha n⟩
  objectLabel n := by
    have hline := Label.not_mem_ofNat (c := '\n') (by decide) (by decide) n
    have hreturn := Label.not_mem_ofNat (c := '\r') (by decide) (by decide) n
    exact ⟨hline, hreturn⟩
  separated triplesMap n h := by
    have hline := Graph.not_mem_separatedName h.1 (by decide) (by decide) n
    have hbar := Graph.not_mem_separatedName h.2.1 (by decide) (by decide) n
    refine ⟨hline, hbar, ?_⟩
    have halpha := h.2.2
    rw [Graph.toList_separatedName]
    cases hchars : triplesMap.toList with
    | nil => simp [hchars] at halpha
    | cons c cs => simpa [hchars] using halpha
  addedPredicate := by
    intro p hp
    obtain ⟨hline, -, hbar⟩ := addedPredicates_plain p hp
    exact ⟨hline, hbar⟩
  type := ⟨by decide, by decide⟩
  triplesMap := ⟨by decide, by decide⟩

namespace Shape.Documented

variable {g : Graph}

theorem readable (h : documented.Fits g) : ∀ t ∈ g, t.Readable := by
  intro t ht
  obtain ⟨hs, hp, ho⟩ := h t ht
  refine ⟨Text.clear_separator_of_not_mem hs.2.1, Text.clear_separator_of_not_mem hp.2, ?_⟩
  rw [Triple.mem_toChars (by decide)]
  rintro (hc | hc | hc)
  · exact hs.1 hc
  · exact hp.1 hc
  · exact ho.1 hc

theorem withoutReturn {t : Triple} (h : documented.object t.object) : t.withoutReturn = t := by
  have hreturn : Text.dropReturn t.object.toList = t.object.toList := by
    rw [Text.dropReturn, if_neg]
    exact fun hlast => h.2 (List.mem_of_getLast? hlast)
  rw [Triple.withoutReturn, hreturn, String.ofList_toList]

theorem map_withoutReturn (h : documented.Fits g) : g.map Triple.withoutReturn = g :=
  (List.map_congr_left fun t ht => withoutReturn (h t ht).2.2).trans (List.map_id g)

theorem ofText_toText (h : documented.Fits g) : Graph.ofText g.toText = .ok g := by
  rw [Graph.ofText_toText (readable h), map_withoutReturn h]

theorem head_toText (h : documented.Fits g) (hne : g ≠ []) :
    ∃ c cs, g.toText.toList = c :: cs ∧ c.isAlpha = true := by
  obtain ⟨t, others, rfl⟩ := List.exists_cons_of_ne_nil hne
  have halpha := (h t List.mem_cons_self).1.2.2
  cases hs : t.subject.toList with
  | nil => simp [hs] at halpha
  | cons c cs =>
      have hc : c.isAlpha = true := by simpa [hs] using halpha
      rw [Graph.toList_toText, List.map_cons, Text.unlines, Triple.toChars, hs]
      simp only [List.cons_append]
      exact ⟨c, _, rfl, hc⟩

theorem start (h : documented.Fits g) (t : Triple) (ht : g.head? = some t) :
    Text.opensBlank t.subject.toList = false := by
  have halpha := (h t (List.mem_of_head? ht)).1.2.2
  cases hs : t.subject.toList with
  | nil => rfl
  | cons c cs =>
      have hc : c.isAlpha = true := by simpa [hs] using halpha
      simpa [Text.opensBlank] using Text.isBlank_of_isAlpha hc

end Shape.Documented

/-! ## Blocks that are read back -/

namespace Graph

/-- What a graph needs to be read back from its block. -/
structure Survives (g : Graph) : Prop where
  undivided : ¬Block.delimiter <:+: g.toText.toList
  ending : ∀ t, g.getLast? = some t → Text.closesBlank t.object.toList = false

theorem length_unlines_filter_le (p : List Char → Bool) (ls : List (List Char)) :
    (Text.unlines (ls.filter p)).length ≤ (Text.unlines ls).length := by
  induction ls with
  | nil => simp
  | cons line others ih =>
      by_cases hp : p line = true
      · rw [List.filter_cons_of_pos hp]
        simp only [Text.unlines, List.length_append, List.length_cons]
        omega
      · rw [List.filter_cons_of_neg hp]
        simp only [Text.unlines, List.length_append, List.length_cons]
        omega

/-- The text of a graph is hardly longer than any text that it is read from. -/
theorem length_toText_le {text : String} {g : Graph} (h : ofText text = .ok g) :
    g.toText.toList.length ≤ text.toList.length + 1 := by
  have hlines := (Text.lines_spec text.toList).2
  have hfilter := length_unlines_filter_le (fun line => !line.isEmpty) (Text.lines text.toList)
  rw [toList_toText, (Triple.of_ofLines h).2]
  omega

theorem handedOver_eq_self_iff {g : Graph} (h : Shape.documented.Fits g) :
    g.handedOver = g ↔
      ∀ t, g.getLast? = some t → Text.closesBlank t.object.toList = false := by
  by_cases hne : g = []
  · subst hne
    simp [handedOver]
  · obtain ⟨init, t, rfl⟩ := (List.eq_nil_or_concat g).resolve_left hne
    have hinit : init.map Triple.withoutReturn = init :=
      Shape.Documented.map_withoutReturn fun u hu => h u (by simp [hu])
    have hsplit : handedOver (init.concat t) = init ++ [t.trimmed] := by
      simp [handedOver, hinit]
    rw [hsplit, List.concat_eq_append]
    simp only [List.append_cancel_left_eq, List.cons.injEq, and_true, List.getLast?_concat,
      Option.some.injEq, forall_eq']
    constructor
    · intro htrim
      have hobject : Text.trimEnd t.object.toList = t.object.toList := by
        simpa [Triple.trimmed] using congrArg (fun u => u.object.toList) htrim
      rw [Bool.eq_false_iff]
      intro hblank
      have hlt := Text.trimEnd_length_lt hblank
      rw [hobject] at hlt
      omega
    · exact Triple.trimmed_of_closesBlank

end Graph

namespace Block

variable {g : Graph}

/-- The first block of a divided graph ends where the graph is divided. -/
theorem split_of_divided (others : List Graph) (hg : Shape.documented.Fits g) (hne : g ≠ [])
    (h : delimiter <:+: g.toText.toList) :
    ∃ before rest, split (ofGraphs (g :: others)) = String.ofList (Text.trim before) :: rest ∧
      before.length + delimiter.length ≤ g.toText.toList.length := by
  cases hcut : Text.cut? delimiter g.toText.toList with
  | none => exact absurd h ((Text.cut?_eq_none_iff (by simp [delimiter])).mp hcut)
  | some pair =>
      obtain ⟨before, after⟩ := pair
      have htext := Text.eq_of_cut? hcut
      have hclear := Text.clear_of_cut? (by simp [delimiter]) hcut
      obtain ⟨c, cs, hhead, hc⟩ := Shape.Documented.head_toText hg hne
      have hnonempty : Text.trim before ≠ [] := by
        cases before with
        | nil =>
            -- The text would start with the delimiter and not with a letter.
            rw [htext, List.nil_append, delimiter, List.cons_append, List.cons_append,
              List.cons.injEq] at hhead
            rw [← hhead.1] at hc
            exact absurd hc (by decide)
        | cons d ds =>
            rw [htext, List.cons_append, List.cons_append, List.cons.injEq] at hhead
            have hd : Text.isBlank d = false := Text.isBlank_of_isAlpha (hhead.1 ▸ hc)
            exact Text.trim_cons_ne_nil hd ds
      have hall : (ofGraphs (g :: others)).toList =
          before ++ delimiter ++ (after ++ delimiter ++ (ofGraphs others).toList) := by
        rw [toList_ofGraphs_cons, htext]
        simp only [List.append_assoc]
      refine ⟨before, _, split_append hall hclear hnonempty, ?_⟩
      rw [htext]
      simp only [List.length_append]
      omega

/-- Exactly the graphs that survive are read back from their blocks. -/
theorem map_ofText_split_iff {subs : List Graph}
    (h : ∀ sub ∈ subs, sub ≠ [] ∧ Shape.documented.Fits sub) :
    (split (ofGraphs subs)).map Graph.ofText = subs.map .ok ↔ ∀ sub ∈ subs, sub.Survives := by
  induction subs with
  | nil => simp [ofGraphs, split, Text.pieces, Text.piecesAfter, Text.trim, Text.trimEnd]
  | cons g others ih =>
      rw [List.forall_mem_cons] at h
      obtain ⟨⟨hne, hfits⟩, hothers⟩ := h
      have hstart := Shape.Documented.start hfits
      rw [List.forall_mem_cons, ← ih hothers]
      by_cases hdivided : delimiter <:+: g.toText.toList
      · obtain ⟨before, rest, hsplit, hshort⟩ := split_of_divided others hfits hne hdivided
        constructor
        · intro hread
          rw [hsplit, List.map_cons, List.map_cons, List.cons.injEq] at hread
          have hlong := Graph.length_toText_le hread.1
          have htrim := Text.length_trim_le before
          rw [String.toList_ofList] at hlong
          have hfour : delimiter.length = 4 := rfl
          omega
        · exact fun hsurvives => absurd hdivided hsurvives.1.undivided
      · have hblock : Graph.ofText (ofGraph g) = .ok g.handedOver :=
          Graph.ofText_trim_toText hne (Shape.Documented.readable hfits) hstart
        have hself := Graph.handedOver_eq_self_iff hfits
        rw [split_ofGraphs_cons ⟨hne, hstart, hdivided⟩, List.map_cons, List.map_cons, hblock,
          List.cons.injEq, Except.ok.injEq, hself]
        exact and_congr_left' ⟨fun hending => ⟨hdivided, hending⟩, Graph.Survives.ending⟩

end Block

/-! ## Documents -/

namespace Graph

/-- The sub-graphs of an accepted document are read back from the text that normalization gives if
and only if each of them survives. -/
theorem read_back_iff_survives {base document : String} {g : Graph} {seed : UInt32}
    {subs : List Graph} (hbase : isBase base = true) (hdocument : ofDocument base document = .ok g)
    (hsubs : g.normalize seed = .ok subs) :
    ∃ text, Engine.normalize g.toText seed = some text ∧
      ((Block.split text).map ofText = subs.map .ok ↔ ∀ sub ∈ subs, sub.Survives) := by
  have hfits := documented_of_ofDocument hbase hdocument
  have htext := Pipeline.engine_normalize_of_ok (Shape.Documented.ofText_toText hfits) hsubs
  refine ⟨Block.ofGraphs subs, htext, Block.map_ofText_split_iff ?_⟩
  exact fits_of_normalize Shape.documented_stable hfits hsubs

/-- A document with one rule, whose object is a literal. -/
def oneRule (literal : String) : String :=
  "@prefix r: <http://www.w3.org/ns/r2rml#>. <t> a r:TriplesMap; r:subject 1; " ++
    "r:predicateObjectMap [r:predicate 2; r:object \"" ++ literal ++ "\"]."

def oneRuleGraph (literal : String) : Graph :=
  [⟨"http://example.com/base/t", Rdf.type, R2rml.triplesMap⟩,
    ⟨"http://example.com/base/t", R2rml.subject, "1"⟩, ⟨"b1", R2rml.predicate, "2"⟩,
    ⟨"http://example.com/base/t", R2rml.predicateObjectMap, "b1"⟩,
    ⟨"b1", R2rml.object, literal⟩]

set_option maxRecDepth 100000 in
/-- Three equality signs in a literal are harmless. -/
theorem read_back_three_signs :
    isBase "http://example.com/base/" = true ∧
      ofDocument "http://example.com/base/" (oneRule "===") = .ok (oneRuleGraph "===") ∧
      ∃ subs text, (oneRuleGraph "===").normalize 58932 = .ok subs ∧ subs.length = 1 ∧
        Engine.normalize (oneRuleGraph "===").toText 58932 = some text ∧
        (Block.split text).map ofText = subs.map .ok := by
  have hbase : isBase "http://example.com/base/" = true := by decide +kernel
  have hdocument : ofDocument "http://example.com/base/" (oneRule "===") =
      .ok (oneRuleGraph "===") := toOption_eq_some_iff.mp (by decide +kernel)
  have hsubs : ∃ subs, (oneRuleGraph "===").normalize 58932 = .ok subs ∧ subs.length = 1 ∧
      ∀ sub ∈ subs, ¬Block.delimiter <:+: Text.unlines (sub.map Triple.toChars) ∧
        ∀ t ∈ sub.getLast?, Text.closesBlank t.object.toList = false := by
    simp only [normalize_eq_ok_iff]
    exact ⟨_, ⟨by decide +kernel, by decide +kernel, rfl⟩, by decide +kernel⟩
  obtain ⟨subs, hsubs, hlength, hsurvive⟩ := hsubs
  obtain ⟨text, htext, hiff⟩ := read_back_iff_survives hbase hdocument hsubs
  refine ⟨hbase, hdocument, subs, text, hsubs, hlength, htext, hiff.mpr fun sub hsub => ?_⟩
  obtain ⟨hdelimiter, hending⟩ := hsurvive sub hsub
  exact ⟨by rwa [toList_toText], hending⟩

set_option maxRecDepth 100000 in
/-- Four of them divide a block: the document is accepted and has one sub-graph, but two blocks. -/
theorem divided_by_four_signs :
    isBase "http://example.com/base/" = true ∧
      ofDocument "http://example.com/base/" (oneRule "====") = .ok (oneRuleGraph "====") ∧
      ∃ subs text, (oneRuleGraph "====").normalize 58932 = .ok subs ∧ subs.length = 1 ∧
        Engine.normalize (oneRuleGraph "====").toText 58932 = some text ∧
        (Block.split text).length = 2 := by
  have hbase : isBase "http://example.com/base/" = true := by decide +kernel
  have hdocument : ofDocument "http://example.com/base/" (oneRule "====") =
      .ok (oneRuleGraph "====") := toOption_eq_some_iff.mp (by decide +kernel)
  have hsubs : ∃ subs, (oneRuleGraph "====").normalize 58932 = .ok subs ∧ subs.length = 1 ∧
      (((Text.pieces Block.delimiter (subs.flatMap fun g =>
        Text.unlines (g.map Triple.toChars) ++ Block.delimiter)).map Text.trim).filter
          (!·.isEmpty)).length = 2 := by
    simp only [normalize_eq_ok_iff]
    exact ⟨_, ⟨by decide +kernel, by decide +kernel, rfl⟩, by decide +kernel⟩
  obtain ⟨subs, hsubs, hlength, hblocks⟩ := hsubs
  have hread := Shape.Documented.ofText_toText (documented_of_ofDocument hbase hdocument)
  refine ⟨hbase, hdocument, subs, Block.ofGraphs subs, hsubs, hlength, ?_, ?_⟩
  · exact Pipeline.engine_normalize_of_ok hread hsubs
  · simpa [Block.split, Block.toList_ofGraphs] using hblocks

end Graph

end RmlAlgebra
