import RmlAlgebra.Document
import RmlAlgebra.Proofs.FreshLabel
import RmlAlgebra.Proofs.IriText
import RmlAlgebra.Proofs.Rewriting

/-! # The terms of a document

Whatever a document says, the subjects and predicates of its statements are IRIs with a scheme or
blank nodes. The machine that reads tokens keeps this up for all it holds: the base, the namespaces
and the unfinished statements on its stack.
-/

namespace RmlAlgebra

namespace Turtle

/-! ## Tokens -/

/-- A token that adds no bar to an IRI. References are looked at when they are resolved. -/
def Token.Bare : Token → Prop
  | .name _ localPart _ => '|' ∉ localPart
  | _ => True

theorem bar_of_readLocalChars {text rest : List Char} {run : List LocalChar}
    (h : readLocalChars text = some (run, rest)) : '|' ∉ run.map LocalChar.value := by
  fun_induction readLocalChars text generalizing run rest with
  | case1 =>
      cases h
      simp
  | case2 high low cs hhex ih =>
      obtain ⟨⟨run', rest'⟩, hrun, hpair⟩ := Option.map_eq_some_iff.mp h
      cases hpair
      simp only [Bool.and_eq_true] at hhex
      have hhigh : '|' ≠ high := fun he => absurd (he ▸ hhex.1) (by decide)
      have hlow : '|' ≠ low := fun he => absurd (he ▸ hhex.2) (by decide)
      simp only [List.map_cons, List.mem_cons, not_or]
      exact ⟨by decide, hhigh, hlow, ih hrun⟩
  | case3 => simp at h
  | case4 c cs hescape ih =>
      obtain ⟨⟨run', rest'⟩, hrun, hpair⟩ := Option.map_eq_some_iff.mp h
      cases hpair
      have hc : '|' ≠ c := fun he => absurd (he ▸ hescape) (by decide)
      simp only [List.map_cons, List.mem_cons, not_or]
      exact ⟨hc, ih hrun⟩
  | case5 => simp at h
  | case6 => simp at h
  | case7 c cs _ _ _ hname ih =>
      obtain ⟨⟨run', rest'⟩, hrun, hpair⟩ := Option.map_eq_some_iff.mp h
      cases hpair
      have hc : '|' ≠ c := fun he => absurd (he ▸ hname) (by decide)
      simp only [List.map_cons, List.mem_cons, not_or]
      exact ⟨hc, ih hrun⟩
  | case8 =>
      cases h
      simp

theorem closeLocal_subset (run : List LocalChar) (rest : List Char) :
    (closeLocal run rest).1 ⊆ run.map LocalChar.value := by
  intro c hc
  obtain ⟨d, hd, rfl⟩ := List.mem_map.mp hc
  have hd := (List.dropWhile_suffix _).subset (List.mem_reverse.mp hd)
  exact List.mem_map_of_mem (List.mem_reverse.mp hd)

theorem subset_of_cutLocal? {run : List LocalChar} {source value rest : List Char}
    (h : cutLocal? run source = some (value, rest)) : value ⊆ run.map LocalChar.value := by
  obtain ⟨left, -, hpair⟩ := Option.map_eq_some_iff.mp h
  cases hpair
  intro c hc
  have hhead := List.mem_of_mem_drop (List.mem_reverse.mp hc)
  obtain ⟨d, hd, rfl⟩ := List.mem_map.mp hhead
  exact List.mem_map_of_mem (List.mem_reverse.mp ((List.dropWhile_suffix _).subset hd))

theorem bar_of_readLocal {text localPart rest : List Char} {checked : Bool}
    (h : readLocal text = some (localPart, checked, rest)) : '|' ∉ localPart := by
  unfold readLocal at h
  split at h
  · simp only [Option.bind_eq_bind, Option.bind_eq_some_iff, Prod.exists] at h
    obtain ⟨run, left, hrun, h⟩ := h
    have hbar := bar_of_readLocalChars hrun
    split at h
    · simp only [Option.bind_eq_some_iff, Prod.exists, Option.pure_def, Option.some.injEq,
        Prod.mk.injEq] at h
      obtain ⟨value, left', hcut, rfl, -, -⟩ := h
      exact fun hc => hbar (subset_of_cutLocal? hcut hc)
    · cases h
      exact fun hc => hbar (closeLocal_subset run left hc)
  · cases h
    simp

theorem bare_of_readName {text rest : List Char} {token : Token}
    (h : readName text = some (token, rest)) : token.Bare := by
  unfold readName at h
  simp only at h
  split at h
  · split at h
    · split at h
      · simp at h
      · obtain ⟨⟨localPart, checked, rest'⟩, hlocal, hpair⟩ := Option.map_eq_some_iff.mp h
        cases hpair
        exact bar_of_readLocal hlocal
    · cases h
      exact trivial
  · simp at h

theorem bare_of_finishNumeral {text rest rest' : List Char} {token : Token}
    (h : finishNumeral text rest = some (token, rest')) : token.Bare := by
  unfold finishNumeral at h
  split at h
  · obtain ⟨pair, -, hpair⟩ := Option.map_eq_some_iff.mp h
    cases hpair
    exact trivial
  · cases h
    exact trivial

theorem bare_of_readUnsigned {sign text rest : List Char} {token : Token}
    (h : readUnsigned sign text = some (token, rest)) : token.Bare := by
  unfold readUnsigned at h
  simp only at h
  split at h
  · split at h
    · simp at h
    · split at h
      · cases h
        exact trivial
      · exact bare_of_finishNumeral h
  · split at h
    · simp at h
    · exact bare_of_finishNumeral h

theorem bare_of_readNumeral {text rest : List Char} {token : Token}
    (h : readNumeral text = some (token, rest)) : token.Bare := by
  unfold readNumeral at h
  split at h <;> exact bare_of_readUnsigned h

theorem bare_of_readString {quote : Char} {text rest : List Char} {token : Token}
    (h : readString quote text = some (token, rest)) : token.Bare := by
  have hquoted {read : Option (List Char × List Char)}
      {f : List Char × List Char → Token × List Char} (hread : read.map f = some (token, rest))
      (hf : ∀ pair, (f pair).1.Bare) : token.Bare := by
    obtain ⟨pair, -, hpair⟩ := Option.map_eq_some_iff.mp hread
    simpa [hpair] using hf pair
  unfold readString at h
  simp only at h
  split at h
  · split at h
    · split at h
      · exact hquoted h fun _ => trivial
      · cases h
        exact trivial
    · exact hquoted h fun _ => trivial
  · simp at h

theorem bare_of_readTag {text rest : List Char} {token : Token}
    (h : readTag text = some (token, rest)) : token.Bare := by
  unfold readTag at h
  split at h
  · simp only [Option.bind_eq_bind, Option.bind_eq_some_iff, Prod.exists] at h
    obtain ⟨tag, rest', -, h⟩ := h
    split at h
    · cases h
      exact trivial
    · simp at h
  · simp at h

theorem bare_of_readLabel {text rest : List Char} {token : Token}
    (h : readLabel text = some (token, rest)) : token.Bare := by
  unfold readLabel at h
  split at h
  · obtain ⟨pair, -, hpair⟩ := Option.map_eq_some_iff.mp h
    cases hpair
    exact trivial
  · simp at h

theorem bare_of_readToken {c : Char} {cs rest : List Char} {token : Token}
    (h : readToken c cs = some (token, rest)) : token.Bare := by
  unfold readToken at h
  split at h
  case h_1 =>
    split at h
    · simp at h
    · obtain ⟨pair, -, hpair⟩ := Option.map_eq_some_iff.mp h
      cases hpair
      exact trivial
  case h_2 => exact bare_of_readString h
  case h_3 => exact bare_of_readString h
  case h_4 => exact bare_of_readTag h
  case h_5 =>
    split at h
    · exact bare_of_readLabel h
    · simp at h
  case h_6 =>
    split at h
    · exact bare_of_readNumeral h
    · cases h
      exact trivial
  case h_7 =>
    split at h
    · cases h
      exact trivial
    · simp at h
  case h_14 =>
    split at h
    · exact bare_of_readNumeral h
    · exact bare_of_readName h
  all_goals
    cases h
    exact trivial

theorem bare_of_mem_tokensWithin {fuel : Nat} {text : List Char} {token : Token}
    (h : token ∈ tokensWithin fuel text) : token.Bare := by
  induction fuel generalizing text with
  | zero =>
      rw [tokensWithin, List.mem_singleton] at h
      subst h
      exact trivial
  | succ fuel ih =>
      rw [tokensWithin] at h
      split at h
      · simp at h
      · split at h
        · rw [List.mem_singleton] at h
          subst h
          exact trivial
        · next next rest hread =>
            rcases List.mem_cons.mp h with rfl | h
            · exact bare_of_readToken hread
            · exact ih h

end Turtle

/-! ## The machine -/

def Node.Absolute : Node → Prop
  | .iri text => Iri.Absolute text.toList
  | .blank _ => True

/-- A statement about an IRI or a blank node, with an IRI as predicate. -/
structure Statement.Absolute (s : Statement) : Prop where
  subject : s.subject.Absolute
  predicate : Iri.Absolute s.predicate.toList

namespace Turtle

/-- What an unfinished statement holds already. -/
def Expectation.Absolute : Expectation → Prop
  | .dot | .baseIri | .namespaceName | .namespaceIri _ | .subjectProperties | .subjectCollection =>
      True
  | .subjectBracket subject | .subjectTail subject | .verb subject | .nextVerb subject =>
      subject.Absolute
  | .subjectCell head cell => head.Absolute ∧ cell.Absolute
  | .objectCell cell => cell.Absolute
  | .object subject predicate | .nextObject subject predicate
  | .objectProperties subject predicate | .objectBracket subject predicate _
  | .objectCollection subject predicate | .suffix subject predicate _
  | .datatype subject predicate _ => subject.Absolute ∧ Iri.Absolute predicate.toList

structure Scope.Absolute (scope : Scope) : Prop where
  base : (Iri.scheme? scope.base).isSome = true
  namespaces : ∀ entry ∈ scope.namespaces, Iri.Absolute entry.2

structure Progress.Absolute (p : Progress) : Prop where
  stack : ∀ e ∈ p.stack, e.Absolute
  scope : p.scope.Absolute
  completed : ∀ s ∈ p.completed, s.Absolute

variable {token : Token} {scope : Scope} {below : List Expectation} {p : Progress}
  {subject : Node} {predicate : String}

theorem Scope.Absolute.newNode (h : scope.Absolute) :
    scope.newNode.1.Absolute ∧ scope.newNode.2.Absolute :=
  ⟨trivial, h.base, h.namespaces⟩

theorem absolute_wait {stack : List Expectation} (hscope : scope.Absolute)
    (hstack : ∀ e ∈ stack, e.Absolute) : (Progress.wait stack scope).Absolute :=
  ⟨hstack, hscope, by simp [Progress.wait]⟩

theorem absolute_complete {stack : List Expectation} {s : Statement} (hscope : scope.Absolute)
    (hstack : ∀ e ∈ stack, e.Absolute) (hs : s.Absolute) :
    (Progress.complete stack scope s).Absolute :=
  ⟨hstack, hscope, by simpa [Progress.complete] using hs⟩

theorem absolute_after {s : Statement} (hp : p.Absolute) (hs : s.Absolute) :
    (Progress.after s p).Absolute :=
  ⟨hp.stack, hp.scope, by simpa [Progress.after] using ⟨hs, hp.completed⟩⟩

theorem absolute_rdf : ∀ word ∈ [Rdf.type, Rdf.first, Rdf.rest, Rdf.nil],
    Iri.Absolute word.toList := by
  have hwords : ∀ word ∈ [Rdf.type, Rdf.first, Rdf.rest, Rdf.nil],
      (Iri.scheme? word.toList).isSome = true ∧ '|' ∉ word.toList := by decide +kernel
  exact fun word hword => ⟨(hwords word hword).1, (hwords word hword).2⟩

theorem absolute_tokenIri? (hscope : scope.Absolute) (htoken : token.Bare) {iri : String}
    (h : scope.tokenIri? token = some iri) : Iri.Absolute iri.toList := by
  cases token with
  | reference text =>
      obtain ⟨chars, hresolve, rfl⟩ := Option.map_eq_some_iff.mp h
      rw [String.toList_ofList]
      exact Iri.absolute_of_resolve? hscope.base hresolve
  | name space localPart checked =>
      simp only [Scope.tokenIri?, Scope.name?, Option.bind_eq_bind, Option.bind_eq_some_iff] at h
      obtain ⟨start, hlookup, h⟩ := h
      obtain ⟨newer, older, hlist, -⟩ := List.lookup_eq_some_iff.mp hlookup
      have hstart : Iri.Absolute start := hscope.namespaces (space, start) (by simp [hlist])
      split at h
      · simp at h
      · cases h
        rw [String.toList_ofList]
        exact hstart.append htoken
  | _ => simp [Scope.tokenIri?] at h

theorem absolute_tokenNode? (hscope : scope.Absolute) (htoken : token.Bare) {node : Node}
    (h : tokenNode? scope token = some node) : node.Absolute := by
  unfold tokenNode? at h
  split at h
  · cases h
    exact trivial
  · obtain ⟨iri, hiri, rfl⟩ := Option.map_eq_some_iff.mp h
    exact absolute_tokenIri? hscope htoken hiri

theorem absolute_readVerb (hscope : scope.Absolute) (htoken : token.Bare)
    (hbelow : ∀ e ∈ below, e.Absolute) (hsubject : subject.Absolute)
    (h : readVerb subject token scope below = some p) : p.Absolute := by
  have hpush {iri : String} (hiri : Iri.Absolute iri.toList) :
      ∀ e ∈ .object subject iri :: .nextObject subject iri :: below, e.Absolute := by
    simp only [List.forall_mem_cons]
    exact ⟨⟨hsubject, hiri⟩, ⟨hsubject, hiri⟩, hbelow⟩
  unfold readVerb at h
  split at h
  · cases h
    exact absolute_wait hscope (hpush (absolute_rdf _ (by decide)))
  · simp only [Option.bind_eq_bind, Option.bind_eq_some_iff] at h
    obtain ⟨iri, hiri, h⟩ := h
    cases h
    exact absolute_wait hscope (hpush (absolute_tokenIri? hscope htoken hiri))

theorem absolute_readObject (hscope : scope.Absolute) (hbelow : ∀ e ∈ below, e.Absolute)
    (hsubject : subject.Absolute) (hpredicate : Iri.Absolute predicate.toList)
    (h : readObject subject predicate token scope below = some p) : p.Absolute := by
  have hpush {e : Expectation} (he : e.Absolute) : ∀ f ∈ e :: below, f.Absolute := by
    simpa using ⟨he, hbelow⟩
  unfold readObject at h
  split at h
  · cases h
    exact absolute_wait hscope (hpush ⟨hsubject, hpredicate⟩)
  · cases h
    exact absolute_wait hscope (hpush ⟨hsubject, hpredicate⟩)
  · cases h
    exact absolute_wait hscope (hpush ⟨hsubject, hpredicate⟩)
  · cases h
    exact absolute_complete hscope hbelow ⟨hsubject, hpredicate⟩
  · split at h
    · cases h
      exact absolute_complete hscope hbelow ⟨hsubject, hpredicate⟩
    · simp at h
  · simp only [Option.bind_eq_bind, Option.bind_eq_some_iff] at h
    obtain ⟨node, -, h⟩ := h
    cases h
    exact absolute_complete hscope hbelow ⟨hsubject, hpredicate⟩

theorem absolute_readStart (hscope : scope.Absolute) (htoken : token.Bare)
    (h : readStart token scope = some p) : p.Absolute := by
  have hplain {e : Expectation} (he : e.Absolute) : ∀ f ∈ [e, .dot], f.Absolute := by
    simpa using ⟨he, trivial⟩
  have hsingle {e : Expectation} (he : e.Absolute) : ∀ f ∈ [e], f.Absolute := by
    simpa using he
  unfold readStart at h
  split at h
  · split at h
    · cases h
      exact absolute_wait hscope (hplain trivial)
    · split at h
      · cases h
        exact absolute_wait hscope (hplain trivial)
      · simp at h
  · split at h
    · cases h
      exact absolute_wait hscope (hsingle trivial)
    · split at h
      · cases h
        exact absolute_wait hscope (hsingle trivial)
      · simp at h
  · cases h
    exact absolute_wait hscope (hplain trivial)
  · cases h
    exact absolute_wait hscope (hplain trivial)
  · simp only [Option.bind_eq_bind, Option.bind_eq_some_iff] at h
    obtain ⟨node, hnode, h⟩ := h
    cases h
    exact absolute_wait hscope (hplain (absolute_tokenNode? hscope htoken hnode))

/-- An element of a collection is the object of a new cell. -/
theorem absolute_readElement (hscope : scope.Absolute) (hbelow : ∀ e ∈ below, e.Absolute)
    {cell : Expectation}
    (h : readObject scope.newNode.1 Rdf.first token scope.newNode.2 (cell :: below) = some p)
    (hcell : cell.Absolute) : p.Absolute := by
  have hstack : ∀ e ∈ cell :: below, e.Absolute := by simpa using ⟨hcell, hbelow⟩
  have hfirst := absolute_rdf Rdf.first (by decide)
  exact absolute_readObject hscope.newNode.2 hstack hscope.newNode.1 hfirst h

/-- What the machine holds and what it completes stays absolute. The induction goes down the stack,
as an expectation may leave the token to the one below it. -/
theorem absolute_advance {stack : List Expectation} (hscope : scope.Absolute) (htoken : token.Bare)
    (hstack : ∀ e ∈ stack, e.Absolute) (h : advance token scope stack = some p) : p.Absolute := by
  have hrest := absolute_rdf Rdf.rest (by decide)
  have hnil : (Node.iri Rdf.nil).Absolute := absolute_rdf Rdf.nil (by decide)
  induction stack generalizing p with
  | nil => exact absolute_readStart hscope htoken h
  | cons e below ih =>
      rw [List.forall_mem_cons] at hstack
      obtain ⟨he, hbelow⟩ := hstack
      have hpush {f : Expectation} (hf : f.Absolute) : ∀ x ∈ f :: below, x.Absolute := by
        simpa using ⟨hf, hbelow⟩
      have hnew := hscope.newNode
      cases e with
      | dot =>
          unfold advance at h
          split at h
          · cases h
            exact absolute_wait hscope hbelow
          · simp at h
      | baseIri =>
          unfold advance at h
          split at h
          · simp only [Option.bind_eq_bind, Option.bind_eq_some_iff] at h
            obtain ⟨iri, hiri, h⟩ := h
            cases h
            have habsolute := Iri.absolute_of_resolve? hscope.base hiri
            exact absolute_wait ⟨habsolute.scheme, hscope.namespaces⟩ hbelow
          · simp at h
      | namespaceName =>
          unfold advance at h
          split at h
          · cases h
            exact absolute_wait hscope (hpush trivial)
          · simp at h
      | namespaceIri name =>
          unfold advance at h
          split at h
          · simp only [Option.bind_eq_bind, Option.bind_eq_some_iff] at h
            obtain ⟨iri, hiri, h⟩ := h
            cases h
            have habsolute := Iri.absolute_of_resolve? hscope.base hiri
            refine absolute_wait ⟨hscope.base, ?_⟩ hbelow
            rw [List.forall_mem_cons]
            exact ⟨habsolute, hscope.namespaces⟩
          · simp at h
      | subjectProperties =>
          unfold advance at h
          simp only at h
          split at h
          · cases h
            exact absolute_wait hnew.2 (hpush hnew.1)
          · have hbracket := hpush (f := .subjectBracket scope.newNode.1) hnew.1
            exact absolute_readVerb hnew.2 htoken hbracket hnew.1 h
      | subjectBracket subject =>
          unfold advance at h
          split at h
          · cases h
            exact absolute_wait hscope (hpush he)
          · simp at h
      | subjectTail subject =>
          unfold advance at h
          split at h
          · exact ih hbelow h
          · exact absolute_readVerb hscope htoken hbelow he h
      | subjectCollection =>
          unfold advance at h
          split at h
          · cases h
            exact absolute_wait hscope (hpush hnil)
          · exact absolute_readElement hscope hbelow h ⟨hnew.1, hnew.1⟩
      | subjectCell head cell =>
          unfold advance at h
          split at h
          · cases h
            exact absolute_complete hscope (hpush he.1) ⟨he.2, hrest⟩
          · obtain ⟨q, hq, rfl⟩ := Option.map_eq_some_iff.mp h
            have hcell := absolute_readElement hscope hbelow hq ⟨he.1, hnew.1⟩
            exact absolute_after hcell ⟨he.2, hrest⟩
      | verb subject =>
          unfold advance at h
          exact absolute_readVerb hscope htoken hbelow he h
      | nextVerb subject =>
          unfold advance at h
          split at h
          · cases h
            exact absolute_wait hscope (hpush he)
          · exact ih hbelow h
          · exact ih hbelow h
          · exact absolute_readVerb hscope htoken hbelow he h
      | object subject predicate =>
          unfold advance at h
          exact absolute_readObject hscope hbelow he.1 he.2 h
      | nextObject subject predicate =>
          unfold advance at h
          split at h
          · cases h
            apply absolute_wait hscope
            simp only [List.forall_mem_cons]
            exact ⟨he, he, hbelow⟩
          · cases h
            exact absolute_wait hscope (hpush he.1)
          · exact ih hbelow h
      | objectProperties subject predicate =>
          unfold advance at h
          simp only at h
          split at h
          · cases h
            exact absolute_complete hnew.2 hbelow ⟨he.1, he.2⟩
          · have hbracket := hpush (f := .objectBracket _ _ scope.newNode.1) he
            exact absolute_readVerb hnew.2 htoken hbracket hnew.1 h
      | objectBracket subject predicate node =>
          unfold advance at h
          split at h
          · cases h
            exact absolute_complete hscope hbelow ⟨he.1, he.2⟩
          · simp at h
      | objectCollection subject predicate =>
          unfold advance at h
          split at h
          · cases h
            exact absolute_complete hscope hbelow ⟨he.1, he.2⟩
          · obtain ⟨q, hq, rfl⟩ := Option.map_eq_some_iff.mp h
            have hcell := absolute_readElement hscope hbelow hq hnew.1
            exact absolute_after hcell ⟨he.1, he.2⟩
      | objectCell cell =>
          unfold advance at h
          split at h
          · cases h
            exact absolute_complete hscope hbelow ⟨he, hrest⟩
          · obtain ⟨q, hq, rfl⟩ := Option.map_eq_some_iff.mp h
            have hcell := absolute_readElement hscope hbelow hq hnew.1
            exact absolute_after hcell ⟨he, hrest⟩
      | suffix subject predicate value =>
          unfold advance at h
          simp only at h
          split at h
          · cases h
            exact absolute_complete hscope hbelow ⟨he.1, he.2⟩
          · cases h
            exact absolute_wait hscope (hpush he)
          · obtain ⟨q, hq, rfl⟩ := Option.map_eq_some_iff.mp h
            exact absolute_after (ih hbelow hq) ⟨he.1, he.2⟩
      | datatype subject predicate value =>
          simp only [advance, Option.bind_eq_bind, Option.bind_eq_some_iff] at h
          obtain ⟨iri, -, h⟩ := h
          cases h
          exact absolute_complete hscope hbelow ⟨he.1, he.2⟩

theorem absolute_readTokens {tokens : List Token} (htokens : ∀ token ∈ tokens, token.Bare)
    {stack : List Expectation} (hscope : scope.Absolute) (hstack : ∀ e ∈ stack, e.Absolute) :
    ∀ s ∈ (readTokens stack scope tokens).statements, s.Absolute := by
  induction tokens generalizing stack scope with
  | nil => simp [readTokens]
  | cons token others ih =>
      rw [List.forall_mem_cons] at htokens
      rw [readTokens]
      cases hadvance : advance token scope stack with
      | none => simp
      | some p =>
          have hp := absolute_advance hscope htokens.1 hstack hadvance
          simp only [List.forall_mem_append, List.mem_reverse]
          exact ⟨hp.completed, ih htokens.2 hp.scope hp.stack⟩

theorem absolute_read {base : String} (hbase : isBase base = true) (document : String) :
    ∀ s ∈ (read base document).statements, s.Absolute := by
  apply absolute_readTokens fun token htoken => bare_of_mem_tokensWithin htoken
  · exact ⟨(Iri.absolute_of_isIri hbase).scheme, by simp⟩
  · simp

end Turtle

/-! ## Triples -/

/-- What the terms of a document's graph are like. -/
def Shape.documented : Shape where
  subject s := '\n' ∉ s.toList ∧ '|' ∉ s.toList ∧ s.toList.head?.any Char.isAlpha = true
  predicate p := '\n' ∉ p.toList ∧ '|' ∉ p.toList
  object o := '\n' ∉ o.toList ∧ '\r' ∉ o.toList

namespace Document

theorem of_textOf {text result : String} (h : textOf text = .ok result) :
    result = text ∧ '\n' ∉ text.toList ∧ '\r' ∉ text.toList := by
  unfold textOf at h
  split at h
  · next hrepresentable =>
      simp only [isRepresentable, Bool.and_eq_true, Bool.not_eq_true', List.contains_eq_mem,
        decide_eq_false_iff_not] at hrepresentable
      exact ⟨(Except.ok.inj h).symm, hrepresentable.1⟩
  · cases h

theorem of_map_textOf {seen seen' : Seen} {text result : String}
    (h : (textOf text).map (·, seen) = .ok (result, seen')) :
    result = text ∧ '\n' ∉ text.toList ∧ '\r' ∉ text.toList := by
  cases hread : textOf text with
  | error cause => simp [hread, Except.map] at h
  | ok read =>
      simp only [hread, Except.map, Except.ok.injEq, Prod.mk.injEq] at h
      obtain ⟨rfl, -⟩ := h
      exact of_textOf hread

theorem exists_labelOf (seen : Seen) (node : BlankNode) :
    ∃ n, (labelOf seen node).1 = Label.ofNat n := by
  unfold labelOf
  split
  · exact ⟨_, rfl⟩
  · exact ⟨_, rfl⟩

theorem of_nodeText {seen seen' : Seen} {node : Node} {text : String}
    (h : nodeText seen node = .ok (text, seen')) :
    ('\n' ∉ text.toList ∧ '\r' ∉ text.toList) ∧
      (node.Absolute → '|' ∉ text.toList ∧ text.toList.head?.any Char.isAlpha = true) := by
  cases node with
  | iri iri =>
      obtain ⟨rfl, hplain⟩ := of_map_textOf h
      exact ⟨hplain, fun hnode => ⟨hnode.bar, hnode.head_isAlpha⟩⟩
  | blank blank =>
      obtain ⟨n, hn⟩ := exists_labelOf seen blank
      have htext : text = Label.ofNat n := by
        rw [← hn]
        exact (congrArg Prod.fst (Except.ok.inj h)).symm
      subst htext
      have hline := Label.not_mem_ofNat (c := '\n') (by decide) (by decide) n
      have hreturn := Label.not_mem_ofNat (c := '\r') (by decide) (by decide) n
      have hbar := Label.not_mem_ofNat (c := '|') (by decide) (by decide) n
      exact ⟨⟨hline, hreturn⟩, fun _ => ⟨hbar, Label.head_ofNat_isAlpha n⟩⟩

theorem of_termText {seen seen' : Seen} {term : Term} {text : String}
    (h : termText seen term = .ok (text, seen')) : '\n' ∉ text.toList ∧ '\r' ∉ text.toList := by
  cases term with
  | node node => exact (of_nodeText h).1
  | literal lexical =>
      obtain ⟨rfl, hplain⟩ := of_map_textOf h
      exact hplain

theorem documented_of_relabelOne {seen seen' : Seen} {s : Statement} {t : Triple}
    (hs : s.Absolute) (h : relabelOne seen s = .ok (t, seen')) :
    Shape.documented.subject t.subject ∧ Shape.documented.predicate t.predicate ∧
      Shape.documented.object t.object := by
  obtain ⟨⟨subject, seen₁⟩, hsubject, h⟩ := except_bind_eq_ok h
  obtain ⟨predicate, hpredicate, h⟩ := except_bind_eq_ok h
  obtain ⟨⟨object, seen₂⟩, hobject, h⟩ := except_bind_eq_ok h
  obtain ⟨rfl, hline, -⟩ := of_textOf hpredicate
  cases h
  obtain ⟨hplain, hnode⟩ := of_nodeText hsubject
  exact ⟨⟨hplain.1, hnode hs.subject⟩, ⟨hline, hs.predicate.bar⟩, of_termText hobject⟩

theorem documented_of_relabelFrom {seen : Seen} {statements : List Statement} {g : Graph}
    (hs : ∀ s ∈ statements, s.Absolute) (h : relabelFrom seen statements = .ok g) :
    Shape.documented.Fits g := by
  induction statements generalizing seen g with
  | nil =>
      cases h
      exact Shape.fits_nil
  | cons s others ih =>
      rw [List.forall_mem_cons] at hs
      obtain ⟨⟨t, seen'⟩, hone, h⟩ := except_bind_eq_ok h
      obtain ⟨rest, hrest, h⟩ := except_bind_eq_ok h
      cases h
      exact Shape.fits_cons.mpr ⟨documented_of_relabelOne hs.1 hone, ih hs.2 hrest⟩

end Document

/-- The terms of every accepted document. -/
theorem Graph.documented_of_ofDocument {base document : String} {g : Graph}
    (hbase : isBase base = true) (h : ofDocument base document = .ok g) :
    Shape.documented.Fits g := by
  obtain ⟨g', hrelabel, h⟩ := except_bind_eq_ok h
  split at h
  · cases h
    exact Document.documented_of_relabelFrom (Turtle.absolute_read hbase document) hrelabel
  · cases h

end RmlAlgebra
