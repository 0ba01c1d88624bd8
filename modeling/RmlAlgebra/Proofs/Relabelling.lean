import RmlAlgebra.Document
import RmlAlgebra.Proofs.HandOff
import RmlAlgebra.Proofs.LineRoundTrip

/-! # Relabelling

A list of statements becomes a graph with one triple for each statement, in which a blank node is
written as its place in the order of first appearance. Labels are given while the statements are
read, but a node that has been seen keeps its place when the list of seen nodes grows, so all labels
can be read off the complete list. A text that cannot be represented ends the reading, and the first
one is the error.
-/

namespace RmlAlgebra

theorem nodup_eraseDups {α : Type} [BEq α] [LawfulBEq α] (xs : List α) : xs.eraseDups.Nodup := by
  induction hn : xs.length using Nat.strongRecOn generalizing xs with
  | ind n ih =>
      cases xs with
      | nil => simp
      | cons x others =>
          have hlt : (others.filter fun y => !y == x).length < n := by
            have hle := List.length_filter_le (fun y => !y == x) others
            rw [List.length_cons] at hn
            omega
          rw [List.eraseDups_cons, List.nodup_cons]
          exact ⟨by simp [List.mem_eraseDups], ih _ hlt _ rfl⟩

/-- A text without bars and line breaks. -/
structure Text.BarFree (text : String) : Prop where
  bar : '|' ∉ text.toList
  lineFeed : '\n' ∉ text.toList
  carriageReturn : '\r' ∉ text.toList

instance (text : String) : Decidable (Text.BarFree text) :=
  decidable_of_iff ('|' ∉ text.toList ∧ '\n' ∉ text.toList ∧ '\r' ∉ text.toList)
    ⟨fun h => ⟨h.1, h.2.1, h.2.2⟩, fun h => ⟨h.bar, h.lineFeed, h.carriageReturn⟩⟩

theorem Label.barFree_ofNat (n : Nat) : Text.BarFree (ofNat n) where
  bar := not_mem_ofNat (by decide) (by decide) n
  lineFeed := not_mem_ofNat (by decide) (by decide) n
  carriageReturn := not_mem_ofNat (by decide) (by decide) n

/-! ## The terms of statements -/

namespace Node

/-- The text of a node under a labelling of the blank nodes. -/
def text (label : BlankNode → String) : Node → String
  | iri text => text
  | blank node => label node

def iri? : Node → Option String
  | iri text => some text
  | blank _ => none

def blank? : Node → Option BlankNode
  | iri _ => none
  | blank node => some node

theorem text_congr {label label' : BlankNode → String} {n : Node}
    (h : ∀ node ∈ n.blank?, label node = label' node) : n.text label = n.text label' := by
  cases n with
  | iri text => rfl
  | blank node => exact h node rfl

end Node

namespace Term

/-- The text of a term under a labelling of the blank nodes. -/
def text (label : BlankNode → String) : Term → String
  | node n => n.text label
  | literal lexical => lexical

def iri? : Term → Option String
  | node n => n.iri?
  | literal _ => none

def blank? : Term → Option BlankNode
  | node n => n.blank?
  | literal _ => none

def lexical? : Term → Option String
  | node _ => none
  | literal lexical => some lexical

/-- The text of a term that is no blank node. -/
def plain? : Term → Option String
  | node n => n.iri?
  | literal lexical => some lexical

theorem text_congr {label label' : BlankNode → String} {t : Term}
    (h : ∀ node ∈ t.blank?, label node = label' node) : t.text label = t.text label' := by
  cases t with
  | node n => exact Node.text_congr h
  | literal lexical => rfl

end Term

namespace Statement

/-- The triple of a statement under a labelling of the blank nodes. -/
def toTriple (label : BlankNode → String) (s : Statement) : Triple :=
  ⟨s.subject.text label, s.predicate, s.object.text label⟩

/-- The blank nodes of a statement, the subject before the object. -/
def blankNodes (s : Statement) : List BlankNode :=
  s.subject.blank?.toList ++ s.object.blank?.toList

def iris (s : Statement) : List String :=
  s.subject.iri?.toList ++ ([s.predicate] ++ s.object.iri?.toList)

/-- The texts of a statement in the order in which they are looked at. -/
def plainTexts (s : Statement) : List String :=
  s.subject.iri?.toList ++ ([s.predicate] ++ s.object.plain?.toList)

/-- Whether the IRIs of a statement are plain, as they are in every document. -/
def BarFreeIris (s : Statement) : Prop :=
  ∀ iri ∈ s.iris, Text.BarFree iri

instance (s : Statement) : Decidable s.BarFreeIris :=
  inferInstanceAs (Decidable (∀ iri ∈ s.iris, Text.BarFree iri))

theorem toTriple_congr {label label' : BlankNode → String} {s : Statement}
    (h : ∀ node ∈ s.blankNodes, label node = label' node) :
    s.toTriple label = s.toTriple label' := by
  have hsubject : s.subject.text label = s.subject.text label' :=
    Node.text_congr fun node hnode => h node (List.mem_append_left _ (Option.mem_toList.mpr hnode))
  have hobject : s.object.text label = s.object.text label' :=
    Term.text_congr fun node hnode => h node (List.mem_append_right _ (Option.mem_toList.mpr hnode))
  rw [toTriple, hsubject, hobject, toTriple]

end Statement

namespace Document

/-- The literals of a list of statements. -/
def literals (statements : List Statement) : List String :=
  statements.filterMap fun s => s.object.lexical?

/-- The blank nodes of a list of statements in the order of their first appearance. -/
def appearances (statements : List Statement) : List BlankNode :=
  (statements.flatMap Statement.blankNodes).eraseDups

/-- The label of a blank node by its place in a list. -/
def labelIn (nodes : List BlankNode) (node : BlankNode) : String :=
  Label.ofNat (nodes.idxOf node + 1)

/-! ## Labels -/

/-- A node that has appeared keeps its label. -/
theorem labelIn_eraseDups_append {seen : List BlankNode} {node : BlankNode} (h : node ∈ seen)
    (more : List BlankNode) :
    labelIn (seen ++ more).eraseDups node = labelIn seen.eraseDups node := by
  rw [labelIn, List.eraseDups_append, List.idxOf_append, if_pos (List.mem_eraseDups.mpr h), labelIn]

theorem labelOf_eraseDups (seen : List BlankNode) (node : BlankNode) :
    labelOf seen.eraseDups node =
      (labelIn (seen ++ [node]).eraseDups node, (seen ++ [node]).eraseDups) := by
  by_cases h : node ∈ seen
  · have hsame : (seen ++ [node]).eraseDups = seen.eraseDups := by
      rw [List.eraseDups_append]
      simp [List.removeAll, h]
    rw [labelOf, if_pos (List.mem_eraseDups.mpr h), hsame, labelIn]
  · have hnew : node ∉ seen.eraseDups := fun hmem => h (List.mem_eraseDups.mp hmem)
    have hmore : (seen ++ [node]).eraseDups = seen.eraseDups ++ [node] := by
      rw [List.eraseDups_append]
      simp [List.removeAll, h, List.eraseDups_cons]
    rw [labelOf, if_neg hnew, hmore, labelIn, List.idxOf_append, if_neg hnew]
    simp

theorem labelIn_inj {nodes : List BlankNode} {x y : BlankNode} (hx : x ∈ nodes) (hy : y ∈ nodes)
    (h : labelIn nodes x = labelIn nodes y) : x = y := by
  have hplace : nodes.idxOf x = nodes.idxOf y := Nat.succ.inj (Label.ofNat_injective h)
  have hltx := List.idxOf_lt_length_of_mem hx
  have hlty := List.idxOf_lt_length_of_mem hy
  calc
    x = nodes[nodes.idxOf x] := (List.getElem_idxOf hltx).symm
    _ = nodes[nodes.idxOf y] := by simp only [hplace]
    _ = y := List.getElem_idxOf hlty

theorem map_labelIn {nodes : List BlankNode} (h : nodes.Nodup) :
    nodes.map (labelIn nodes) = (List.range nodes.length).map fun i => Label.ofNat (i + 1) := by
  apply List.ext_getElem
  · simp
  · intro i hi _
    rw [List.length_map] at hi
    simp only [List.getElem_map, List.getElem_range, labelIn]
    rw [h.idxOf_getElem i hi]

/-! ## Texts that cannot be represented -/

theorem isRepresentable_iff {text : String} :
    isRepresentable text = true ↔
      '\n' ∉ text.toList ∧ '\r' ∉ text.toList ∧ ¬Triple.separator <:+: text.toList := by
  simp [isRepresentable, ← Text.contains_eq_true_iff, and_assoc]

theorem isRepresentable_of_barFree {text : String} (h : Text.BarFree text) :
    isRepresentable text = true := by
  refine isRepresentable_iff.mpr ⟨h.lineFeed, h.carriageReturn, fun hin => ?_⟩
  exact h.bar (hin.subset (by simp [Triple.separator]))

/-- A result, unless one of the given texts cannot be represented. Then the first of these is the
error. -/
def unlessRefused {α : Type} (texts : List String) (result : α) : Except Error α :=
  match texts.find? fun text => !isRepresentable text with
  | some text => .error (.unrepresentable text)
  | none => .ok result

theorem unlessRefused_eq_ok_iff {α : Type} {texts : List String} {a b : α} :
    unlessRefused texts a = .ok b ↔ (∀ text ∈ texts, isRepresentable text = true) ∧ a = b := by
  unfold unlessRefused
  cases hfind : texts.find? fun text => !isRepresentable text with
  | none => simpa [hfind] using fun _ => List.find?_eq_none.mp hfind
  | some text =>
      have hmem := List.mem_of_find?_eq_some hfind
      have hrefused := List.find?_some hfind
      simp only [reduceCtorEq, false_iff, not_and]
      intro hall
      simp [hall text hmem] at hrefused

theorem unlessRefused_eq_error_iff {α : Type} {texts : List String} {a : α} {error : Error} :
    unlessRefused texts a = .error error ↔ ∃ text,
      texts.find? (fun text => !isRepresentable text) = some text ∧
        error = .unrepresentable text := by
  unfold unlessRefused
  cases texts.find? fun text => !isRepresentable text with
  | none => simp
  | some text => simp [eq_comm]

theorem unlessRefused_bind {α β : Type} {texts others : List String} {a : α} {b : β}
    {f : α → Except Error β} (h : f a = unlessRefused others b) :
    unlessRefused texts a >>= f = unlessRefused (texts ++ others) b := by
  rw [unlessRefused, unlessRefused, List.find?_append]
  cases texts.find? fun text => !isRepresentable text with
  | some text => rfl
  | none => exact h

theorem unlessRefused_bind_pure {α β : Type} (texts : List String) (a : α) (f : α → β) :
    (unlessRefused texts a >>= fun x => pure (f x)) = unlessRefused texts (f a) := by
  have hpure : (pure (f a) : Except Error β) = unlessRefused [] (f a) := rfl
  have hbind : (unlessRefused texts a >>= fun x => pure (f x)) =
      unlessRefused (texts ++ []) (f a) := unlessRefused_bind hpure
  rwa [List.append_nil] at hbind

theorem textOf_eq (text : String) : textOf text = unlessRefused [text] text := by
  cases h : isRepresentable text with
  | true => simp [textOf, unlessRefused, h]
  | false => simp [textOf, unlessRefused, h]

theorem map_textOf {α : Type} (text : String) (f : String → α) :
    (textOf text).map f = unlessRefused [text] (f text) := by
  cases h : isRepresentable text with
  | true => simp [textOf, unlessRefused, h, Except.map]
  | false => simp [textOf, unlessRefused, h, Except.map]

/-! ## Reading statements

The nodes seen so far are given as a list with repetitions, so that what has been seen after a
statement is that list with the nodes of the statement behind it. -/

theorem nodeText_eq (seen : List BlankNode) (n : Node) :
    nodeText seen.eraseDups n = unlessRefused n.iri?.toList
      (n.text (labelIn (seen ++ n.blank?.toList).eraseDups),
        (seen ++ n.blank?.toList).eraseDups) := by
  cases n with
  | iri text =>
      rw [nodeText, map_textOf]
      simp [Node.iri?, Node.text, Node.blank?]
  | blank node =>
      rw [nodeText, labelOf_eraseDups]
      rfl

theorem termText_eq (seen : List BlankNode) (t : Term) :
    termText seen.eraseDups t = unlessRefused t.plain?.toList
      (t.text (labelIn (seen ++ t.blank?.toList).eraseDups),
        (seen ++ t.blank?.toList).eraseDups) := by
  cases t with
  | node n => exact nodeText_eq seen n
  | literal lexical =>
      rw [termText, map_textOf]
      simp [Term.plain?, Term.text, Term.blank?]

/-- One statement: its texts are looked at in order, and its nodes are labelled. -/
theorem relabelOne_eq (seen : List BlankNode) (s : Statement) :
    relabelOne seen.eraseDups s = unlessRefused s.plainTexts
      (s.toTriple (labelIn (seen ++ s.blankNodes).eraseDups),
        (seen ++ s.blankNodes).eraseDups) := by
  have hsubject : s.subject.text (labelIn (seen ++ s.subject.blank?.toList).eraseDups) =
      s.subject.text (labelIn (seen ++ s.blankNodes).eraseDups) := by
    apply Node.text_congr
    intro node hnode
    have hmem : node ∈ seen ++ s.subject.blank?.toList :=
      List.mem_append_right _ (Option.mem_toList.mpr hnode)
    rw [Statement.blankNodes, ← List.append_assoc, labelIn_eraseDups_append hmem]
  rw [relabelOne, nodeText_eq, Statement.plainTexts]
  refine unlessRefused_bind ?_
  simp only
  rw [textOf_eq]
  refine unlessRefused_bind ?_
  rw [termText_eq, unlessRefused_bind_pure, hsubject, List.append_assoc]
  rfl

/-- All statements: every label is the one that the complete list of nodes gives. -/
theorem relabelFrom_eq (seen : List BlankNode) (statements : List Statement) :
    relabelFrom seen.eraseDups statements =
      unlessRefused (statements.flatMap Statement.plainTexts)
        (statements.map (Statement.toTriple
          (labelIn (seen ++ statements.flatMap Statement.blankNodes).eraseDups))) := by
  induction statements generalizing seen with
  | nil => rfl
  | cons s others ih =>
      have hfirst : s.toTriple (labelIn (seen ++ s.blankNodes).eraseDups) = s.toTriple
          (labelIn (seen ++ (s :: others).flatMap Statement.blankNodes).eraseDups) := by
        apply Statement.toTriple_congr
        intro node hnode
        rw [List.flatMap_cons, ← List.append_assoc,
          labelIn_eraseDups_append (List.mem_append_right seen hnode)]
      rw [relabelFrom, relabelOne_eq, List.flatMap_cons]
      refine unlessRefused_bind ?_
      simp only
      rw [ih, unlessRefused_bind_pure, List.map_cons, ← hfirst, List.flatMap_cons,
        List.append_assoc]

theorem relabel_eq (statements : List Statement) :
    relabel statements = unlessRefused (statements.flatMap Statement.plainTexts)
      (statements.map (Statement.toTriple (labelIn (appearances statements)))) := by
  have h := relabelFrom_eq [] statements
  rwa [List.nil_append] at h

/-- Where the IRIs are plain, only literals can be refused. -/
theorem find?_plainTexts {statements : List Statement} (h : ∀ s ∈ statements, s.BarFreeIris) :
    (statements.flatMap Statement.plainTexts).find? (fun text => !isRepresentable text) =
      (literals statements).find? fun text => !isRepresentable text := by
  induction statements with
  | nil => rfl
  | cons s others ih =>
      rw [List.forall_mem_cons] at h
      have hiri (iri : String) (hmem : iri ∈ s.iris) : isRepresentable iri = true :=
        isRepresentable_of_barFree (h.1 iri hmem)
      have hsubject : s.subject.iri?.toList.find? (fun text => !isRepresentable text) = none := by
        rw [List.find?_eq_none]
        intro iri hmem
        simp [hiri iri (List.mem_append_left _ hmem)]
      have hpredicate : isRepresentable s.predicate = true :=
        hiri s.predicate (by simp [Statement.iris])
      have hobject : s.object.plain?.toList.find? (fun text => !isRepresentable text) =
          s.object.lexical?.toList.find? fun text => !isRepresentable text := by
        cases ho : s.object with
        | literal lexical => rfl
        | node n =>
            have hnode : n.iri?.toList.find? (fun text => !isRepresentable text) = none := by
              rw [List.find?_eq_none]
              intro iri hmem
              have hmem : iri ∈ s.iris := by simp [Statement.iris, ho, Term.iri?, hmem]
              simp [hiri iri hmem]
            simpa [Term.plain?, Term.lexical?] using hnode
      have hliterals : literals (s :: others) = s.object.lexical?.toList ++ literals others := by
        cases hl : s.object.lexical? <;> simp [literals, hl]
      rw [List.flatMap_cons, List.find?_append, ih h.2, Statement.plainTexts, List.find?_append,
        hsubject, List.find?_append, hobject, hliterals, List.find?_append]
      simp [hpredicate]

/-! ## The graph of a document -/

/-- How a graph is made from statements under a labelling of their blank nodes. -/
structure Relabelling (statements : List Statement) (g : Graph) (label : BlankNode → String) :
    Prop where
  /-- There is one triple for each statement, in order. -/
  triples : g = statements.map (Statement.toTriple label)
  /-- The labels are `b1`, `b2` and so on, in the order in which the nodes first appear. -/
  numbered : (appearances statements).map label =
    (List.range (appearances statements).length).map fun i => Label.ofNat (i + 1)
  /-- Different nodes have different labels. -/
  injective : ∀ x ∈ appearances statements, ∀ y ∈ appearances statements, label x = label y → x = y

theorem relabelling_labelIn (statements : List Statement) :
    Relabelling statements (statements.map (Statement.toTriple (labelIn (appearances statements))))
      (labelIn (appearances statements)) where
  triples := rfl
  numbered := map_labelIn (nodup_eraseDups _)
  injective := fun _ hx _ hy => labelIn_inj hx hy

/-- The text of a node is plain, since IRIs and labels are. -/
theorem barFree_nodeText {n : Node} (h : ∀ iri ∈ n.iri?, Text.BarFree iri)
    (nodes : List BlankNode) : Text.BarFree (n.text (labelIn nodes)) := by
  cases n with
  | iri text => exact h text rfl
  | blank node => exact Label.barFree_ofNat _

theorem fitsLine_toTriple {s : Statement} (hiris : s.BarFreeIris)
    (hliteral : ∀ lexical ∈ s.object.lexical?, isRepresentable lexical = true)
    (nodes : List BlankNode) :
    (s.toTriple (labelIn nodes)).FitsLine ∧
      (s.toTriple (labelIn nodes)).object.toList.getLast? ≠ some '\r' := by
  have hsubject : Text.BarFree (s.subject.text (labelIn nodes)) := by
    apply barFree_nodeText
    intro iri hiri
    exact hiris iri (List.mem_append_left _ (Option.mem_toList.mpr hiri))
  have hpredicate : Text.BarFree s.predicate := hiris s.predicate (by simp [Statement.iris])
  have hobject : '\n' ∉ (s.object.text (labelIn nodes)).toList ∧
      '\r' ∉ (s.object.text (labelIn nodes)).toList := by
    cases ho : s.object with
    | literal lexical =>
        have hrepresentable :=
          isRepresentable_iff.mp (hliteral lexical (by simp [ho, Term.lexical?]))
        exact ⟨hrepresentable.1, hrepresentable.2.1⟩
    | node n =>
        have hnode : Text.BarFree (n.text (labelIn nodes)) := by
          apply barFree_nodeText
          intro iri hiri
          exact hiris iri (by simp [Statement.iris, ho, Term.iri?, Option.mem_def.mp hiri])
        exact ⟨hnode.lineFeed, hnode.carriageReturn⟩
  refine ⟨⟨?_, ?_⟩, fun hlast => hobject.2 (List.mem_of_getLast? hlast)⟩
  · simpa [Statement.toTriple] using
      ⟨hsubject.lineFeed, hpredicate.lineFeed, hobject.1⟩
  · simpa [Statement.toTriple] using
      ⟨Text.clear_separator_of_not_mem hsubject.bar, Text.clear_separator_of_not_mem hpredicate.bar⟩

theorem ofDocument_of_read {base document : String} {statements : List Statement}
    (h : Turtle.read base document = ⟨statements, true⟩) :
    Graph.ofDocument base document = relabel statements := by
  rw [Graph.ofDocument, h]
  exact bind_pure (relabel statements)

theorem relabel_of_barFreeIris {statements : List Statement} (h : ∀ s ∈ statements, s.BarFreeIris) :
    relabel statements = unlessRefused (literals statements)
      (statements.map (Statement.toTriple (labelIn (appearances statements)))) := by
  rw [relabel_eq, unlessRefused, find?_plainTexts h, unlessRefused]

/-- Statements whose IRIs hold no bars and line breaks are relabelled unless one of their literals
breaks a line or holds a separator, and the first such literal is the error. The graph has the
statements as its triples, with labels for the blank nodes that are numbered by first appearance,
and it is read back from its text. For a document these are the statements that it is read as. -/
theorem relabel_faithful {statements : List Statement} (h : ∀ s ∈ statements, s.BarFreeIris) :
    ((∃ g, relabel statements = .ok g) ↔ ∀ lexical ∈ literals statements,
      '\n' ∉ lexical.toList ∧ '\r' ∉ lexical.toList ∧ ¬Triple.separator <:+: lexical.toList) ∧
    (∀ g, relabel statements = .ok g →
      (∃ label, Relabelling statements g label) ∧ Graph.ofText g.toText = .ok g) ∧
    (∀ error, relabel statements = .error error → ∃ lexical,
      (literals statements).find? (fun text => !isRepresentable text) = some lexical ∧
        error = .unrepresentable lexical) ∧
    ∀ base document, Turtle.read base document = ⟨statements, true⟩ →
      Graph.ofDocument base document = relabel statements := by
  rw [relabel_of_barFreeIris h]
  refine ⟨?_, ?_, fun error => unlessRefused_eq_error_iff.mp, ?_⟩
  · simp only [unlessRefused_eq_ok_iff, isRepresentable_iff]
    simp
  · intro g hg
    obtain ⟨hliterals, rfl⟩ := unlessRefused_eq_ok_iff.mp hg
    refine ⟨⟨_, relabelling_labelIn statements⟩, ?_⟩
    rw [Graph.ofText_toText_eq_self_iff, List.forall_mem_map]
    intro s hs
    apply fitsLine_toTriple (h s hs)
    intro lexical hlexical
    exact hliterals lexical (List.mem_filterMap.mpr ⟨s, hs, hlexical⟩)
  · intro base document hread
    rw [ofDocument_of_read hread, relabel_of_barFreeIris h]

/-- A document with two named blank nodes, which both come back, and one without a name. -/
def recurringNodes : String :=
  "_:y <p> _:x, \"||\". <s> <p> [], _:y; <q> _:x ."

def recurringStatements : List Statement :=
  [⟨.blank (.named "y"), "http://e/p", .node (.blank (.named "x"))⟩,
    ⟨.blank (.named "y"), "http://e/p", .literal "||"⟩,
    ⟨.iri "http://e/s", "http://e/p", .node (.blank (.anonymous 0))⟩,
    ⟨.iri "http://e/s", "http://e/p", .node (.blank (.named "y"))⟩,
    ⟨.iri "http://e/s", "http://e/q", .node (.blank (.named "x"))⟩]

set_option maxRecDepth 100000 in
theorem relabel_recurringNodes :
    (∀ s ∈ recurringStatements, s.BarFreeIris) ∧
      Turtle.read "http://e/" recurringNodes = ⟨recurringStatements, true⟩ ∧
      ∃ g label, Graph.ofDocument "http://e/" recurringNodes = .ok g ∧
        Relabelling recurringStatements g label ∧
        (appearances recurringStatements).map label = ["b1", "b2", "b3"] ∧
        Graph.ofText g.toText = .ok g := by
  have hiris : ∀ s ∈ recurringStatements, s.BarFreeIris := by decide +kernel
  have hread : Turtle.read "http://e/" recurringNodes = ⟨recurringStatements, true⟩ := by
    decide +kernel
  obtain ⟨hsucceeds, hgraph, -, hdocument⟩ := relabel_faithful hiris
  obtain ⟨g, hg⟩ := hsucceeds.mpr (by decide +kernel)
  obtain ⟨⟨label, hlabel⟩, hback⟩ := hgraph g hg
  refine ⟨hiris, hread, g, label, (hdocument _ _ hread).trans hg, hlabel, ?_, hback⟩
  rw [hlabel.numbered]
  decide +kernel

end Document

end RmlAlgebra
