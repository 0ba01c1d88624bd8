import Mathlib.Data.List.Count
import RmlAlgebra.Graph
import RmlAlgebra.Vocabulary

/-! # Exact removal

A list of triples is removed one after the other, each from what the ones before it have left. All of
them together are removed exactly: what is left keeps its order, every triple is lost as often as it is
listed, and the order of the list does not matter. Of equal triples it is the first ones that go, so
what is added behind a graph stays when triples of the graph are listed.
-/

namespace RmlAlgebra.Graph

/-- Step by step, removal computes the difference of two lists. -/
theorem removeEach_eq_diff (g : Graph) (listed : List Triple) :
    g.removeEach listed = g.diff listed :=
  (List.diff_eq_foldl g listed).symm

/-! ## Along the graph -/

theorem removeEach_cons_of_not_mem {t : Triple} {listed : List Triple} (h : t ∉ listed)
    (g : Graph) : removeEach (t :: g) listed = t :: removeEach g listed := by
  rw [removeEach_eq_diff, removeEach_eq_diff, List.cons_diff_of_not_mem h]

/-- A listed triple at the head of a graph goes, and one of its listings is used up. -/
theorem removeEach_cons_of_mem {t : Triple} {listed : List Triple} (h : t ∈ listed)
    (g : Graph) : removeEach (t :: g) listed = removeEach g (listed.erase t) := by
  rw [removeEach_eq_diff, removeEach_eq_diff, List.cons_diff_of_mem h]

/-- The later part of a graph loses only what the earlier part has left of the list. -/
theorem removeEach_append (before after : Graph) (listed : List Triple) :
    removeEach (before ++ after) listed =
      removeEach before listed ++ removeEach after (removeEach listed before) := by
  induction before generalizing listed with
  | nil =>
      rw [removeEach_eq_diff [], List.nil_diff]
      rfl
  | cons t others ih =>
      have hstep : removeEach listed (t :: others) = removeEach (listed.erase t) others := rfl
      rw [List.cons_append, hstep]
      by_cases hlisted : t ∈ listed
      · rw [removeEach_cons_of_mem hlisted, removeEach_cons_of_mem hlisted, ih]
      · rw [removeEach_cons_of_not_mem hlisted, removeEach_cons_of_not_mem hlisted,
          List.erase_of_not_mem hlisted, ih, List.cons_append]

/-! ## All triples with a property -/

theorem removeEach_filter (p : Triple → Bool) (g : Graph) :
    g.removeEach (g.filter p) = g.filter (!p ·) := by
  induction g with
  | nil => rfl
  | cons t others ih =>
      by_cases hp : p t = true
      · rw [List.filter_cons_of_pos hp, List.filter_cons_of_neg (by simp [hp]),
          removeEach_cons_of_mem List.mem_cons_self, List.erase_cons_head, ih]
      · have hnot : t ∉ others.filter p := fun hmem => hp (List.mem_filter.mp hmem).2
        rw [List.filter_cons_of_neg hp, List.filter_cons_of_pos (by simp [hp]),
          removeEach_cons_of_not_mem hnot, ih]

/-- A graph uses up a list of its own triples. -/
theorem removeEach_of_sublist {g : Graph} {listed : List Triple} (h : listed.Sublist g) :
    removeEach listed g = [] := by
  rw [removeEach_eq_diff, List.eq_nil_iff_forall_not_mem]
  intro t
  rw [← List.count_eq_zero, List.count_diff]
  exact Nat.sub_eq_zero_of_le (h.count_le t)

/-- The first occurrences are those in the graph itself, whatever stands behind it. -/
theorem removeEach_filter_append (p : Triple → Bool) (g added : Graph) :
    removeEach (g ++ added) (g.filter p) = g.filter (!p ·) ++ added := by
  rw [removeEach_append, removeEach_filter, removeEach_of_sublist List.filter_sublist]
  rfl

/-- What is left when listed triples are removed from a graph. It is a part of the graph in the old
order, and each triple is in it as often as its occurrences outnumber its listings. In whatever order
the triples are listed, the result is the same. Wherever the graph is divided, the first part meets the
list before the second. If all triples with a property are listed, those without it are left. -/
theorem removeEach_exact (g : Graph) (listed : List Triple) :
    (g.removeEach listed).Sublist g ∧
      (∀ t, (g.removeEach listed).count t = g.count t - listed.count t) ∧
      (∀ other : List Triple, other.Perm listed → g.removeEach other = g.removeEach listed) ∧
      (∀ before after : Graph, before ++ after = g →
        g.removeEach listed =
          before.removeEach listed ++ after.removeEach (removeEach listed before)) ∧
      ∀ p : Triple → Bool, g.removeEach (g.filter p) = g.filter (!p ·) := by
  refine ⟨?_, ?_, ?_, ?_, fun p => removeEach_filter p g⟩
  · rw [removeEach_eq_diff]
    exact List.diff_sublist g listed
  · intro t
    rw [removeEach_eq_diff, List.count_diff]
  · intro other hperm
    rw [removeEach_eq_diff, removeEach_eq_diff, hperm.diff_left]
  · rintro before after rfl
    exact removeEach_append before after listed

/-- Of a class that is stated three times and listed twice, the last statement is left. -/
theorem removeEach_exact_statedThrice :
    let person : Triple := ⟨"b1", R2rml.class_, "Person"⟩
    let agent : Triple := ⟨"b1", R2rml.class_, "Agent"⟩
    let g : Graph := [person, agent, person, agent, person]
    [person, agent, person].Perm [agent, person, person] ∧
      [person, agent, person] ++ [agent, person] = g ∧
      g.removeEach [person, agent, person] = g.removeEach [agent, person, person] ∧
      g.removeEach [agent, person, person] = [agent, person] := by
  intro person agent g
  obtain ⟨-, -, hperm, hdivide, -⟩ := removeEach_exact g [agent, person, person]
  have hlisted : [person, agent, person].Perm [agent, person, person] := .swap agent person [person]
  have hfirst : removeEach [person, agent, person] [agent, person, person] = [] := by decide
  have hrest : removeEach [agent, person, person] [person, agent, person] = [] := by decide
  refine ⟨hlisted, rfl, hperm _ hlisted, ?_⟩
  rw [hdivide [person, agent, person] [agent, person] rfl, hfirst, hrest]
  rfl

end RmlAlgebra.Graph
