import Mathlib

/-!
# `Lines` — the terminated lines of a list

`Lines.terminated sep s` are the pieces of `s` that are followed by a separator, and `Lines.rest sep s` is what comes
after the last one. A reader that sees `s` in pieces keeps `rest` between two pieces (`terminated_append`).
-/

namespace Lines

variable {α : Type*} [DecidableEq α] {sep : α} {s l : List α}

/-- The pieces of `s` that end with a separator, without it. -/
def terminated (sep : α) (s : List α) : List (List α) := (s.splitOn sep).dropLast

/-- What follows the last separator of `s`. -/
def rest (sep : α) (s : List α) : List α := (s.splitOn sep).getLastD []

theorem beq_false_of_notMem (h : sep ∉ l) : ∀ x ∈ l, (x == sep) = false := by
  intro x hx
  refine beq_false_of_ne fun heq => h ?_
  rwa [← heq]

theorem splitOn_of_notMem (h : sep ∉ s) : s.splitOn sep = [s] :=
  List.splitOnP_eq_singleton (beq_false_of_notMem h)

theorem splitOn_first (h : sep ∉ l) (s : List α) : (l ++ sep :: s).splitOn sep = l :: s.splitOn sep :=
  List.splitOnP_append_cons_of_forall_mem (beq_false_of_notMem h) sep (beq_self_eq_true sep) s

theorem splitOn_ne_nil (sep : α) (s : List α) : s.splitOn sep ≠ [] := List.splitOnP_ne_nil _ _

theorem terminated_of_notMem (h : sep ∉ s) : terminated sep s = [] := by
  rw [terminated, splitOn_of_notMem h]
  rfl

theorem rest_of_notMem (h : sep ∉ s) : rest sep s = s := by
  rw [rest, splitOn_of_notMem h]
  rfl

theorem terminated_first (h : sep ∉ l) (s : List α) : terminated sep (l ++ sep :: s) = l :: terminated sep s := by
  rw [terminated, splitOn_first h, List.dropLast_cons_of_ne_nil (splitOn_ne_nil sep s), terminated]

theorem rest_first (h : sep ∉ l) (s : List α) : rest sep (l ++ sep :: s) = rest sep s := by
  rw [rest, splitOn_first h, rest]
  cases hs : s.splitOn sep with
  | nil => exact absurd hs (splitOn_ne_nil sep s)
  | cons a as => rfl

/-- A list is its first terminated line and the rest, or has no separator. -/
theorem first_or_notMem (sep : α) (s : List α) :
    sep ∉ s ∨ ∃ l t, s = l ++ sep :: t ∧ sep ∉ l := by
  by_cases h : sep ∈ s
  · obtain ⟨l, t, hs, hl⟩ := List.eq_append_cons_of_mem h
    exact .inr ⟨l, t, hs, hl⟩
  · exact .inl h

/-- Induction on the terminated lines. -/
theorem induction_lines (sep : α) {P : List α → Prop} (hnone : ∀ s, sep ∉ s → P s)
    (hline : ∀ l s, sep ∉ l → P s → P (l ++ sep :: s)) (s : List α) : P s := by
  induction hn : s.length using Nat.strong_induction_on generalizing s with
  | _ n ih =>
      rcases first_or_notMem sep s with h | ⟨l, t, rfl, hl⟩
      · exact hnone s h
      · refine hline l t hl (ih t.length ?_ t rfl)
        rw [← hn, List.length_append, List.length_cons]
        omega

theorem sep_notMem_rest (sep : α) (s : List α) : sep ∉ rest sep s := by
  induction s using induction_lines sep with
  | hnone s h => rwa [rest_of_notMem h]
  | hline l s hl ih => rwa [rest_first hl]

theorem rest_suffix (sep : α) (s : List α) : rest sep s <:+ s := by
  induction s using induction_lines sep with
  | hnone s h => rw [rest_of_notMem h]
  | hline l s hl ih =>
      rw [rest_first hl]
      exact ih.trans ((List.suffix_cons sep s).trans (List.suffix_append l _))

/-- A terminated line and its separator are no longer than the list. -/
theorem length_lt_of_mem_terminated (h : l ∈ terminated sep s) : l.length < s.length := by
  induction s using induction_lines sep with
  | hnone s hs =>
      rw [terminated_of_notMem hs] at h
      exact absurd h List.not_mem_nil
  | hline k s hk ih =>
      rw [terminated_first hk, List.mem_cons] at h
      rw [List.length_append, List.length_cons]
      rcases h with rfl | h
      · omega
      · have := ih h
        omega

/-- **Reading in pieces.** The lines of `s ++ t` are those of `s` and those of what `s` leaves open, with `t`. -/
theorem terminated_append (sep : α) (s t : List α) :
    terminated sep (s ++ t) = terminated sep s ++ terminated sep (rest sep s ++ t) := by
  induction s using induction_lines sep with
  | hnone s h => rw [terminated_of_notMem h, rest_of_notMem h, List.nil_append]
  | hline l s hl ih =>
      rw [List.append_assoc, List.cons_append, terminated_first hl, terminated_first hl, rest_first hl, ih,
        List.cons_append]

end Lines
