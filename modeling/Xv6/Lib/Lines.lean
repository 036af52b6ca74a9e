import Mathlib.Data.List.TakeWhile

/-!
# Lines — the lines of a text

A line ends with a separator; what stands behind the last separator is not a line.
-/

namespace Lines

variable {α : Type*} [DecidableEq α] {sep : α} {l l' : List α} {ls : List (List α)} {p q : List α → Bool}

/-- The lines of a text, without their ends. -/
def lines (sep : α) (l : List α) : List (List α) := (l.splitOn sep).dropLast

theorem lines_none (h : sep ∉ l) : lines sep l = [] := by
  rw [lines, List.splitOn_eq_singleton h, List.dropLast_singleton]

theorem lines_cons (h : sep ∉ l) : lines sep (l ++ sep :: l') = l :: lines sep l' := by
  rw [lines, List.splitOn_append_cons_self_of_not_mem h,
    List.dropLast_cons_of_ne_nil (List.splitOn_ne_nil _ _), lines]

/-- Complete lines come off in front. -/
theorem lines_append (h : ∀ l ∈ ls, sep ∉ l) :
    lines sep (ls.flatMap (· ++ [sep]) ++ l') = ls ++ lines sep l' := by
  induction ls with
  | nil => rfl
  | cons l ls ih =>
    rw [List.flatMap_cons, List.append_assoc, List.append_assoc, List.singleton_append,
      lines_cons (h l List.mem_cons_self), ih fun l hl => h l (List.mem_cons_of_mem _ hl), List.cons_append]

omit [DecidableEq α] in
theorem length_lt_flatMap (h : l ∈ ls) : l.length < (ls.flatMap (· ++ [sep])).length := by
  induction ls with
  | nil => exact absurd h List.not_mem_nil
  | cons l' ls ih =>
    rw [List.flatMap_cons, List.length_append, List.length_append, List.length_singleton]
    rcases List.mem_cons.mp h with rfl | h
    · omega
    · have := ih h
      omega

/-- A long line in front. -/
theorem takeWhile_lines {n : ℕ} (h : sep ∉ l) (hn : n ≤ l.length) :
    (lines sep (l ++ l')).takeWhile (·.length < n) = [] := by
  by_cases hmem : sep ∈ l'
  · obtain ⟨u, v, rfl, hu⟩ := List.eq_append_cons_of_mem hmem
    have hnot : sep ∉ l ++ u := fun hx => (List.mem_append.mp hx).elim h hu
    rw [← List.append_assoc, lines_cons hnot, List.takeWhile_cons, if_neg]
    rw [decide_eq_true_eq, List.length_append]
    omega
  · rw [lines_none fun hx => (List.mem_append.mp hx).elim h hmem, List.takeWhile_nil]

omit [DecidableEq α] in
/-- The front of a list has all that `q` selects just if there is nothing behind it. -/
theorem filter_takeWhile : (ls.takeWhile p).filter q = ls.filter q ↔ ∀ l ∈ ls.dropWhile p, q l = false := by
  have happ : (ls.takeWhile p).filter q ++ (ls.dropWhile p).filter q = ls.filter q := by
    rw [← List.filter_append, List.takeWhile_append_dropWhile]
  rw [← happ, List.self_eq_append_right, List.filter_eq_nil_iff]
  simp only [Bool.not_eq_true]

end Lines
