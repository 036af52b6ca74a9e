import Mathlib.Data.List.TakeWhile

/-!
# Paths — the elements of a path, and where they lead

A path is a list of elements between separators; empty elements do not count.  `child` is the edge
function of a graph whose edges have names.
-/

namespace Paths

section Elements

variable {α : Type*} [DecidableEq α] {sep : α} {l l' : List α}

/-- The non-empty elements of a path. -/
def elements (sep : α) (l : List α) : List (List α) := (l.splitOn sep).filter (· ≠ [])

theorem elements_nil : elements sep [] = [] := by simp [elements]

theorem elements_append : elements sep (l ++ sep :: l') = elements sep l ++ elements sep l' := by
  rw [elements, List.splitOn_append_cons_self, List.filter_append]
  rfl

theorem elements_cons : elements sep (sep :: l) = elements sep l := by
  have h := @elements_append _ _ sep [] l
  rwa [elements_nil] at h

theorem elements_single (h : sep ∉ l) (hne : l ≠ []) : elements sep l = [l] := by
  rw [elements, List.splitOn_eq_singleton h, List.filter_cons, if_pos (decide_eq_true hne), List.filter_nil]

/-- Separators in front do not matter. -/
theorem elements_dropWhile : elements sep (l.dropWhile (· = sep)) = elements sep l := by
  induction l with
  | nil => rfl
  | cons x l ih =>
    by_cases hx : x = sep
    · rw [List.dropWhile_cons, if_pos (decide_eq_true hx), ih, hx, elements_cons]
    · rw [List.dropWhile_cons, if_neg (by simpa using hx)]

/-- **The first element**, and the path behind it. -/
theorem elements_first (hne : l ≠ []) (hhead : l.head? ≠ some sep) :
    elements sep l = l.takeWhile (· ≠ sep) :: elements sep (l.dropWhile (· ≠ sep)) := by
  have hnot : sep ∉ l.takeWhile (· ≠ sep) := fun h => by simpa using List.mem_takeWhile_imp h
  have hfirst : l.takeWhile (· ≠ sep) ≠ [] := by
    obtain ⟨x, l, rfl⟩ := List.exists_cons_of_ne_nil hne
    have hx : x ≠ sep := fun hx => hhead (by rw [hx]; rfl)
    rw [List.takeWhile_cons, if_pos (decide_eq_true hx)]
    exact List.cons_ne_nil _ _
  have happ := List.takeWhile_append_dropWhile (p := fun x => decide (x ≠ sep)) (l := l)
  cases hd : l.dropWhile (· ≠ sep) with
  | nil =>
    rw [hd, List.append_nil] at happ
    rw [elements_nil, happ]
    exact elements_single (happ ▸ hnot) hne
  | cons x r =>
    have hx : x = sep := by
      have h := List.head?_dropWhile_not (fun x => decide (x ≠ sep)) l
      rw [hd] at h
      simpa using h
    have hsplit := @elements_append _ _ sep (l.takeWhile (· ≠ sep)) r
    rw [hd, hx] at happ
    rw [happ, elements_single hnot hfirst] at hsplit
    rw [hx, elements_cons]
    exact hsplit

end Elements

section Follow

variable {N K : Type*} {child : N → K → Option N} {n : N} {k : K} {ks : List K}

/-- The node that all but the last name lead to, and the last name. -/
def parent (child : N → K → Option N) (n : N) (ks : List K) : Option (N × K) :=
  ks.getLast?.bind fun k => (ks.dropLast.foldlM child n).map fun m => (m, k)

theorem parent_single : parent child n [k] = some (n, k) := rfl

theorem parent_cons (h : ks ≠ []) :
    parent child n (k :: ks) = (child n k).bind fun m => parent child m ks := by
  obtain ⟨k', ks, rfl⟩ := List.exists_cons_of_ne_nil h
  unfold parent
  rw [List.getLast?_cons_cons, List.dropLast_cons_cons, List.foldlM_cons]
  cases child n k <;> cases (k' :: ks).getLast? <;> rfl

theorem parent_mem {x : N × K} (h : parent child n ks = some x) : x.2 ∈ ks := by
  unfold parent at h
  obtain ⟨k, hk, h⟩ := Option.bind_eq_some_iff.mp h
  obtain ⟨m, -, rfl⟩ := Option.map_eq_some_iff.mp h
  exact List.mem_of_getLast? hk

end Follow

end Paths
