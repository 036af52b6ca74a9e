import Mathlib.Data.List.Basic
import Mathlib.Logic.Function.Basic

/-!
# Replay — the contents of a store after a sequence of writes

`replay d ws` is the store `d` after the writes `ws`, in order.  Only the last write to an address
counts.
-/

namespace Replay

variable {A V : Type*} [DecidableEq A]

/-- The store after the writes `ws`, in order. -/
def replay (d : A → V) : List (A × V) → A → V
  | [] => d
  | w :: ws => replay (Function.update d w.1 w.2) ws

variable {d d' : A → V} {ws vs : List (A × V)} {a b : A} {v : V}

@[simp] theorem replay_nil : replay d [] = d := rfl

theorem replay_append : replay d (ws ++ vs) = replay (replay d ws) vs := by
  induction ws generalizing d with
  | nil => rfl
  | cons w ws ih => exact ih

theorem replay_concat : replay d (ws ++ [(a, v)]) = Function.update (replay d ws) a v := by
  rw [replay_append]; rfl

/-- An address that no write names keeps its contents. -/
theorem replay_of_not_mem (h : a ∉ ws.map Prod.fst) : replay d ws a = d a := by
  induction ws generalizing d with
  | nil => rfl
  | cons w ws ih =>
    simp only [List.map_cons, List.mem_cons, not_or] at h
    rw [replay, ih h.2, Function.update_of_ne h.1]

theorem replay_congr (h : d a = d' a) : replay d ws a = replay d' ws a := by
  induction ws generalizing d d' with
  | nil => exact h
  | cons w ws ih =>
    refine ih ?_
    by_cases ha : a = w.1
    · rw [ha, Function.update_self, Function.update_self]
    · rw [Function.update_of_ne ha, Function.update_of_ne ha, h]

/-- Every address of `as` gets what `f` has for it. -/
theorem replay_map {as : List A} {f : A → V} :
    replay d (as.map fun x => (x, f x)) a = if a ∈ as then f a else d a := by
  induction as generalizing d with
  | nil => rfl
  | cons x as ih =>
    rw [List.map_cons, replay, ih]
    by_cases hx : a = x
    · subst hx
      rw [Function.update_self, ite_self, if_pos List.mem_cons_self]
    · rw [Function.update_of_ne hx]
      simp only [List.mem_cons, hx, false_or]

end Replay
