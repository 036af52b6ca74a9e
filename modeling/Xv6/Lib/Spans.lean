import Mathlib.Data.List.Pairwise
import Mathlib.Order.Nat
import Mathlib.Data.Nat.Notation

/-!
# Spans — intervals one behind the other

An interval is its start and its length.
-/

namespace Spans

variable {a b n : ℕ} {l : List (ℕ × ℕ)}

/-- The intervals of `l`, one behind the other, make up the interval from `a` to `b`. -/
def Consecutive (a : ℕ) : List (ℕ × ℕ) → ℕ → Prop
  | [], b => b = a
  | s :: l, b => s.1 = a ∧ Consecutive (a + s.2) l b

theorem Consecutive.snoc (h : Consecutive a l b) : Consecutive a (l ++ [(b, n)]) (b + n) := by
  induction l generalizing a with
  | nil =>
    obtain rfl : b = a := h
    exact ⟨rfl, rfl⟩
  | cons s l ih => exact ⟨h.1, ih h.2⟩

theorem Consecutive.le (h : Consecutive a l b) : a ≤ b := by
  induction l generalizing a with
  | nil => exact Nat.le_of_eq h.symm
  | cons s l ih => exact (Nat.le_add_right _ _).trans (ih h.2)

theorem Consecutive.bounds (h : Consecutive a l b) : ∀ s ∈ l, a ≤ s.1 ∧ s.1 + s.2 ≤ b := by
  induction l generalizing a with
  | nil => exact fun s hs => absurd hs List.not_mem_nil
  | cons s l ih =>
    obtain ⟨rfl, h⟩ := h
    intro t ht
    rcases List.mem_cons.mp ht with rfl | ht
    · exact ⟨le_rfl, h.le⟩
    · have := ih h t ht
      exact ⟨(Nat.le_add_right _ _).trans this.1, this.2⟩

/-- **No two overlap.** -/
theorem Consecutive.pairwise (h : Consecutive a l b) : l.Pairwise fun s t => s.1 + s.2 ≤ t.1 := by
  induction l generalizing a with
  | nil => exact List.Pairwise.nil
  | cons s l ih =>
    obtain ⟨rfl, h⟩ := h
    exact List.pairwise_cons.mpr ⟨fun t ht => (h.bounds t ht).1, ih h⟩

end Spans
