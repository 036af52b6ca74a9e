import Mathlib.Algebra.Group.Nat.Defs
import Mathlib.Data.List.Pairwise
import Mathlib.Data.Nat.Notation

/-!
# Tiles — spans that cut up a range of memory

A span is its start and its length.  `cover l x` counts the spans of `l` that `x` is in, so that cutting a
span in two, joining two and taking one away are sums.  `Tiles l w`: the spans of `l` are pairwise disjoint
and make up those of `w`.
-/

namespace Tiles

/-- `x` is in the span `s`. -/
abbrev Within (s : ℕ × ℕ) (x : ℕ) : Prop := s.1 ≤ x ∧ x < s.1 + s.2

def cover (l : List (ℕ × ℕ)) (x : ℕ) : ℕ := l.countP fun s => decide (Within s x)

end Tiles

structure Tiles (l w : List (ℕ × ℕ)) : Prop where
  disjoint : l.Pairwise fun s t => ∀ x, ¬ (Tiles.Within s x ∧ Tiles.Within t x)
  union : ∀ x, (∃ s ∈ l, Tiles.Within s x) ↔ ∃ s ∈ w, Tiles.Within s x

namespace Tiles

variable {l l' w : List (ℕ × ℕ)} {s t : ℕ × ℕ} {x : ℕ}

theorem cover_cons : cover (s :: l) x = cover l x + if Within s x then 1 else 0 := by
  simp [cover, List.countP_cons]

theorem cover_append : cover (l ++ l') x = cover l x + cover l' x := List.countP_append

theorem cover_pos : 0 < cover l x ↔ ∃ s ∈ l, Within s x := by
  simp [cover, List.countP_pos_iff]

/-- A span that is cut in two. -/
theorem cover_cut {a n k : ℕ} : cover ((a, n + k) :: l) x = cover ((a, n) :: (a + n, k) :: l) x := by
  rw [cover_cons, cover_cons, cover_cons]
  by_cases h : Within (a, n) x
  · have h₁ : Within (a, n + k) x := ⟨h.1, by have := h.2; simp only at this ⊢; omega⟩
    have h₂ : ¬ Within (a + n, k) x := fun h' => Nat.not_lt.mpr h'.1 h.2
    rw [if_pos h, if_pos h₁, if_neg h₂]
  · have h₁ : Within (a, n + k) x ↔ Within (a + n, k) x := by
      simp only [Within] at h ⊢
      omega
    rw [if_neg h]
    simp only [h₁]
    rw [Nat.add_zero]

/-- Spans of which no two have a common place cover no place twice. -/
theorem cover_le_one (h : l.Pairwise fun s t => ∀ x, ¬ (Within s x ∧ Within t x)) :
    cover l x ≤ 1 := by
  induction l with
  | nil => exact Nat.zero_le 1
  | cons s l ih =>
    obtain ⟨hs, h⟩ := List.pairwise_cons.mp h
    rw [cover_cons]
    by_cases hx : Within s x
    · have h0 : ¬ 0 < cover l x := by
        intro hc
        obtain ⟨t, ht, htx⟩ := cover_pos.mp hc
        exact hs t ht x ⟨hx, htx⟩
      rw [if_pos hx]
      omega
    · rw [if_neg hx]
      exact ih h

theorem pairwise_of_cover (h : ∀ x, cover l x ≤ 1) :
    l.Pairwise fun s t => ∀ x, ¬ (Within s x ∧ Within t x) := by
  induction l with
  | nil => exact List.Pairwise.nil
  | cons s l ih =>
    refine List.pairwise_cons.mpr ⟨?_, ih fun x => ?_⟩
    · rintro t ht x ⟨hs, htx⟩
      have hc := h x
      have hp : 0 < cover l x := cover_pos.mpr ⟨t, ht, htx⟩
      rw [cover_cons, if_pos hs] at hc
      omega
    · have hc := h x
      rw [cover_cons] at hc
      omega

/-- Spans that cover the same places as often as disjoint ones tile them. -/
theorem of_cover (hw : w.Pairwise fun s t => ∀ x, ¬ (Within s x ∧ Within t x))
    (h : ∀ x, cover l x = cover w x) : Tiles l w := by
  refine ⟨pairwise_of_cover fun x => ?_, fun x => ?_⟩
  · rw [h]
    exact cover_le_one hw
  · rw [← cover_pos, ← cover_pos, h]

end Tiles
