import Xv6.Lib.ByteStore

/-!
# Scan — loops over the bytes of a string

`skip p m n s` is the place where the loop `while (n-- > 0 && p(*s)) s++` stops.
-/

namespace ByteStore

/-- Pass over at most `n` bytes at `s` that meet `p`. -/
def skip (p : UInt8 → Bool) (m : ByteStore) : ℕ → ℕ → ℕ
  | 0, s => s
  | n + 1, s => if p (m s) then skip p m n (s + 1) else s

/-- The bytes from `s` to `e` are a string, with its terminator at `e`. -/
structure IsStr (m : ByteStore) (s e : ℕ) : Prop where
  le : s ≤ e
  nul : m e = 0
  ne : ∀ x, s ≤ x → x < e → m x ≠ 0

variable {p : UInt8 → Bool} {m : ByteStore} {n s e x : ℕ}

theorem le_skip : s ≤ m.skip p n s := by
  induction n generalizing s with
  | zero => exact le_rfl
  | succ n ih =>
    rw [skip]
    by_cases h : p (m s) = true
    · rw [if_pos h]
      exact (Nat.le_succ s).trans ih
    · rw [if_neg h]

theorem skip_le : m.skip p n s ≤ s + n := by
  induction n generalizing s with
  | zero => exact le_rfl
  | succ n ih =>
    rw [skip]
    by_cases h : p (m s) = true
    · rw [if_pos h]
      have := ih (s := s + 1)
      omega
    · rw [if_neg h]
      exact Nat.le_add_right _ _

/-- All bytes that are passed over meet `p`. -/
theorem skip_all (hs : s ≤ x) (hx : x < m.skip p n s) : p (m x) = true := by
  induction n generalizing s with
  | zero => exact absurd hx (not_lt.mpr hs)
  | succ n ih =>
    rw [skip] at hx
    by_cases h : p (m s) = true
    · rw [if_pos h] at hx
      rcases hs.eq_or_lt with rfl | hlt
      · exact h
      · exact ih hlt hx
    · rw [if_neg h] at hx
      exact absurd hx (not_lt.mpr hs)

/-- The scan stops at a byte that does not meet `p`, or at the end. -/
theorem skip_stop (h : m.skip p n s < s + n) : p (m (m.skip p n s)) = false := by
  induction n generalizing s with
  | zero => exact absurd h (lt_irrefl s)
  | succ n ih =>
    rw [skip] at h ⊢
    by_cases hp : p (m s) = true
    · rw [if_pos hp] at h ⊢
      exact ih (by omega)
    · rw [if_neg hp]
      exact Bool.eq_false_iff.mpr hp

theorem skip_of_not (h : p (m s) = false) : m.skip p n s = s := by
  cases n with
  | zero => rfl
  | succ n => rw [skip, if_neg (Bool.eq_false_iff.mp h)]

/-- A second scan passes over nothing. -/
theorem skip_skip (h : s ≤ e) : m.skip p (e - m.skip p (e - s) s) (m.skip p (e - s) s) = m.skip p (e - s) s := by
  have hle : m.skip p (e - s) s ≤ s + (e - s) := skip_le
  by_cases heq : m.skip p (e - s) s = e
  · rw [heq, Nat.sub_self, skip]
  · exact skip_of_not (skip_stop (by omega))

end ByteStore
