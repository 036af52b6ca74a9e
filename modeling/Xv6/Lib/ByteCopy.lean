import Xv6.Lib.ByteStore

/-!
# ByteCopy — blocks copied byte by byte

A block of a byte store is copied from its start up or from its end down.  The pointers have 64 bits and
wrap.  If the block and its copy overlap, then only one of the two orders reads each byte before it is
overwritten.
-/

namespace ByteStore

variable {m : ByteStore} {d s : UInt64} {n : ℕ}

/-- `while(n-- > 0) *d++ = *s++` -/
def copyUp (m : ByteStore) (d s : UInt64) : ℕ → ByteStore
  | 0 => m
  | n + 1 => copyUp (m.blit d.toNat 1 fun _ => m s.toNat) (d + 1) (s + 1) n

/-- `while(n-- > 0) *--d = *--s` -/
def copyDown (m : ByteStore) (d s : UInt64) : ℕ → ByteStore
  | 0 => m
  | n + 1 => copyDown (m.blit (d - 1).toNat 1 fun _ => m (s - 1).toNat) (d - 1) (s - 1) n

/-- The order from the start up is right if the copy does not begin inside of the block. -/
theorem copyUp_eq (hd : d.toNat + n ≤ 2 ^ 64) (hs : s.toNat + n ≤ 2 ^ 64)
    (h : d.toNat ≤ s.toNat ∨ s.toNat + n ≤ d.toNat) :
    m.copyUp d s n = m.blit d.toNat n fun i => m (s.toNat + i) := by
  induction n generalizing m d s with
  | zero => exact blit_zero.symm
  | succ n ih =>
    have hd1 : (d + 1).toNat = (d.toNat + 1) % 2 ^ 64 := UInt64.toNat_add d 1
    have hs1 : (s + 1).toNat = (s.toNat + 1) % 2 ^ 64 := UInt64.toNat_add s 1
    rw [copyUp, ih (by omega) (by omega) (by omega)]
    funext x
    by_cases hx : x = d.toNat
    · rw [blit_out (by omega), hx, blit_in le_rfl (by omega), blit_in le_rfl (by omega), Nat.sub_self]
      rfl
    by_cases hin : d.toNat ≤ x ∧ x < d.toNat + (n + 1)
    · -- what is read now has not been written yet
      rw [blit_in (by omega) (by omega), blit_in hin.1 hin.2, blit_out (by omega)]
      congr 1
      omega
    · rw [blit_out (by omega), blit_out (by omega), blit_out (by omega)]

/-- The order from the end down is right if the copy does not end inside of the block. -/
theorem copyDown_eq {d' s' : UInt64} (hd : d'.toNat = (d.toNat + n) % 2 ^ 64)
    (hs : s'.toNat = (s.toNat + n) % 2 ^ 64) (hd64 : d.toNat + n ≤ 2 ^ 64) (hs64 : s.toNat + n ≤ 2 ^ 64)
    (h : s.toNat ≤ d.toNat ∨ d.toNat + n ≤ s.toNat) :
    m.copyDown d' s' n = m.blit d.toNat n fun i => m (s.toNat + i) := by
  induction n generalizing m d' s' with
  | zero => exact blit_zero.symm
  | succ n ih =>
    have hd1 : (d' - 1).toNat = d.toNat + n := by
      rw [UInt64.toNat_sub, hd, UInt64.toNat_one]
      omega
    have hs1 : (s' - 1).toNat = s.toNat + n := by
      rw [UInt64.toNat_sub, hs, UInt64.toNat_one]
      omega
    rw [copyDown, ih (by omega) (by omega) (by omega) (by omega) (by omega), hd1, hs1]
    funext x
    by_cases hx : x = d.toNat + n
    · rw [blit_out (by omega), hx, blit_in le_rfl (by omega), blit_in (by omega) (by omega)]
      congr 1
      omega
    by_cases hin : d.toNat ≤ x ∧ x < d.toNat + (n + 1)
    · rw [blit_in (by omega) (by omega), blit_in hin.1 hin.2, blit_out (by omega)]
    · rw [blit_out (by omega), blit_out (by omega), blit_out (by omega)]

end ByteStore
