import Mathlib.Data.Nat.Bitwise
import Mathlib.Logic.Function.Basic
import Xv6.Lib.ByteStore

/-!
# Bitmap — bits in a byte store

`bit m i` is bit `i` of the store, `setBit` and `clearBit` change one bit.
-/

namespace ByteStore

variable {m m' : ByteStore} {i j : ℕ}

/-- Bit `i`, eight to a byte, the lowest first. -/
def bit (m : ByteStore) (i : ℕ) : Bool := (m (i / 8)).toNat.testBit (i % 8)

def setBit (m : ByteStore) (i : ℕ) : ByteStore :=
  Function.update m (i / 8) (m (i / 8) ||| UInt8.ofNat (2 ^ (i % 8)))

def clearBit (m : ByteStore) (i : ℕ) : ByteStore :=
  Function.update m (i / 8) (m (i / 8) &&& ~~~UInt8.ofNat (2 ^ (i % 8)))

/-- One bit of a byte. -/
theorem testBit_pow {k k' : ℕ} (h : k < 8) :
    (UInt8.ofNat (2 ^ k)).toNat.testBit k' = decide (k = k') := by
  have hlt : 2 ^ k < 2 ^ 8 := Nat.pow_lt_pow_right (by decide) h
  rw [UInt8.toNat_ofNat_of_lt' hlt, Nat.testBit_two_pow]

theorem bit_setBit_self : (m.setBit i).bit i = true := by
  unfold bit setBit
  rw [Function.update_self, UInt8.toNat_or, Nat.testBit_or, testBit_pow (Nat.mod_lt _ (by decide))]
  simp

theorem bit_setBit_of_ne (h : j ≠ i) : (m.setBit i).bit j = m.bit j := by
  unfold bit setBit
  by_cases hij : j / 8 = i / 8
  · have hne : i % 8 ≠ j % 8 := by omega
    rw [hij, Function.update_self, UInt8.toNat_or, Nat.testBit_or,
      testBit_pow (Nat.mod_lt _ (by decide)), decide_eq_false hne, Bool.or_false]
  · rw [Function.update_of_ne hij]

/-- One bit of the complement of a byte. -/
theorem testBit_not_pow {k k' : ℕ} (h : k < 8) (h' : k' < 8) :
    (~~~UInt8.ofNat (2 ^ k)).toNat.testBit k' = !decide (k = k') := by
  have hnot : (~~~UInt8.ofNat (2 ^ k)).toNat.testBit k' = !(UInt8.ofNat (2 ^ k)).toNat.testBit k' := by
    show (~~~(UInt8.ofNat (2 ^ k)).toBitVec).getLsbD k' = !(UInt8.ofNat (2 ^ k)).toBitVec.getLsbD k'
    rw [BitVec.getLsbD_not, decide_eq_true h', Bool.true_and]
  rw [hnot, testBit_pow h]

theorem bit_clearBit_self : (m.clearBit i).bit i = false := by
  unfold bit clearBit
  rw [Function.update_self, UInt8.toNat_and, Nat.testBit_and,
    testBit_not_pow (Nat.mod_lt _ (by decide)) (Nat.mod_lt _ (by decide))]
  simp

theorem bit_clearBit_of_ne (h : j ≠ i) : (m.clearBit i).bit j = m.bit j := by
  unfold bit clearBit
  by_cases hij : j / 8 = i / 8
  · have hne : i % 8 ≠ j % 8 := by omega
    rw [hij, Function.update_self, UInt8.toNat_and, Nat.testBit_and,
      testBit_not_pow (Nat.mod_lt _ (by decide)) (Nat.mod_lt _ (by decide)), decide_eq_false hne,
      Bool.not_false, Bool.and_true]
  · rw [Function.update_of_ne hij]

end ByteStore
