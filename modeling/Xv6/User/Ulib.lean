import Mathlib.Tactic.SplitIfs
import Xv6.Lib.ByteCopy

/-!
# Ulib — the user library (`ulib.c`)

A C string is the list of its characters before the NUL, and a pointer into it is an offset.
-/

namespace Xv6.Ulib

def strchr : List UInt8 → UInt8 → Option ℕ
  | [], _ => none
  | x :: s, c => if x = c then some 0 else (strchr s c).map (· + 1)

theorem strchr_none {s : List UInt8} {c : UInt8} (h : strchr s c = none) : c ∉ s := by
  induction s with
  | nil => exact List.not_mem_nil
  | cons x s ih =>
    unfold strchr at h
    split_ifs at h with hx
    rw [Option.map_eq_none_iff] at h
    exact List.not_mem_cons_of_ne_of_not_mem (Ne.symm hx) (ih h)

/-- The place of the first `c`. -/
theorem strchr_some {s : List UInt8} {c : UInt8} {k : ℕ} (h : strchr s c = some k) :
    ∃ l l', s = l ++ c :: l' ∧ l.length = k ∧ c ∉ l := by
  induction s generalizing k with
  | nil => cases h
  | cons x s ih =>
    unfold strchr at h
    split_ifs at h with hx
    · cases h
      exact ⟨[], s, by rw [hx]; rfl, rfl, List.not_mem_nil⟩
    · obtain ⟨k, hk, rfl⟩ := Option.map_eq_some_iff.mp h
      obtain ⟨l, l', rfl, hlen, hc⟩ := ih hk
      exact ⟨x :: l, l', rfl, by rw [List.length_cons, hlen],
        List.not_mem_cons_of_ne_of_not_mem (Ne.symm hx) hc⟩

/-- The length is an `int`. -/
def memmove (m : ByteStore) (vdst vsrc : UInt64) (n : Int32) : UInt64 × ByteStore :=
  if vsrc > vdst then (vdst, m.copyUp vdst vsrc n.toInt.toNat)
  else
    let dst := vdst + UInt64.ofInt n.toInt
    let src := vsrc + UInt64.ofInt n.toInt
    (vdst, m.copyDown dst src n.toInt.toNat)

end Xv6.Ulib
