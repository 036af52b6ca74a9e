import Xv6.Kernel.String
import Xv6.User.Ulib

/-!
# Memmove — the two versions of `memmove` copy

Each of them tests which of the two orders is right; the tests differ, and both are right.
-/

namespace Xv6

variable {m m' : ByteStore} {dst src : UInt64} {n : UInt32} {k : Int32}

/-- The `n` bytes at `s` have been copied to `d`, and nothing else has changed. -/
structure Moved (m m' : ByteStore) (d s n : ℕ) : Prop where
  bytes : ∀ i < n, m' (d + i) = m (s + i)
  other : ∀ x, x < d ∨ d + n ≤ x → m' x = m x

theorem Moved.blit (m : ByteStore) (d s n : ℕ) : Moved m (m.blit d n fun i => m (s + i)) d s n :=
  ⟨fun _ hi => ByteStore.blit_add hi, fun _ hx => ByteStore.blit_out hx⟩

theorem memmove_eq (hd : dst.toNat + n.toNat ≤ 2 ^ 64) (hs : src.toNat + n.toNat ≤ 2 ^ 64) :
    memmove m dst src n = (dst, m.blit dst.toNat n.toNat fun i => m (src.toNat + i)) := by
  have hdn : (dst + n.toUInt64).toNat = (dst.toNat + n.toNat) % 2 ^ 64 := by
    rw [UInt64.toNat_add, UInt32.toNat_toUInt64]
  have hsn : (src + n.toUInt64).toNat = (src.toNat + n.toNat) % 2 ^ 64 := by
    rw [UInt64.toNat_add, UInt32.toNat_toUInt64]
  unfold memmove
  split_ifs with h0 hover
  · rw [h0]
    exact congrArg (Prod.mk dst) ByteStore.blit_zero.symm
  · have hlt := UInt64.lt_iff_toNat_lt.mp hover.1
    rw [ByteStore.copyDown_eq hdn hsn hd hs (Or.inl (by omega))]
  · rw [UInt64.lt_iff_toNat_lt, gt_iff_lt, UInt64.lt_iff_toNat_lt, hsn] at hover
    -- if the source is below, its end does not wrap, as that of the destination is above it
    rw [ByteStore.copyUp_eq hd hs (by omega)]

theorem Ulib.memmove_eq (hk : 0 ≤ k.toInt) (hd : dst.toNat + k.toInt.toNat ≤ 2 ^ 64)
    (hs : src.toNat + k.toInt.toNat ≤ 2 ^ 64) :
    Ulib.memmove m dst src k = (dst, m.blit dst.toNat k.toInt.toNat fun i => m (src.toNat + i)) := by
  have hlt : k.toInt < 2 ^ 31 := k.toInt_lt
  have hval : (UInt64.ofInt k.toInt).toNat = k.toInt.toNat := by
    rw [UInt64.ofInt, UInt64.toNat_ofNat']
    omega
  unfold Ulib.memmove
  dsimp only
  split_ifs with habove
  · have hlt := UInt64.lt_iff_toNat_lt.mp habove
    rw [ByteStore.copyUp_eq hd hs (Or.inl hlt.le)]
  · rw [gt_iff_lt, UInt64.lt_iff_toNat_lt] at habove
    rw [ByteStore.copyDown_eq (by rw [UInt64.toNat_add, hval]) (by rw [UInt64.toNat_add, hval]) hd hs
      (Or.inl (by omega))]

/-- The model of the memory writes the block at once. -/
theorem Phys.memmove_eq (s : Phys) (hd : dst.toNat + n.toNat ≤ 2 ^ 64) (hs : src.toNat + n.toNat ≤ 2 ^ 64) :
    { s with mem := (Xv6.memmove s.mem dst src n).2 } =
      s.memmove dst.toNat n.toNat fun i => s.mem (src.toNat + i) := by
  rw [Xv6.memmove_eq hd hs]
  rfl

/-- **Both versions of `memmove` copy** under every overlap, so they agree. -/
theorem memmove_copies (m : ByteStore) (dst src : UInt64) :
    (∀ n : UInt32, dst.toNat + n.toNat ≤ 2 ^ 64 → src.toNat + n.toNat ≤ 2 ^ 64 →
      Moved m (memmove m dst src n).2 dst.toNat src.toNat n.toNat) ∧
    ∀ n : Int32, 0 ≤ n → dst.toNat + n.toInt.toNat ≤ 2 ^ 64 → src.toNat + n.toInt.toNat ≤ 2 ^ 64 →
      Moved m (Ulib.memmove m dst src n).2 dst.toNat src.toNat n.toInt.toNat ∧
        Ulib.memmove m dst src n = memmove m dst src n.toUInt32 := by
  refine ⟨fun n hd hs => ?_, fun n h0 hd hs => ?_⟩
  · rw [memmove_eq hd hs]
    exact Moved.blit m _ _ _
  · have hn : n.toUInt32.toNat = n.toInt.toNat := Int32.toNat_toUInt32_of_le h0
    rw [Ulib.memmove_eq (Int32.le_iff_toInt_le.mp h0) hd hs, memmove_eq (by rwa [hn]) (by rwa [hn]), hn]
    exact ⟨Moved.blit m _ _ _, rfl⟩

/-- Two ranges that overlap. -/
theorem memmove_copies_overlap :
    Moved (UInt8.ofNat ·) (memmove (UInt8.ofNat ·) 5 4 3).2 5 4 3 ∧
      Moved (UInt8.ofNat ·) (Ulib.memmove (UInt8.ofNat ·) 4 5 3).2 4 5 3 :=
  ⟨(memmove_copies _ 5 4).1 3 (by decide) (by decide),
    ((memmove_copies _ 4 5).2 3 (by decide) (by decide) (by decide)).1⟩

end Xv6
