import Mathlib.Data.Int.Notation
import Mathlib.Tactic.NormNum
import Xv6.Lib.ByteStore

/-!
# Riscv — machine integers, page-table entries and the memory layout (`riscv.h`, `memlayout.h`)

Addresses and sizes are `uint64` values held in `ℕ`; wrap-around is written where the code can
reach it.  A page-table entry is a 64-bit vector.

The linker's symbols `end` and `trampoline` are the fields of `Image`, with the facts about them
that `kernel.ld` provides.
-/

namespace Xv6

/-- A call of `panic` with its message. -/
abbrev Panic := String

/-- A computation that goes on after a call has returned. -/
theorem bind_ok {α β : Type} {x : Except Panic α} {f : α → Except Panic β} {b : β}
    (h : (x >>= f) = .ok b) : ∃ a, x = .ok a ∧ f a = .ok b := by
  cases x with
  | error e => cases h
  | ok a => exact ⟨a, rfl, h⟩

theorem ok_bind {α β : Type} {a : α} {f : α → Except Panic β} :
    ((Except.ok a : Except Panic α) >>= f) = f a := rfl

/-- A call that leaves a result. -/
theorem map_ok {α β : Type} {x : Except Panic α} {f : α → β} {b : β} (h : x.map f = .ok b) :
    ∃ a, x = .ok a ∧ b = f a := by
  cases x with
  | error e => cases h
  | ok a =>
    cases h
    exact ⟨a, rfl, rfl⟩

/-- A 64-bit unsigned value. -/
def uint64 (x : ℕ) : ℕ := x % 2 ^ 64

/-- A value stored into a 32-bit `int`. -/
def int32 (x : ℤ) : ℤ := (x + 2147483648) % 4294967296 - 2147483648

abbrev PGSIZE : ℕ := 4096

/-- `PGROUNDUP(sz)`, on `uint64`. -/
def PGROUNDUP (sz : ℕ) : ℕ := uint64 (sz + PGSIZE - 1) / PGSIZE * PGSIZE

def PGROUNDDOWN (a : ℕ) : ℕ := a / PGSIZE * PGSIZE

abbrev MAXVA : ℕ := 2 ^ 38
abbrev TRAMPOLINE : ℕ := MAXVA - PGSIZE
abbrev TRAPFRAME : ℕ := TRAMPOLINE - PGSIZE
abbrev KERNBASE : ℕ := 0x80000000
abbrev PHYSTOP : ℕ := KERNBASE + 128 * 1024 * 1024

/-- The page number of `TRAPFRAME`: user pages have smaller numbers. -/
abbrev UPAGES : ℕ := TRAPFRAME / PGSIZE

/-- The symbols of the linked kernel. -/
class Image where
  /-- First address after the kernel (`end`). -/
  kend : ℕ
  trampoline : ℕ
  base_le : KERNBASE ≤ kend
  kend_le : kend ≤ PHYSTOP
  trampoline_lt : trampoline < kend

/-! ## Page-table entries -/

abbrev Pte := BitVec 64

def PTE_V : Pte := 1#64 <<< 0
def PTE_R : Pte := 1#64 <<< 1
def PTE_W : Pte := 1#64 <<< 2
def PTE_X : Pte := 1#64 <<< 3
def PTE_U : Pte := 1#64 <<< 4
def PTE_COW : Pte := 1#64 <<< 5

/-- `pte & f`, as a condition. -/
def Pte.has (pte f : Pte) : Bool := pte &&& f != 0#64

def PA2PTE (pa : ℕ) : Pte := (BitVec.ofNat 64 pa >>> 12) <<< 10

def PTE2PA (pte : Pte) : ℕ := ((pte >>> 10) <<< 12).toNat

def PTE_FLAGS (pte : Pte) : Pte := pte &&& 0x3FF#64

/-- The 9-bit index of `va` at a level of the page table. -/
def PX (level va : ℕ) : ℕ := va >>> (12 + 9 * level) &&& 0x1FF

/-- The entry stored at address `a`. -/
def readPte (m : ByteStore) (a : ℕ) : Pte := BitVec.ofNat 64 (m.load a 8)

def writePte (m : ByteStore) (a : ℕ) (pte : Pte) : ByteStore := m.store a 8 pte.toNat

theorem PX_eq (level va : ℕ) : PX level va = va / 4096 / 512 ^ level % 512 := by
  have h : (0x1FF : ℕ) = 2 ^ 9 - 1 := rfl
  have hp : 2 ^ (12 + 9 * level) = 4096 * 512 ^ level := by
    rw [pow_add, pow_mul]; norm_num
  rw [PX, h, Nat.and_two_pow_sub_one_eq_mod, Nat.shiftRight_eq_div_pow, hp,
    ← Nat.div_div_eq_div_mul]

@[simp] theorem readPte_writePte (m : ByteStore) (a : ℕ) (pte : Pte) :
    readPte (writePte m a pte) a = pte := by
  unfold readPte writePte
  rw [ByteStore.load_store]
  ext i hi
  simp [Nat.mod_eq_of_lt pte.isLt]

theorem readPte_congr {m m' : ByteStore} {a : ℕ} (h : ∀ i < 8, m' (a + i) = m (a + i)) :
    readPte m' a = readPte m a := by
  unfold readPte
  rw [ByteStore.load_congr h]

theorem readPte_writePte_of_ne {m : ByteStore} {a b : ℕ} {pte : Pte}
    (h : a + 8 ≤ b ∨ b + 8 ≤ a) : readPte (writePte m b pte) a = readPte m a := by
  unfold readPte writePte
  rw [ByteStore.load_store_out h]

theorem readPte_zero {m : ByteStore} {a : ℕ} (h : ∀ i < 8, m (a + i) = 0) : readPte m a = 0#64 := by
  unfold readPte
  rw [ByteStore.load_zero h]

@[simp] theorem zero_has (f : Pte) : Pte.has 0#64 f = false := by simp [Pte.has]

/-! ## Flags and addresses of an entry

A mask is low when it lies in the ten flag bits. -/

/-- The mask lies in the flag bits. -/
def Low (f : Pte) : Prop := f &&& 0x3FF#64 = f

instance (f : Pte) : Decidable (Low f) := inferInstanceAs (Decidable (_ = _))

variable {f f' pte : Pte} {pa : ℕ}

theorem Low.toNat_lt (h : Low f) : f.toNat < 1024 := by
  have := congrArg BitVec.toNat h
  rw [BitVec.toNat_and, show (0x3FF#64).toNat = 2 ^ 10 - 1 from rfl,
    Nat.and_two_pow_sub_one_eq_mod] at this
  omega

theorem Low.getLsbD (h : Low f) {i : ℕ} (hi : 10 ≤ i) : f.getLsbD i = false :=
  Nat.testBit_lt_two_pow (h.toNat_lt.trans_le (Nat.pow_le_pow_right (n := 2) (by omega) hi))

theorem Low.or (h : Low f) (h' : Low f') : Low (f ||| f') := by
  unfold Low at *
  rw [BitVec.and_or_distrib_right]
  rw [h, h']

theorem Low.and (h : Low f) : Low (f &&& f') := by
  unfold Low at *
  rw [BitVec.and_assoc, BitVec.and_comm f', ← BitVec.and_assoc, h]

theorem low_flags (pte : Pte) : Low (PTE_FLAGS pte) := by
  unfold Low PTE_FLAGS
  rw [BitVec.and_assoc]
  rfl

theorem PTE2PA_congr (h : pte >>> 10 = f >>> 10) : PTE2PA pte = PTE2PA f := by
  unfold PTE2PA; rw [h]

theorem PTE2PA_or (h : Low f) : PTE2PA (pte ||| f) = PTE2PA pte := by
  refine PTE2PA_congr ?_
  ext i hi
  simp [h.getLsbD (i := 10 + i) (by omega)]

theorem PTE2PA_and_not (h : Low f) : PTE2PA (pte &&& ~~~f) = PTE2PA pte := by
  refine PTE2PA_congr ?_
  ext i hi
  simp only [BitVec.getElem_ushiftRight, BitVec.getLsbD_and, BitVec.getLsbD_not,
    h.getLsbD (i := 10 + i) (by omega)]
  simpa using BitVec.lt_of_getLsbD

theorem PTE2PA_PA2PTE (hpa : pa % 4096 = 0) (hlt : pa < 2 ^ 56) : PTE2PA (PA2PTE pa) = pa := by
  unfold PTE2PA PA2PTE
  simp only [BitVec.toNat_shiftLeft, BitVec.toNat_ushiftRight, BitVec.toNat_ofNat,
    Nat.shiftLeft_eq, Nat.shiftRight_eq_div_pow]
  omega

theorem PA2PTE_and (h : Low f) : PA2PTE pa &&& f = 0#64 := by
  ext i hi
  by_cases h10 : i < 10
  · simp [PA2PTE, h10]
  · have := h.getLsbD (i := i) (by omega)
    rw [BitVec.getLsbD_eq_getElem hi] at this
    simp [this]

/-- The flags of an entry built from a physical address. -/
theorem has_PA2PTE (h : Low f') : (PA2PTE pa ||| f).has f' = f.has f' := by
  unfold Pte.has
  rw [BitVec.and_or_distrib_right, PA2PTE_and h]
  simp

theorem has_or_of_disjoint {g : Pte} (h : f' &&& g = 0#64) : (pte ||| f').has g = pte.has g := by
  unfold Pte.has
  rw [BitVec.and_or_distrib_right, h]
  simp

theorem has_or_self (h : f ≠ 0#64) : (pte ||| f).has f = true := by
  unfold Pte.has
  rw [bne_iff_ne, BitVec.and_comm]
  have : f &&& (pte ||| f) = f := by
    ext i hi
    simp only [BitVec.getElem_and, BitVec.getElem_or]
    cases f[i] <;> simp
  rwa [this]

theorem has_and_not_of_disjoint {g : Pte} (h : g &&& ~~~f = g) :
    (pte &&& ~~~f).has g = pte.has g := by
  unfold Pte.has
  rw [BitVec.and_assoc, BitVec.and_comm _ g, h]

theorem has_and_not_self : (pte &&& ~~~f).has f = false := by
  unfold Pte.has
  rw [bne_eq_false_iff_eq, BitVec.and_assoc]
  ext i hi
  simp

theorem has_flags (h : Low f) : (PTE_FLAGS pte).has f = pte.has f := by
  unfold Pte.has PTE_FLAGS
  rw [BitVec.and_assoc, BitVec.and_comm _ f, h]

/-- An entry made of an address and flags. -/
theorem PTE_FLAGS_PA2PTE (h : Low f) : PTE_FLAGS (PA2PTE pa ||| f) = f := by
  unfold PTE_FLAGS
  rw [BitVec.and_or_distrib_right, PA2PTE_and (by decide), h]
  simp

theorem PTE2PA_map (h : Low f) (hpa : pa % 4096 = 0) (hlt : pa < 2 ^ 56) :
    PTE2PA (PA2PTE pa ||| f) = pa := by
  rw [PTE2PA_or h, PTE2PA_PA2PTE hpa hlt]

end Xv6
