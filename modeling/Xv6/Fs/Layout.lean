import Mathlib.Tactic.Push
import Xv6.Kernel.Fs
import Xv6.Lib.Paged

/-!
# Layout — where the bytes of a file are

`blockRef` lists the block numbers that an inode stores: the direct slots, the indirect slot and the
entries of the indirect block.  `Owns` says that they are different blocks in use, `Grow` what an
operation on the file may do to them and to the blocks of others.  `U` is the set of the data blocks in
use; the kernel and `mkfs` have their own.
-/

namespace Xv6.Layout

abbrev NREF : ℕ := MAXFILE + 1

/-- Block number `r` of an inode. -/
def blockRef (B : ℕ → Block) (d : dinode) (r : ℕ) : ℕ :=
  if r ≤ NDIRECT then d.addr r
  else if d.addr NDIRECT = 0 then 0
  else (B (d.addr NDIRECT)).load (4 * (r - (NDIRECT + 1))) 4

/-- Where the number of block `bn` of the file is. -/
def slotOf (bn : ℕ) : ℕ := if bn < NDIRECT then bn else bn + 1

/-- The number of block `bn` of the file, `0` for a hole. -/
def slot (B : ℕ → Block) (d : dinode) (bn : ℕ) : ℕ := blockRef B d (slotOf bn)

/-- The bytes of block `bn` of the file. -/
def filePage (B : ℕ → Block) (d : dinode) (bn : ℕ) : Block :=
  if slot B d bn = 0 then fun _ => 0 else B (slot B d bn)

/-- The bytes of the file. -/
def content (B : ℕ → Block) (d : dinode) : ℕ → UInt8 := Paged.flat (filePage B d) BSIZE

/-- The inode stores the block number `x`. -/
def Holds (B : ℕ → Block) (d : dinode) (x : ℕ) : Prop := x ≠ 0 ∧ ∃ r < NREF, blockRef B d r = x

/-- The block numbers of the inode are different blocks in use. -/
structure Owns (U : ℕ → Prop) (B : ℕ → Block) (d : dinode) : Prop where
  inj : ∀ r < NREF, ∀ r' < NREF, blockRef B d r = blockRef B d r' → blockRef B d r ≠ 0 → r = r'
  mem : ∀ x, Holds B d x → U x

/-- The file has got blocks; it has kept the old ones, and the blocks of others are as they were. -/
structure Grow (U U' : ℕ → Prop) (B B' : ℕ → Block) (d d' : dinode) : Prop where
  kept : ∀ r < NREF, blockRef B d r ≠ 0 → blockRef B' d' r = blockRef B d r
  used : ∀ x, U' x ↔ U x ∨ Holds B' d' x
  fresh : ∀ r < NREF, blockRef B d r = 0 → blockRef B' d' r ≠ 0 → ¬ U (blockRef B' d' r)
  frame : ∀ x, U x → ¬ Holds B d x → B' x = B x

/-- The two files have the same bytes. -/
def SameBytes (B B' : ℕ → Block) (d d' : dinode) : Prop :=
  ∀ i < MAXFILE * BSIZE, content B' d' i = content B d i

variable {U U' U'' : ℕ → Prop} {B B' B'' : ℕ → Block} {d d' d'' : dinode} {r bn b x i k off : ℕ}

/-! ## Slots -/

theorem slotOf_lt (h : bn < MAXFILE) : slotOf bn < NREF := by
  unfold slotOf
  simp only [NREF, MAXFILE, NDIRECT, NINDIRECT] at *
  split <;> omega

theorem slotOf_ne : slotOf bn ≠ NDIRECT := by
  unfold slotOf
  split <;> omega

theorem slotOf_inj {bn' : ℕ} (h : slotOf bn = slotOf bn') : bn = bn' := by
  unfold slotOf at h
  split at h <;> split at h <;> omega

theorem slotOf_surj (hr : r < NREF) (h : r ≠ NDIRECT) : ∃ bn < MAXFILE, slotOf bn = r := by
  unfold slotOf
  by_cases hlt : r < NDIRECT
  · refine ⟨r, ?_, if_pos hlt⟩
    simp only [MAXFILE] at *
    omega
  · refine ⟨r - 1, ?_, ?_⟩
    · simp only [NREF] at hr
      omega
    · rw [if_neg (by omega)]
      omega

theorem slot_direct (h : bn < NDIRECT) : slot B d bn = d.addr bn := by
  rw [slot, slotOf, if_pos h, blockRef, if_pos h.le]

theorem blockRef_indirect (h : d.addr NDIRECT ≠ 0) :
    blockRef B d (NDIRECT + 1 + k) = (B (d.addr NDIRECT)).load (4 * k) 4 := by
  rw [blockRef, if_neg (by omega), if_neg h, Nat.add_sub_cancel_left]

theorem slot_indirect (h : d.addr NDIRECT ≠ 0) :
    slot B d (NDIRECT + k) = (B (d.addr NDIRECT)).load (4 * k) 4 := by
  rw [slot, slotOf, if_neg (by omega), ← blockRef_indirect h]
  congr 1
  omega

theorem slot_hole (hbn : NDIRECT ≤ bn) (h : d.addr NDIRECT = 0) : slot B d bn = 0 := by
  rw [slot, slotOf, if_neg (by omega), blockRef, if_neg (by omega), if_pos h]

theorem Holds.of_ref (hr : r < NREF) (h : blockRef B d r ≠ 0) : Holds B d (blockRef B d r) :=
  ⟨h, r, hr, rfl⟩

theorem Holds.of_slot (hbn : bn < MAXFILE) (h : slot B d bn ≠ 0) : Holds B d (slot B d bn) :=
  ⟨h, slotOf bn, slotOf_lt hbn, rfl⟩

theorem Holds.of_indirect (h : d.addr NDIRECT ≠ 0) : Holds B d (d.addr NDIRECT) :=
  ⟨h, NDIRECT, by decide, by rw [blockRef, if_pos le_rfl]⟩

/-- The block numbers depend only on the addresses and on the indirect block. -/
theorem blockRef_congr (hd : ∀ i ≤ NDIRECT, d'.addr i = d.addr i)
    (hB : d.addr NDIRECT ≠ 0 → ∀ j < BSIZE, B' (d.addr NDIRECT) j = B (d.addr NDIRECT) j)
    (hr : r < NREF) : blockRef B' d' r = blockRef B d r := by
  unfold blockRef
  rw [hd NDIRECT le_rfl]
  by_cases h : r ≤ NDIRECT
  · rw [if_pos h, if_pos h, hd r h]
  · rw [if_neg h, if_neg h]
    by_cases h0 : d.addr NDIRECT = 0
    · rw [if_pos h0, if_pos h0]
    · rw [if_neg h0, if_neg h0]
      refine ByteStore.load_congr fun j hj => hB h0 _ ?_
      simp only [NREF, MAXFILE, NINDIRECT, NDIRECT, BSIZE] at *
      omega

/-! ## Growing files -/

theorem Owns.indirect_ne (ho : Owns U B d) (hbn : bn < MAXFILE) (h : slot B d bn ≠ 0) :
    slot B d bn ≠ d.addr NDIRECT := by
  intro heq
  have href : blockRef B d NDIRECT = d.addr NDIRECT := by rw [blockRef, if_pos le_rfl]
  exact slotOf_ne (ho.inj _ (slotOf_lt hbn) NDIRECT (by decide) (heq.trans href.symm) h)

theorem holds_congr (href : ∀ r < NREF, blockRef B' d' r = blockRef B d r) :
    Holds B' d' x ↔ Holds B d x :=
  and_congr_right fun _ => exists_congr fun r => and_congr_right fun hr => by rw [href r hr]

/-- The block numbers are the same. -/
theorem Owns.congr (ho : Owns U B d) (href : ∀ r < NREF, blockRef B' d' r = blockRef B d r) :
    Owns U B' d' where
  inj := fun r hr r' hr' heq h0 => by
    rw [href r hr] at heq h0
    rw [href r' hr'] at heq
    exact ho.inj r hr r' hr' heq h0
  mem := fun x hx => ho.mem x ((holds_congr href).mp hx)

theorem Owns.grow (ho : Owns U B d) (href : ∀ r < NREF, blockRef B' d' r = blockRef B d r)
    (hB : ∀ x, U x → ¬ Holds B d x → B' x = B x) : Grow U U B B' d d' where
  kept := fun r hr _ => href r hr
  used := fun x => ⟨Or.inl, fun h => h.elim id fun hx => ho.mem x ((holds_congr href).mp hx)⟩
  fresh := fun r hr h0 h' => by
    rw [href r hr] at h'
    exact absurd h0 h'
  frame := hB

theorem Grow.refl (ho : Owns U B d) : Grow U U B B d d :=
  ho.grow (fun _ _ => rfl) fun _ _ _ => rfl

theorem Grow.holds (hg : Grow U U' B B' d d') (h : Holds B d x) : Holds B' d' x := by
  obtain ⟨h0, r, hr, rfl⟩ := h
  exact ⟨h0, r, hr, hg.kept r hr h0⟩

/-- A block in use belongs to the file if and only if it did. -/
theorem Grow.holds_of_used (hg : Grow U U' B B' d d') (hx : U x) (h : Holds B' d' x) :
    Holds B d x := by
  obtain ⟨h0, r, hr, rfl⟩ := h
  by_cases h1 : blockRef B d r = 0
  · exact absurd hx (hg.fresh r hr h1 h0)
  · exact ⟨h0, r, hr, (hg.kept r hr h1).symm⟩

theorem Grow.trans (h1 : Grow U U' B B' d d') (h2 : Grow U' U'' B' B'' d' d'') :
    Grow U U'' B B'' d d'' where
  kept := fun r hr h0 => by
    have hk := h1.kept r hr h0
    rw [← hk] at h0
    rw [h2.kept r hr h0, hk]
  used := fun x => by
    rw [h2.used, h1.used, or_assoc]
    refine or_congr_right ⟨fun h => h.elim h2.holds id, Or.inr⟩
  fresh := fun r hr h0 h'' hU => by
    by_cases h' : blockRef B' d' r = 0
    · exact h2.fresh r hr h' h'' ((h1.used _).mpr (Or.inl hU))
    · rw [h2.kept r hr h'] at hU
      exact h1.fresh r hr h0 h' hU
  frame := fun x hx hnot => by
    have hx' : U' x := (h1.used x).mpr (Or.inl hx)
    rw [h2.frame x hx' fun h => hnot (h1.holds_of_used hx h), h1.frame x hx hnot]

theorem SameBytes.trans (h1 : SameBytes B B' d d') (h2 : SameBytes B' B'' d' d'') :
    SameBytes B B'' d d'' := fun i hi => (h2 i hi).trans (h1 i hi)

theorem sameBytes_of_pages
    (h : ∀ bn < MAXFILE, ∀ j < BSIZE, filePage B' d' bn j = filePage B d bn j) :
    SameBytes B B' d d' := by
  intro i hi
  exact h _ (Nat.div_lt_of_lt_mul (by omega)) _ (Nat.mod_lt _ (by decide))

/-- **A block for an empty place.**  The block is zero, and at most the indirect block has changed. -/
theorem Owns.alloc (ho : Owns U B d) (hi : i < NREF) (hz : blockRef B d i = 0) (hb : b ≠ 0)
    (hnew : ¬ U b)
    (href : ∀ r < NREF, blockRef B' d' r = if r = i then b else blockRef B d r)
    (hU : ∀ x, U' x ↔ U x ∨ x = b) (hB : ∀ x, U x → x ≠ d.addr NDIRECT ∨ x = 0 → B' x = B x)
    (hzero : ∀ j < BSIZE, B' b j = 0) :
    Owns U' B' d' ∧ Grow U U' B B' d d' ∧ SameBytes B B' d d' := by
  have hold : ∀ r < NREF, blockRef B d r ≠ 0 → blockRef B d r ≠ b := by
    intro r hr h0 heq
    have hU := ho.mem _ (Holds.of_ref hr h0)
    rw [heq] at hU
    exact hnew hU
  have hfwd : ∀ r < NREF, blockRef B d r ≠ 0 → blockRef B' d' r = blockRef B d r := by
    intro r hr h0
    rw [href r hr, if_neg]
    rintro rfl
    exact h0 hz
  have hhold : ∀ x, Holds B' d' x ↔ Holds B d x ∨ x = b := by
    intro x
    constructor
    · rintro ⟨h0, r, hr, rfl⟩
      rw [href r hr] at h0 ⊢
      by_cases hri : r = i
      · rw [if_pos hri]
        exact Or.inr rfl
      · rw [if_neg hri] at h0 ⊢
        exact Or.inl (Holds.of_ref hr h0)
    · rintro (⟨h0, r, hr, rfl⟩ | rfl)
      · exact ⟨h0, r, hr, hfwd r hr h0⟩
      · exact ⟨hb, i, hi, by rw [href i hi, if_pos rfl]⟩
  refine ⟨⟨?_, ?_⟩, ⟨hfwd, ?_, ?_, ?_⟩, ?_⟩
  · intro r hr r' hr' heq h0
    rw [href r hr] at heq h0
    rw [href r' hr'] at heq
    by_cases h1 : r = i <;> by_cases h2 : r' = i
    · exact h1.trans h2.symm
    · rw [if_pos h1, if_neg h2] at heq
      exact absurd heq.symm (hold r' hr' fun h => hb (heq.trans h))
    · rw [if_neg h1] at heq h0
      rw [if_pos h2] at heq
      exact absurd heq (hold r hr h0)
    · rw [if_neg h1] at heq h0
      rw [if_neg h2] at heq
      exact ho.inj r hr r' hr' heq h0
  · intro x hx
    rcases (hhold x).mp hx with h | rfl
    · exact (hU x).mpr (Or.inl (ho.mem x h))
    · exact (hU x).mpr (Or.inr rfl)
  · intro x
    rw [hU, hhold, ← or_assoc]
    exact or_congr_left ⟨Or.inl, fun h => h.elim id fun hx => ho.mem x hx⟩
  · intro r hr h0 h'
    rw [href r hr] at h' ⊢
    by_cases hri : r = i
    · rw [if_pos hri]
      exact hnew
    · rw [if_neg hri] at h'
      exact absurd h0 h'
  · intro x hx hnot
    refine hB x hx ?_
    by_cases h0 : x = 0
    · exact Or.inr h0
    · refine Or.inl fun heq => hnot ?_
      rw [heq] at h0 ⊢
      exact Holds.of_indirect h0
  · refine sameBytes_of_pages fun bn hbn j hj => ?_
    have hs := href (slotOf bn) (slotOf_lt hbn)
    unfold filePage slot
    rw [hs]
    by_cases hbi : slotOf bn = i
    · rw [if_pos hbi, if_neg hb, hbi, if_pos hz, hzero j hj]
    · rw [if_neg hbi]
      by_cases h0 : blockRef B d (slotOf bn) = 0
      · rw [if_pos h0, if_pos h0]
      · rw [if_neg h0, if_neg h0]
        have hUx := ho.mem _ (Holds.of_ref (slotOf_lt hbn) h0)
        rw [hB _ hUx (Or.inl (ho.indirect_ne hbn h0))]

/-- **A block for an address of the inode.** -/
theorem Owns.setAddr (ho : Owns U B d) (hi : i ≤ NDIRECT) (hz : d.addr i = 0) (hb : b ≠ 0)
    (hb32 : b < 2 ^ 32) (hnew : ¬ U b) (hU : ∀ x, U' x ↔ U x ∨ x = b)
    (hB : ∀ x, U x → B' x = B x) (hzero : ∀ j < BSIZE, B' b j = 0) :
    Owns U' B' (d.setAddr i b) ∧ Grow U U' B B' d (d.setAddr i b) ∧
      SameBytes B B' d (d.setAddr i b) := by
  have hN : NREF = 269 := rfl
  have hD12 : NDIRECT = 12 := rfl
  refine ho.alloc (i := i) (by omega) (by rw [blockRef, if_pos hi, hz]) hb hnew ?_ hU
    (fun x hx _ => hB x hx) hzero
  intro r hr
  unfold blockRef
  rw [dinode.addr_setAddr hi hb32, dinode.addr_setAddr hi hb32]
  by_cases h : r ≤ NDIRECT
  · rw [if_pos h, if_pos h]
  rw [if_neg h, if_neg h, if_neg (by omega : ¬ r = i)]
  by_cases hi12 : NDIRECT = i
  · -- the new indirect block is zero
    have hz12 : d.addr NDIRECT = 0 := by rw [hi12, hz]
    rw [if_pos hi12, if_neg hb, if_pos hz12]
    exact ByteStore.load_zero fun j hj => hzero _ (by simp only [BSIZE]; omega)
  · rw [if_neg hi12]
    by_cases h0 : d.addr NDIRECT = 0
    · rw [if_pos h0, if_pos h0]
    · rw [if_neg h0, if_neg h0, hB _ (ho.mem _ (Holds.of_indirect h0))]

/-- **A block for an entry of the indirect block.**  `B₁` is what the blocks are before the entry is
written. -/
theorem Owns.setEntry {B₁ : ℕ → Block} (ho : Owns U B d) (hk : k < NINDIRECT)
    (hind : d.addr NDIRECT ≠ 0) (hz : (B (d.addr NDIRECT)).load (4 * k) 4 = 0) (hb : b ≠ 0)
    (hb32 : b < 2 ^ 32) (hnew : ¬ U b) (hU : ∀ x, U' x ↔ U x ∨ x = b)
    (hB : ∀ x, U x → B₁ x = B x) (hzero : ∀ j < BSIZE, B₁ b j = 0)
    (hB' : B' = Function.update B₁ (d.addr NDIRECT)
      ((B₁ (d.addr NDIRECT)).store (4 * k) 4 b)) :
    Owns U' B' d ∧ Grow U U' B B' d d ∧ SameBytes B B' d d := by
  have hUind := ho.mem _ (Holds.of_indirect hind)
  have hbind : b ≠ d.addr NDIRECT := by
    rintro rfl
    exact hnew hUind
  have hN : NREF = 269 := rfl
  have hD12 : NDIRECT = 12 := rfl
  have hI : NINDIRECT = 256 := rfl
  refine ho.alloc (i := NDIRECT + 1 + k) (by omega) (by rw [blockRef_indirect hind, hz]) hb hnew ?_
    hU ?_ ?_
  · intro r hr
    by_cases h : r ≤ NDIRECT
    · rw [blockRef, if_pos h, if_neg (by omega), blockRef, if_pos h]
    · obtain ⟨k', rfl⟩ : ∃ k', r = NDIRECT + 1 + k' := ⟨r - (NDIRECT + 1), by omega⟩
      rw [blockRef_indirect hind, blockRef_indirect hind, hB', Function.update_self]
      by_cases hkk : k' = k
      · rw [hkk, if_pos rfl, ByteStore.load_store]
        exact Nat.mod_eq_of_lt hb32
      · rw [if_neg (by omega), ByteStore.load_store_out (by omega), hB _ hUind]
  · intro x hx hne
    have hne : x ≠ d.addr NDIRECT := by
      rcases hne with h | rfl
      · exact h
      · exact Ne.symm hind
    rw [hB', Function.update_of_ne hne, hB x hx]
  · intro j hj
    rw [hB', Function.update_of_ne hbind, hzero j hj]

/-! ## Writing -/

/-- **Bytes written into a block of the file.** -/
theorem Owns.write {src : ℕ → UInt8} (ho : Owns U B d) (hbn : off / BSIZE < MAXFILE)
    (hslot : slot B d (off / BSIZE) ≠ 0) (hk : off % BSIZE + k ≤ BSIZE)
    (hB' : B' = Function.update B (slot B d (off / BSIZE))
      ((B (slot B d (off / BSIZE))).blit (off % BSIZE) k src)) :
    Owns U B' d ∧ Grow U U B B' d d ∧
      ∀ i < MAXFILE * BSIZE, content B' d i =
        if off ≤ i ∧ i < off + k then src (i - off) else content B d i := by
  have hne := ho.indirect_ne hbn hslot
  have href : ∀ r < NREF, blockRef B' d r = blockRef B d r := fun r hr =>
    blockRef_congr (fun _ _ => rfl) (fun _ j _ => by rw [hB', Function.update_of_ne (Ne.symm hne)]) hr
  refine ⟨ho.congr href, ho.grow href ?_, ?_⟩
  · intro x _ hnot
    rw [hB', Function.update_of_ne]
    rintro rfl
    exact hnot (Holds.of_slot hbn hslot)
  · intro i hi
    have hbi : i / BSIZE < MAXFILE := Nat.div_lt_of_lt_mul (by omega)
    refine Paged.flat_blit hk ?_
    have hs : slot B' d (i / BSIZE) = slot B d (i / BSIZE) := href _ (slotOf_lt hbi)
    unfold filePage
    rw [hs]
    by_cases h0 : slot B d (i / BSIZE) = 0
    · rw [if_pos h0, if_pos h0, if_neg]
      intro heq
      rw [heq] at h0
      exact hslot h0
    · rw [if_neg h0, if_neg h0]
      by_cases hq : i / BSIZE = off / BSIZE
      · rw [if_pos hq, hq, hB', Function.update_self]
      · rw [if_neg hq, hB', Function.update_of_ne]
        intro heq
        exact hq (slotOf_inj (ho.inj _ (slotOf_lt hbi) _ (slotOf_lt hbn) heq h0))

/-! ## Disk inodes -/

theorem short_store {m : Block} {a : ℕ} (v : Int16) :
    (UInt16.ofNat ((m.store a 2 v.toUInt16.toNat).load a 2)).toInt16 = v := by
  have hv : v.toUInt16.toNat < 256 ^ 2 := v.toUInt16.toNat_lt
  rw [ByteStore.load_store, Nat.mod_eq_of_lt hv, UInt16.ofNat_toNat, Int16.toInt16_toUInt16]

/-- A disk inode depends only on its 64 bytes. -/
theorem load_dinode_congr {m m' : Block} {a : ℕ} (h : ∀ j < 64, m' (a + j) = m (a + j)) :
    dinode.load m' a = dinode.load m a := by
  have hload : ∀ o n, o + n ≤ 64 → m'.load (a + o) n = m.load (a + o) n := fun o n hon =>
    ByteStore.load_congr fun i hi => by
      rw [Nat.add_assoc]
      exact h _ (by omega)
  have haddrs : ∀ i : Fin (NDIRECT + 1),
      m'.load (a + 12 + 4 * i) 4 = m.load (a + 12 + 4 * i) 4 := by
    intro i
    have hi := i.isLt
    simp only [NDIRECT] at hi
    rw [Nat.add_assoc]
    exact hload _ 4 (by omega)
  have h0 := hload 0 2 (by omega)
  rw [Nat.add_zero] at h0
  unfold dinode.load
  rw [h0, hload 2 2 (by omega), hload 4 2 (by omega), hload 6 2 (by omega), hload 8 4 (by omega)]
  simp only [haddrs]

theorem store_dinode_out {m : Block} {a x : ℕ} (h : x < a ∨ a + 64 ≤ x) : d.store m a x = m x := by
  unfold dinode.store
  rw [ByteStore.blit_out (by omega), ByteStore.store_out (by omega), ByteStore.store_out (by omega),
    ByteStore.store_out (by omega), ByteStore.store_out (by omega), ByteStore.store_out (by omega)]

/-- **The inode that was stored is loaded.** -/
theorem load_store_dinode {m : Block} {a : ℕ} : dinode.load (d.store m a) a = d := by
  simp only [dinode.store]
  generalize hm1 : m.store a 2 d.type.toUInt16.toNat = m1
  generalize hm2 : m1.store (a + 2) 2 d.major.toUInt16.toNat = m2
  generalize hm3 : m2.store (a + 4) 2 d.minor.toUInt16.toNat = m3
  generalize hm4 : m3.store (a + 6) 2 d.nlink.toUInt16.toNat = m4
  generalize hm5 : m4.store (a + 8) 4 d.size.toNat = m5
  have haddr : ∀ i : Fin (NDIRECT + 1), d.addr i = (d.addrs i).toNat := fun i => by
    rw [dinode.addr, dif_pos i.isLt]
  have haddrs : ∀ i : Fin (NDIRECT + 1), (m5.blit (a + 12) 52
      fun i => UInt8.ofNat (d.addr (i / 4) / 256 ^ (i % 4))).load (a + 12 + 4 * i) 4 = d.addr i := by
    intro i
    have hi := i.isLt
    simp only [NDIRECT] at hi
    rw [ByteStore.load_of_bytes (v := d.addr i), haddr i]
    · exact Nat.mod_eq_of_lt (UInt32.toNat_lt _)
    · intro j hj
      rw [Nat.add_assoc, Nat.add_assoc, ← Nat.add_assoc, ByteStore.blit_add (by omega)]
      rw [show (4 * (i : ℕ) + j) / 4 = i by omega, show (4 * (i : ℕ) + j) % 4 = j by omega]
  have htype : (UInt16.ofNat (m5.load a 2)).toInt16 = d.type := by
    rw [← hm5, ByteStore.load_store_out (by omega), ← hm4, ByteStore.load_store_out (by omega), ← hm3,
      ByteStore.load_store_out (by omega), ← hm2, ByteStore.load_store_out (by omega), ← hm1, short_store]
  have hmajor : (UInt16.ofNat (m5.load (a + 2) 2)).toInt16 = d.major := by
    rw [← hm5, ByteStore.load_store_out (by omega), ← hm4, ByteStore.load_store_out (by omega), ← hm3,
      ByteStore.load_store_out (by omega), ← hm2, short_store]
  have hminor : (UInt16.ofNat (m5.load (a + 4) 2)).toInt16 = d.minor := by
    rw [← hm5, ByteStore.load_store_out (by omega), ← hm4, ByteStore.load_store_out (by omega), ← hm3,
      short_store]
  have hnlink : (UInt16.ofNat (m5.load (a + 6) 2)).toInt16 = d.nlink := by
    rw [← hm5, ByteStore.load_store_out (by omega), ← hm4, short_store]
  have hsize : UInt32.ofNat (m5.load (a + 8) 4) = d.size := by
    have hv : d.size.toNat < 256 ^ 4 := d.size.toNat_lt
    rw [← hm5, ByteStore.load_store, Nat.mod_eq_of_lt hv, UInt32.ofNat_toNat]
  unfold dinode.load
  simp only [haddrs]
  rw [ByteStore.load_blit_out (by omega), ByteStore.load_blit_out (by omega),
    ByteStore.load_blit_out (by omega), ByteStore.load_blit_out (by omega),
    ByteStore.load_blit_out (by omega), htype, hmajor, hminor, hnlink, hsize]
  simp only [haddr, UInt32.ofNat_toNat]

end Xv6.Layout
