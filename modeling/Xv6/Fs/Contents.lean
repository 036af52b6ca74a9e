import Mathlib.Data.Finset.Card
import Mathlib.Data.Finset.Range
import Mathlib.Data.List.Basic
import Xv6.Fs.Layout
import Xv6.Kernel.Log

/-!
# Contents — what `balloc`, `bmap`, `readi` and `writei` do to a file

`FileOk` is the invariant of an inode whose lock is held, `Advance` what any of these functions does to
the file and to everything else, and `Wrote` adds the bytes it has written.
-/

namespace Xv6

open Layout

namespace superblock

/-- The inode blocks come before the bitmap, and block numbers are numbers of `int`. -/
structure Ok (sb : superblock) : Prop where
  size_lt : sb.size < 2 ^ 31
  inodes : sb.inodestart + sb.ninodes / IPB < sb.bmapstart

def IsBmap (sb : superblock) (b : ℕ) : Prop :=
  sb.bmapstart ≤ b ∧ b ≤ sb.bmapstart + sb.size / BPB

def IsData (sb : superblock) (b : ℕ) : Prop := sb.bmapstart + sb.size / BPB < b ∧ b < sb.size

end superblock

namespace Fs

variable {sb : superblock} {s s' s'' : Fs} {ip ip' ip'' : inode} {b x i bn off n tot w : ℕ}

/-- The bit of block `b` is set. -/
def Used (sb : superblock) (s : Fs) (b : ℕ) : Prop := (s.blocks (BBLOCK b sb)).bit (b % BPB) = true

instance : Decidable (s.Used sb b) := inferInstanceAs (Decidable (_ = _))

/-- The data blocks in use. -/
def InUse (sb : superblock) (s : Fs) (b : ℕ) : Prop := sb.IsData b ∧ s.Used sb b

/-- There is no free block. -/
def Full (sb : superblock) (s : Fs) : Prop := ∀ b < sb.size, s.Used sb b

/-- The blocks before the data blocks are marked as used. -/
def Reserved (sb : superblock) (s : Fs) : Prop := ∀ b < sb.size, ¬ sb.IsData b → s.Used sb b

/-! ## `balloc` -/

theorem bblock_isBmap (h : b < sb.size) : sb.IsBmap (BBLOCK b sb) := by
  have hdiv : b / BPB ≤ sb.size / BPB := Nat.div_le_div_right h.le
  unfold superblock.IsBmap BBLOCK
  exact ⟨Nat.le_add_left _ _, by rw [Nat.add_comm]; exact Nat.add_le_add_left hdiv _⟩

theorem data_not_bmap (h : sb.IsData b) : ¬ sb.IsBmap b := by
  unfold superblock.IsData at h
  unfold superblock.IsBmap
  omega

/-- Bits depend only on the bitmap. -/
theorem used_congr (h : ∀ x, sb.IsBmap x → s'.blocks x = s.blocks x) (hb : b < sb.size) :
    s'.Used sb b ↔ s.Used sb b := by
  unfold Used
  rw [h _ (bblock_isBmap hb)]

theorem inUse_congr (h : ∀ x, sb.IsBmap x → s'.blocks x = s.blocks x) : s'.InUse sb b ↔ s.InUse sb b :=
  and_congr_right fun hb => used_congr h hb.2

/-- Another block does not concern the bitmap. -/
theorem update_bmap {data : Block} {y : ℕ} (hx : ¬ sb.IsBmap x) (hy : sb.IsBmap y) :
    Function.update s.blocks x data y = s.blocks y := by
  refine Function.update_of_ne ?_ _ _
  rintro rfl
  exact hx hy

/-- What an allocation of block `b` does. -/
structure Alloc (sb : superblock) (b : ℕ) (s s' : Fs) : Prop where
  data : sb.IsData b
  free : ¬ s.Used sb b
  used : ∀ x < sb.size, s'.Used sb x ↔ s.Used sb x ∨ x = b
  frame : ∀ x, ¬ sb.IsBmap x → x ≠ b → s'.blocks x = s.blocks x
  zero : ∀ j < BSIZE, s'.blocks b j = 0

theorem balloc_spec (hres : s.Reserved sb) :
    (s.balloc sb = (0, s) ∧ s.Full sb) ∨ ∃ b s', s.balloc sb = (b, s') ∧ Alloc sb b s s' := by
  cases hfind : (List.range sb.size).find? fun b => !(s.blocks (BBLOCK b sb)).bit (b % BPB) with
  | none =>
    refine Or.inl ⟨by rw [balloc, hfind], fun b hb => ?_⟩
    have h := List.find?_eq_none.mp hfind b (List.mem_range.mpr hb)
    simpa [Used] using h
  | some b =>
    have hb : b < sb.size := List.mem_range.mp (List.mem_of_find?_eq_some hfind)
    have hfree : ¬ s.Used sb b := by
      have h := List.find?_some hfind
      simpa [Used] using h
    have hdata : sb.IsData b := by
      by_contra h
      exact hfree (hres b hb h)
    have hne : ∀ x < sb.size, BBLOCK x sb ≠ b := fun x hx h =>
      data_not_bmap hdata (h ▸ bblock_isBmap hx)
    refine Or.inr ⟨b, _, by rw [balloc, hfind], hdata, hfree, ?_, ?_, ?_⟩
    · intro x hx
      unfold Used bzero log_write setData
      dsimp only
      rw [Function.update_of_ne (hne x hx)]
      by_cases hbb : BBLOCK x sb = BBLOCK b sb
      · rw [hbb, Function.update_self]
        by_cases hxb : x = b
        · rw [hxb, ByteStore.bit_setBit_self]
          simp
        · have hmod : x % BPB ≠ b % BPB := by
            unfold BBLOCK at hbb
            have h1 := Nat.div_add_mod x BPB
            have h2 := Nat.div_add_mod b BPB
            intro hmod
            rw [Nat.add_right_cancel hbb, hmod] at h1
            exact hxb (h1.symm.trans h2)
          rw [ByteStore.bit_setBit_of_ne hmod]
          exact ⟨Or.inl, fun h => h.resolve_right hxb⟩
      · rw [Function.update_of_ne hbb]
        refine ⟨Or.inl, fun h => h.resolve_right ?_⟩
        rintro rfl
        exact hbb rfl
    · intro x hx hxb
      have hx' : x ≠ BBLOCK b sb := fun h => hx (h ▸ bblock_isBmap hb)
      show Function.update (Function.update _ _ _) _ _ x = _
      rw [Function.update_of_ne hxb, Function.update_of_ne hx']
    · intro j hj
      unfold bzero log_write setData
      dsimp only
      rw [Function.update_self]
      exact ByteStore.fill_in (Nat.zero_le j) (by omega)

theorem Alloc.inUse (h : Alloc sb b s s') : s'.InUse sb x ↔ s.InUse sb x ∨ x = b := by
  have hb := h.data
  constructor
  · rintro ⟨hx, hu⟩
    rcases (h.used x hx.2).mp hu with h' | h'
    · exact Or.inl ⟨hx, h'⟩
    · exact Or.inr h'
  · rintro (⟨hx, hu⟩ | rfl)
    · exact ⟨hx, (h.used x hx.2).mpr (Or.inl hu)⟩
    · exact ⟨hb, (h.used x hb.2).mpr (Or.inr rfl)⟩

theorem Alloc.reserved (h : Alloc sb b s s') (hres : s.Reserved sb) : s'.Reserved sb :=
  fun x hx hnot => (h.used x hx).mpr (Or.inl (hres x hx hnot))

theorem Alloc.blocks_inUse (h : Alloc sb b s s') (hx : s.InUse sb x) : s'.blocks x = s.blocks x := by
  refine h.frame x (data_not_bmap hx.1) ?_
  rintro rfl
  exact h.free hx.2

theorem Alloc.ne_zero (h : Alloc sb b s s') : b ≠ 0 := by
  rintro rfl
  exact Nat.not_lt_zero _ h.data.1

/-! ## What the log knows -/

/-- The blocks that have changed are in the log, but for those of `D`, and so are the blocks that were
free. -/
structure Noted (sb : superblock) (D : Set ℕ) (s s' : Fs) : Prop where
  mono : ∀ x ∈ s.logged, x ∈ s'.logged
  same : ∀ x, x ∉ s'.logged → x ∉ D → s'.blocks x = s.blocks x
  fresh : ∀ x, s'.InUse sb x → s.InUse sb x ∨ x ∈ s'.logged

theorem Noted.refl : Noted sb ∅ s s := ⟨fun _ h => h, fun _ _ _ => rfl, fun _ => Or.inl⟩

theorem Noted.trans {D : Set ℕ} (h1 : Noted sb D s s') (h2 : Noted sb D s' s'') :
    Noted sb D s s'' where
  mono := fun x hx => h2.mono x (h1.mono x hx)
  same := fun x hx hD => by
    rw [h2.same x hx hD, h1.same x (fun h => hx (h2.mono x h)) hD]
  fresh := fun x hx => (h2.fresh x hx).elim (fun h => (h1.fresh x h).imp_right (h2.mono x)) Or.inr

theorem Noted.weaken {D E : Set ℕ} (h : Noted sb D s s') (hDE : ∀ x ∈ D, x ∈ E) : Noted sb E s s' :=
  ⟨h.mono, fun x hx hE => h.same x hx fun hD => hE (hDE x hD), h.fresh⟩

/-- All blocks that have changed are in the log. -/
theorem Noted.clean {D : Set ℕ} (h : Noted sb ∅ s s') : Noted sb D s s' :=
  h.weaken fun _ hx => absurd hx id

/-- An allocation logs the new block and the block of its bit. -/
theorem balloc_some (heq : s.balloc sb = (b, s')) (h0 : b ≠ 0) :
    s' = (s.log_write (BBLOCK b sb) ((s.blocks (BBLOCK b sb)).setBit (b % BPB))).bzero b := by
  cases hfind : (List.range sb.size).find? fun b => !(s.blocks (BBLOCK b sb)).bit (b % BPB) with
  | none =>
    rw [balloc, hfind] at heq
    injection heq with hb
    exact absurd hb.symm h0
  | some b' =>
    rw [balloc, hfind] at heq
    injection heq with hb hs
    subst hb
    exact hs.symm

theorem Alloc.mem_logged (h : Alloc sb b s s') (heq : s.balloc sb = (b, s')) :
    x ∈ s'.logged ↔ x = b ∨ x = BBLOCK b sb ∨ x ∈ s.logged := by
  rw [balloc_some heq h.ne_zero]
  simp [bzero, log_write, setData]

theorem Alloc.noted (h : Alloc sb b s s') (heq : s.balloc sb = (b, s')) : Noted sb ∅ s s' := by
  refine ⟨fun x hx => ?_, fun x hx _ => ?_, fun x hx => ?_⟩
  · rw [h.mem_logged heq]
    exact Or.inr (Or.inr hx)
  · rw [h.mem_logged heq, not_or, not_or] at hx
    rw [balloc_some heq h.ne_zero]
    show Function.update (Function.update _ _ _) _ _ x = _
    rw [Function.update_of_ne hx.1, Function.update_of_ne hx.2.1]
  · rw [h.mem_logged heq]
    exact (h.inUse.mp hx).imp_right Or.inl

/-- The data of a block that is not in the bitmap. -/
theorem Noted.setData {data : Block} (hx : ¬ sb.IsBmap x) : Noted sb {x} s (s.setData x data) where
  mono := fun _ h => h
  same := fun _ _ hy => Function.update_of_ne hy _ _
  fresh := fun _ hy => Or.inl ((inUse_congr fun _ hz => update_bmap hx hz).mp hy)

theorem Noted.log_write {data : Block} (hx : ¬ sb.IsBmap x) : Noted sb ∅ s (s.log_write x data) where
  mono := fun _ hy => List.mem_cons_of_mem x hy
  same := fun _ hy _ => Function.update_of_ne (List.ne_of_not_mem_cons hy) _ _
  fresh := fun _ hy => Or.inl ((inUse_congr fun _ hz => update_bmap hx hz).mp hy)

/-! ## Files -/

/-- An inode that is locked and valid, in a file system whose metadata is reserved. -/
structure FileOk (sb : superblock) (ip : inode) (s : Fs) : Prop where
  owns : Owns (s.InUse sb) s.blocks ip.d
  reserved : s.Reserved sb
  size : ip.d.size.toNat ≤ MAXFILE * BSIZE
  inum : ip.inum.toNat < sb.ninodes

/-- The bytes of the file. -/
def bytes (s : Fs) (ip : inode) : ℕ → UInt8 := content s.blocks ip.d

/-- The block that holds the disk inode of `ip`. -/
def iblock (sb : superblock) (ip : inode) : ℕ := IBLOCK ip.inum.toNat sb

/-- What an operation on the inode `ip` does: it gives the file more blocks, and it changes nothing but
the blocks of the file, the bitmap and the disk inode. -/
structure Advance (sb : superblock) (ip ip' : inode) (s s' : Fs) : Prop where
  file : FileOk sb ip' s'
  grow : Grow (s.InUse sb) (s'.InUse sb) s.blocks s'.blocks ip.d ip'.d
  fields : ∃ a n, ip' = { ip with d := { ip.d with addrs := a, size := n } }
  others : ∀ x, ¬ sb.IsData x → ¬ sb.IsBmap x → x ≠ iblock sb ip → s'.blocks x = s.blocks x
  dinodes : ∀ j, j / 64 ≠ ip.inum.toNat % IPB → s'.blocks (iblock sb ip) j = s.blocks (iblock sb ip) j

theorem Advance.inum (h : Advance sb ip ip' s s') : ip'.inum = ip.inum := by
  obtain ⟨a, n, rfl⟩ := h.fields
  rfl

theorem Advance.iblock (h : Advance sb ip ip' s s') : iblock sb ip' = iblock sb ip := by
  unfold Fs.iblock
  rw [h.inum]

theorem Advance.trans (h1 : Advance sb ip ip' s s') (h2 : Advance sb ip' ip'' s' s'') :
    Advance sb ip ip'' s s'' where
  file := h2.file
  grow := h1.grow.trans h2.grow
  fields := by
    obtain ⟨a, n, rfl⟩ := h1.fields
    obtain ⟨a', n', rfl⟩ := h2.fields
    exact ⟨a', n', rfl⟩
  others := fun x hd hb hx => by
    rw [h2.others x hd hb (by rwa [h1.iblock]), h1.others x hd hb hx]
  dinodes := fun j hj => by
    have h := h2.dinodes j (by rwa [h1.inum])
    rw [h1.iblock] at h
    rw [h, h1.dinodes j hj]

theorem Advance.refl (h : FileOk sb ip s) : Advance sb ip ip s s where
  file := h
  grow := Grow.refl h.owns
  fields := ⟨ip.d.addrs, ip.d.size, rfl⟩
  others := fun _ _ _ _ => rfl
  dinodes := fun _ _ => rfl

theorem Advance.used (h : Advance sb ip ip' s s') (hb : b < sb.size) (hu : s.Used sb b) :
    s'.Used sb b := by
  by_cases hd : sb.IsData b
  · exact ((h.grow.used b).mpr (Or.inl ⟨hd, hu⟩)).2
  · exact h.file.reserved b hb hd

theorem Full.advance (hf : s.Full sb) (h : Advance sb ip ip' s s') : s'.Full sb :=
  fun b hb => h.used hb (hf b hb)

theorem iblock_lt (hsb : sb.Ok) (h : FileOk sb ip s) : iblock sb ip < sb.bmapstart := by
  have h1 := hsb.inodes
  have h2 : ip.inum.toNat / IPB ≤ sb.ninodes / IPB := Nat.div_le_div_right h.inum.le
  unfold iblock IBLOCK
  omega

/-! ## `bmap` -/

/-- An allocation changes nothing outside the data blocks and the bitmap. -/
theorem Alloc.others (h : Alloc sb b s s') (hd : ¬ sb.IsData x) (hx : ¬ sb.IsBmap x) :
    s'.blocks x = s.blocks x := by
  refine h.frame x hx ?_
  rintro rfl
  exact hd h.data

theorem not_data_iblock (hsb : sb.Ok) (h : FileOk sb ip s) : ¬ sb.IsData (iblock sb ip) := by
  intro hd
  have hle := Nat.le_add_right sb.bmapstart (sb.size / BPB)
  exact Nat.lt_asymm (iblock_lt hsb h) (hle.trans_lt hd.1)

theorem not_bmap_iblock (hsb : sb.Ok) (h : FileOk sb ip s) : ¬ sb.IsBmap (iblock sb ip) := by
  exact fun hx => absurd hx.1 (Nat.not_le.mpr (iblock_lt hsb h))

/-- The slot `addrs[i]`, and a block for it if it had none. -/
theorem blockAt_spec (hsb : sb.Ok) (hf : FileOk sb ip s) (hi : i ≤ NDIRECT) :
    ∃ a ip' s', s.blockAt sb i ip = (a, ip', s') ∧ Advance sb ip ip' s s' ∧
      SameBytes s.blocks s'.blocks ip.d ip'.d ∧ ip'.d.size = ip.d.size ∧
      (a = 0 → s'.Full sb) ∧ (a ≠ 0 → ip'.d.addr i = a) ∧ Noted sb ∅ s s' := by
  unfold blockAt
  by_cases h0 : ip.d.addr i = 0
  · dsimp only
    rw [if_pos h0]
    rcases balloc_spec hf.reserved with ⟨heq, hfull⟩ | ⟨b, s', heq, ha⟩
    · rw [heq]
      exact ⟨0, ip, s, rfl, Advance.refl hf, fun _ _ => rfl, rfl, fun _ => hfull, fun h => absurd rfl h,
        Noted.refl⟩
    · rw [heq]
      dsimp only
      rw [if_neg ha.ne_zero]
      have hb32 : b < 2 ^ 32 := by
        have h1 := ha.data.2
        have h2 := hsb.size_lt
        omega
      obtain ⟨ho, hg, hc⟩ := hf.owns.setAddr hi h0 ha.ne_zero hb32 (fun h => ha.free h.2)
        (fun x => ha.inUse) (fun x hx => ha.blocks_inUse hx) ha.zero
      refine ⟨b, _, s', rfl, ⟨⟨ho, ha.reserved hf.reserved, hf.size, hf.inum⟩, hg, ⟨_, _, rfl⟩, ?_, ?_⟩,
        hc, rfl, fun h => absurd h ha.ne_zero, fun _ => ?_, ha.noted heq⟩
      · exact fun x hd hx _ => ha.others hd hx
      · intro j _
        rw [ha.others (not_data_iblock hsb hf) (not_bmap_iblock hsb hf)]
      · show (ip.d.setAddr i b).addr i = b
        rw [dinode.addr_setAddr hi hb32, if_pos rfl]
  · dsimp only
    rw [if_neg h0]
    exact ⟨_, ip, s, rfl, Advance.refl hf, fun _ _ => rfl, rfl, fun h => absurd h h0, fun _ => rfl,
      Noted.refl⟩

/-- **`bmap`** finds the block of the file, or it allocates one; it fails only if no block is free. -/
theorem bmap_spec (hsb : sb.Ok) (hf : FileOk sb ip s) (hbn : bn < MAXFILE) :
    ∃ a ip' s', s.bmap sb bn ip = .ok (a, ip', s') ∧ Advance sb ip ip' s s' ∧
      SameBytes s.blocks s'.blocks ip.d ip'.d ∧ ip'.d.size = ip.d.size ∧
      (a = 0 → s'.Full sb) ∧ (a ≠ 0 → Layout.slot s'.blocks ip'.d bn = a) ∧ Noted sb ∅ s s' := by
  unfold bmap
  by_cases hdir : bn < NDIRECT
  · rw [if_pos hdir]
    obtain ⟨a, ip', s', heq, hadv, hc, hsize, hfull, ha, hn⟩ := blockAt_spec hsb hf hdir.le
    exact ⟨a, ip', s', by rw [heq], hadv, hc, hsize, hfull, fun h => by rw [slot_direct hdir, ha h], hn⟩
  rw [if_neg hdir]
  obtain ⟨k, rfl⟩ : ∃ k, bn = NDIRECT + k := ⟨bn - NDIRECT, by omega⟩
  have hk : k < NINDIRECT := by
    simp only [MAXFILE, NINDIRECT] at *
    omega
  dsimp only
  rw [Nat.add_sub_cancel_left, if_pos hk]
  obtain ⟨ind, ip1, s1, heq, hadv1, hc1, hsize1, hfull1, ha1, hn1⟩ := blockAt_spec hsb hf le_rfl
  rw [heq]
  dsimp only
  by_cases hind : ind = 0
  · rw [if_pos hind]
    exact ⟨0, ip1, s1, rfl, hadv1, hc1, hsize1, fun _ => hfull1 hind, fun h => absurd rfl h, hn1⟩
  rw [if_neg hind]
  have haddr := ha1 hind
  have hind1 : ip1.d.addr NDIRECT ≠ 0 := by rwa [haddr]
  have hf1 := hadv1.file
  by_cases h0 : (s1.blocks ind).load (4 * k) 4 = 0
  · rw [if_pos h0]
    rcases balloc_spec hf1.reserved with ⟨heq2, hfull⟩ | ⟨b, s2, heq2, ha⟩
    · rw [heq2]
      exact ⟨0, ip1, s1, rfl, hadv1, hc1, hsize1, fun _ => hfull, fun h => absurd rfl h, hn1⟩
    · rw [heq2]
      dsimp only
      rw [if_neg ha.ne_zero]
      have hb32 : b < 2 ^ 32 := by
        have h1 := ha.data.2
        have h2 := hsb.size_lt
        omega
      generalize hs3 : s2.log_write ind ((s2.blocks ind).store (4 * k) 4 b) = s3
      have hblocks : s3.blocks = Function.update s2.blocks (ip1.d.addr NDIRECT)
          ((s2.blocks (ip1.d.addr NDIRECT)).store (4 * k) 4 b) := by
        rw [← hs3, haddr]
        rfl
      have hindU : s1.InUse sb ind := by
        have h := hf1.owns.mem _ (Holds.of_indirect hind1)
        rwa [haddr] at h
      have hother : ∀ x, x ≠ ind → s3.blocks x = s2.blocks x := by
        intro x hx
        rw [hblocks, haddr, Function.update_of_ne hx]
      have hused : ∀ x < sb.size, s3.Used sb x ↔ s2.Used sb x := fun x hx =>
        used_congr (fun y hy => hother y fun h => data_not_bmap hindU.1 (h ▸ hy)) hx
      have hinUse : ∀ x, s3.InUse sb x ↔ s1.InUse sb x ∨ x = b := by
        intro x
        rw [← ha.inUse]
        exact and_congr_right fun hx => hused x hx.2
      rw [← haddr] at h0
      obtain ⟨ho, hg, hc⟩ := hf1.owns.setEntry hk hind1 h0
        ha.ne_zero hb32 (fun h => ha.free h.2) hinUse (fun x hx => ha.blocks_inUse hx) ha.zero hblocks
      have hothers : ∀ x, ¬ sb.IsData x → ¬ sb.IsBmap x → s3.blocks x = s1.blocks x := by
        intro x hd hx
        rw [hother x fun h => hd (h ▸ hindU.1), ha.others hd hx]
      have hadv : Advance sb ip1 ip1 s1 s3 := by
        refine ⟨⟨ho, ?_, hf1.size, hf1.inum⟩, hg, ⟨ip1.d.addrs, ip1.d.size, rfl⟩, ?_, ?_⟩
        · exact fun x hx hnot => (hused x hx).mpr (ha.reserved hf1.reserved x hx hnot)
        · exact fun x hd hx _ => hothers x hd hx
        · intro j _
          rw [hothers _ (not_data_iblock hsb hf1) (not_bmap_iblock hsb hf1)]
      refine ⟨b, ip1, s3, rfl, hadv1.trans hadv, hc1.trans hc, hsize1, fun h => absurd h ha.ne_zero,
        fun _ => ?_, (hn1.trans (ha.noted heq2)).trans ?_⟩
      · rw [slot_indirect hind1, hblocks, Function.update_self, ByteStore.load_store]
        exact Nat.mod_eq_of_lt hb32
      · rw [← hs3]
        exact Noted.log_write (data_not_bmap hindU.1)
  · rw [if_neg h0]
    refine ⟨_, ip1, s1, rfl, hadv1, hc1, hsize1, fun h => absurd h h0, fun _ => ?_, hn1⟩
    rw [slot_indirect hind1, haddr]

/-- A block that is there is found, and nothing changes. -/
theorem bmap_there (hbn : bn < MAXFILE) (h0 : Layout.slot s.blocks ip.d bn ≠ 0) :
    s.bmap sb bn ip = .ok (Layout.slot s.blocks ip.d bn, ip, s) := by
  rw [bmap]
  by_cases hdir : bn < NDIRECT
  · rw [slot_direct hdir] at h0 ⊢
    rw [if_pos hdir, blockAt]
    dsimp only
    rw [if_neg h0]
  · obtain ⟨k, rfl⟩ : ∃ k, bn = NDIRECT + k := ⟨bn - NDIRECT, by omega⟩
    have hk : k < NINDIRECT := by
      simp only [MAXFILE, NINDIRECT] at *
      omega
    have hind : ip.d.addr NDIRECT ≠ 0 := fun h => h0 (slot_hole (by omega) h)
    rw [slot_indirect hind] at h0 ⊢
    rw [if_neg hdir, blockAt]
    dsimp only
    rw [Nat.add_sub_cancel_left, if_pos hk, if_neg hind]
    dsimp only
    rw [if_neg hind, if_neg h0]

theorem balloc_old (hres : s.Reserved sb) (h : s.balloc sb = (b, s')) (hx : s.InUse sb x) :
    x ∈ s'.logged ↔ x ∈ s.logged := by
  rcases balloc_spec hres with ⟨heq, -⟩ | ⟨b', s₁, heq, ha⟩
  · rw [heq] at h
    cases h
    rfl
  · rw [heq] at h
    cases h
    rw [ha.mem_logged heq]
    refine ⟨fun hm => ?_, fun hm => Or.inr (Or.inr hm)⟩
    rcases hm with rfl | rfl | hm
    · exact absurd hx.2 ha.free
    · exact absurd (bblock_isBmap ha.data.2) (data_not_bmap hx.1)
    · exact hm

theorem blockAt_old {a : ℕ} (hres : s.Reserved sb) (h : s.blockAt sb i ip = (a, ip', s'))
    (hx : s.InUse sb x) : x ∈ s'.logged ↔ x ∈ s.logged := by
  unfold blockAt at h
  dsimp only at h
  by_cases h0 : ip.d.addr i = 0
  · rw [if_pos h0] at h
    generalize hb : s.balloc sb = p at h
    obtain ⟨b, s₁⟩ := p
    dsimp only at h
    have hold := balloc_old hres hb hx
    split_ifs at h
    · cases h
      exact hold
    · cases h
      exact hold
  · rw [if_neg h0] at h
    cases h
    rfl

/-- `bmap` logs no block that was there, except the indirect block. -/
theorem bmap_old {a : ℕ} (hsb : sb.Ok) (hf : FileOk sb ip s) (h : s.bmap sb bn ip = .ok (a, ip', s'))
    (hx : s.InUse sb x) (hi : x ≠ ip.d.addr NDIRECT) : x ∈ s'.logged ↔ x ∈ s.logged := by
  unfold bmap at h
  by_cases hdir : bn < NDIRECT
  · rw [if_pos hdir] at h
    injection h with h
    exact blockAt_old hf.reserved h hx
  rw [if_neg hdir] at h
  dsimp only at h
  by_cases hk : bn - NDIRECT < NINDIRECT
  swap
  · rw [if_neg hk] at h
    cases h
  rw [if_pos hk] at h
  obtain ⟨ind, ip₁, s₁, heq, hadv, -, -, -, hind, -⟩ := blockAt_spec hsb hf (le_refl NDIRECT)
  have hold := blockAt_old hf.reserved heq hx
  have hx₁ : s₁.InUse sb x := (hadv.grow.used x).mpr (Or.inl hx)
  rw [heq] at h
  dsimp only at h
  by_cases h0 : ind = 0
  · rw [if_pos h0] at h
    cases h
    exact hold
  rw [if_neg h0] at h
  have haddr := hind h0
  -- the indirect block is the one that the file had, or a new one
  have hne : x ≠ ind := by
    rintro rfl
    have href : ∀ (B : ℕ → Block) (d : dinode), blockRef B d NDIRECT = d.addr NDIRECT := fun B d =>
      if_pos le_rfl
    by_cases hold0 : ip.d.addr NDIRECT = 0
    · refine hadv.grow.fresh NDIRECT (by decide) (by rw [href, hold0]) ?_ ?_ <;> rw [href, haddr]
      · exact h0
      · exact hx
    · have hkept := hadv.grow.kept NDIRECT (by decide) (by rwa [href])
      rw [href, href, haddr] at hkept
      exact hi hkept
  by_cases hz : (s₁.blocks ind).load (4 * (bn - NDIRECT)) 4 = 0
  swap
  · rw [if_neg hz] at h
    cases h
    exact hold
  rw [if_pos hz] at h
  generalize hb : s₁.balloc sb = p at h
  obtain ⟨b, s₂⟩ := p
  dsimp only at h
  have hold₂ := (balloc_old hadv.file.reserved hb hx₁).trans hold
  split_ifs at h
  · cases h
    exact hold₂
  · cases h
    show x ∈ ind :: s₂.logged ↔ _
    rw [List.mem_cons, or_iff_right hne]
    exact hold₂

/-! ## `writei` -/

/-- The operation has written the `w` bytes of `src` at `off`. -/
structure Wrote (sb : superblock) (src : ℕ → UInt8) (off w : ℕ) (ip ip' : inode) (s s' : Fs) : Prop where
  adv : Advance sb ip ip' s s'
  bytes : ∀ i < MAXFILE * BSIZE,
    s'.bytes ip' i = if off ≤ i ∧ i < off + w then src (i - off) else s.bytes ip i
  there : ∀ i, off ≤ i → i < off + w → Layout.slot s'.blocks ip'.d (i / BSIZE) ≠ 0

theorem Advance.slot_ne (h : Advance sb ip ip' s s') (hbn : bn < MAXFILE)
    (h0 : Layout.slot s.blocks ip.d bn ≠ 0) : Layout.slot s'.blocks ip'.d bn ≠ 0 := by
  rw [Layout.slot, h.grow.kept _ (slotOf_lt hbn) h0]
  exact h0

theorem Wrote.nothing {src : ℕ → UInt8} (h : Advance sb ip ip' s s')
    (hc : SameBytes s.blocks s'.blocks ip.d ip'.d) : Wrote sb src off 0 ip ip' s s' where
  adv := h
  bytes := fun i hi => by
    rw [if_neg (by omega)]
    exact hc i hi
  there := fun i h1 h2 => by omega

theorem Wrote.trans {src : ℕ → UInt8} {w' : ℕ} (hmax : off + w + w' ≤ MAXFILE * BSIZE)
    (h1 : Wrote sb src off w ip ip' s s')
    (h2 : Wrote sb (fun i => src (w + i)) (off + w) w' ip' ip'' s' s'') :
    Wrote sb src off (w + w') ip ip'' s s'' where
  adv := h1.adv.trans h2.adv
  bytes := fun i hi => by
    rw [h2.bytes i hi, h1.bytes i hi]
    by_cases hi2 : off + w ≤ i ∧ i < off + w + w'
    · rw [if_pos hi2, if_pos (by omega)]
      congr 1
      omega
    · rw [if_neg hi2]
      by_cases hi1 : off ≤ i ∧ i < off + w
      · rw [if_pos hi1, if_pos (by omega)]
      · rw [if_neg hi1, if_neg (by omega)]
  there := fun i hlo hhi => by
    by_cases hi : i < off + w
    · exact h2.adv.slot_ne (Nat.div_lt_of_lt_mul (by simp only [BSIZE] at *; omega)) (h1.there i hlo hi)
    · exact h2.there i (by omega) (by omega)

/-- Written after an operation that has left the bytes as they were. -/
theorem Wrote.after {src : ℕ → UInt8} (hw : Wrote sb src off w ip' ip'' s' s'')
    (h : Advance sb ip ip' s s') (hc : SameBytes s.blocks s'.blocks ip.d ip'.d) :
    Wrote sb src off w ip ip'' s s'' where
  adv := h.trans hw.adv
  bytes := fun i hi => by
    have hci : s'.bytes ip' i = s.bytes ip i := hc i hi
    rw [hw.bytes i hi, hci]
  there := hw.there

/-- Written before an operation that leaves the bytes as they are. -/
theorem Wrote.before {src : ℕ → UInt8} (hw : Wrote sb src off w ip ip' s s')
    (hmax : off + w ≤ MAXFILE * BSIZE) (h : Advance sb ip' ip'' s' s'')
    (hc : SameBytes s'.blocks s''.blocks ip'.d ip''.d) : Wrote sb src off w ip ip'' s s'' where
  adv := hw.adv.trans h
  bytes := fun i hi => by
    have hci : s''.bytes ip'' i = s'.bytes ip' i := hc i hi
    rw [hci, hw.bytes i hi]
  there := fun i hlo hhi =>
    h.slot_ne (Nat.div_lt_of_lt_mul (by simp only [BSIZE] at *; omega)) (hw.there i hlo hhi)

theorem accessible_le {ok : ℕ → Bool} {m : ℕ} : accessible ok m ≤ m := by
  have h : (List.range m).findIdx (fun i => !ok i) ≤ (List.range m).length := List.findIdx_le_length
  rwa [List.length_range] at h

theorem accessible_eq {ok : ℕ → Bool} {m : ℕ} (h : ∀ i < m, ok i = true) : accessible ok m = m := by
  have hall : ∀ i ∈ List.range m, (!ok i) = false := fun i hi => by
    rw [h i (List.mem_range.mp hi)]
    rfl
  rw [accessible, List.findIdx_eq_length_of_false hall, List.length_range]

/-- Copying stops at a byte that is not accessible. -/
theorem accessible_stop {ok : ℕ → Bool} {m : ℕ} (h : accessible ok m ≠ m) :
    ok (accessible ok m) = false := by
  have hlt : (List.range m).findIdx (fun i => !ok i) < (List.range m).length := by
    rw [List.length_range]
    exact lt_of_le_of_ne accessible_le h
  have hget := List.findIdx_getElem (w := hlt)
  rw [List.getElem_range] at hget
  simpa [accessible] using hget

/-- The bytes that are copied are accessible. -/
theorem accessible_lt {ok : ℕ → Bool} {m : ℕ} (h : i < accessible ok m) : ok i = true := by
  have hlt : i < (List.range m).length := by
    rw [List.length_range]
    exact h.trans_le accessible_le
  have hget := List.not_of_lt_findIdx h
  rw [List.getElem_range] at hget
  simpa using hget

/-- The loop has stopped after `w` bytes because there is no block for the next one. -/
structure NoBlock (sb : superblock) (off w : ℕ) (ip : inode) (s s' : Fs) : Prop where
  full : s'.Full sb
  hole : Layout.slot s.blocks ip.d ((off + w) / BSIZE) = 0

/-- The loop has stopped after `w` of the `n` bytes because the source cannot be read `k` bytes further,
in the same block. -/
structure Unread (src : ℕ → Option UInt8) (off n w k : ℕ) : Prop where
  lt : w + k < n
  none : src (w + k) = none
  start : off + w = max off ((off + w + k) / BSIZE * BSIZE)

/-- The block of byte `p` when `k` bytes have been copied to it without `log_write`. -/
def Dirty (s : Fs) (ip : inode) (p k : ℕ) : Set ℕ :=
  {x | k ≠ 0 ∧ x ≠ 0 ∧ Layout.slot s.blocks ip.d (p / BSIZE) = x}

theorem Advance.dirty {k : ℕ} (h : Advance sb ip ip' s s') (hp : i / BSIZE < MAXFILE) :
    ∀ x ∈ s.Dirty ip i k, x ∈ s'.Dirty ip' i k := by
  rintro x ⟨hk, h0, rfl⟩
  exact ⟨hk, h0, h.grow.kept _ (slotOf_lt hp) h0⟩

/-- Bytes copied into a block of the file. -/
theorem wrote_chunk {src : ℕ → UInt8} {k : ℕ} (hsb : sb.Ok) (hf : FileOk sb ip s)
    (hbn : off / BSIZE < MAXFILE) (h0 : Layout.slot s.blocks ip.d (off / BSIZE) ≠ 0)
    (hk : off % BSIZE + k ≤ BSIZE)
    (hs' : s'.blocks = Function.update s.blocks (Layout.slot s.blocks ip.d (off / BSIZE))
      ((s.blocks (Layout.slot s.blocks ip.d (off / BSIZE))).blit (off % BSIZE) k src)) :
    Wrote sb src off k ip ip s s' := by
  have hdata := (hf.owns.mem _ (Holds.of_slot hbn h0)).1
  have hother : ∀ x, ¬ sb.IsData x → s'.blocks x = s.blocks x := fun x hx => by
    rw [hs', Function.update_of_ne]
    rintro rfl
    exact hx hdata
  have hbmap : ∀ y, sb.IsBmap y → s'.blocks y = s.blocks y := fun y hy =>
    hother y fun h => data_not_bmap h hy
  have hinUse : s'.InUse sb = s.InUse sb := funext fun x => propext (inUse_congr hbmap)
  obtain ⟨ho, hg, hc⟩ := hf.owns.write hbn h0 hk hs'
  refine ⟨⟨⟨?_, ?_, hf.size, hf.inum⟩, ?_, ⟨_, _, rfl⟩, ?_, ?_⟩, hc, ?_⟩
  · rwa [hinUse]
  · exact fun x hx hnot => (used_congr hbmap hx).mpr (hf.reserved x hx hnot)
  · rwa [hinUse]
  · exact fun x hd _ _ => hother x hd
  · intro j _
    rw [hother _ (not_data_iblock hsb hf)]
  · intro i hlo hhi
    have hdiv : (off + (i - off)) / BSIZE = off / BSIZE := Paged.div_add (by omega)
    rw [Nat.add_sub_cancel' hlo] at hdiv
    rw [hdiv, Layout.slot, hg.kept _ (slotOf_lt hbn) h0]
    exact h0

/-- Of the blocks that the file had, those have been logged that have a byte of the `w` at `off`. -/
def Marks (off w : ℕ) (ip : inode) (s s' : Fs) : Prop :=
  ∀ bn < MAXFILE, Layout.slot s.blocks ip.d bn ≠ 0 →
    (Layout.slot s.blocks ip.d bn ∈ s'.logged ↔
      Layout.slot s.blocks ip.d bn ∈ s.logged ∨ ∃ i, off ≤ i ∧ i < off + w ∧ i / BSIZE = bn)

theorem Marks.same (h : ∀ bn < MAXFILE, Layout.slot s.blocks ip.d bn ≠ 0 →
    (Layout.slot s.blocks ip.d bn ∈ s'.logged ↔ Layout.slot s.blocks ip.d bn ∈ s.logged)) :
    Marks off 0 ip s s' := fun bn hbn h0 => by
  rw [h bn hbn h0]
  refine ⟨Or.inl, fun hm => hm.resolve_right ?_⟩
  rintro ⟨i, hlo, hhi, -⟩
  omega

theorem Marks.trans {w' : ℕ} (h1 : Marks off w ip s s') (ha : Advance sb ip ip' s s')
    (h2 : Marks (off + w) w' ip' s' s'') : Marks off (w + w') ip s s'' := fun bn hbn h0 => by
  have hkept : Layout.slot s'.blocks ip'.d bn = Layout.slot s.blocks ip.d bn :=
    ha.grow.kept _ (slotOf_lt hbn) h0
  have h2' := h2 bn hbn (by rwa [hkept])
  rw [hkept] at h2'
  rw [h2', h1 bn hbn h0, or_assoc]
  refine or_congr_right ⟨fun h => ?_, fun h => ?_⟩
  · rcases h with ⟨i, hlo, hhi, hi⟩ | ⟨i, hlo, hhi, hi⟩
    · exact ⟨i, hlo, by omega, hi⟩
    · exact ⟨i, by omega, by omega, hi⟩
  · obtain ⟨i, hlo, hhi, hi⟩ := h
    by_cases hlt : i < off + w
    · exact Or.inl ⟨i, hlo, hlt, hi⟩
    · exact Or.inr ⟨i, by omega, by omega, hi⟩

/-- What the loop of `writei` has done with `n` bytes of `src` for `off`: `w` of them are written, and `k`
more are in the buffer of the block in which it has stopped. -/
structure Looped (sb : superblock) (src : ℕ → Option UInt8) (off n w k : ℕ) (ip ip' : inode) (s s' : Fs) :
    Prop where
  le : w + k ≤ n
  wrote : Wrote sb (fun i => (src i).getD 0) off (w + k) ip ip' s s'
  size : ip'.d.size = ip.d.size
  stop : w < n → (k = 0 ∧ NoBlock sb off w ip s s') ∨ Unread src off n w k
  some : ∀ i < w + k, (src i).isSome
  noted : Noted sb (s'.Dirty ip' (off + w) k) s s'
  marks : Marks off w ip s s'

/-- One round of the loop has found the block `a`. -/
structure Found (sb : superblock) (off a : ℕ) (ip ip' : inode) (s s' : Fs) : Prop where
  lt : off / BSIZE < MAXFILE
  adv : Advance sb ip ip' s s'
  bytes : SameBytes s.blocks s'.blocks ip.d ip'.d
  size : ip'.d.size = ip.d.size
  slot : Layout.slot s'.blocks ip'.d (off / BSIZE) = a
  ne : a ≠ 0
  noted : Noted sb ∅ s s'
  marks : Marks off 0 ip s s'

section

variable {src : ℕ → Option UInt8} {a k m : ℕ} {ip₁ ip₂ : inode} {s₁ s₂ s₃ : Fs} {data : Block}

theorem Looped.nothing (hf : FileOk sb ip s) : Looped sb src off 0 0 0 ip ip s s where
  le := le_rfl
  wrote := Wrote.nothing (Advance.refl hf) fun _ _ => rfl
  size := rfl
  stop := fun h => absurd h (lt_irrefl 0)
  some := fun i hi => absurd hi (Nat.not_lt_zero i)
  noted := Noted.refl.clean
  marks := Marks.same fun _ _ _ => Iff.rfl

theorem bmap_marks (hsb : sb.Ok) (hf : FileOk sb ip s) (h : s.bmap sb bn ip = .ok (a, ip', s')) :
    Marks off 0 ip s s' :=
  Marks.same fun _ hbn h0 => bmap_old hsb hf h (hf.owns.mem _ (Holds.of_slot hbn h0))
    (hf.owns.indirect_ne hbn h0)

/-- `bmap` has found or allocated the block, or none is free. -/
theorem bmap_found (src : ℕ → Option UInt8) (n : ℕ) (hsb : sb.Ok) (hf : FileOk sb ip s)
    (hbn : off / BSIZE < MAXFILE) :
    ∃ a ip₁ s₁, s.bmap sb (off / BSIZE) ip = .ok (a, ip₁, s₁) ∧
      (a = 0 ∧ Looped sb src off n 0 0 ip ip₁ s s₁ ∨ Found sb off a ip ip₁ s s₁) := by
  obtain ⟨a, ip₁, s₁, heq, hadv, hc, hsize, hfull, ha, hnoted⟩ := bmap_spec hsb hf hbn
  refine ⟨a, ip₁, s₁, heq, ?_⟩
  have hmarks : Marks off 0 ip s s₁ := bmap_marks hsb hf heq
  by_cases h0 : a = 0
  swap
  · exact Or.inr ⟨hbn, hadv, hc, hsize, ha h0, h0, hnoted, hmarks⟩
  refine Or.inl ⟨h0, Nat.zero_le n, Wrote.nothing hadv hc, hsize, fun _ => Or.inl ⟨rfl, hfull h0, ?_⟩,
    fun i hi => absurd hi (Nat.not_lt_zero i), hnoted.clean, hmarks⟩
  by_contra hthere
  rw [bmap_there hbn hthere] at heq
  injection heq with heq
  injection heq with heq
  exact hthere (heq.trans h0)

theorem Found.isBmap (h : Found sb off a ip ip₁ s s₁) : ¬ sb.IsBmap a :=
  data_not_bmap (h.adv.file.owns.mem _ ⟨h.ne, slotOf (off / BSIZE), slotOf_lt h.lt, h.slot⟩).1

/-- Bytes copied to the block that has been found. -/
theorem Found.wrote {src : ℕ → UInt8} (h : Found sb off a ip ip₁ s s₁) (hsb : sb.Ok)
    (hk : off % BSIZE + k ≤ BSIZE)
    (hs₂ : s₂.blocks = Function.update s₁.blocks a ((s₁.blocks a).blit (off % BSIZE) k src)) :
    Wrote sb src off k ip₁ ip₁ s₁ s₂ :=
  wrote_chunk hsb h.adv.file h.lt (by
    rw [h.slot]
    exact h.ne) hk (by rw [h.slot, hs₂])

/-- The source cannot be read after `k` bytes. -/
theorem Found.unread (h : Found sb off a ip ip₁ s s₁) (hsb : sb.Ok) (hm : m = min n (BSIZE - off % BSIZE))
    (hk : k = accessible (fun i => (src i).isSome) m) (hkm : k ≠ m)
    (hs₂ : s₂ = s₁.setData a ((s₁.blocks a).blit (off % BSIZE) k fun i => (src i).getD 0)) :
    Looped sb src off n 0 k ip ip₁ s s₂ := by
  have hkle : k ≤ m := hk ▸ accessible_le
  have hmod : off % BSIZE < BSIZE := Nat.mod_lt _ (by decide)
  have hw : Wrote sb (fun i => (src i).getD 0) off k ip₁ ip₁ s₁ s₂ :=
    h.wrote hsb (by omega) (by rw [hs₂]; rfl)
  refine ⟨by omega, ?_, h.size, fun _ => Or.inr ⟨by omega, ?_, ?_⟩, fun i hi => ?_, ?_, ?_⟩
  · rw [Nat.zero_add]
    exact hw.after h.adv h.bytes
  · have hstop := accessible_stop (hk ▸ hkm : accessible (fun i => (src i).isSome) m ≠ m)
    rw [← hk] at hstop
    simpa using hstop
  · have hdiv : (off + k) / BSIZE = off / BSIZE := Paged.div_add (by omega)
    have hdm := Nat.div_mul_le_self off BSIZE
    rw [Nat.add_zero, hdiv]
    omega
  · exact accessible_lt (by rwa [← hk, ← Nat.zero_add k])
  · by_cases hk0 : k = 0
    · -- nothing has been copied to the block
      have hsame : s₂.blocks = s₁.blocks := by
        rw [hs₂, hk0, ByteStore.blit_zero]
        exact Function.update_eq_self a s₁.blocks
      have hquiet : Noted sb ∅ s₁ s₂ :=
        ⟨fun _ hx => by rwa [hs₂], fun x _ _ => by rw [hsame],
          fun x hx => Or.inl ((inUse_congr fun y _ => by rw [hsame]).mp hx)⟩
      exact (h.noted.trans hquiet).clean
    · rw [hs₂]
      refine h.noted.clean.trans ((Noted.setData h.isBmap).weaken ?_)
      rintro x rfl
      refine ⟨hk0, h.ne, ?_⟩
      have hslot := h.slot
      have hkept := hw.adv.grow.kept _ (slotOf_lt h.lt) (by
        rw [← Layout.slot, hslot]
        exact h.ne)
      rw [Nat.add_zero, ← hs₂]
      exact hkept.trans hslot
  · rw [hs₂]
    exact h.marks

/-- The block that has been found is logged. -/
theorem Found.logs (h : Found sb off a ip ip₁ s s₁) (hm0 : 0 < m) (hm : off % BSIZE + m ≤ BSIZE) :
    Marks off m ip₁ s₁ (s₁.log_write a data) := fun bn hbn h0 => by
  show _ ∈ a :: s₁.logged ↔ _
  rw [List.mem_cons, or_comm]
  refine or_congr_right ⟨fun heq => ⟨off, le_rfl, by omega, ?_⟩, ?_⟩
  · rw [← h.slot] at heq
    exact (slotOf_inj (h.adv.file.owns.inj _ (slotOf_lt hbn) _ (slotOf_lt h.lt) heq h0)).symm
  · rintro ⟨i, hlo, hhi, rfl⟩
    have hdiv : (off + (i - off)) / BSIZE = off / BSIZE := Paged.div_add (by omega)
    rw [Nat.add_sub_cancel' hlo] at hdiv
    rw [hdiv, h.slot]

/-- All bytes for the block are copied, and the loop goes on in the next block. -/
theorem Found.next (h : Found sb off a ip ip₁ s s₁) (hsb : sb.Ok) (hm : m = min n (BSIZE - off % BSIZE))
    (hm0 : 0 < m) (hmax : off + n ≤ MAXFILE * BSIZE) (hsrc : ∀ i < m, (src i).isSome)
    (hs₂ : s₂ = s₁.log_write a ((s₁.blocks a).blit (off % BSIZE) m fun i => (src i).getD 0))
    (hl : Looped sb (fun i => src (m + i)) (off + m) (n - m) w k ip₁ ip₂ s₂ s₃) :
    Looped sb src off n (m + w) k ip ip₂ s s₃ := by
  have hmod : off % BSIZE < BSIZE := Nat.mod_lt _ (by decide)
  have hle := hl.le
  have hchunk : Wrote sb (fun i => (src i).getD 0) off m ip₁ ip₁ s₁ s₂ :=
    h.wrote hsb (by omega) (by rw [hs₂]; rfl)
  have hw := hchunk.after h.adv h.bytes
  refine ⟨by omega, ?_, hl.size.trans h.size, fun hlt => ?_, fun i hi => ?_, ?_, ?_⟩
  · rw [Nat.add_assoc]
    exact hw.trans (by omega) hl.wrote
  · -- the next round is at the start of a block
    have hnext : (off + m) % BSIZE = 0 := by
      have hdm := Nat.div_add_mod off BSIZE
      have hm' : off + m = (off / BSIZE + 1) * BSIZE := by
        rw [Nat.add_mul, Nat.mul_comm, Nat.one_mul]
        omega
      rw [hm']
      exact Nat.mul_mod_left _ _
    refine (hl.stop (by omega)).imp (fun hno => ⟨hno.1, hno.2.full, ?_⟩) fun hun => ?_
    · by_contra hthere
      refine absurd hno.2.hole (hw.adv.slot_ne (Nat.div_lt_of_lt_mul ?_) ?_)
      · simp only [BSIZE] at *
        omega
      · rwa [Nat.add_assoc]
    · have hun_lt := hun.lt
      have hstart := hun.start
      have hnone := hun.none
      have hge : off + m ≤ (off + m + w + k) / BSIZE * BSIZE := by
        have hdm := Nat.div_add_mod (off + m) BSIZE
        have hmono : (off + m) / BSIZE * BSIZE ≤ (off + m + w + k) / BSIZE * BSIZE :=
          Nat.mul_le_mul_right _ (Nat.div_le_div_right (by omega))
        rw [Nat.mul_comm] at hdm
        omega
      refine ⟨by omega, ?_, ?_⟩
      · simpa only [Nat.add_assoc] using hnone
      · rw [← Nat.add_assoc]
        omega
  · by_cases him : i < m
    · exact hsrc i him
    · have hsome := hl.some (i - m) (by omega)
      rwa [show m + (i - m) = i by omega] at hsome
  · rw [← Nat.add_assoc]
    have hlog : Noted sb ∅ s₁ s₂ := hs₂ ▸ Noted.log_write h.isBmap
    exact (h.noted.trans hlog).clean.trans hl.noted
  · have hlog : Marks off m ip₁ s₁ s₂ := hs₂ ▸ h.logs hm0 (by omega)
    have hround := h.marks.trans h.adv hlog
    rw [Nat.zero_add] at hround
    exact hround.trans hw.adv hl.marks

end

/-- **The loop of `writei`**: it stops early only if no block is free or at a byte that it cannot read,
having copied `k` bytes more. -/
theorem writeLoop_spec {src : ℕ → Option UInt8} (hsb : sb.Ok) :
    ∀ (fuel tot off : ℕ) (ip : inode) (s : Fs), FileOk sb ip s → tot ≤ n → n - tot ≤ fuel →
      off + (n - tot) ≤ MAXFILE * BSIZE →
      ∃ w k ip' s', writeLoop sb src n fuel tot off ip s = .ok (tot + w, off + w, ip', s') ∧
        Looped sb (fun i => src (tot + i)) off (n - tot) w k ip ip' s s' := by
  intro fuel
  induction fuel with
  | zero =>
    intro tot off ip s hf htot hfuel hmax
    obtain rfl : tot = n := by omega
    rw [Nat.sub_self]
    exact ⟨0, 0, ip, s, rfl, Looped.nothing hf⟩
  | succ fuel ih =>
    intro tot off ip s hf htot hfuel hmax
    rw [writeLoop]
    by_cases hlt : tot < n
    swap
    · obtain rfl : tot = n := by omega
      rw [if_neg hlt, Nat.sub_self]
      exact ⟨0, 0, ip, s, rfl, Looped.nothing hf⟩
    have hbn : off / BSIZE < MAXFILE := Nat.div_lt_of_lt_mul (by simp only [BSIZE] at *; omega)
    obtain ⟨a, ip₁, s₁, heq, ⟨rfl, hno⟩ | hfound⟩ := 
      bmap_found (fun i => src (tot + i)) (n - tot) hsb hf hbn
    · rw [if_pos hlt, heq]
      exact ⟨0, 0, ip₁, s₁, rfl, hno⟩
    rw [if_pos hlt, heq, ok_bind]
    dsimp only
    rw [if_neg hfound.ne, either_copyin]
    generalize hm : min (n - tot) (BSIZE - off % BSIZE) = m
    generalize hk : accessible (fun i => (src (tot + i)).isSome) m = k
    dsimp only
    have hmod : off % BSIZE < BSIZE := Nat.mod_lt _ (by decide)
    by_cases hkm : k = m
    swap
    · rw [decide_eq_false hkm, if_neg Bool.false_ne_true]
      exact ⟨0, k, ip₁, _, rfl, hfound.unread hsb hm.symm hk.symm hkm rfl⟩
    rw [decide_eq_true hkm, if_pos rfl, hkm]
    rw [hkm] at hk
    have hread : ∀ i < m, (src (tot + i)).isSome := fun i hi => accessible_lt (hk.symm ▸ hi)
    generalize hs₂ : s₁.log_write a _ = s₂
    have hw : Wrote sb (fun i => (src (tot + i)).getD 0) off m ip₁ ip₁ s₁ s₂ :=
      hfound.wrote hsb (by omega) (by rw [← hs₂]; rfl)
    obtain ⟨w, e, ip₂, s₃, heq₂, hl⟩ :=
      ih (tot + m) (off + m) ip₁ s₂ hw.adv.file (by omega) (by omega) (by omega)
    rw [heq₂, Nat.add_assoc, Nat.add_assoc]
    refine ⟨m + w, e, ip₂, s₃, rfl, hfound.next hsb hm.symm (by omega) (by omega) hread hs₂.symm ?_⟩
    rw [Nat.sub_sub]
    simpa only [Nat.add_assoc] using hl

/-- A new size. -/
theorem Advance.setSize {v : UInt32} (hf : FileOk sb ip s) (hv : v.toNat ≤ MAXFILE * BSIZE) :
    Advance sb ip { ip with d := { ip.d with size := v } } s s where
  file := { owns := ⟨hf.owns.inj, hf.owns.mem⟩, reserved := hf.reserved, size := hv, inum := hf.inum }
  grow := hf.owns.grow (fun _ _ => rfl) fun _ _ _ => rfl
  fields := ⟨_, _, rfl⟩
  others := fun _ _ _ _ => rfl
  dinodes := fun _ _ => rfl

/-- `iupdate` changes nothing but the disk inode. -/
theorem iupdate_spec (hsb : sb.Ok) (hf : FileOk sb ip s) :
    Advance sb ip ip s (s.iupdate sb ip) ∧
      SameBytes s.blocks (s.iupdate sb ip).blocks ip.d ip.d ∧
      dinode.load ((s.iupdate sb ip).blocks (iblock sb ip)) (64 * (ip.inum.toNat % IPB)) = ip.d := by
  have hother : ∀ x, x ≠ iblock sb ip → (s.iupdate sb ip).blocks x = s.blocks x := fun x hx =>
    Function.update_of_ne hx _ _
  have hself : (s.iupdate sb ip).blocks (iblock sb ip) =
      ip.d.store (s.blocks (iblock sb ip)) (64 * (ip.inum.toNat % IPB)) := Function.update_self _ _ _
  have hnd := not_data_iblock hsb hf
  have hbmap : ∀ y, sb.IsBmap y → (s.iupdate sb ip).blocks y = s.blocks y := fun y hy =>
    hother y fun h => not_bmap_iblock hsb hf (h ▸ hy)
  have hinUse : (s.iupdate sb ip).InUse sb = s.InUse sb := funext fun x => propext (inUse_congr hbmap)
  have hdata : ∀ x, s.InUse sb x → (s.iupdate sb ip).blocks x = s.blocks x := fun x hx =>
    hother x fun h => hnd (h ▸ hx.1)
  have href : ∀ r < NREF, blockRef (s.iupdate sb ip).blocks ip.d r = blockRef s.blocks ip.d r :=
    fun r hr => blockRef_congr (fun _ _ => rfl)
      (fun h0 j _ => by rw [hdata _ (hf.owns.mem _ (Holds.of_indirect h0))]) hr
  have ho := hf.owns.congr href
  have hg := hf.owns.grow href fun x hx _ => hdata x hx
  refine ⟨⟨⟨?_, ?_, hf.size, hf.inum⟩, ?_, ⟨_, _, rfl⟩, fun x _ _ hx => hother x hx, ?_⟩, ?_, ?_⟩
  · rwa [hinUse]
  · exact fun x hx hnot => (used_congr hbmap hx).mpr (hf.reserved x hx hnot)
  · rwa [hinUse]
  · intro j hj
    rw [hself, store_dinode_out (by omega)]
  · refine sameBytes_of_pages fun bn hbn j _ => ?_
    unfold filePage Layout.slot
    rw [href _ (slotOf_lt hbn)]
    split
    · rfl
    · rw [hdata _ (hf.owns.mem _ (Holds.of_ref (slotOf_lt hbn) ‹_›))]
  · rw [hself, load_store_dinode]

/-- **`writei`** stores what it says it has written, and `k` bytes more if it has run into a byte that it
cannot read. -/
theorem writei_spec (src : ℕ → Option UInt8) (hsb : sb.Ok) (hf : FileOk sb ip s)
    (hoff : off ≤ ip.d.size.toNat) (hn : off + n ≤ MAXFILE * BSIZE) :
    ∃ (tot k : ℕ) (ip' : inode) (s' : Fs), s.writei sb src off n ip = .ok (tot, ip', s') ∧
      tot + k ≤ n ∧ Wrote sb (fun i => (src i).getD 0) off (tot + k) ip ip' s s' ∧
      ip'.d.size.toNat = max ip.d.size.toNat (off + tot) ∧
      (tot < n → (k = 0 ∧ NoBlock sb off tot ip s s') ∨ Unread src off n tot k) ∧
      dinode.load (s'.blocks (iblock sb ip)) (64 * (ip.inum.toNat % IPB)) = ip'.d ∧
      (∀ i < tot + k, (src i).isSome) ∧ Noted sb (s'.Dirty ip' (off + tot) k) s s' ∧
      Marks off tot ip s s' := by
  have hmod : (off + n) % 2 ^ 32 = off + n := Nat.mod_eq_of_lt (by
    simp only [MAXFILE, NDIRECT, NINDIRECT, BSIZE] at hn
    omega)
  obtain ⟨w, k, ip1, s1, heq, hloop⟩ :=
    writeLoop_spec (n := n) hsb n 0 off ip s hf (Nat.zero_le n) (by omega) (by omega)
  simp only [Nat.zero_add, Nat.sub_zero] at heq hloop
  obtain ⟨hle, hwrote, hsize, hstop, hread, hnoted, hmarks⟩ := hloop
  have hw : s.writei sb src off n ip = .ok (w,
      (if ip1.d.size.toNat < off + w
        then { ip1 with d := { ip1.d with size := UInt32.ofNat (off + w) } } else ip1),
      s1.iupdate sb (if ip1.d.size.toNat < off + w
        then { ip1 with d := { ip1.d with size := UInt32.ofNat (off + w) } } else ip1)) := by
    rw [writei, if_neg (by omega), if_neg (by omega), heq]
    rfl
  rw [hw]
  generalize hip2 : (if ip1.d.size.toNat < off + w
    then { ip1 with d := { ip1.d with size := UInt32.ofNat (off + w) } } else ip1 : inode) = ip2
  have hv : (UInt32.ofNat (off + w)).toNat = off + w := UInt32.toNat_ofNat_of_lt' (by
    simp only [MAXFILE, NDIRECT, NINDIRECT, BSIZE, UInt32.size] at *
    omega)
  have hadv2 : Advance sb ip1 ip2 s1 s1 ∧ SameBytes s1.blocks s1.blocks ip1.d ip2.d ∧
      ip2.d.size.toNat = max ip.d.size.toNat (off + w) := by
    rw [← hip2]
    by_cases hlt : ip1.d.size.toNat < off + w
    · rw [if_pos hlt]
      refine ⟨Advance.setSize hwrote.adv.file (by rw [hv]; omega), fun _ _ => rfl, ?_⟩
      rw [hsize] at hlt
      show (UInt32.ofNat (off + w)).toNat = _
      omega
    · rw [if_neg hlt]
      refine ⟨Advance.refl hwrote.adv.file, fun _ _ => rfl, ?_⟩
      rw [hsize] at hlt ⊢
      omega
  obtain ⟨hadv2, hc2, hsize2⟩ := hadv2
  obtain ⟨hadv3, hc3, hload⟩ := iupdate_spec hsb hadv2.file
  have hblock : iblock sb ip2 = iblock sb ip := by rw [hadv2.iblock, hwrote.adv.iblock]
  have hinum : ip2.inum = ip.inum := by rw [hadv2.inum, hwrote.adv.inum]
  rw [hblock, hinum] at hload
  refine ⟨w, k, ip2, _, rfl, hle, hwrote.before (by omega) (hadv2.trans hadv3) (hc2.trans hc3), hsize2,
    fun h => (hstop h).imp (fun h => ⟨h.1, h.2.full.advance (hadv2.trans hadv3), h.2.hole⟩) id, hload,
    hread, ?_, ?_⟩
  · have hnoted3 : Noted sb ∅ s1 (s1.iupdate sb ip2) := Noted.log_write (not_bmap_iblock hsb hadv2.file)
    refine (hnoted.trans hnoted3.clean).weaken ?_
    by_cases hk : k = 0
    · exact fun x hx => absurd hk hx.1
    · exact (hadv2.trans hadv3).dirty (Nat.div_lt_of_lt_mul (by simp only [BSIZE] at *; omega))
  · intro bn hbn h0
    have hdata := (hf.owns.mem _ (Holds.of_slot hbn h0)).1
    rw [← hmarks bn hbn h0]
    show _ ∈ iblock sb ip2 :: s1.logged ↔ _
    rw [List.mem_cons, or_iff_right]
    rw [hblock]
    exact fun h => not_data_iblock hsb hf (h ▸ hdata)

/-- `writei` outside the file does nothing. -/
theorem writei_out {src : ℕ → Option UInt8} (hn : n < 2 ^ 32) (hoff : off < 2 ^ 32)
    (h : ip.d.size.toNat < off ∨ MAXFILE * BSIZE < off + n) :
    s.writei sb src off n ip = .ok (-1, ip, s) := by
  rw [writei]
  by_cases h1 : ip.d.size.toNat < off ∨ (off + n) % 2 ^ 32 < off
  · rw [if_pos h1]
  · rw [if_neg h1, if_pos (by omega)]

/-! ## `readi` -/

/-- There is a block for each of the first `n` bytes of the file. -/
def NoHole (s : Fs) (ip : inode) (n : ℕ) : Prop := ∀ i < n, Layout.slot s.blocks ip.d (i / BSIZE) ≠ 0

/-- The bytes of the file that are copied out of one block. -/
theorem read_chunk {writable : ℕ → Bool} {dst : ByteStore} {tot m : ℕ} (hm : m ≤ BSIZE - off % BSIZE)
    (h0 : Layout.slot s.blocks ip.d (off / BSIZE) ≠ 0) :
    either_copyout dst writable tot
        (fun i => s.blocks (Layout.slot s.blocks ip.d (off / BSIZE)) (off % BSIZE + i)) m =
      (decide (accessible (fun i => writable (tot + i)) m = m),
        dst.blit tot (accessible (fun i => writable (tot + i)) m) fun i => s.bytes ip (off + i)) := by
  have hmod : off % BSIZE < BSIZE := Nat.mod_lt _ (by decide)
  rw [either_copyout]
  congr 1
  refine ByteStore.blit_congr fun i hi => ?_
  have hle : accessible (fun i => writable (tot + i)) m ≤ m := accessible_le
  rw [bytes, content, Paged.flat_add (by omega), filePage, if_neg h0]

/-- **The loop of `readi`**: it stops early only if it needs a block and none is free, or at a place that
cannot be written. -/
theorem readLoop_spec {writable : ℕ → Bool} (hsb : sb.Ok) :
    ∀ (fuel tot off : ℕ) (dst : ByteStore) (ip : inode) (s : Fs), FileOk sb ip s → tot ≤ n →
      n - tot ≤ fuel → off + (n - tot) ≤ MAXFILE * BSIZE →
      ∃ (r : ℤ) (w : ℕ) (ip' : inode) (s' : Fs),
        readLoop sb writable n fuel tot off dst ip s =
          .ok (r, dst.blit tot w (fun i => s.bytes ip (off + i)), ip', s') ∧
        tot + w ≤ n ∧ Advance sb ip ip' s s' ∧ SameBytes s.blocks s'.blocks ip.d ip'.d ∧
        ip'.d.size = ip.d.size ∧
        ((r = (tot + w : ℕ) ∧ (tot + w < n → s'.Full sb)) ∨
          r = -1 ∧ tot + w < n ∧ writable (tot + w) = false) := by
  intro fuel
  induction fuel with
  | zero =>
    intro tot off dst ip s hf htot hfuel hmax
    obtain rfl : tot = n := by omega
    exact ⟨tot, 0, ip, s, by rw [ByteStore.blit_zero, readLoop], le_rfl, Advance.refl hf, fun _ _ => rfl,
      rfl, Or.inl ⟨rfl, fun h => by omega⟩⟩
  | succ fuel ih =>
    intro tot off dst ip s hf htot hfuel hmax
    rw [readLoop]
    by_cases hlt : tot < n
    swap
    · obtain rfl : tot = n := by omega
      rw [if_neg hlt]
      exact ⟨tot, 0, ip, s, by rw [ByteStore.blit_zero], le_rfl, Advance.refl hf, fun _ _ => rfl, rfl,
        Or.inl ⟨rfl, fun h => by omega⟩⟩
    rw [if_pos hlt]
    have hbn : off / BSIZE < MAXFILE := Nat.div_lt_of_lt_mul (by simp only [BSIZE] at *; omega)
    obtain ⟨a, ip1, s1, heq, hadv, hc, hsize, hfull, ha, -⟩ := bmap_spec hsb hf hbn
    rw [heq, ok_bind]
    dsimp only
    by_cases h0 : a = 0
    · rw [if_pos h0]
      exact ⟨tot, 0, ip1, s1, by rw [ByteStore.blit_zero], by omega, hadv, hc, hsize,
        Or.inl ⟨rfl, fun _ => hfull h0⟩⟩
    rw [if_neg h0]
    obtain rfl := ha h0
    have hmod : off % BSIZE < BSIZE := Nat.mod_lt _ (by decide)
    generalize hm : min (n - tot) (BSIZE - off % BSIZE) = m
    have hm0 : 0 < m := by omega
    rw [read_chunk (by omega) h0]
    generalize hk : accessible (fun i => writable (tot + i)) m = k
    have hkm : k ≤ m := hk ▸ accessible_le
    have hbytes : (dst.blit tot k fun i => s1.bytes ip1 (off + i)) =
        dst.blit tot k fun i => s.bytes ip (off + i) :=
      ByteStore.blit_congr fun i hi => hc _ (by omega)
    rw [hbytes]
    dsimp only
    by_cases hkeq : k = m
    · rw [decide_eq_true hkeq, if_pos rfl]
      obtain ⟨r, w, ip2, s2, heq2, hle, hadv2, hc2, hsize2, hr⟩ :=
        ih (tot + m) (off + m) (dst.blit tot k fun i => s.bytes ip (off + i)) ip1 s1 hadv.file (by omega)
          (by omega) (by omega)
      have hcopy : (dst.blit tot k fun i => s.bytes ip (off + i)).blit (tot + m) w
          (fun i => s1.bytes ip1 (off + m + i)) = dst.blit tot (m + w) fun i => s.bytes ip (off + i) := by
        rw [hkeq, ← Paged.blit_blit]
        refine ByteStore.blit_congr fun i hi => ?_
        rw [← Nat.add_assoc]
        exact hc _ (by omega)
      rw [heq2, hcopy]
      refine ⟨r, m + w, ip2, s2, rfl, by omega, hadv.trans hadv2, hc.trans hc2, by rw [hsize2, hsize], ?_⟩
      rwa [← Nat.add_assoc]
    · rw [decide_eq_false hkeq, if_neg Bool.false_ne_true]
      have hstop := accessible_stop (by rwa [hk] : accessible (fun i => writable (tot + i)) m ≠ m)
      rw [hk] at hstop
      exact ⟨-1, k, ip1, s1, rfl, by omega, hadv, hc, hsize, Or.inr ⟨rfl, by omega, hstop⟩⟩

/-- The arguments of the loop of `readi`. -/
theorem readi_loop {writable : ℕ → Bool} {dst : ByteStore} (hoff : off ≤ ip.d.size.toNat)
    (hn : off + n < 2 ^ 32) :
    s.readi sb writable dst off n ip = readLoop sb writable (min n (ip.d.size.toNat - off))
      (min n (ip.d.size.toNat - off)) 0 off dst ip s := by
  have hmod : (off + n) % 2 ^ 32 = off + n := Nat.mod_eq_of_lt hn
  have hmin : (if ip.d.size.toNat < off + n then ip.d.size.toNat - off else n) =
      min n (ip.d.size.toNat - off) := by
    split <;> omega
  rw [readi]
  dsimp only
  rw [hmod, if_neg (by omega), hmin]

/-- **`readi`** delivers the bytes of the file. -/
theorem readi_spec {writable : ℕ → Bool} {dst : ByteStore} (hsb : sb.Ok) (hf : FileOk sb ip s)
    (hoff : off ≤ ip.d.size.toNat) (hn : off + n < 2 ^ 32) :
    ∃ (r : ℤ) (w : ℕ) (ip' : inode) (s' : Fs),
      s.readi sb writable dst off n ip =
        .ok (r, dst.blit 0 w (fun i => s.bytes ip (off + i)), ip', s') ∧
      w ≤ min n (ip.d.size.toNat - off) ∧ Advance sb ip ip' s s' ∧
      SameBytes s.blocks s'.blocks ip.d ip'.d ∧ ip'.d.size = ip.d.size ∧
      ((r = w ∧ (w < min n (ip.d.size.toNat - off) → s'.Full sb)) ∨
        r = -1 ∧ w < min n (ip.d.size.toNat - off) ∧ writable w = false) := by
  have hsize := hf.size
  rw [readi_loop hoff hn]
  generalize hN : min n (ip.d.size.toNat - off) = N
  obtain ⟨r, w, ip', s', heq, hle, hadv, hc, hsz, hr⟩ :=
    readLoop_spec (n := N) hsb N 0 off dst ip s hf (Nat.zero_le N) (by omega)
      (by omega)
  simp only [Nat.zero_add] at hr hle
  exact ⟨r, w, ip', s', heq, hle, hadv, hc, hsz, hr⟩

/-- The loop of `readi` where the file has no holes: it changes nothing. -/
theorem readLoop_there (sb : superblock) (writable : ℕ → Bool) :
    ∀ (fuel tot off : ℕ) (dst : ByteStore), tot ≤ n → n - tot ≤ fuel →
      off + (n - tot) ≤ MAXFILE * BSIZE → s.NoHole ip (off + (n - tot)) →
      ∃ (r : ℤ) (w : ℕ), readLoop sb writable n fuel tot off dst ip s =
          .ok (r, dst.blit tot w (fun i => s.bytes ip (off + i)), ip, s) ∧
        ((r = n ∧ tot + w = n) ∨ (r = -1 ∧ tot + w < n ∧ writable (tot + w) = false)) := by
  intro fuel
  induction fuel with
  | zero =>
    intro tot off dst htot hfuel _ _
    obtain rfl : tot = n := by omega
    exact ⟨tot, 0, by rw [ByteStore.blit_zero, readLoop], Or.inl ⟨rfl, rfl⟩⟩
  | succ fuel ih =>
    intro tot off dst htot hfuel hmax hno
    rw [readLoop]
    by_cases hlt : tot < n
    swap
    · obtain rfl : tot = n := by omega
      rw [if_neg hlt]
      exact ⟨tot, 0, by rw [ByteStore.blit_zero], Or.inl ⟨rfl, rfl⟩⟩
    have hbn : off / BSIZE < MAXFILE := Nat.div_lt_of_lt_mul (by simp only [BSIZE] at *; omega)
    have h0 : Layout.slot s.blocks ip.d (off / BSIZE) ≠ 0 := hno off (by omega)
    have hmod : off % BSIZE < BSIZE := Nat.mod_lt _ (by decide)
    rw [if_pos hlt, bmap_there hbn h0, ok_bind]
    dsimp only
    rw [if_neg h0]
    generalize hm : min (n - tot) (BSIZE - off % BSIZE) = m
    rw [read_chunk (by omega) h0]
    generalize hk : accessible (fun i => writable (tot + i)) m = k
    have hkm : k ≤ m := hk ▸ accessible_le
    dsimp only
    by_cases hkeq : k = m
    · rw [decide_eq_true hkeq, if_pos rfl, hkeq]
      obtain ⟨r, w, heq, hr⟩ := ih (tot + m) (off + m) (dst.blit tot m fun i => s.bytes ip (off + i))
        (by omega) (by omega) (by omega) fun i hi => hno i (by omega)
      have hcopy : (dst.blit tot m fun i => s.bytes ip (off + i)).blit (tot + m) w
          (fun i => s.bytes ip (off + m + i)) = dst.blit tot (m + w) fun i => s.bytes ip (off + i) := by
        rw [← Paged.blit_blit]
        exact ByteStore.blit_congr fun i _ => by rw [← Nat.add_assoc]
      rw [heq, hcopy]
      exact ⟨r, m + w, rfl, by rwa [← Nat.add_assoc]⟩
    · rw [decide_eq_false hkeq, if_neg Bool.false_ne_true]
      have hstop := accessible_stop (by rwa [hk] : accessible (fun i => writable (tot + i)) m ≠ m)
      rw [hk] at hstop
      exact ⟨-1, k, rfl, Or.inr ⟨rfl, by omega, hstop⟩⟩

/-- **`readi` of a file without holes** delivers all bytes that are there, and changes nothing. -/
theorem readi_there (sb : superblock) (writable : ℕ → Bool) (dst : ByteStore) (hno : s.NoHole ip ip.d.size.toNat)
    (hmax : ip.d.size.toNat ≤ MAXFILE * BSIZE) (hoff : off ≤ ip.d.size.toNat) (hn : off + n < 2 ^ 32)
    (hw : ∀ k < n, writable k = true) :
    s.readi sb writable dst off n ip = .ok ((min n (ip.d.size.toNat - off) : ℕ),
      dst.blit 0 (min n (ip.d.size.toNat - off)) (fun i => s.bytes ip (off + i)), ip, s) := by
  rw [readi_loop hoff hn]
  generalize hN : min n (ip.d.size.toNat - off) = N
  obtain ⟨r, w, heq, hr⟩ := readLoop_there (n := N) sb writable N 0 off dst (Nat.zero_le N)
    (by omega) (by omega) fun i hi => hno i (by omega)
  rw [heq]
  rcases hr with ⟨rfl, hwN⟩ | ⟨-, hlt, hstop⟩
  · obtain rfl : w = N := by omega
    rfl
  · rw [hw _ (by omega)] at hstop
    cases hstop

/-- `readi` outside the file does nothing. -/
theorem readi_out {writable : ℕ → Bool} {dst : ByteStore} (hn : n < 2 ^ 32) (hoff : off < 2 ^ 32)
    (h : ip.d.size.toNat < off ∨ 2 ^ 32 ≤ off + n) :
    s.readi sb writable dst off n ip = .ok (0, dst, ip, s) := by
  rw [readi]
  dsimp only
  rw [if_pos (by omega)]

/-! ## Free blocks -/

/-- The number of free blocks. -/
def free (sb : superblock) (s : Fs) : ℕ := ((Finset.range sb.size).filter fun b => ¬ s.Used sb b).card

theorem Full.free (h : s.Full sb) : s.free sb = 0 := by
  refine Finset.card_eq_zero.mpr (Finset.filter_eq_empty_iff.mpr fun b hb => ?_)
  exact not_not_intro (h b (Finset.mem_range.mp hb))

theorem Alloc.free_succ (h : Alloc sb b s s') : s'.free sb + 1 = s.free sb := by
  have hb : b ∈ (Finset.range sb.size).filter fun b => ¬ s.Used sb b :=
    Finset.mem_filter.mpr ⟨Finset.mem_range.mpr h.data.2, h.free⟩
  have herase : ((Finset.range sb.size).filter fun b => ¬ s'.Used sb b) =
      ((Finset.range sb.size).filter fun b => ¬ s.Used sb b).erase b := by
    ext x
    rw [Finset.mem_erase, Finset.mem_filter, Finset.mem_filter, Finset.mem_range]
    constructor
    · rintro ⟨hx, hu⟩
      rw [h.used x hx, not_or] at hu
      exact ⟨hu.2, hx, hu.1⟩
    · rintro ⟨hne, hx, hu⟩
      refine ⟨hx, ?_⟩
      rw [h.used x hx]
      exact not_or_intro hu hne
  rw [Fs.free, herase, Finset.card_erase_add_one hb, Fs.free]

/-- The blocks that must be allocated to have block `bn` of the file. -/
def missing (s : Fs) (ip : inode) (bn : ℕ) : ℕ :=
  if Layout.slot s.blocks ip.d bn ≠ 0 then 0
  else if bn < NDIRECT ∨ ip.d.addr NDIRECT ≠ 0 then 1
  else 2

theorem balloc_cases {a : ℕ} (hres : s.Reserved sb) (h : s.balloc sb = (a, s')) :
    (a = 0 ∧ s' = s ∧ s.free sb = 0) ∨ (a ≠ 0 ∧ Alloc sb a s s') := by
  rcases balloc_spec hres with ⟨heq, hfull⟩ | ⟨b, s₁, heq, ha⟩
  · rw [heq] at h
    injection h with h1 h2
    exact Or.inl ⟨h1.symm, h2.symm, hfull.free⟩
  · rw [heq] at h
    injection h with h1 h2
    subst h1 h2
    exact Or.inr ⟨ha.ne_zero, ha⟩

/-- **`bmap` succeeds if and only if there are enough free blocks.** -/
theorem bmap_ne_zero {a : ℕ} (hf : FileOk sb ip s) (hbn : bn < MAXFILE)
    (h : s.bmap sb bn ip = .ok (a, ip', s')) : a ≠ 0 ↔ s.missing ip bn ≤ s.free sb := by
  by_cases h0 : Layout.slot s.blocks ip.d bn = 0
  swap
  · rw [bmap_there hbn h0] at h
    injection h with h
    injection h with ha
    rw [missing, if_pos h0, ← ha]
    exact ⟨fun _ => Nat.zero_le _, fun _ => h0⟩
  rw [missing, if_neg (not_not_intro h0)]
  generalize hb : s.balloc sb = p
  obtain ⟨b, s₁⟩ := p
  have hcases := balloc_cases hf.reserved hb
  by_cases hdir : bn < NDIRECT
  · rw [slot_direct hdir] at h0
    rw [if_pos (Or.inl hdir)]
    rw [bmap, if_pos hdir, blockAt] at h
    dsimp only at h
    rw [if_pos h0, hb] at h
    dsimp only at h
    rcases hcases with ⟨rfl, -, hfree⟩ | ⟨hb0, ha⟩
    · rw [if_pos rfl] at h
      injection h with h
      injection h with h
      omega
    · rw [if_neg hb0] at h
      injection h with h
      injection h with h
      have := ha.free_succ
      omega
  obtain ⟨k, rfl⟩ : ∃ k, bn = NDIRECT + k := ⟨bn - NDIRECT, by omega⟩
  have hk : k < NINDIRECT := by
    simp only [MAXFILE, NINDIRECT] at *
    omega
  rw [bmap, if_neg hdir, blockAt] at h
  dsimp only at h
  rw [Nat.add_sub_cancel_left, if_pos hk] at h
  by_cases hind : ip.d.addr NDIRECT = 0
  · -- the indirect block is missing too
    rw [if_neg (by omega)]
    rw [if_pos hind, hb] at h
    dsimp only at h
    rcases hcases with ⟨rfl, rfl, hfree⟩ | ⟨hb0, ha⟩
    · rw [if_pos rfl] at h
      dsimp only at h
      rw [if_pos rfl] at h
      injection h with h
      injection h with h
      omega
    have hload : (s₁.blocks b).load (4 * k) 4 = 0 := ByteStore.load_zero fun i hi => ha.zero _ (by
      simp only [BSIZE, NINDIRECT] at *
      omega)
    have hfree := ha.free_succ
    rw [if_neg hb0] at h
    dsimp only at h
    rw [if_neg hb0, if_pos hload] at h
    generalize hb₂ : s₁.balloc sb = p at h
    obtain ⟨b₂, s₂⟩ := p
    dsimp only at h
    rcases balloc_cases (ha.reserved hf.reserved) hb₂ with ⟨rfl, -, hfree₂⟩ | ⟨hb₂0, ha₂⟩
    · rw [if_pos rfl] at h
      injection h with h
      injection h with h
      omega
    · have := ha₂.free_succ
      rw [if_neg hb₂0] at h
      injection h with h
      injection h with h
      omega
  · rw [slot_indirect hind] at h0
    rw [if_pos (Or.inr hind)]
    rw [if_neg hind] at h
    dsimp only at h
    rw [if_neg hind, if_pos h0, hb] at h
    dsimp only at h
    rcases hcases with ⟨rfl, -, hfree⟩ | ⟨hb0, ha⟩
    · rw [if_pos rfl] at h
      injection h with h
      injection h with h
      omega
    · rw [if_neg hb0] at h
      injection h with h
      injection h with h
      have := ha.free_succ
      omega

/-- A write within one block is made in full or not at all. -/
theorem writei_one {src : ℕ → UInt8} {a : ℕ} {ip₁ : inode} {s₁ : Fs} (hn : 0 < n)
    (hfit : off % BSIZE + n ≤ BSIZE) (hoff : off ≤ ip.d.size.toNat) (hmax : off + n ≤ MAXFILE * BSIZE)
    (hb : s.bmap sb (off / BSIZE) ip = .ok (a, ip₁, s₁)) :
    ∃ ip' s', s.writei sb (fun i => some (src i)) off n ip =
      .ok (((if a = 0 then 0 else n : ℕ) : ℤ), ip', s') := by
  have hmod : (off + n) % 2 ^ 32 = off + n := Nat.mod_eq_of_lt (by
    simp only [MAXFILE, NDIRECT, NINDIRECT, BSIZE] at hmax
    omega)
  obtain ⟨n', rfl⟩ : ∃ n', n = n' + 1 := ⟨n - 1, by omega⟩
  have hmin : min (n' + 1 - 0) (BSIZE - off % BSIZE) = n' + 1 := by omega
  have hcopy : ∀ data pos, either_copyin data pos (fun i => (fun i => some (src i)) (0 + i)) (n' + 1) =
      (true, data.blit pos (n' + 1) fun i => src (0 + i)) := by
    intro data pos
    have hacc : accessible (fun i => ((fun i => some (src i)) (0 + i)).isSome) (n' + 1) = n' + 1 :=
      accessible_eq fun i _ => rfl
    rw [either_copyin, hacc]
    simp
  have hdone : ∀ fuel off ip s, writeLoop sb (fun i => some (src i)) (n' + 1) fuel (0 + (n' + 1)) off ip s =
      .ok (n' + 1, off, ip, s) := by
    intro fuel off ip s
    cases fuel with
    | zero => rw [writeLoop, Nat.zero_add]
    | succ fuel => rw [writeLoop, if_neg (by omega), Nat.zero_add]
  rw [writei, if_neg (by omega), if_neg (by omega), writeLoop, if_pos (Nat.succ_pos _), hb, ok_bind]
  dsimp only
  by_cases h0 : a = 0
  · rw [if_pos h0, if_pos h0]
    exact ⟨_, _, rfl⟩
  · rw [if_neg h0, if_neg h0, hmin, hcopy]
    dsimp only
    rw [if_pos rfl, hdone]
    exact ⟨_, _, rfl⟩

/-! ## Other processes -/

/-- What other processes do while the inode is not locked: they leave the blocks of the file alone and
keep the metadata reserved. -/
structure Undisturbed (sb : superblock) (ip : inode) (s s' : Fs) : Prop where
  blocks : ∀ b, Holds s.blocks ip.d b → s'.blocks b = s.blocks b
  used : ∀ b, Holds s.blocks ip.d b → s'.Used sb b
  reserved : s'.Reserved sb

/-- What others do leaves the file as it is. -/
theorem Undisturbed.file (hu : Undisturbed sb ip s s') (hf : FileOk sb ip s) :
    FileOk sb ip s' ∧ SameBytes s.blocks s'.blocks ip.d ip.d ∧
      ∀ bn < MAXFILE, Layout.slot s'.blocks ip.d bn = Layout.slot s.blocks ip.d bn := by
  have href : ∀ r < NREF, blockRef s'.blocks ip.d r = blockRef s.blocks ip.d r := fun r hr =>
    blockRef_congr (fun _ _ => rfl) (fun h0 j _ => by rw [hu.blocks _ (Holds.of_indirect h0)]) hr
  have hslot : ∀ bn < MAXFILE, Layout.slot s'.blocks ip.d bn = Layout.slot s.blocks ip.d bn := fun bn hbn =>
    href _ (slotOf_lt hbn)
  refine ⟨⟨⟨(hf.owns.congr href).inj, fun x hx => ?_⟩, hu.reserved, hf.size, hf.inum⟩, ?_, hslot⟩
  · have hx := (holds_congr href).mp hx
    exact ⟨(hf.owns.mem x hx).1, hu.used x hx⟩
  · refine sameBytes_of_pages fun bn hbn j _ => ?_
    unfold filePage
    rw [hslot bn hbn]
    split
    · rfl
    · rw [hu.blocks _ (Holds.of_slot hbn ‹_›)]

/-! ## An empty disk -/

theorem mkfsSb_ok : mkfsSb.Ok := ⟨by decide, by decide⟩

/-- A disk with nothing but metadata. -/
def empty : Fs :=
  { blocks := fun b i => if b = 45 then (if i < 5 then 255 else if i = 5 then 63 else 0) else 0
    logged := [] }

/-- An inode without blocks. -/
def emptyInode (inum : UInt32) (type : Int16) : inode :=
  { dev := 1, inum := inum, ref := 1, lock := none, valid := true,
    d := { dinode.zero with type := type, nlink := 1 } }

theorem emptyInode_holds {inum : UInt32} {type : Int16} {B : ℕ → Block} :
    ¬ Holds B (emptyInode inum type).d x := by
  rintro ⟨h0, r, -, rfl⟩
  have haddr : ∀ i, (emptyInode inum type).d.addr i = 0 := by
    intro i
    unfold dinode.addr
    split <;> rfl
  refine h0 ?_
  rw [blockRef, haddr, haddr, if_pos rfl, ite_self]

theorem emptyInode_ok {inum : UInt32} {type : Int16} (h : inum.toNat < mkfsSb.ninodes) :
    FileOk mkfsSb (emptyInode inum type) empty := by
  refine ⟨⟨fun r hr r' _ _ h0 => absurd (Holds.of_ref hr h0) emptyInode_holds, fun x hx => ?_⟩, ?_,
    Nat.zero_le _, h⟩
  · exact absurd hx emptyInode_holds
  · have hbits : ∀ b < 46, empty.Used mkfsSb b := by decide +kernel
    intro b hb hnot
    refine hbits b ?_
    by_contra hge
    have hq : mkfsSb.bmapstart + mkfsSb.size / BPB = 45 := by decide
    exact hnot ⟨by omega, hb⟩

end Fs

end Xv6
