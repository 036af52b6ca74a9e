import Xv6.Fs.ByteArray
import Xv6.Fs.Files
import Xv6.Kernel.InodeOps

/-!
# Blocks — who owns the blocks of a disk

`Tidy`: every data block whose bit is set belongs to a file, and no file has a hole.  With `DiskOk`, which
says that no block belongs to two files, the bitmap is exact.  `itrunc` frees exactly the blocks of its
file, and never a free one.
-/

namespace Xv6

open Layout

namespace Fs

variable {sb : superblock} {s s' s'' : Fs} {ip ip' jp : inode} {i : UInt32} {b x n j : ℕ}

structure Tidy (sb : superblock) (s : Fs) : Prop where
  disk : DiskOk sb s
  owned : ∀ x, s.InUse sb x → ∃ i, Held sb s i x
  noHole : ∀ ip, Copy sb s ip → ip.d.type ≠ 0 → s.NoHole ip ip.d.size.toNat

/-- **One file changes**: the blocks that it does not hold any more are free. -/
theorem Changes.tidy (h : Changes sb i s s') (hs : Tidy sb s) (hd : DiskOk sb s')
    (howned : ∀ x, s'.InUse sb x → (s.InUse sb x ∧ ¬ Held sb s i x) ∨ Held sb s' i x)
    (hno : ∀ ip, Copy sb s' ip → ip.inum = i → ip.d.type ≠ 0 → s'.NoHole ip ip.d.size.toNat) :
    Tidy sb s' := by
  refine ⟨hd, fun x hx => ?_, fun ip hc h0 => ?_⟩
  · obtain ⟨hx, hi⟩ | hx := howned x hx
    · obtain ⟨k, hk⟩ := hs.owned x hx
      have hne : k ≠ i := fun he => hi (he ▸ hk)
      obtain ⟨hlt, htype, hholds⟩ := hk
      have hun := h.untouched hs.disk (copy_inodeAt hlt) hne htype
      have hat := h.dinodes k.toNat hlt fun he => hne (UInt32.toNat_inj.mp he)
      exact ⟨k, hlt, by rwa [hat], by rw [hat]; exact (holds_congr hun.ref).mpr hholds⟩
    · exact ⟨i, hx⟩
  · by_cases hi : ip.inum = i
    · exact hno ip hc hi h0
    · have hcs := (h.copy hi).mp hc
      have hun := h.untouched hs.disk hcs hi h0
      intro k hk
      have hmax := (hs.disk.file ip hcs h0).size
      have hbn : k / BSIZE < MAXFILE := Nat.div_lt_of_lt_mul (by simp only [BSIZE] at *; omega)
      rw [show Layout.slot s'.blocks ip.d (k / BSIZE) = Layout.slot s.blocks ip.d (k / BSIZE) from
        hun.ref _ (slotOf_lt hbn)]
      exact hs.noHole ip hcs h0 k hk

/-- A file that has got blocks and no hole. -/
theorem Tidy.advance (hsb : sb.Ok) (hs : Tidy sb s) (ha : Advance sb ip ip' s s') (hc : Copy sb s ip)
    (h0 : ip.d.type ≠ 0) (hsaved : s'.dinodeAt sb ip.inum.toNat = ip'.d)
    (hdir : ip'.d.type = T_DIR → DirOk sb ip' s') (hno : s'.NoHole ip' ip'.d.size.toNat) : Tidy sb s' := by
  refine (ha.changes hsb hc h0).tidy hs (hs.disk.advance hsb ha hc h0 hsaved hdir) (fun x hx => ?_)
    fun jp hj hi hj0 => ?_
  · by_cases hold : s.InUse sb x ∧ ¬ Held sb s ip.inum x
    · exact Or.inl hold
    · right
      have ht : ip'.d.type = ip.d.type := by
        obtain ⟨a, m, rfl⟩ := ha.fields
        rfl
      refine ⟨hc.lt, by rwa [hsaved, ht], ?_⟩
      rw [hsaved]
      obtain hx | hx := (ha.grow.used x).mp hx
      · refine ha.grow.holds ((hc.held h0).mp ?_)
        by_contra hn
        exact hold ⟨hx, hn⟩
      · exact hx
  · have heq : jp.d = ip'.d := by rw [hj.d, hi, hsaved]
    intro k hk
    rw [heq] at hk ⊢
    exact hno k hk

/-- **`writei`** of a file. -/
theorem Tidy.writei {src : ℕ → Option UInt8} {off : ℕ} {r : ℤ} (hsb : sb.Ok) (hs : Tidy sb s)
    (hc : Copy sb s ip) (h0 : ip.d.type ≠ 0) (hdir : ip.d.type ≠ T_DIR) (hoff : off < 2 ^ 32)
    (hn : n < 2 ^ 32) (h : s.writei sb src off n ip = .ok (r, ip', s')) :
    Tidy sb s' ∧ Changes sb ip.inum s s' ∧ s'.dinodeAt sb ip.inum.toNat = ip'.d ∧
      ip'.d.type = ip.d.type := by
  have hf := hs.disk.file ip hc h0
  by_cases hin : off ≤ ip.d.size.toNat ∧ off + n ≤ MAXFILE * BSIZE
  swap
  · -- nothing happens outside of the file
    rw [writei_out hn hoff (by omega)] at h
    cases h
    exact ⟨hs, .refl hs.disk.reserved _, hc.d.symm, rfl⟩
  obtain ⟨tot, k, ip₁, s₁, heq, hle, hw, hsize, -, hload, -⟩ := writei_spec src hsb hf hin.1 hin.2
  rw [heq] at h
  cases h
  have ht : ip'.d.type = ip.d.type := by
    obtain ⟨a, m, rfl⟩ := hw.adv.fields
    rfl
  have hno : s'.NoHole ip' ip'.d.size.toNat := fun i hi =>
    hw.noHole hf (hs.noHole ip hc h0) hin.1 i (by omega)
  exact ⟨hs.advance hsb hw.adv hc h0 hload (fun hd => absurd (ht ▸ hd) hdir) hno,
    hw.adv.changes hsb hc h0, hload, ht⟩

/-- **`iupdate`** of an inode whose blocks are on the disk already. -/
theorem Tidy.iupdate (hsb : sb.Ok) (hs : Tidy sb s) (hd : DiskOk sb (s.iupdate sb ip))
    (hlt : ip.inum.toNat < sb.ninodes)
    (hholds : ∀ x, Held sb s ip.inum x → ip.d.type ≠ 0 ∧ Holds s.blocks ip.d x)
    (hno : ip.d.type ≠ 0 → s.NoHole ip ip.d.size.toNat)
    (hf : ip.d.type ≠ 0 → FileOk sb ip s) : Tidy sb (s.iupdate sb ip) := by
  have hsaved := dinodeAt_iupdate sb s ip
  have hun : ip.d.type ≠ 0 → Untouched sb s (s.iupdate sb ip) ip := fun h0 =>
    .of_inUse (hf h0).owns fun x hx => iupdate_inUse hsb hlt hx
  have hother : ∀ y, sb.IsBmap y → (s.iupdate sb ip).blocks y = s.blocks y := fun y hy => by
    refine Function.update_of_ne ?_ _ _
    rintro rfl
    exact IBLOCK_not_bmap hsb hlt hy
  refine ((Changes.refl hs.disk.reserved ip.inum).iupdate hsb hlt).tidy hs hd (fun x hx => ?_)
    fun jp hj hi hj0 => ?_
  · have hx' : s.InUse sb x := (inUse_congr hother).mp hx
    by_cases hh : Held sb s ip.inum x
    · obtain ⟨h0, hx⟩ := hholds x hh
      refine Or.inr ⟨hlt, by rwa [hsaved], ?_⟩
      rw [hsaved]
      exact (holds_congr (hun h0).ref).mpr hx
    · exact Or.inl ⟨hx', hh⟩
  · have heq : jp.d = ip.d := by rw [hj.d, hi, hsaved]
    rw [heq] at hj0
    have hmax := (hf hj0).size
    intro k hk
    rw [heq] at hk ⊢
    have hbn : k / BSIZE < MAXFILE := Nat.div_lt_of_lt_mul (by simp only [BSIZE] at *; omega)
    rw [show Layout.slot (s.iupdate sb ip).blocks ip.d (k / BSIZE) = Layout.slot s.blocks ip.d (k / BSIZE)
      from (hun hj0).ref _ (slotOf_lt hbn)]
    exact hno hj0 k hk

/-! ## `itrunc` -/

/-- Exactly the blocks of `X` have been freed. -/
structure Frees (sb : superblock) (X : ℕ → Prop) (s s' : Fs) : Prop where
  blocks : ∀ x, ¬ sb.IsBmap x → s'.blocks x = s.blocks x
  used : ∀ x < sb.size, s'.Used sb x ↔ s.Used sb x ∧ ¬ X x

theorem Frees.none {X : ℕ → Prop} (h : ∀ x, ¬ X x) : Frees sb X s s :=
  ⟨fun _ _ => rfl, fun x _ => ⟨fun hu => ⟨hu, h x⟩, And.left⟩⟩

theorem Frees.trans {X Y Z : ℕ → Prop} (h : Frees sb X s s') (h' : Frees sb Y s' s'')
    (hZ : ∀ x, Z x ↔ X x ∨ Y x) : Frees sb Z s s'' := by
  refine ⟨fun x hx => (h'.blocks x hx).trans (h.blocks x hx), fun x hx => ?_⟩
  rw [h'.used x hx, h.used x hx, hZ x]
  tauto

/-- **`bfree`** of a block in use. -/
theorem bfree_frees (hb : b < sb.size) (hu : s.Used sb b) :
    ∃ s', s.bfree sb b = .ok s' ∧ Frees sb (· = b) s s' := by
  have hbit : (s.blocks (BBLOCK b sb)).bit (b % BPB) ≠ false := by
    unfold Used at hu
    rw [hu]
    decide
  refine ⟨s.log_write (BBLOCK b sb) ((s.blocks (BBLOCK b sb)).clearBit (b % BPB)), ?_, ?_⟩
  · unfold bfree
    dsimp only
    rw [if_neg hbit]
  have hf := bfree_freed (X := (· = b)) hb rfl (s := s) (by
    unfold bfree
    dsimp only
    rw [if_neg hbit])
  refine ⟨hf.blocks, fun x hx => ⟨fun hx' => ?_, fun ⟨hx', hne⟩ => hf.used x hx hne hx'⟩⟩
  have hself : (s.log_write (BBLOCK b sb) ((s.blocks (BBLOCK b sb)).clearBit (b % BPB))).blocks
      (BBLOCK b sb) = (s.blocks (BBLOCK b sb)).clearBit (b % BPB) := Function.update_self _ _ _
  unfold Used at hx' ⊢
  by_cases hbb : BBLOCK x sb = BBLOCK b sb
  · rw [hbb, hself] at hx'
    by_cases hxb : x = b
    · rw [hxb, ByteStore.bit_clearBit_self] at hx'
      cases hx'
    · refine ⟨?_, hxb⟩
      have hmod : x % BPB ≠ b % BPB := fun hmod => by
        unfold BBLOCK at hbb
        have h1 := Nat.div_add_mod x BPB
        have h2 := Nat.div_add_mod b BPB
        rw [Nat.add_right_cancel hbb, hmod] at h1
        exact hxb (h1.symm.trans h2)
      rw [ByteStore.bit_clearBit_of_ne hmod] at hx'
      rwa [hbb]
  · rw [show (s.log_write (BBLOCK b sb) ((s.blocks (BBLOCK b sb)).clearBit (b % BPB))).blocks (BBLOCK x sb)
      = s.blocks (BBLOCK x sb) from Function.update_of_ne hbb _ _] at hx'
    exact ⟨hx', fun he => hbb (by rw [he])⟩

/-- The first loop frees the direct blocks from `j` on. -/
theorem truncDirect_frees (hj : j + n ≤ NDIRECT)
    (hlt : ∀ k ≤ NDIRECT, ip.d.addr k ≠ 0 → ip.d.addr k < sb.size)
    (hinj : ∀ k ≤ NDIRECT, ∀ l ≤ NDIRECT, ip.d.addr k = ip.d.addr l → ip.d.addr k ≠ 0 → k = l)
    (hu : ∀ k, j ≤ k → k < j + n → ip.d.addr k ≠ 0 → s.Used sb (ip.d.addr k)) :
    ∃ d s', s.truncDirect sb n j ip = .ok ({ ip with d := d }, s') ∧
      Frees sb (fun x => x ≠ 0 ∧ ∃ k, j ≤ k ∧ k < j + n ∧ ip.d.addr k = x) s s' ∧
      (∀ k, d.addr k = if j ≤ k ∧ k < j + n then 0 else ip.d.addr k) ∧ d.type = ip.d.type := by
  induction n generalizing j ip s with
  | zero =>
    refine ⟨ip.d, s, rfl, .none fun x hx => ?_, fun k => (if_neg (by omega)).symm, rfl⟩
    obtain ⟨-, k, h1, h2, -⟩ := hx
    omega
  | succ n ih =>
    unfold truncDirect
    by_cases h0 : ip.d.addr j = 0
    · rw [if_neg (not_not_intro h0)]
      obtain ⟨d, s', heq, hf, haddr, ht⟩ := ih (j := j + 1) (by omega) hlt hinj
        fun k h1 h2 => hu k (by omega) (by omega)
      refine ⟨d, s', heq, ⟨hf.blocks, fun x hx => ?_⟩, fun k => ?_, ht⟩
      · rw [hf.used x hx]
        refine and_congr_right fun _ => not_congr (and_congr_right fun hx0 => ?_)
        constructor
        · rintro ⟨k, h1, h2, hk⟩
          exact ⟨k, by omega, by omega, hk⟩
        · rintro ⟨k, h1, h2, hk⟩
          refine ⟨k, ?_, by omega, hk⟩
          by_contra hkj
          rw [show k = j by omega, h0] at hk
          exact hx0 hk.symm
      · rw [haddr k]
        by_cases hkj : k = j
        · rw [hkj, h0, ite_self, ite_self]
        · exact if_congr (by omega) rfl rfl
    · rw [if_pos h0]
      obtain ⟨s₁, hb, hf₁⟩ := bfree_frees (hlt j (by omega) h0) (hu j le_rfl (by omega) h0)
      have hset : ∀ k, (ip.d.setAddr j 0).addr k = if k = j then 0 else ip.d.addr k := fun k =>
        dinode.addr_setAddr (by omega) (by decide)
      have hset' : ∀ k, (ip.d.setAddr j 0).addr k ≠ 0 → k ≠ j ∧ (ip.d.setAddr j 0).addr k = ip.d.addr k :=
        fun k hk => by
          have hkj : k ≠ j := fun hkj => hk ((hset k).trans (if_pos hkj))
          exact ⟨hkj, (hset k).trans (if_neg hkj)⟩
      obtain ⟨d, s', heq, hf, haddr, ht⟩ := @ih s₁ { ip with d := ip.d.setAddr j 0 } (j + 1)
        (by omega)
        (fun k hk hk0 => by
          have heq := (hset' k hk0).2
          exact heq ▸ hlt k hk (heq ▸ hk0))
        (fun k hk l hl he hk0 => by
          have hk' := (hset' k hk0).2
          have hl' := (hset' l (he ▸ hk0)).2
          exact hinj k hk l hl (hk'.symm.trans (he.trans hl')) (hk' ▸ hk0))
        (fun k h1 h2 hk0 => by
          have heq := (hset' k hk0).2
          have hk0 : ip.d.addr k ≠ 0 := heq ▸ hk0
          have hu₁ : s₁.Used sb (ip.d.addr k) := by
            refine (hf₁.used _ (hlt k (by omega) hk0)).mpr ⟨hu k (by omega) (by omega) hk0, fun he => ?_⟩
            have := hinj k (by omega) j (by omega) he hk0
            omega
          exact heq.symm ▸ hu₁)
      refine ⟨d, s', by rw [hb]; exact heq, hf₁.trans hf fun x => ?_, fun k => ?_, ht⟩
      · constructor
        · rintro ⟨hx0, k, h1, h2, hk⟩
          by_cases hkj : k = j
          · exact Or.inl (hk ▸ hkj ▸ rfl)
          · exact Or.inr ⟨hx0, k, by omega, by omega, by
              show (ip.d.setAddr j 0).addr k = x
              rw [hset, if_neg hkj, hk]⟩
        · rintro (rfl | ⟨hx0, k, h1, h2, hk⟩)
          · exact ⟨h0, j, le_rfl, by omega, rfl⟩
          · refine ⟨hx0, k, by omega, by omega, ?_⟩
            have hk : (ip.d.setAddr j 0).addr k = x := hk
            rwa [hset, if_neg (by omega)] at hk
      · rw [haddr k]
        show (if j + 1 ≤ k ∧ k < j + 1 + n then 0 else (ip.d.setAddr j 0).addr k) = _
        rw [hset k]
        by_cases hkj : k = j
        · rw [if_neg (by omega), if_pos hkj, if_pos (by omega)]
        · rw [if_neg hkj]
          exact if_congr (by omega) rfl rfl

/-- The second loop frees the blocks of the entries from `j` on. -/
theorem truncIndirect_frees {ind : ℕ} (hind : ¬ sb.IsBmap ind) {e : ℕ → ℕ}
    (he : ∀ k, (s.blocks ind).load (4 * k) 4 = e k)
    (hlt : ∀ k, j ≤ k → k < j + n → e k ≠ 0 → e k < sb.size)
    (hinj : ∀ k l, j ≤ k → j ≤ l → k < j + n → l < j + n → e k = e l → e k ≠ 0 → k = l)
    (hu : ∀ k, j ≤ k → k < j + n → e k ≠ 0 → s.Used sb (e k)) :
    ∃ s', s.truncIndirect sb ind n j = .ok s' ∧
      Frees sb (fun x => x ≠ 0 ∧ ∃ k, j ≤ k ∧ k < j + n ∧ e k = x) s s' := by
  induction n generalizing j s with
  | zero =>
    refine ⟨s, rfl, .none fun x hx => ?_⟩
    obtain ⟨-, k, h1, h2, -⟩ := hx
    omega
  | succ n ih =>
    unfold truncIndirect
    dsimp only
    rw [he j]
    by_cases h0 : e j = 0
    · rw [if_neg (not_not_intro h0)]
      obtain ⟨s', heq, hf⟩ := ih (j := j + 1) he (fun k h1 h2 => hlt k (by omega) (by omega))
        (fun k l h1 h2 h3 h4 => hinj k l (by omega) (by omega) (by omega) (by omega))
        fun k h1 h2 => hu k (by omega) (by omega)
      refine ⟨s', heq, ⟨hf.blocks, fun x hx => ?_⟩⟩
      rw [hf.used x hx]
      refine and_congr_right fun _ => not_congr (and_congr_right fun hx0 => ?_)
      constructor
      · rintro ⟨k, h1, h2, hk⟩
        exact ⟨k, by omega, by omega, hk⟩
      · rintro ⟨k, h1, h2, hk⟩
        refine ⟨k, ?_, by omega, hk⟩
        by_contra hkj
        rw [show k = j by omega, h0] at hk
        exact hx0 hk.symm
    · rw [if_pos h0]
      obtain ⟨s₁, hb, hf₁⟩ := bfree_frees (hlt j le_rfl (by omega) h0) (hu j le_rfl (by omega) h0)
      obtain ⟨s', heq, hf⟩ := ih (s := s₁) (j := j + 1) (fun k => by rw [hf₁.blocks ind hind]; exact he k)
        (fun k h1 h2 => hlt k (by omega) (by omega))
        (fun k l h1 h2 h3 h4 => hinj k l (by omega) (by omega) (by omega) (by omega))
        (fun k h1 h2 hk0 => by
          refine (hf₁.used _ (hlt k (by omega) (by omega) hk0)).mpr ⟨hu k (by omega) (by omega) hk0,
            fun hkj => ?_⟩
          have := hinj k j (by omega) le_rfl (by omega) (by omega) hkj hk0
          omega)
      refine ⟨s', by rw [hb]; exact heq, hf₁.trans hf fun x => ?_⟩
      constructor
      · rintro ⟨hx0, k, h1, h2, hk⟩
        by_cases hkj : k = j
        · exact Or.inl (hk ▸ hkj ▸ rfl)
        · exact Or.inr ⟨hx0, k, by omega, by omega, hk⟩
      · rintro (rfl | ⟨hx0, k, h1, h2, hk⟩)
        · exact ⟨h0, j, le_rfl, by omega, rfl⟩
        · exact ⟨hx0, k, by omega, by omega, hk⟩

/-- The blocks of an inode: direct, indirect, and the block of the indirect entries. -/
theorem holds_iff {B : ℕ → Block} {d : dinode} : Holds B d x ↔ x ≠ 0 ∧
    ((∃ k < NDIRECT, d.addr k = x) ∨ d.addr NDIRECT = x ∨
      d.addr NDIRECT ≠ 0 ∧ ∃ k < NINDIRECT, (B (d.addr NDIRECT)).load (4 * k) 4 = x) := by
  refine and_congr_right fun hx => ⟨?_, ?_⟩
  · rintro ⟨r, hr, rfl⟩
    by_cases hle : r ≤ NDIRECT
    · rw [blockRef, if_pos hle]
      by_cases hlt : r < NDIRECT
      · exact Or.inl ⟨r, hlt, rfl⟩
      · exact Or.inr (Or.inl (by rw [show r = NDIRECT by omega]))
    · right
      right
      have hr' : r = NDIRECT + 1 + (r - (NDIRECT + 1)) := by omega
      have h0 : d.addr NDIRECT ≠ 0 := fun h0 => hx (by rw [blockRef, if_neg hle, if_pos h0])
      refine ⟨h0, r - (NDIRECT + 1), ?_, ?_⟩
      · simp only [NREF, MAXFILE] at hr
        omega
      · rw [← blockRef_indirect h0, ← hr']
  · rintro (⟨k, hk, rfl⟩ | rfl | ⟨h0, k, hk, rfl⟩)
    · exact ⟨k, by simp only [NREF, MAXFILE]; omega, by rw [blockRef, if_pos hk.le]⟩
    · exact ⟨NDIRECT, by decide, by rw [blockRef, if_pos le_rfl]⟩
    · exact ⟨NDIRECT + 1 + k, by simp only [NREF, MAXFILE]; omega, blockRef_indirect h0⟩

/-- A block of a file is in range and in use. -/
theorem FileOk.ref (hf : FileOk sb ip s) {r : ℕ} (hr : r < NREF) (h0 : blockRef s.blocks ip.d r ≠ 0) :
    blockRef s.blocks ip.d r < sb.size ∧ s.Used sb (blockRef s.blocks ip.d r) :=
  ⟨(hf.owns.mem _ (Holds.of_ref hr h0)).1.2, (hf.owns.mem _ (Holds.of_ref hr h0)).2⟩

theorem blockRef_direct {B : ℕ → Block} {d : dinode} {k : ℕ} (hk : k ≤ NDIRECT) :
    k < NREF ∧ blockRef B d k = d.addr k :=
  ⟨by simp only [NREF, MAXFILE]; omega, by rw [blockRef, if_pos hk]⟩

theorem blockRef_entry {B : ℕ → Block} {d : dinode} {k : ℕ} (h0 : d.addr NDIRECT ≠ 0) (hk : k < NINDIRECT) :
    NDIRECT + 1 + k < NREF ∧ blockRef B d (NDIRECT + 1 + k) = (B (d.addr NDIRECT)).load (4 * k) 4 :=
  ⟨by simp only [NREF, MAXFILE]; omega, blockRef_indirect h0⟩

/-- The direct blocks are freed. -/
theorem FileOk.truncDirect_frees (hf : FileOk sb ip s) : ∃ d s₁,
    s.truncDirect sb NDIRECT 0 ip = .ok ({ ip with d := d }, s₁) ∧
      Frees sb (fun x => x ≠ 0 ∧ ∃ k < NDIRECT, ip.d.addr k = x) s s₁ ∧
      d.addr NDIRECT = ip.d.addr NDIRECT ∧ (∀ k, k ≠ NDIRECT → d.addr k = 0) ∧ d.type = ip.d.type := by
  obtain ⟨d, s₁, h₁, hf₁, haddr, ht₁⟩ := @Fs.truncDirect_frees sb s ip NDIRECT 0 (Nat.zero_add _).le
    (fun k hk h0 => by
      obtain ⟨hr, heq⟩ := blockRef_direct (B := s.blocks) (d := ip.d) hk
      rw [← heq] at h0 ⊢
      exact (hf.ref hr h0).1)
    (fun k hk l hl he h0 => by
      obtain ⟨hr, heq⟩ := blockRef_direct (B := s.blocks) (d := ip.d) hk
      obtain ⟨hr', heq'⟩ := blockRef_direct (B := s.blocks) (d := ip.d) hl
      rw [← heq] at h0
      rw [← heq, ← heq'] at he
      exact hf.owns.inj k hr l hr' he h0)
    (fun k _ hk h0 => by
      obtain ⟨hr, heq⟩ := blockRef_direct (B := s.blocks) (d := ip.d) (show k ≤ NDIRECT by omega)
      rw [← heq] at h0 ⊢
      exact (hf.ref hr h0).2)
  refine ⟨d, s₁, h₁, ⟨hf₁.blocks, fun x hx => ?_⟩, (haddr NDIRECT).trans (if_neg (by omega)), fun k hk => ?_,
    ht₁⟩
  · rw [hf₁.used x hx]
    simp only [Nat.zero_le, true_and, Nat.zero_add]
  · rw [haddr k]
    split_ifs with hlt
    · rfl
    · unfold dinode.addr
      rw [dif_neg (by omega)]

/-- A file without an indirect block has its direct blocks only. -/
theorem holds_direct {B : ℕ → Block} {d : dinode} (h0 : d.addr NDIRECT = 0) :
    Holds B d x ↔ x ≠ 0 ∧ ∃ k < NDIRECT, d.addr k = x := by
  rw [holds_iff]
  refine and_congr_right fun hx0 => ⟨?_, Or.inl⟩
  rintro (hk | he | ⟨hne, -⟩)
  · exact hk
  · exact absurd (he.symm.trans h0) hx0
  · exact absurd h0 hne

/-- The blocks of the indirect entries are freed, and then the indirect block. -/
theorem FileOk.truncIndirect_frees (hf : FileOk sb ip s) (h0 : ip.d.addr NDIRECT ≠ 0)
    (hf₁ : Frees sb (fun x => x ≠ 0 ∧ ∃ k < NDIRECT, ip.d.addr k = x) s s₁) : ∃ s₂ s₃,
    s₁.truncIndirect sb (ip.d.addr NDIRECT) NINDIRECT 0 = .ok s₂ ∧
      s₂.bfree sb (ip.d.addr NDIRECT) = .ok s₃ ∧ Frees sb (Holds s.blocks ip.d) s s₃ := by
  have hentry : ∀ k < NINDIRECT, NDIRECT + 1 + k < NREF ∧
      blockRef s.blocks ip.d (NDIRECT + 1 + k) = (s.blocks (ip.d.addr NDIRECT)).load (4 * k) 4 :=
    fun k hk => blockRef_entry h0 hk
  obtain ⟨hI, hIeq⟩ := blockRef_direct (B := s.blocks) (d := ip.d) (le_refl NDIRECT)
  have hI0 : blockRef s.blocks ip.d NDIRECT ≠ 0 := hIeq ▸ h0
  have hIn := hf.ref hI hI0
  rw [hIeq] at hIn
  have hnb : ¬ sb.IsBmap (ip.d.addr NDIRECT) := data_not_bmap (hf.owns.mem _ (Holds.of_indirect h0)).1
  have hused₁ : ∀ r < NREF, NDIRECT ≤ r → blockRef s.blocks ip.d r ≠ 0 →
      s₁.Used sb (blockRef s.blocks ip.d r) := by
    intro r hr hle hr0
    refine (hf₁.used _ (hf.ref hr hr0).1).mpr ⟨(hf.ref hr hr0).2, ?_⟩
    rintro ⟨-, k, hk, he⟩
    obtain ⟨hk', heq⟩ := blockRef_direct (B := s.blocks) (d := ip.d) hk.le
    have := hf.owns.inj r hr k hk' (by rw [heq, he]) hr0
    omega
  obtain ⟨s₂, h₂, hf₂⟩ := @Fs.truncIndirect_frees sb s₁ NINDIRECT 0 _ hnb
    (fun k => (s.blocks (ip.d.addr NDIRECT)).load (4 * k) 4)
    (fun k => by rw [hf₁.blocks _ hnb])
    (fun k _ hk hk0 => by
      rw [Nat.zero_add] at hk
      rw [← (hentry k hk).2] at hk0 ⊢
      exact (hf.ref (hentry k hk).1 hk0).1)
    (fun k l _ _ hk hl he hk0 => by
      rw [Nat.zero_add] at hk hl
      rw [← (hentry k hk).2] at hk0
      rw [← (hentry k hk).2, ← (hentry l hl).2] at he
      have := hf.owns.inj _ (hentry k hk).1 _ (hentry l hl).1 he hk0
      omega)
    (fun k _ hk hk0 => by
      rw [Nat.zero_add] at hk
      rw [← (hentry k hk).2] at hk0 ⊢
      exact hused₁ _ (hentry k hk).1 (by omega) hk0)
  obtain ⟨s₃, h₃, hf₃⟩ := @bfree_frees sb s₂ _ hIn.1 (by
    refine (hf₂.used _ hIn.1).mpr ⟨hIeq ▸ hused₁ NDIRECT hI le_rfl hI0, ?_⟩
    rintro ⟨-, k, -, hk, he⟩
    rw [Nat.zero_add] at hk
    have := hf.owns.inj NDIRECT hI _ (hentry k hk).1 (by rw [hIeq, (hentry k hk).2, he]) hI0
    omega)
  refine ⟨s₂, s₃, h₂, h₃, hf₁.trans (hf₂.trans hf₃ fun x => Iff.rfl) fun x => ?_⟩
  rw [holds_iff]
  constructor
  · rintro ⟨hx0, hk | he | ⟨-, k, hk, he⟩⟩
    · exact Or.inl ⟨hx0, hk⟩
    · exact Or.inr (Or.inr he.symm)
    · exact Or.inr (Or.inl ⟨hx0, k, Nat.zero_le k, by omega, he⟩)
  · rintro (⟨hx0, hk⟩ | ⟨hx0, k, -, hk, he⟩ | rfl)
    · exact ⟨hx0, Or.inl hk⟩
    · exact ⟨hx0, Or.inr (Or.inr ⟨h0, k, by omega, he⟩)⟩
    · exact ⟨h0, Or.inr (Or.inl rfl)⟩

/-- **`itrunc` frees exactly the blocks of its file**, and does not panic. -/
theorem itrunc_frees (hf : FileOk sb ip s) : ∃ d s₁,
    s.itrunc sb ip = .ok ({ ip with d := d }, s₁.iupdate sb { ip with d := d }) ∧
      Frees sb (Holds s.blocks ip.d) s s₁ ∧ (∀ k, d.addr k = 0) ∧ d.size = 0 ∧ d.type = ip.d.type := by
  obtain ⟨d, s₁, h₁, hf₁, hind, hzero, htype⟩ := hf.truncDirect_frees
  unfold itrunc
  rw [h₁, ok_bind]
  dsimp only
  rw [hind]
  by_cases h0 : ip.d.addr NDIRECT = 0
  · refine ⟨{ d with size := 0 }, s₁, ?_, ⟨hf₁.blocks, fun x hx => ?_⟩, fun k => ?_, rfl, htype⟩
    · rw [if_neg (not_not_intro h0)]
      rfl
    · rw [hf₁.used x hx, holds_direct h0]
    · show d.addr k = 0
      by_cases hk : k = NDIRECT
      · rw [hk, hind, h0]
      · exact hzero k hk
  · obtain ⟨s₂, s₃, h₂, h₃, hf₃⟩ := hf.truncIndirect_frees h0 hf₁
    refine ⟨{ d.setAddr NDIRECT 0 with size := 0 }, s₃, ?_, hf₃, fun k => ?_, rfl, htype⟩
    · rw [if_pos h0, h₂, ok_bind, h₃, ok_bind]
      rfl
    · show (d.setAddr NDIRECT 0).addr k = 0
      rw [dinode.addr_setAddr le_rfl (by decide)]
      split_ifs with hk
      · rfl
      · exact hzero k hk

/-- The disk without the blocks of a file. -/
theorem Frees.changes (hsb : sb.Ok) (hf : Frees sb (Holds s.blocks ip.d) s s') (hs : DiskOk sb s)
    (hc : Copy sb s ip) (h0 : ip.d.type ≠ 0) : Changes sb ip.inum s s' := by
  have hown := (hs.file ip hc h0).owns
  refine ⟨fun x hx hnot => ?_, fun m hm _ => ?_, fun x hx hnot => ?_⟩
  · exact (hf.used x hx).mpr ⟨hs.reserved x hx hnot, fun hh => hnot (hown.mem x hh).1⟩
  · unfold dinodeAt
    rw [hf.blocks _ (IBLOCK_not_bmap hsb hm)]
  · refine ⟨⟨hx.1, (hf.used x hx.1.2).mpr ⟨hx.2, fun hh => hnot ((hc.held h0).mpr hh)⟩⟩, ?_⟩
    exact hf.blocks x (data_not_bmap hx.1)

theorem iupdate_inUse_iff (hsb : sb.Ok) (hlt : ip.inum.toNat < sb.ninodes) :
    (s.iupdate sb ip).InUse sb x ↔ s.InUse sb x := by
  refine inUse_congr fun y hy => Function.update_of_ne ?_ _ _
  rintro rfl
  exact IBLOCK_not_bmap hsb hlt hy

/-- **Truncating** a file leaves it without blocks. -/
theorem Tidy.itrunc (hsb : sb.Ok) (hs : Tidy sb s) (hc : Copy sb s ip) (h0 : ip.d.type ≠ 0)
    (hdir : ip.d.type ≠ T_DIR) (h : s.itrunc sb ip = .ok (ip', s')) :
    Tidy sb s' ∧ Changes sb ip.inum s s' ∧ s'.dinodeAt sb ip.inum.toNat = ip'.d ∧
      ip'.d.type = ip.d.type := by
  obtain ⟨d, s₁, heq, hfr, haddr, hsize, ht⟩ := itrunc_frees (hs.disk.file ip hc h0)
  rw [heq] at h
  cases h
  have hch₁ := hfr.changes hsb hs.disk hc h0
  have hch : Changes sb ip.inum s (s₁.iupdate sb { ip with d := d }) :=
    @Changes.iupdate _ _ _ { ip with d := d } hsb hch₁ hc.lt
  have hsaved : (s₁.iupdate sb { ip with d := d }).dinodeAt sb ip.inum.toNat = d :=
    dinodeAt_iupdate sb s₁ { ip with d := d }
  have hnone : ∀ jp, Copy sb (s₁.iupdate sb { ip with d := d }) jp → jp.inum = ip.inum → jp.d = d :=
    fun jp hj hi => by rw [hj.d, hi, hsaved]
  have hsize0 : d.size.toNat = 0 := by rw [hsize]; rfl
  refine ⟨hch.tidy hs (hch.diskOk hs.disk (fun jp hj hi _ => ?_) fun jp hj hi hT => ?_) (fun x hx => ?_)
    fun jp hj hi _ k hk => ?_, hch, hsaved, ht⟩
  · have hd := hnone jp hj hi
    refine ⟨⟨⟨fun r hr r' _ _ hr0 => ?_, fun x hx => ?_⟩, hch.reserved, ?_, hj.lt⟩, fun x hx _ => ?_⟩
    · exact absurd (Holds.of_ref hr hr0) (not_holds (hd ▸ haddr))
    · exact absurd hx (not_holds (hd ▸ haddr))
    · rw [hd, hsize0]
      exact Nat.zero_le _
    · exact absurd hx (not_holds (hd ▸ haddr))
  · rw [hnone jp hj hi, ht] at hT
    exact absurd hT hdir
  · have hx₁ := (@iupdate_inUse_iff _ _ { ip with d := d } _ hsb hc.lt).mp hx
    obtain ⟨hu, hn⟩ := (hfr.used x hx₁.1.2).mp hx₁.2
    exact Or.inl ⟨⟨hx₁.1, hu⟩, fun hh => hn ((hc.held h0).mp hh)⟩
  · rw [hnone jp hj hi, hsize0] at hk
    exact absurd hk (Nat.not_lt_zero k)

/-- **Freeing** an inode gives its blocks back. -/
theorem Tidy.discard (hsb : sb.Ok) (hs : Tidy sb s) (hc : Copy sb s ip) (h0 : ip.d.type ≠ 0)
    (h : s.itrunc sb ip = .ok (ip', s')) {i : inode} (hi : i.inum = ip.inum) (hi0 : i.d.type = 0) :
    Tidy sb (s'.iupdate sb i) := by
  obtain ⟨hd, hch⟩ := hs.disk.discard hsb hc h0 h hi hi0
  obtain ⟨d, s₁, heq, hfr, -⟩ := itrunc_frees (hs.disk.file ip hc h0)
  rw [heq] at h
  cases h
  have hfree : ∀ jp, Copy sb ((s₁.iupdate sb { ip with d := d }).iupdate sb i) jp → jp.inum = ip.inum →
      jp.d.type = 0 := fun jp hj hji => by
    rw [hj.d, hji, ← hi, dinodeAt_iupdate]
    exact hi0
  refine hch.tidy hs hd (fun x hx => ?_) fun jp hj hji hj0 => absurd (hfree jp hj hji) hj0
  have hx₁ := (@iupdate_inUse_iff _ _ { ip with d := d } _ hsb hc.lt).mp
    ((iupdate_inUse_iff hsb (hi ▸ hc.lt)).mp hx)
  obtain ⟨hu, hn⟩ := (hfr.used x hx₁.1.2).mp hx₁.2
  exact Or.inl ⟨⟨hx₁.1, hu⟩, fun hh => hn ((hc.held h0).mp hh)⟩

/-! ## The other operations -/

/-- **A write into a directory**: a new name, or an entry that is cleared. -/
theorem Tidy.put {src : ℕ → UInt8} {r : ℤ} {k : ℕ} (hsb : sb.Ok) (hs : Tidy sb s) (hc : Copy sb s ip)
    (hT : ip.d.type = T_DIR) (hk : k ≤ entries ip)
    (hnew : ∀ key v, named src = some (key, v) → SlotMap.find (s.slots ip) (entries ip) key = none)
    (hw : s.writei sb (fun i => some (src i)) (16 * k) 16 ip = .ok (r, ip', s')) :
    Tidy sb s' ∧ Changes sb ip.inum s s' ∧ s'.dinodeAt sb ip.inum.toNat = ip'.d ∧
      ip'.d.type = ip.d.type := by
  have h0 : ip.d.type ≠ 0 := by
    rw [hT]
    decide
  obtain ⟨hadv, hd, hsaved, -⟩ := (hs.disk.dir ip hc hT).put hsb hk hnew hw
  have hat : s'.dinodeAt sb ip.inum.toNat = ip'.d := by
    obtain ⟨hip, hs'⟩ | hsaved := hsaved
    · rw [hip, hs']
      exact hc.d.symm
    · exact hsaved
  exact ⟨hs.advance hsb hadv hc h0 hat (fun _ => hd) hd.noHole, hadv.changes hsb hc h0, hat, hadv.type⟩

/-- **`iupdate`** of other numbers that are not about the contents. -/
theorem Tidy.relink {a b c : Int16} (hsb : sb.Ok) (hs : Tidy sb s) (hc : Copy sb s ip)
    (h0 : ip.d.type ≠ 0) (hip : ip' = { ip with d := { ip.d with major := a, minor := b, nlink := c } }) :
    Tidy sb (s.iupdate sb ip') := by
  have hinum : ip'.inum = ip.inum := by rw [hip]
  refine hs.iupdate hsb (hs.disk.relink hsb hc h0 hip).1 (hinum ▸ hc.lt) (fun x hx => ?_) (fun _ => ?_)
    fun _ => ?_
  · rw [hinum] at hx
    rw [hip]
    exact ⟨h0, (hc.held h0).mp hx⟩
  · rw [hip]
    exact hs.noHole ip hc h0
  · rw [hip]
    exact (hs.disk.file ip hc h0).relink

/-- **A new inode** on the disk, where there was none. -/
theorem Tidy.fresh {type nlink : Int16} (hsb : sb.Ok) (hs : Tidy sb s) (hlt : ip.inum.toNat < sb.ninodes)
    (h0 : (s.dinodeAt sb ip.inum.toNat).type = 0)
    (hip : ip.d = { dinode.zero with type := type, nlink := nlink }) : Tidy sb (s.iupdate sb ip) := by
  have hd := (hs.disk.fresh hsb hlt hip).1
  have haddr : ∀ k, ip.d.addr k = 0 := fun k => by
    rw [hip]
    unfold dinode.addr
    split <;> rfl
  have hsize : ip.d.size.toNat = 0 := by
    rw [hip]
    rfl
  refine hs.iupdate hsb hd hlt (fun x hx => absurd h0 hx.2.1) (fun _ k hk => ?_) fun ht => ?_
  · rw [hsize] at hk
    exact absurd hk (Nat.not_lt_zero k)
  · refine ⟨⟨fun r hr r' _ _ hr0 => ?_, fun x hx => absurd hx (not_holds haddr)⟩, hs.disk.reserved, ?_, hlt⟩
    · exact absurd (Holds.of_ref hr hr0) (not_holds haddr)
    · rw [hsize]
      exact Nat.zero_le _

/-- **`readi`** of a file without holes returns, and changes nothing but the buffer. -/
theorem readi_leaves (sb : superblock) (writable : ℕ → Bool) (dst : ByteStore) {off : ℕ}
    (hno : s.NoHole ip ip.d.size.toNat) (hmax : ip.d.size.toNat ≤ MAXFILE * BSIZE) (hoff : off < 2 ^ 32)
    (hn : n < 2 ^ 32) : ∃ (r : ℤ) (dst' : ByteStore), s.readi sb writable dst off n ip = .ok (r, dst', ip, s) := by
  by_cases hin : off ≤ ip.d.size.toNat ∧ off + n < 2 ^ 32
  swap
  · exact ⟨0, dst, readi_out hn hoff (by omega)⟩
  rw [readi_loop hin.1 hin.2]
  generalize hN : min n (ip.d.size.toNat - off) = N
  obtain ⟨r, w, heq, -⟩ := readLoop_there (n := N) sb writable N 0 off dst (Nat.zero_le N) (by omega)
    (by omega) fun i hi => hno i (by omega)
  exact ⟨r, _, heq⟩

end Fs

end Xv6
