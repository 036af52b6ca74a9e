import Xv6.Fs.Directory
import Xv6.Fs.Refs

/-!
# Files — the files of a disk side by side

`DiskOk`: every inode in use is a file, the directories among them are directories, and no two have a
block in common.  `Changes`: one inode is changed, and all others stay as they are.
-/

namespace Xv6

open Layout

namespace Fs

variable {sb : superblock} {s s' s'' : Fs} {ip ip' dp : inode} {b n x : ℕ} {i : UInt32} {d : dinode}

/-- The inode is what the disk has. -/
structure Copy (sb : superblock) (s : Fs) (ip : inode) : Prop where
  lt : ip.inum.toNat < sb.ninodes
  d : ip.d = s.dinodeAt sb ip.inum.toNat

/-- Inode `i` of the disk. -/
def inodeAt (sb : superblock) (s : Fs) (i : UInt32) : inode :=
  { dev := ROOTDEV, inum := i, ref := 0, lock := none, valid := false, d := s.dinodeAt sb i.toNat }

theorem copy_inodeAt (h : i.toNat < sb.ninodes) : Copy sb s (s.inodeAt sb i) := ⟨h, rfl⟩

/-- The files of the disk. -/
structure DiskOk (sb : superblock) (s : Fs) : Prop where
  reserved : s.Reserved sb
  file : ∀ ip, Copy sb s ip → ip.d.type ≠ 0 → FileOk sb ip s
  apart : ∀ ip ip', Copy sb s ip → Copy sb s ip' → ip.inum ≠ ip'.inum → ip.d.type ≠ 0 →
    ip'.d.type ≠ 0 → ∀ x, Holds s.blocks ip.d x → ¬ Holds s.blocks ip'.d x
  dir : ∀ dp, Copy sb s dp → dp.d.type = T_DIR → DirOk sb dp s

/-- Block `x` belongs to inode `i`. -/
def Held (sb : superblock) (s : Fs) (i : UInt32) (x : ℕ) : Prop :=
  i.toNat < sb.ninodes ∧ (s.dinodeAt sb i.toNat).type ≠ 0 ∧ Holds s.blocks (s.dinodeAt sb i.toNat) x

/-- At most inode `i` is changed. -/
structure Changes (sb : superblock) (i : UInt32) (s s' : Fs) : Prop where
  reserved : s'.Reserved sb
  dinodes : ∀ m < sb.ninodes, m ≠ i.toNat → s'.dinodeAt sb m = s.dinodeAt sb m
  frame : ∀ x, s.InUse sb x → ¬ Held sb s i x → s'.InUse sb x ∧ s'.blocks x = s.blocks x

/-- Inode `i` looks the same, but for `k` links more. -/
structure SameInode (sb : superblock) (k : Int16) (s s' : Fs) (i : UInt32) : Prop where
  type : (s'.dinodeAt sb i.toNat).type = (s.dinodeAt sb i.toNat).type
  nlink : (s.dinodeAt sb i.toNat).type ≠ 0 →
    (s'.dinodeAt sb i.toNat).nlink = (s.dinodeAt sb i.toNat).nlink + k
  size : (s.dinodeAt sb i.toNat).type ≠ 0 →
    (s'.dinodeAt sb i.toNat).size = (s.dinodeAt sb i.toNat).size
  bytes : (s.dinodeAt sb i.toNat).type ≠ 0 →
    SameBytes s.blocks s'.blocks (s.dinodeAt sb i.toNat) (s'.dinodeAt sb i.toNat)

theorem SameInode.refl (sb : superblock) (s : Fs) (i : UInt32) : SameInode sb 0 s s i :=
  ⟨rfl, fun _ => (Int16.add_zero _).symm, fun _ => rfl, fun _ _ _ => rfl⟩

theorem SameInode.trans {k k' : Int16} (h : SameInode sb k s s' i) (h' : SameInode sb k' s' s'' i) :
    SameInode sb (k + k') s s'' i := by
  have ht : (s.dinodeAt sb i.toNat).type ≠ 0 → (s'.dinodeAt sb i.toNat).type ≠ 0 := fun h0 => by
    rwa [h.type]
  refine ⟨h'.type.trans h.type, fun h0 => ?_,
    fun h0 => (h'.size (ht h0)).trans (h.size h0), fun h0 => (h.bytes h0).trans (h'.bytes (ht h0))⟩
  rw [h'.nlink (ht h0), h.nlink h0, Int16.add_assoc]

/-! ## The other files -/

theorem FileOk.congr (h : FileOk sb ip s) (hd : ip'.d = ip.d) (hn : ip'.inum = ip.inum) :
    FileOk sb ip' s :=
  ⟨hd ▸ h.owns, h.reserved, hd ▸ h.size, hn ▸ h.inum⟩

theorem slots_congr {dp' : inode} (hd : dp'.d = dp.d) : s.slots dp' = s.slots dp := by
  funext k
  unfold slots entry bytes
  rw [hd]

theorem DirOk.congr (h : DirOk sb dp s) {dp' : inode} (hd : dp'.d = dp.d) (hn : dp'.inum = dp.inum) :
    DirOk sb dp' s := by
  refine ⟨h.file.congr hd hn, hd ▸ h.type, hd ▸ h.whole, ?_, ?_⟩
  · intro i hi
    rw [hd] at hi ⊢
    exact h.noHole i hi
  · unfold entries
    rw [slots_congr hd, hd]
    exact h.distinct

/-- A file whose blocks are as they were. -/
structure Untouched (sb : superblock) (s s' : Fs) (ip : inode) : Prop where
  ref : ∀ r < NREF, blockRef s'.blocks ip.d r = blockRef s.blocks ip.d r
  used : ∀ x, Holds s.blocks ip.d x → s'.InUse sb x ∧ s'.blocks x = s.blocks x

theorem Untouched.sameBytes (h : Untouched sb s s' ip) : SameBytes s.blocks s'.blocks ip.d ip.d := by
  refine sameBytes_of_pages fun bn hbn j _ => ?_
  unfold filePage Layout.slot
  rw [h.ref _ (slotOf_lt hbn)]
  split
  · rfl
  · rw [(h.used _ (Holds.of_ref (slotOf_lt hbn) ‹_›)).2]

theorem Untouched.file (h : Untouched sb s s' ip) (hf : FileOk sb ip s) (hres : s'.Reserved sb) :
    FileOk sb ip s' := by
  refine ⟨⟨(hf.owns.congr h.ref).inj, fun x hx => ?_⟩, hres, hf.size, hf.inum⟩
  exact (h.used x ((holds_congr h.ref).mp hx)).1

theorem slots_same {dp' : inode} {k : ℕ} (hb : SameBytes s.blocks s'.blocks dp.d dp'.d)
    (hf : FileOk sb dp s) (hk : k < entries dp) : s'.slots dp' k = s.slots dp k := by
  refine named_congr fun j hj => hb _ ?_
  have hmax := hf.size
  unfold entries at hk
  omega

theorem Untouched.dir (h : Untouched sb s s' dp) (hd : DirOk sb dp s) (hres : s'.Reserved sb) :
    DirOk sb dp s' := by
  refine ⟨h.file hd.file hres, hd.type, hd.whole, fun i hi => ?_, ?_⟩
  · have hmax := hd.file.size
    have hbn : i / BSIZE < MAXFILE := Nat.div_lt_of_lt_mul (by simp only [BSIZE] at *; omega)
    have heq : Layout.slot s'.blocks dp.d (i / BSIZE) = Layout.slot s.blocks dp.d (i / BSIZE) :=
      h.ref _ (slotOf_lt hbn)
    rw [heq]
    exact hd.noHole i hi
  · intro k hk j hj key v v' h1 h2
    rw [slots_same h.sameBytes hd.file hk] at h1
    rw [slots_same h.sameBytes hd.file hj] at h2
    exact hd.distinct k hk j hj key v v' h1 h2

/-- Another inode is not concerned. -/
theorem Changes.untouched (h : Changes sb i s s') (hs : DiskOk sb s) (hc : Copy sb s ip)
    (hne : ip.inum ≠ i) (h0 : ip.d.type ≠ 0) : Untouched sb s s' ip := by
  have hused : ∀ x, Holds s.blocks ip.d x → s'.InUse sb x ∧ s'.blocks x = s.blocks x := by
    intro x hx
    refine h.frame x ((hs.file ip hc h0).owns.mem x hx) fun hheld => ?_
    obtain ⟨hi, htype, hx'⟩ := hheld
    exact hs.apart ip _ hc (copy_inodeAt hi) hne h0 htype x hx hx'
  refine ⟨fun r hr => blockRef_congr (fun _ _ => rfl) (fun hi j _ => ?_) hr, hused⟩
  rw [(hused _ (Holds.of_indirect hi)).2]

theorem Changes.copy (h : Changes sb i s s') (hne : ip.inum ≠ i) : Copy sb s' ip ↔ Copy sb s ip := by
  have hd : ip.inum.toNat < sb.ninodes → s'.dinodeAt sb ip.inum.toNat = s.dinodeAt sb ip.inum.toNat :=
    fun hlt => h.dinodes _ hlt fun he => hne (UInt32.toNat_inj.mp he)
  exact ⟨fun hc => ⟨hc.lt, hc.d.trans (hd hc.lt)⟩, fun hc => ⟨hc.lt, hc.d.trans (hd hc.lt).symm⟩⟩

/-- All other inodes look the same. -/
theorem Changes.same (h : Changes sb i s s') (hs : DiskOk sb s) {m : UInt32} (hm : m.toNat < sb.ninodes)
    (hne : m ≠ i) : SameInode sb 0 s s' m := by
  have heq := h.dinodes m.toNat hm fun he => hne (UInt32.toNat_inj.mp he)
  refine ⟨by rw [heq], fun _ => ?_, fun _ => by rw [heq], fun h0 => ?_⟩
  · rw [heq, Int16.add_zero]
  rw [heq]
  exact (h.untouched hs (copy_inodeAt hm) hne h0).sameBytes

/-- **One file changes**: it keeps its blocks and takes others that were free. -/
theorem Changes.diskOk (h : Changes sb i s s') (hs : DiskOk sb s)
    (hfile : ∀ ip, Copy sb s' ip → ip.inum = i → ip.d.type ≠ 0 →
      FileOk sb ip s' ∧ ∀ x, Holds s'.blocks ip.d x → s.InUse sb x → Held sb s i x)
    (hdir : ∀ dp, Copy sb s' dp → dp.inum = i → dp.d.type = T_DIR → DirOk sb dp s') : DiskOk sb s' := by
  -- a block of inode `i` is not one of another inode
  have hapart : ∀ ip ip', Copy sb s' ip → Copy sb s' ip' → ip.inum = i → ip'.inum ≠ i → ip.d.type ≠ 0 →
      ip'.d.type ≠ 0 → ∀ x, Holds s'.blocks ip.d x → ¬ Holds s'.blocks ip'.d x := by
    intro ip ip' hc hc' hi hi' h0 h0' x hx hx'
    have hcs := (h.copy hi').mp hc'
    have hold := (holds_congr (h.untouched hs hcs hi' h0').ref).mp hx'
    obtain ⟨hlt, htype, hown⟩ := (hfile ip hc hi h0).2 x hx ((hs.file ip' hcs h0').owns.mem x hold)
    exact hs.apart _ ip' (copy_inodeAt hlt) hcs (Ne.symm hi') htype h0' x hown hold
  refine ⟨h.reserved, fun ip hc h0 => ?_, fun ip ip' hc hc' hne h0 h0' x hx hx' => ?_, fun dp hc ht => ?_⟩
  · by_cases hi : ip.inum = i
    · exact (hfile ip hc hi h0).1
    · have hcs := (h.copy hi).mp hc
      exact (h.untouched hs hcs hi h0).file (hs.file ip hcs h0) h.reserved
  · by_cases hi : ip.inum = i
    · exact hapart ip ip' hc hc' hi (fun he => hne (hi.trans he.symm)) h0 h0' x hx hx'
    · by_cases hi' : ip'.inum = i
      · exact hapart ip' ip hc' hc hi' hi h0' h0 x hx' hx
      · have hcs := (h.copy hi).mp hc
        have hcs' := (h.copy hi').mp hc'
        exact hs.apart ip ip' hcs hcs' hne h0 h0' x ((holds_congr (h.untouched hs hcs hi h0).ref).mp hx)
          ((holds_congr (h.untouched hs hcs' hi' h0').ref).mp hx')
  · by_cases hi : dp.inum = i
    · exact hdir dp hc hi ht
    · have hcs := (h.copy hi).mp hc
      have h0 : dp.d.type ≠ 0 := by
        rw [ht]
        decide
      exact (h.untouched hs hcs hi h0).dir (hs.dir dp hcs ht) h.reserved

/-! ## `iupdate` -/

theorem IBLOCK_lt (hsb : sb.Ok) (hn : n < sb.ninodes) : IBLOCK n sb < sb.bmapstart := by
  have h1 := hsb.inodes
  have h2 : n / IPB ≤ sb.ninodes / IPB := Nat.div_le_div_right hn.le
  unfold IBLOCK
  omega

theorem IBLOCK_not_data (hsb : sb.Ok) (hn : n < sb.ninodes) : ¬ sb.IsData (IBLOCK n sb) := fun hd =>
  Nat.lt_asymm (IBLOCK_lt hsb hn) ((Nat.le_add_right _ _).trans_lt hd.1)

theorem IBLOCK_not_bmap (hsb : sb.Ok) (hn : n < sb.ninodes) : ¬ sb.IsBmap (IBLOCK n sb) := fun hx =>
  absurd hx.1 (Nat.not_le.mpr (IBLOCK_lt hsb hn))

/-- Where the blocks in use are as before, so are the files. -/
theorem Untouched.of_inUse (ho : Owns (s.InUse sb) s.blocks ip.d)
    (h : ∀ x, s.InUse sb x → s'.InUse sb x ∧ s'.blocks x = s.blocks x) : Untouched sb s s' ip := by
  refine ⟨fun r hr => blockRef_congr (fun _ _ => rfl) (fun hi j _ => ?_) hr, fun x hx => h x (ho.mem x hx)⟩
  rw [(h _ (ho.mem _ (Holds.of_indirect hi))).2]

/-- What `iupdate` does to the disk. -/
theorem iupdate_inUse (hsb : sb.Ok) (hlt : ip.inum.toNat < sb.ninodes) (hx : s.InUse sb x) :
    (s.iupdate sb ip).InUse sb x ∧ (s.iupdate sb ip).blocks x = s.blocks x := by
  have hother : ∀ y, y ≠ IBLOCK ip.inum.toNat sb → (s.iupdate sb ip).blocks y = s.blocks y := fun y hy =>
    Function.update_of_ne hy _ _
  refine ⟨(inUse_congr fun y hy => hother y ?_).mpr hx, hother x ?_⟩
  · rintro rfl
    exact IBLOCK_not_bmap hsb hlt hy
  · rintro rfl
    exact IBLOCK_not_data hsb hlt hx.1

theorem dinodeAt_iupdate (sb : superblock) (s : Fs) (ip : inode) :
    (s.iupdate sb ip).dinodeAt sb ip.inum.toNat = ip.d := by
  unfold dinodeAt
  rw [show (s.iupdate sb ip).blocks (IBLOCK ip.inum.toNat sb) = _ from Function.update_self _ _ _,
    load_store_dinode]

theorem dinodeAt_iupdate_ne (hne : n ≠ ip.inum.toNat) :
    (s.iupdate sb ip).dinodeAt sb n = s.dinodeAt sb n := by
  unfold dinodeAt
  by_cases hb : IBLOCK n sb = IBLOCK ip.inum.toNat sb
  · rw [hb, show (s.iupdate sb ip).blocks (IBLOCK ip.inum.toNat sb) = _ from Function.update_self _ _ _]
    refine load_dinode_congr fun j hj => store_dinode_out ?_
    unfold IBLOCK at hb
    simp only [IPB] at hb ⊢
    omega
  · rw [show (s.iupdate sb ip).blocks (IBLOCK n sb) = _ from Function.update_of_ne hb _ _]

theorem Changes.refl (hres : s.Reserved sb) (i : UInt32) : Changes sb i s s :=
  ⟨hres, fun _ _ _ => rfl, fun _ hx _ => ⟨hx, rfl⟩⟩

theorem Changes.iupdate (hsb : sb.Ok) (h : Changes sb ip.inum s s') (hlt : ip.inum.toNat < sb.ninodes) :
    Changes sb ip.inum s (s'.iupdate sb ip) := by
  refine ⟨fun x hx hnot => ?_, fun m hm hne => ?_, fun x hx hnot => ?_⟩
  · refine (used_congr (fun y hy => Function.update_of_ne ?_ _ _) hx).mpr (h.reserved x hx hnot)
    rintro rfl
    exact IBLOCK_not_bmap hsb hlt hy
  · rw [dinodeAt_iupdate_ne hne]
    exact h.dinodes m hm hne
  · obtain ⟨hx', heq⟩ := h.frame x hx hnot
    obtain ⟨hx'', heq'⟩ := iupdate_inUse hsb hlt hx'
    exact ⟨hx'', heq'.trans heq⟩

/-- **`iupdate`** of a file that has its own blocks. -/
theorem DiskOk.iupdate (hsb : sb.Ok) (hs : DiskOk sb s) (hlt : ip.inum.toNat < sb.ninodes)
    (hfile : ip.d.type ≠ 0 → FileOk sb ip s ∧ ∀ x, Holds s.blocks ip.d x → Held sb s ip.inum x)
    (hdir : ip.d.type = T_DIR → DirOk sb ip s) : DiskOk sb (s.iupdate sb ip) := by
  have hch := (Changes.refl hs.reserved ip.inum).iupdate hsb hlt
  have hd : ∀ ip', Copy sb (s.iupdate sb ip) ip' → ip'.inum = ip.inum → ip'.d = ip.d := fun ip' hc hi => by
    rw [hc.d, hi, dinodeAt_iupdate]
  have hun : ip.d.type ≠ 0 → Untouched sb s (s.iupdate sb ip) ip := fun h0 =>
    .of_inUse (hfile h0).1.owns fun x hx => iupdate_inUse hsb hlt hx
  refine hch.diskOk hs (fun ip' hc hi h0 => ?_) fun dp hc hi ht => ?_
  · have heq := hd ip' hc hi
    rw [heq] at h0 ⊢
    refine ⟨((hun h0).file (hfile h0).1 hch.reserved).congr heq hi, fun x hx _ => ?_⟩
    exact (hfile h0).2 x ((holds_congr (hun h0).ref).mp hx)
  · have heq := hd dp hc hi
    rw [heq] at ht
    have h0 : ip.d.type ≠ 0 := by
      rw [ht]
      decide
    exact ((hun h0).dir (hdir ht) hch.reserved).congr heq hi

/-! ## `writei` -/

theorem Copy.held (hc : Copy sb s ip) (h0 : ip.d.type ≠ 0) :
    Held sb s ip.inum x ↔ Holds s.blocks ip.d x := by
  unfold Held
  rw [← hc.d]
  exact ⟨fun h => h.2.2, fun h => ⟨hc.lt, h0, h⟩⟩

/-- An operation on a file changes no other. -/
theorem Advance.changes (hsb : sb.Ok) (ha : Advance sb ip ip' s s') (hc : Copy sb s ip)
    (h0 : ip.d.type ≠ 0) : Changes sb ip.inum s s' := by
  refine ⟨ha.file.reserved, fun m hm hne => ?_, fun x hx hnot => ⟨?_, ha.grow.frame x hx ?_⟩⟩
  · unfold dinodeAt
    by_cases hb : IBLOCK m sb = Fs.iblock sb ip
    · rw [hb]
      refine load_dinode_congr fun j hj => ha.dinodes _ ?_
      unfold Fs.iblock IBLOCK at hb
      simp only [IPB] at hb ⊢
      omega
    · rw [ha.others _ (IBLOCK_not_data hsb hm) (IBLOCK_not_bmap hsb hm) hb]
  · exact (ha.grow.used x).mpr (Or.inl hx)
  · exact fun hh => hnot ((hc.held h0).mpr hh)

theorem DiskOk.advance (hsb : sb.Ok) (hs : DiskOk sb s) (ha : Advance sb ip ip' s s') (hc : Copy sb s ip)
    (h0 : ip.d.type ≠ 0) (hsaved : s'.dinodeAt sb ip.inum.toNat = ip'.d)
    (hdir : ip'.d.type = T_DIR → DirOk sb ip' s') : DiskOk sb s' := by
  have hd : ∀ jp, Copy sb s' jp → jp.inum = ip.inum → jp.d = ip'.d := fun jp hj hi => by
    rw [hj.d, hi, hsaved]
  have hinum : ip'.inum = ip.inum := ha.inum
  refine (ha.changes hsb hc h0).diskOk hs (fun jp hj hi _ => ?_) fun dp hj hi ht => ?_
  · have heq := hd jp hj hi
    refine ⟨ha.file.congr heq (hi.trans hinum.symm), fun x hx hU => ?_⟩
    rw [heq] at hx
    exact (hc.held h0).mpr (ha.grow.holds_of_used hU hx)
  · have heq := hd dp hj hi
    rw [heq] at ht
    exact (hdir ht).congr heq (hi.trans hinum.symm)

/-! ## `itrunc` -/

/-- Some blocks of `X` have been freed. -/
structure Freed (sb : superblock) (X : ℕ → Prop) (s s' : Fs) : Prop where
  blocks : ∀ x, ¬ sb.IsBmap x → s'.blocks x = s.blocks x
  used : ∀ x < sb.size, ¬ X x → s.Used sb x → s'.Used sb x

theorem Freed.refl (X : ℕ → Prop) : Freed sb X s s := ⟨fun _ _ => rfl, fun _ _ _ h => h⟩

theorem Freed.trans {X : ℕ → Prop} (h : Freed sb X s s') (h' : Freed sb X s' s'') : Freed sb X s s'' :=
  ⟨fun x hx => (h'.blocks x hx).trans (h.blocks x hx), fun x hx hn hu => h'.used x hx hn (h.used x hx hn hu)⟩

theorem bfree_freed {X : ℕ → Prop} (hb : b < sb.size) (hX : X b) (h : s.bfree sb b = .ok s') :
    Freed sb X s s' := by
  unfold bfree at h
  dsimp only at h
  split_ifs at h
  cases h
  have hself : ∀ data, (s.log_write (BBLOCK b sb) data).blocks (BBLOCK b sb) = data := fun data =>
    Function.update_self _ _ _
  have hne : ∀ data x, x ≠ BBLOCK b sb → (s.log_write (BBLOCK b sb) data).blocks x = s.blocks x :=
    fun data x hx => Function.update_of_ne hx _ _
  refine ⟨fun x hx => hne _ x ?_, fun x hx hn hu => ?_⟩
  · rintro rfl
    exact hx (bblock_isBmap hb)
  · unfold Used at hu ⊢
    by_cases hbb : BBLOCK x sb = BBLOCK b sb
    · have hmod : x % BPB ≠ b % BPB := by
        unfold BBLOCK at hbb
        have h1 := Nat.div_add_mod x BPB
        have h2 := Nat.div_add_mod b BPB
        intro hmod
        rw [Nat.add_right_cancel hbb, hmod] at h1
        exact hn (h1.symm.trans h2 ▸ hX)
      rw [hbb] at hu ⊢
      rw [hself, ByteStore.bit_clearBit_of_ne hmod]
      exact hu
    · rw [hne _ _ hbb]
      exact hu

theorem truncDirect_freed {X : ℕ → Prop} {j : ℕ} (hj : j + n ≤ NDIRECT)
    (hX : ∀ k ≤ NDIRECT, ip.d.addr k ≠ 0 → X (ip.d.addr k) ∧ ip.d.addr k < sb.size)
    (h : s.truncDirect sb n j ip = .ok (ip', s')) :
    Freed sb X s s' ∧ ip'.d.addr NDIRECT = ip.d.addr NDIRECT := by
  induction n generalizing j ip s with
  | zero =>
    cases h
    exact ⟨.refl X, rfl⟩
  | succ n ih =>
    unfold truncDirect at h
    split_ifs at h with h0
    · obtain ⟨s₁, hb, h⟩ := bind_ok h
      have hset : ∀ k, (ip.d.setAddr j 0).addr k = if k = j then 0 else ip.d.addr k := fun k =>
        dinode.addr_setAddr (by omega) (by decide)
      have hX' : ∀ k ≤ NDIRECT, (ip.d.setAddr j 0).addr k ≠ 0 →
          X ((ip.d.setAddr j 0).addr k) ∧ (ip.d.setAddr j 0).addr k < sb.size := fun k hk hk0 => by
        have hkj : k ≠ j := fun hkj => hk0 ((hset k).trans (if_pos hkj))
        rw [hset, if_neg hkj] at hk0 ⊢
        exact hX k hk hk0
      obtain ⟨hf, haddr⟩ := ih (by omega) hX' h
      have hind : (ip.d.setAddr j 0).addr NDIRECT = ip.d.addr NDIRECT := by
        rw [hset, if_neg (by omega)]
      exact ⟨(bfree_freed (hX j (by omega) h0).2 (hX j (by omega) h0).1 hb).trans hf, haddr.trans hind⟩
    · exact ih (by omega) hX h

theorem truncIndirect_freed {X : ℕ → Prop} {ind j : ℕ} (hj : j + n ≤ NINDIRECT) (hind : ¬ sb.IsBmap ind)
    (hX : ∀ k < NINDIRECT, (s.blocks ind).load (4 * k) 4 ≠ 0 →
      X ((s.blocks ind).load (4 * k) 4) ∧ (s.blocks ind).load (4 * k) 4 < sb.size)
    (h : s.truncIndirect sb ind n j = .ok s') : Freed sb X s s' := by
  induction n generalizing j s with
  | zero =>
    cases h
    exact .refl X
  | succ n ih =>
    unfold truncIndirect at h
    dsimp only at h
    split_ifs at h with h0
    · obtain ⟨s₁, hb, h⟩ := bind_ok h
      have hf := bfree_freed (hX j (by omega) h0).2 (hX j (by omega) h0).1 hb
      refine hf.trans (ih (by omega) ?_ h)
      rw [hf.blocks ind hind]
      exact hX
    · exact ih (by omega) hX h

/-- **`itrunc`** frees blocks of the file, and nothing else. -/
theorem itrunc_freed (hf : FileOk sb ip s) (h : s.itrunc sb ip = .ok (ip', s')) :
    ∃ s₁, Freed sb (Holds s.blocks ip.d) s s₁ ∧ s' = s₁.iupdate sb ip' := by
  have hdata : ∀ x, Holds s.blocks ip.d x → sb.IsData x := fun x hx => (hf.owns.mem x hx).1
  unfold itrunc at h
  obtain ⟨⟨ip₁, s₁⟩, h₁, h⟩ := bind_ok h
  obtain ⟨⟨ip₂, s₂⟩, h₂, h⟩ := bind_ok h
  cases h
  obtain ⟨hf₁, hind⟩ := truncDirect_freed (X := Holds s.blocks ip.d) (Nat.zero_add _).le (fun k hk hk0 => by
    have hx : Holds s.blocks ip.d (ip.d.addr k) :=
      ⟨hk0, k, hk.trans_lt (by decide), by rw [blockRef, if_pos hk]⟩
    exact ⟨hx, (hdata _ hx).2⟩) h₁
  rw [hind] at h₂
  split_ifs at h₂ with h0
  · obtain ⟨s₃, h₃, h₂⟩ := bind_ok h₂
    obtain ⟨s₄, h₄, h₂⟩ := bind_ok h₂
    cases h₂
    have hhold := Holds.of_indirect (B := s.blocks) h0
    have hnb := data_not_bmap (hdata _ hhold)
    have hf₃ : Freed sb (Holds s.blocks ip.d) s₁ s₃ := by
      refine truncIndirect_freed (Nat.zero_add _).le hnb (fun k hk hk0 => ?_) h₃
      rw [hf₁.blocks _ hnb, ← blockRef_indirect h0] at hk0 ⊢
      have hx : Holds s.blocks ip.d (blockRef s.blocks ip.d (NDIRECT + 1 + k)) :=
        ⟨hk0, _, by simp only [NREF, MAXFILE, NINDIRECT, NDIRECT] at *; omega, rfl⟩
      exact ⟨hx, (hdata _ hx).2⟩
    exact ⟨_, (hf₁.trans hf₃).trans (bfree_freed (hdata _ hhold).2 hhold h₄), rfl⟩
  · cases h₂
    exact ⟨s₁, hf₁, rfl⟩

/-- **Freeing**: the blocks of the file are given up, and the inode has no type. -/
theorem DiskOk.discard (hsb : sb.Ok) (hs : DiskOk sb s) (hc : Copy sb s ip) (h0 : ip.d.type ≠ 0)
    (h : s.itrunc sb ip = .ok (ip', s')) {i : inode} (hi : i.inum = ip.inum) (hi0 : i.d.type = 0) :
    DiskOk sb (s'.iupdate sb i) ∧ Changes sb ip.inum s (s'.iupdate sb i) := by
  have hf := hs.file ip hc h0
  obtain ⟨s₁, hfreed, rfl⟩ := itrunc_freed hf h
  obtain ⟨d, rfl⟩ := itrunc_same h
  have hch₁ : Changes sb ip.inum s s₁ := by
    refine ⟨fun x hx hnot => ?_, fun m hm _ => ?_, fun x hx hnot => ?_⟩
    · exact hfreed.used x hx (fun hh => hnot (hf.owns.mem x hh).1) (hs.reserved x hx hnot)
    · unfold dinodeAt
      rw [hfreed.blocks _ (IBLOCK_not_bmap hsb hm)]
    · refine ⟨⟨hx.1, hfreed.used x hx.1.2 (fun hh => hnot ((hc.held h0).mpr hh)) hx.2⟩, ?_⟩
      exact hfreed.blocks x (data_not_bmap hx.1)
  have hch₂ : Changes sb ip.inum s (s₁.iupdate sb { ip with d := d }) :=
    @Changes.iupdate _ _ _ { ip with d := d } hsb hch₁ hc.lt
  have hch : Changes sb ip.inum s ((s₁.iupdate sb { ip with d := d }).iupdate sb i) := by
    rw [← hi] at hch₂ ⊢
    exact hch₂.iupdate hsb (hi ▸ hc.lt)
  have hfree : ∀ jp, Copy sb ((s₁.iupdate sb { ip with d := d }).iupdate sb i) jp → jp.inum = ip.inum →
      jp.d.type = 0 := fun jp hj hji => by
    rw [hj.d, hji, ← hi, dinodeAt_iupdate]
    exact hi0
  refine ⟨hch.diskOk hs (fun jp hj hji hj0 => absurd (hfree jp hj hji) hj0) fun jp hj hji ht => ?_, hch⟩
  rw [hfree jp hj hji] at ht
  exact absurd ht (by decide)

/-! ## Links -/

/-- The inodes not in `D` look the same. -/
def SameBut (sb : superblock) (D : Set UInt32) (s s' : Fs) : Prop :=
  ∀ m : UInt32, m.toNat < sb.ninodes → m ∉ D → SameInode sb 0 s s' m

theorem SameBut.refl (sb : superblock) (s : Fs) : SameBut sb ∅ s s := fun _ _ _ => .refl sb s _

theorem SameBut.trans {D D' : Set UInt32} (h : SameBut sb D s s') (h' : SameBut sb D' s' s'') :
    SameBut sb (D ∪ D') s s'' := fun m hm hD =>
  (h m hm fun hd => hD (Or.inl hd)).trans (h' m hm fun hd => hD (Or.inr hd))

theorem Changes.sameBut (h : Changes sb i s s') (hs : DiskOk sb s) : SameBut sb {i} s s' :=
  fun _ hm hne => h.same hs hm hne

/-- The entries of a directory that looks the same. -/
theorem SameInode.slots {k : Int16} {j : ℕ} (h : SameInode sb k s s' i) (hs : DiskOk sb s)
    (hi : i.toNat < sb.ninodes) (h0 : (s.dinodeAt sb i.toNat).type ≠ 0)
    (hj : j < Fs.entries (s.inodeAt sb i)) :
    s'.slots (s'.inodeAt sb i) j = s.slots (s.inodeAt sb i) j :=
  slots_same (h.bytes h0) (hs.file _ (copy_inodeAt hi) h0) hj

theorem SameInode.entries {k : Int16} (h : SameInode sb k s s' i) (h0 : (s.dinodeAt sb i.toNat).type ≠ 0) :
    Fs.entries (s'.inodeAt sb i) = Fs.entries (s.inodeAt sb i) := by
  unfold Fs.entries inodeAt
  rw [h.size h0]

/-- A file with other numbers that are not about its contents. -/
theorem FileOk.relink {a b c : Int16} (h : FileOk sb ip s) :
    FileOk sb { ip with d := { ip.d with major := a, minor := b, nlink := c } } s :=
  ⟨⟨h.owns.inj, h.owns.mem⟩, h.reserved, h.size, h.inum⟩

theorem DirOk.relink {a b c : Int16} (h : DirOk sb dp s) :
    DirOk sb { dp with d := { dp.d with major := a, minor := b, nlink := c } } s :=
  ⟨h.file.relink, h.type, h.whole, h.noHole, h.distinct⟩

/-- `iupdate` with another number of links. -/
theorem DiskOk.relink {a b c : Int16} (hsb : sb.Ok) (hs : DiskOk sb s) (hc : Copy sb s ip)
    (h0 : ip.d.type ≠ 0) (hip : ip' = { ip with d := { ip.d with major := a, minor := b, nlink := c } }) :
    DiskOk sb (s.iupdate sb ip') ∧ Changes sb ip.inum s (s.iupdate sb ip') ∧
      (s.iupdate sb ip').dinodeAt sb ip.inum.toNat = ip'.d ∧
      ∀ k, c = ip.d.nlink + k → SameInode sb k s (s.iupdate sb ip') ip.inum := by
  have hinum : ip'.inum = ip.inum := by rw [hip]
  have hfile : FileOk sb ip' s := by
    rw [hip]
    exact (hs.file ip hc h0).relink
  have hsaved := dinodeAt_iupdate sb s ip'
  have hch : Changes sb ip'.inum s (s.iupdate sb ip') :=
    (Changes.refl hs.reserved ip'.inum).iupdate hsb (hinum ▸ hc.lt)
  rw [hinum] at hsaved hch
  refine ⟨hs.iupdate hsb (hinum ▸ hc.lt) (fun _ => ⟨hfile, fun x hx => ?_⟩) fun ht => ?_, hch, hsaved,
    fun k hk => ?_⟩
  · rw [hinum]
    rw [hip] at hx
    exact (hc.held h0).mpr hx
  · rw [hip] at ht ⊢
    exact (hs.dir ip hc ht).relink
  · have hbytes := (Untouched.of_inUse (hs.file ip hc h0).owns fun x hx =>
      @iupdate_inUse _ _ ip' _ hsb (hinum ▸ hc.lt) hx).sameBytes
    refine ⟨?_, fun _ => ?_, fun _ => ?_, fun _ => ?_⟩
    · rw [hsaved, ← hc.d, hip]
    · rw [hsaved, ← hc.d, hip]
      exact hk
    · rw [hsaved, ← hc.d, hip]
    · rw [hsaved, ← hc.d]
      rw [hip] at hbytes ⊢
      exact hbytes

/-! ## Directories -/

/-- The rest of `isdirempty`. -/
theorem DirOk.emptyDirLoop {fuel k : ℕ} {e : Bool} (h : DirOk sb dp s)
    (he : s.emptyDirLoop sb fuel (16 * k) dp = .ok (e, ip', s')) : ip' = dp ∧ s' = s := by
  induction fuel generalizing k with
  | zero =>
    cases he
    exact ⟨rfl, rfl⟩
  | succ fuel ih =>
    unfold Fs.emptyDirLoop at he
    split_ifs at he with hlt
    · obtain ⟨de, hread, -⟩ := h.read_entry (h.entry_lt.mp hlt)
      rw [hread, ok_bind] at he
      dsimp only at he
      rw [if_neg (by decide)] at he
      split_ifs at he
      · cases he
        exact ⟨rfl, rfl⟩
      · exact @ih (k + 1) he
    · cases he
      exact ⟨rfl, rfl⟩

/-- **`isdirempty`** only reads. -/
theorem DirOk.isdirempty {e : Bool} (h : DirOk sb dp s) (he : s.isdirempty sb dp = .ok (e, ip', s')) :
    ip' = dp ∧ s' = s := @emptyDirLoop _ _ _ _ _ _ 2 e h he

/-- **A new entry** is written, or the directory looks as before. -/
theorem DiskOk.link {name : ℕ → UInt8} {inum off : ℕ} {dp' : inode} {r : ℤ} (hsb : sb.Ok)
    (hs : DiskOk sb s) (hc : Copy sb s dp) (ht : dp.d.type = T_DIR)
    (hnone : SlotMap.find (s.slots dp) (entries dp) (cstr DIRSIZ name) = none)
    (he : s.emptyLoop sb dp.d.size.toNat 0 dp = .ok (off, ip, s'))
    (hw : s'.writei sb (fun k => some ((strncpy (fun _ => 0) 2 name DIRSIZ).store 0 2 inum k)) off 16 ip =
      .ok (r, dp', s'')) :
    DiskOk sb s'' ∧ Changes sb dp.inum s s'' ∧ s''.dinodeAt sb dp.inum.toNat = dp'.d ∧
      dp'.d.type = dp.d.type ∧ dp'.d.nlink = dp.d.nlink ∧ (r ≠ 16 → SameInode sb 0 s s'' dp.inum) ∧
        (r = 16 ↔ HasSpace sb dp s) := by
  have hd := hs.dir dp hc ht
  have h0 : dp.d.type ≠ 0 := by
    rw [ht]
    decide
  have hle : entries dp ≤ 0 + dp.d.size.toNat := by
    unfold entries
    omega
  obtain ⟨k, hloop, hk, hfree, hfull⟩ := hd.emptyLoop dp.d.size.toNat 0 hle (Nat.zero_le _)
  rw [Nat.mul_zero, he] at hloop
  injection hloop with hloop
  rw [Prod.mk.injEq, Prod.mk.injEq] at hloop
  rw [hloop.1, hloop.2.1, hloop.2.2] at hw
  obtain ⟨hadv, hd', hsaved, hsame, hspace⟩ := hd.put hsb hk (fun key v hkey => named_link hkey ▸ hnone) hw
  have hat : s''.dinodeAt sb dp.inum.toNat = dp'.d := by
    obtain ⟨hdp, hs'⟩ | hsaved := hsaved
    · rw [hdp, hs']
      exact hc.d.symm
    · exact hsaved
  refine ⟨hs.advance hsb hadv hc h0 hat fun _ => hd', hadv.changes hsb hc h0, hat, hadv.type, ?_,
    fun hr => ?_, hspace.trans (hd.hasSpace_iff hk hfree hfull).symm⟩
  · obtain ⟨a, n, rfl⟩ := hadv.fields
    rfl
  obtain ⟨hsize, hbytes⟩ := hsame hr
  obtain ⟨a, n, rfl⟩ := hadv.fields
  refine ⟨?_, fun _ => ?_, fun _ => ?_, fun _ => ?_⟩
  · rw [hat, ← hc.d]
  · rw [hat, ← hc.d, Int16.add_zero]
  · rw [hat, ← hc.d]
    exact hsize
  · rw [hat, ← hc.d]
    exact hbytes

/-- Where the bitmap is as before, so is the space for an entry. -/
theorem Untouched.hasSpace (h : Untouched sb s s' dp) (hf : FileOk sb dp s)
    (hbits : ∀ x, sb.IsBmap x → s'.blocks x = s.blocks x) : HasSpace sb dp s' ↔ HasSpace sb dp s := by
  have hfree : s'.free sb = s.free sb := by
    unfold free
    congr 1
    exact Finset.filter_congr fun x hx => not_congr (used_congr hbits (Finset.mem_range.mp hx))
  have hslots : (∃ k < entries dp, s'.slots dp k = none) ↔ ∃ k < entries dp, s.slots dp k = none :=
    exists_congr fun k => and_congr_right fun hk => by rw [slots_same h.sameBytes hf hk]
  refine or_congr hslots (and_congr_right fun hmax => ?_)
  have hbn : dp.d.size.toNat / BSIZE < MAXFILE := Nat.div_lt_of_lt_mul (by simp only [BSIZE] at *; omega)
  have hmissing : s'.missing dp (dp.d.size.toNat / BSIZE) = s.missing dp (dp.d.size.toNat / BSIZE) := by
    unfold missing Layout.slot
    rw [h.ref _ (slotOf_lt hbn)]
  rw [hmissing, hfree]

theorem hasSpace_congr {dp' : inode} (hd : dp'.d = dp.d) : HasSpace sb dp' s ↔ HasSpace sb dp s := by
  unfold HasSpace missing entries
  rw [slots_congr hd, hd]

theorem DiskOk.hasSpace_iupdate (hsb : sb.Ok) (hs : DiskOk sb s) (hc : Copy sb s dp) (h0 : dp.d.type ≠ 0)
    (hlt : ip.inum.toNat < sb.ninodes) : HasSpace sb dp (s.iupdate sb ip) ↔ HasSpace sb dp s := by
  have hf := hs.file dp hc h0
  refine (Untouched.of_inUse hf.owns fun x hx => iupdate_inUse hsb hlt hx).hasSpace hf fun x hx => ?_
  refine Function.update_of_ne ?_ _ _
  rintro rfl
  exact IBLOCK_not_bmap hsb hlt hx

/-- An inode without blocks. -/
theorem not_holds {B : ℕ → Block} (hd : ∀ i, d.addr i = 0) : ¬ Holds B d x := by
  rintro ⟨h0, r, -, rfl⟩
  refine h0 ?_
  rw [blockRef, hd, hd, if_pos rfl, ite_self]

/-- **A new inode** gets its type. -/
theorem DiskOk.fresh {type nlink : Int16} (hsb : sb.Ok) (hs : DiskOk sb s) (hlt : ip.inum.toNat < sb.ninodes)
    (hip : ip.d = { dinode.zero with type := type, nlink := nlink }) :
    DiskOk sb (s.iupdate sb ip) ∧ Changes sb ip.inum s (s.iupdate sb ip) := by
  have hno : ∀ B x, ¬ Holds B ip.d x := fun B x => by
    refine not_holds fun i => ?_
    rw [hip]
    unfold dinode.addr
    split <;> rfl
  have hfile : FileOk sb ip s := by
    refine ⟨⟨fun r hr r' _ _ h0 => absurd (Holds.of_ref hr h0) (hno _ _), fun x hx => absurd hx (hno _ x)⟩,
      hs.reserved, ?_, hlt⟩
    rw [hip]
    exact Nat.zero_le _
  refine ⟨hs.iupdate hsb hlt (fun _ => ⟨hfile, fun x hx => absurd hx (hno _ x)⟩) fun ht => ?_,
    (Changes.refl hs.reserved ip.inum).iupdate hsb hlt⟩
  have hsize : ip.d.size.toNat = 0 := by
    rw [hip]
    rfl
  refine ⟨hfile, ht, by rw [hsize], fun i hi => ?_, fun i hi => ?_⟩
  · omega
  · unfold entries at hi
    omega

/-! ## An empty root directory -/

theorem dinodeAt_empty (hn : n < mkfsSb.ninodes) : (empty.dinodeAt mkfsSb n).type = 0 := by
  have hb : empty.blocks (IBLOCK n mkfsSb) = fun _ => 0 := by
    funext i
    have hlt := IBLOCK_lt mkfsSb_ok hn
    have h45 : mkfsSb.bmapstart = 45 := rfl
    simp only [empty]
    rw [if_neg (by omega)]
  unfold dinodeAt
  rw [hb]
  unfold dinode.load
  dsimp only
  rw [ByteStore.load_zero fun _ _ => rfl]
  rfl

theorem diskOk_empty : DiskOk mkfsSb empty := by
  have hfree : ∀ ip, Copy mkfsSb empty ip → ip.d.type = 0 := fun ip hc => by
    rw [hc.d]
    exact dinodeAt_empty hc.lt
  refine ⟨(@emptyInode_ok 0 0 (by decide)).reserved, fun ip hc h0 => absurd (hfree ip hc) h0,
    fun ip _ hc _ _ h0 => absurd (hfree ip hc) h0, fun dp hc ht => ?_⟩
  rw [hfree dp hc] at ht
  exact absurd ht (by decide)

/-- The root directory, as the only inode. -/
def rootDir : inode :=
  { dev := ROOTDEV, inum := ROOTINO, ref := 1, lock := none, valid := false,
    d := { dinode.zero with type := T_DIR, nlink := 1 } }

theorem diskOk_rootDir : DiskOk mkfsSb (empty.iupdate mkfsSb rootDir) :=
  (diskOk_empty.fresh mkfsSb_ok (by decide) rfl).1

theorem dinodeAt_rootDir (n : ℕ) : (empty.iupdate mkfsSb rootDir).dinodeAt mkfsSb n =
    if n = 1 then rootDir.d else empty.dinodeAt mkfsSb n := by
  by_cases h1 : n = 1
  · rw [if_pos h1, h1]
    exact dinodeAt_iupdate mkfsSb empty rootDir
  · rw [if_neg h1]
    exact dinodeAt_iupdate_ne h1

end Fs

end Xv6
