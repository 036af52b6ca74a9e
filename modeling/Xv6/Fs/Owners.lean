import Xv6.Fs.Blocks
import Xv6.Fs.Create
import Xv6.Fs.DirMap

/-!
# Owners — the blocks of the disk in every state of a run

`Sound`: what holds of the inode table and the disk between the calls.  Every call of the inode layer keeps
it, and so no block is lost, none has two owners, and no file has a hole.
-/

namespace Xv6

namespace Volume

variable {sb : superblock} {p : ℕ} {ip dp : Fin NINODE} {s s₀ t u : Volume} {i : Xv6.inode} {fs : Fs}
  {inum : UInt32} {name : ℕ → UInt8} {n : ℕ} {r : ℤ} {o : InodeOp}

structure Sound (sb : superblock) (s : Volume) : Prop where
  ok : Ok sb s
  tidy : s.fs.Tidy sb
  used : ∀ ip, 0 < (s.inode ip).ref → (s.fs.dinodeAt sb (s.inode ip).inum.toNat).type ≠ 0

/-- A call looks for an inode of the disk that is in use. -/
def Known (sb : superblock) (s : Volume) : InodeOp → Prop
  | .iget inum => inum.toNat < sb.ninodes ∧ (s.fs.dinodeAt sb inum.toNat).type ≠ 0
  | _ => True

instance (sb : superblock) (s : Volume) : (o : InodeOp) → Decidable (Known sb s o)
  | .iget _ => inferInstanceAs (Decidable (_ ∧ _))
  | .idup _ | .ilock _ _ | .iunlock _ _ | .iput _ _ | .ialloc _ | .readi .. | .writei .. | .itrunc _ _
  | .relink .. | .dirlink .. | .unlink .. => inferInstanceAs (Decidable True)

/-! ## One call -/

/-- The disk is as before. -/
theorem Sound.sameFs (h : Sound sb s) (hok : Ok sb t) (hfs : t.fs = s.fs)
    (hinum : ∀ ip, 0 < (t.inode ip).ref → (t.fs.dinodeAt sb (t.inode ip).inum.toNat).type ≠ 0) : Sound sb t :=
  ⟨hok, hfs ▸ h.tidy, hinum⟩

/-- One inode is written, and keeps its type. -/
theorem Sound.contents (h : Sound sb s) (hl : (s.inode ip).lock ≠ none) (hi : Fs.SameEntry (s.inode ip) i)
    (ht : fs.Tidy sb) (hch : Fs.Changes sb (s.inode ip).inum s.fs fs)
    (hat : fs.dinodeAt sb (s.inode ip).inum.toNat = i.d) (htype : i.d.type = (s.inode ip).d.type) :
    Sound sb (s.set ip i fs) := by
  obtain ⟨href, hv⟩ := h.ok.locked ip hl
  have h0 := (h.ok.copy ip href hv).2
  obtain ⟨d, rfl⟩ := hi
  refine ⟨?_, ht, fun jp hj => ?_⟩
  · exact h.ok.set ht.disk hch.dinodes (fun _ => h.ok.entry ip href) (h.ok.unique_ne href)
      (fun _ _ => ⟨hat.symm, by rw [htype]; exact h0⟩) fun _ => h.ok.locked ip hl
  · rw [set_fs]
    by_cases hjp : jp = ip
    · rw [hjp, set_self]
      dsimp only
      rw [hat, htype]
      exact h0
    · rw [set_ne hjp] at hj ⊢
      rw [hch.dinodes _ (h.ok.entry jp hj).2 fun he => h.ok.unique_ne href jp hjp hj (UInt32.toNat_inj.mp he)]
      exact h.used jp hj

theorem Sound.iget (h : Sound sb s) (hn : inum.toNat < sb.ninodes)
    (h0 : (s.fs.dinodeAt sb inum.toNat).type ≠ 0) (hg : s.iget ROOTDEV inum = .ok (ip, t)) : Sound sb t := by
  obtain ⟨hok, hfs, -, hinum⟩ := h.ok.iget hn hg
  refine h.sameFs hok hfs fun jp hj => ?_
  rw [hfs]
  by_cases hjp : jp = ip
  · rw [hjp, hinum]
    exact h0
  · obtain ⟨i, rfl, -⟩ := iget_ok hg
    rw [setInode_ne hjp] at hj ⊢
    exact h.used jp hj

/-- A call that keeps the disk, and the inode of every reference. -/
theorem Sound.took {refs locks : List (Fin NINODE)} (h : Sound sb s) (hok : Ok sb t) (hfs : t.fs = s.fs)
    (htook : Took p refs locks s t) (hin : ∀ jp ∈ refs, 0 < (s.inode jp).ref) : Sound sb t := by
  refine h.sameFs hok hfs fun jp hj => ?_
  rw [htook.ref] at hj
  have hs : 0 < (s.inode jp).ref := by
    by_cases hjp : jp ∈ refs
    · exact hin jp hjp
    · rwa [List.count_eq_zero_of_not_mem hjp] at hj
  rw [hfs, (htook.same jp hs).2]
  exact h.used jp hs

theorem Sound.idup (h : Sound sb s) (href : 0 < (s.inode ip).ref) : Sound sb (s.idup ip) :=
  h.took (h.ok.idup href) rfl ((Took.refl 0 s).idup ip) fun jp hj => by
    rwa [List.mem_singleton.mp hj]

theorem Sound.ilock (h : Sound sb s) (hl : s.ilock sb p ip = .ok t) : Sound sb t :=
  h.took (h.ok.ilock hl).1 (h.ok.ilock hl).2.1 ((Took.refl p s).ilock hl).1 fun _ hj =>
    absurd hj List.not_mem_nil

theorem Sound.iunlock (h : Sound sb s) (hu : s.iunlock p ip = .ok t) : Sound sb t := by
  obtain ⟨hok, hfs⟩ := h.ok.iunlock hu
  obtain ⟨-, rfl⟩ := iunlock_ok hu
  refine h.sameFs hok hfs fun jp hj => ?_
  by_cases hjp : jp = ip
  · rw [hjp, setInode_self] at hj ⊢
    exact h.used ip hj
  · rw [setInode_ne hjp] at hj ⊢
    exact h.used jp hj

/-- **`iput`** gives up a reference, or the inode and its blocks. -/
theorem Sound.iput (hsb : sb.Ok) (h : Sound sb s) (href : 0 < (s.inode ip).ref)
    (hlock : (s.inode ip).lock ≠ none → 1 < (s.inode ip).ref) (hp : s.iput sb p ip = .ok t) : Sound sb t := by
  by_cases hlast : (s.inode ip).ref = 1 ∧ (s.inode ip).valid = true ∧ (s.inode ip).d.nlink = 0
  · obtain ⟨hok, hch, -⟩ := h.ok.iput_free hsb hlast hp
    have hc := h.ok.isCopy href hlast.2.1
    have h0 := (h.ok.copy ip href hlast.2.1).2
    obtain ⟨-, -, -, -, i, fs, hi, rfl⟩ | ⟨hnot, -⟩ := iput_ok hp
    swap
    · exact absurd hlast hnot
    obtain ⟨d, rfl⟩ := Fs.itrunc_same hi
    have hcl : Fs.Copy sb s.fs { s.inode ip with lock := some p } := ⟨hc.lt, hc.d⟩
    refine ⟨hok, h.tidy.discard hsb hcl h0 hi rfl rfl, fun jp hj => ?_⟩
    by_cases hjp : jp = ip
    · have h1 := hlast.1
      rw [hjp, set_self] at hj
      dsimp only at hj
      omega
    · rw [set_ne hjp] at hj ⊢
      rw [hch.dinodes _ (h.ok.entry jp hj).2 fun he => h.ok.unique_ne href jp hjp hj (UInt32.toNat_inj.mp he)]
      exact h.used jp hj
  · obtain ⟨hok, hfs⟩ := h.ok.iput href hlast hlock hp
    obtain ⟨h1, h2, h3, -⟩ | ⟨-, rfl⟩ := iput_ok hp
    · exact absurd ⟨h1, h2, h3⟩ hlast
    refine h.sameFs hok hfs fun jp hj => ?_
    by_cases hjp : jp = ip
    · rw [hjp, setInode_self]
      exact h.used ip href
    · rw [setInode_ne hjp] at hj ⊢
      exact h.used jp hj

theorem Sound.ialloc {type : Int16} {j : Option (Fin NINODE)} (hsb : sb.Ok) (hn : sb.ninodes < 2 ^ 32)
    (hn1 : 0 < sb.ninodes) (h : Sound sb s) (h0 : type ≠ 0) (ha : s.ialloc sb ROOTDEV type = .ok (j, t)) :
    Sound sb t := by
  obtain ⟨-, rfl, -⟩ | ⟨ip, -, hok, href, hother, hbut, hlt, -, hfree, hat, ⟨j, hj, hfs⟩, -⟩ :=
    h.ok.ialloc (p := 0) hsb hn hn1 h.used ha
  · exact h
  have hjd : j.d = { dinode.zero with type := type } := by
    rw [← hat, hfs, ← hj, Fs.dinodeAt_iupdate]
  have htidy : t.fs.Tidy sb := by
    rw [hfs]
    exact h.tidy.fresh hsb (hj ▸ hlt) (hj ▸ hfree) hjd
  refine ⟨hok, htidy, fun jp hjp => ?_⟩
  by_cases hip : jp = ip
  · rw [hip, hat]
    exact h0
  · rw [hother jp hip] at hjp ⊢
    have hne : (s.inode jp).inum ∉ ({(t.inode ip).inum} : Set UInt32) := fun he => by
      rw [Set.mem_singleton_iff] at he
      exact h.used jp hjp (he ▸ hfree)
    rw [(hbut _ (h.ok.entry jp hjp).2 hne).type]
    exact h.used jp hjp

/-- **`dirlink`** writes its directory, or gives back the inode that it has found. -/
theorem Sound.dirlink (hsb : sb.Ok) (h : Sound sb s) (hl : (s.inode dp).lock ≠ none)
    (hT : (s.inode dp).d.type = T_DIR) (hd : s.dirlink sb p dp name n = .ok (r, t)) : Sound sb t := by
  have hok := (h.ok.dirlink hsb hl hT hd).1
  have htook := (Took.refl p s).dirlink hd
  obtain ⟨⟨found, s₁⟩, hf, hd₁⟩ := bind_ok hd
  obtain ⟨hc, h0⟩ := h.ok.lockedCopy hl
  obtain ⟨rfl, rfl, hnone⟩ | ⟨ip, k, v, rfl, hg, -⟩ := h.ok.dirlookup hl hT hf
  swap
  · obtain ⟨t₂, hp, hd₂⟩ := bind_ok hd₁
    cases hd₂
    exact h.took hok (h.ok.iget_iput hg hp).2 htook fun jp hj => absurd hj List.not_mem_nil
  obtain ⟨⟨off, i, fs⟩, he, hd₂⟩ := bind_ok hd₁
  obtain ⟨⟨r', i', fs'⟩, hw, hd₃⟩ := bind_ok hd₂
  cases hd₃
  have hi := (Fs.emptyLoop_same he).trans (Fs.writei_same hw)
  have hle : Fs.entries (s₁.inode dp) ≤ 0 + (s₁.inode dp).d.size.toNat := by
    unfold Fs.entries
    omega
  obtain ⟨k, hloop, hk, -⟩ := (h.ok.disk.dir _ hc hT).emptyLoop _ 0 hle (Nat.zero_le _)
  rw [Nat.mul_zero, he] at hloop
  cases hloop
  obtain ⟨htidy, hch, hat, ht⟩ := h.tidy.put hsb hc hT hk
    (fun key v hkey => (Fs.named_link hkey) ▸ hnone) hw
  exact h.contents hl hi htidy hch hat ht

/-- **`unlink`** clears the entry that it finds. -/
theorem Sound.unlink {d : Dir} (hsb : sb.Ok) (h : Sound sb s) (hl : (s.inode dp).lock ≠ none)
    (hT : (s.inode dp).d.type = T_DIR)
    (hu : Dir.unlink sb name { dp := s.inode dp, fs := s.fs } = .ok d) : Sound sb (s.set dp d.dp d.fs) := by
  obtain ⟨hc, -⟩ := h.ok.lockedCopy hl
  have hdir := h.ok.disk.dir _ hc hT
  unfold Dir.unlink at hu
  rw [hdir.dirlookup, ok_bind] at hu
  dsimp only at hu
  cases hf : SlotMap.find (s.fs.slots (s.inode dp)) (Fs.entries (s.inode dp)) (cstr DIRSIZ name) with
  | none =>
    rw [hf] at hu
    cases hu
    dsimp only
    rw [set_eq_self]
    exact h
  | some x =>
    obtain ⟨k, v⟩ := x
    rw [hf] at hu
    obtain ⟨⟨i, fs⟩, hclear, hu⟩ := bind_ok hu
    cases hu
    obtain ⟨⟨r, i', fs'⟩, hw, hclear⟩ := bind_ok hclear
    dsimp only at hclear
    split_ifs at hclear with hr
    cases hclear
    have hi := Fs.writei_same hw
    obtain ⟨htidy, hch, hat, ht⟩ := h.tidy.put hsb hc hT (SlotMap.find_some hf).1.le
      (fun key v hkey => by
        rw [Fs.named_zero] at hkey
        cases hkey) hw
    exact h.contents hl hi htidy hch hat ht

theorem locked (hl : (s.inode ip).lock = some p) : (s.inode ip).lock ≠ none := by
  rw [hl]
  exact Option.some_ne_none p

/-- **`readi`** changes neither the inode nor the disk. -/
theorem Sound.readi (h : Sound sb s) (hl : (s.inode ip).lock = some p) (writable : ℕ → Bool) (dst : ByteStore)
    (off n : UInt32) : ∃ (r : ℤ) (dst' : ByteStore),
      s.fs.readi sb writable dst off.toNat n.toNat (s.inode ip) = .ok (r, dst', s.inode ip, s.fs) := by
  obtain ⟨hc, h0⟩ := h.ok.lockedCopy (locked hl)
  exact Fs.readi_leaves sb writable dst (h.tidy.noHole _ hc h0) (h.tidy.disk.file _ hc h0).size off.toNat_lt
    n.toNat_lt

/-- **Every call** keeps it. -/
theorem Sound.step (hsb : sb.Ok) (hn : sb.ninodes < 2 ^ 32) (hn1 : 0 < sb.ninodes) (h : Sound sb s)
    (hk : Known sb s o) (hs : s.step sb o = some (.ok t)) : Sound sb t := by
  cases o with
  | iget inum =>
    injection hs with hs
    obtain ⟨⟨ip, t'⟩, hg, rfl⟩ := map_ok hs
    exact h.iget hk.1 hk.2 hg
  | idup ip =>
    simp only [step] at hs
    split_ifs at hs with href
    cases hs
    exact h.idup href
  | ilock p ip =>
    simp only [step] at hs
    split_ifs at hs
    injection hs with hs
    exact h.ilock hs
  | iunlock p ip =>
    simp only [step] at hs
    split_ifs at hs
    injection hs with hs
    exact h.iunlock hs
  | iput p ip =>
    simp only [step] at hs
    split_ifs at hs with href
    injection hs with hs
    exact h.iput hsb href.1 href.2 hs
  | ialloc type =>
    simp only [step] at hs
    split_ifs at hs with h0
    injection hs with hs
    obtain ⟨⟨j, t'⟩, ha, rfl⟩ := map_ok hs
    exact h.ialloc hsb hn hn1 h0 ha
  | readi p ip writable dst off n =>
    simp only [step] at hs
    split_ifs at hs with hl
    injection hs with hs
    obtain ⟨⟨r, dst', i, fs⟩, hr, rfl⟩ := map_ok hs
    obtain ⟨r', dst'', heq⟩ := h.readi hl writable dst off n
    rw [heq] at hr
    cases hr
    dsimp only
    rw [set_eq_self]
    exact h
  | writei p ip src off n =>
    simp only [step] at hs
    split_ifs at hs with hl
    injection hs with hs
    obtain ⟨⟨r, i, fs⟩, hw, rfl⟩ := map_ok hs
    have hl' := locked hl.1
    obtain ⟨hc, h0⟩ := h.ok.lockedCopy hl'
    obtain ⟨htidy, hch, hat, ht⟩ := h.tidy.writei hsb hc h0 hl.2 off.toNat_lt n.toNat_lt hw
    exact h.contents hl' (Fs.writei_same hw) htidy hch hat ht
  | itrunc p ip =>
    simp only [step] at hs
    split_ifs at hs with hl
    injection hs with hs
    obtain ⟨⟨i, fs⟩, hi, rfl⟩ := map_ok hs
    have hl' := locked hl.1
    obtain ⟨hc, h0⟩ := h.ok.lockedCopy hl'
    obtain ⟨htidy, hch, hat, ht⟩ := h.tidy.itrunc hsb hc h0 hl.2 hi
    exact h.contents hl' (Fs.itrunc_same hi) htidy hch hat ht
  | relink p ip major minor nlink =>
    simp only [step] at hs
    split_ifs at hs with hl
    cases hs
    have hl' := locked hl
    obtain ⟨hc, h0⟩ := h.ok.lockedCopy hl'
    obtain ⟨-, hch, hat, -⟩ := h.tidy.disk.relink hsb hc h0 (a := major) (b := minor) (c := nlink) rfl
    rw [setInode_iupdate]
    exact h.contents hl' ⟨_, rfl⟩ (h.tidy.relink hsb hc h0 rfl) hch hat rfl
  | dirlink p dp name inum =>
    simp only [step] at hs
    split_ifs at hs with hl
    injection hs with hs
    obtain ⟨⟨r, t'⟩, hd, rfl⟩ := map_ok hs
    exact h.dirlink hsb (locked hl.1) hl.2 hd
  | unlink p dp name =>
    simp only [step] at hs
    split_ifs at hs with hl
    injection hs with hs
    obtain ⟨d, hu, rfl⟩ := map_ok hs
    exact h.unlink hsb (locked hl.1) hl.2 hu

theorem Sound.run (hsb : sb.Ok) (hn : sb.ninodes < 2 ^ 32) (hn1 : 0 < sb.ninodes) (h₀ : Sound sb s₀)
    (hrun : Runs.Steps (Volume.step sb) (Known sb) s₀ s) : Sound sb s :=
  hrun.invariant h₀ fun _ _ _ h hk ht => h.step hsb hn hn1 hk ht

/-! ## Whole runs -/

/-- **No block is lost, and none has two owners**: in every state of a run from a sound one, a data block is
marked as used if and only if an inode holds it, no other inode does, and no inode holds it twice; so
`itrunc` of an inode that is locked frees exactly the blocks of the inode, and does not panic. -/
theorem blocks_owned_once (hsb : sb.Ok) (hn : sb.ninodes < 2 ^ 32) (hn1 : 0 < sb.ninodes) (h₀ : Sound sb s₀)
    (hrun : Runs.Steps (step sb) (Known sb) s₀ s) :
    (∀ x, sb.IsData x → (s.fs.Used sb x ↔ ∃ i, s.fs.Held sb i x)) ∧
    (∀ x i j, s.fs.Held sb i x → s.fs.Held sb j x → i = j) ∧
    (∀ i : UInt32, i.toNat < sb.ninodes → (s.fs.dinodeAt sb i.toNat).type ≠ 0 →
      ∀ r < Layout.NREF, ∀ r' < Layout.NREF,
        Layout.blockRef s.fs.blocks (s.fs.dinodeAt sb i.toNat) r =
          Layout.blockRef s.fs.blocks (s.fs.dinodeAt sb i.toNat) r' →
        Layout.blockRef s.fs.blocks (s.fs.dinodeAt sb i.toNat) r ≠ 0 → r = r') ∧
    ∀ p ip, (s.inode ip).lock = some p → ∃ i fs, s.fs.itrunc sb (s.inode ip) = .ok (i, fs) ∧
      ∀ x, sb.IsData x → (fs.Used sb x ↔ s.fs.Used sb x ∧ ¬ s.fs.Held sb (s.inode ip).inum x) := by
  have h := h₀.run hsb hn hn1 hrun
  have hdisk := h.tidy.disk
  refine ⟨fun x hx => ⟨fun hu => h.tidy.owned x ⟨hx, hu⟩, fun ⟨i, hi⟩ => ?_⟩, fun x i j hi hj => ?_,
    fun i hi h0 => ?_, fun p ip hl => ?_⟩
  · exact ((hdisk.file _ (Fs.copy_inodeAt hi.1) hi.2.1).owns.mem x hi.2.2).2
  · by_contra hij
    exact hdisk.apart _ _ (Fs.copy_inodeAt hi.1) (Fs.copy_inodeAt hj.1) hij hi.2.1 hj.2.1 x hi.2.2 hj.2.2
  · exact (hdisk.file _ (Fs.copy_inodeAt hi) h0).owns.inj
  · obtain ⟨hc, h0⟩ := h.ok.lockedCopy (locked hl)
    obtain ⟨d, fs, heq, hf, -⟩ := Fs.itrunc_frees (hdisk.file _ hc h0)
    refine ⟨_, _, heq, fun x hx => ?_⟩
    have hin := @Fs.iupdate_inUse_iff _ fs { s.inode ip with d := d } x hsb hc.lt
    rw [hc.held h0, ← hf.used x hx.2]
    exact ⟨fun hu => (hin.mp ⟨hx, hu⟩).2, fun hu => (hin.mpr ⟨hx, hu⟩).2⟩

/-- **No file has a hole**: in every state of a run from a sound one, every inode of the disk that is in use has
a block of its own for every byte; so `readi` of an inode that is locked returns, and where it starts in the
file and the destination is writable it delivers the bytes that are there, and changes neither the inode nor
the disk. -/
theorem files_have_no_holes (hsb : sb.Ok) (hn : sb.ninodes < 2 ^ 32) (hn1 : 0 < sb.ninodes)
    (h₀ : Sound sb s₀) (hrun : Runs.Steps (step sb) (Known sb) s₀ s) :
    (∀ i : UInt32, i.toNat < sb.ninodes → (s.fs.dinodeAt sb i.toNat).type ≠ 0 →
      (s.fs.dinodeAt sb i.toNat).size.toNat ≤ MAXFILE * BSIZE ∧
      ∀ k < (s.fs.dinodeAt sb i.toNat).size.toNat, ∃ x,
        Layout.slot s.fs.blocks (s.fs.dinodeAt sb i.toNat) (k / BSIZE) = x ∧ x ≠ 0 ∧ s.fs.InUse sb x) ∧
    ∀ p ip, (s.inode ip).lock = some p →
      (∀ writable dst (off n : UInt32), ∃ (r : ℤ) (dst' : ByteStore),
        s.fs.readi sb writable dst off.toNat n.toNat (s.inode ip) = .ok (r, dst', s.inode ip, s.fs)) ∧
      ∀ writable dst off n, off ≤ (s.inode ip).d.size.toNat → off + n < 2 ^ 32 →
        (∀ k < n, writable k = true) →
        s.fs.readi sb writable dst off n (s.inode ip) = .ok ((min n ((s.inode ip).d.size.toNat - off) : ℕ),
          dst.blit 0 (min n ((s.inode ip).d.size.toNat - off)) (fun k => s.fs.bytes (s.inode ip) (off + k)),
          s.inode ip, s.fs) := by
  have h := h₀.run hsb hn hn1 hrun
  refine ⟨fun i hi h0 => ?_, fun p ip hl => ⟨fun writable dst off n => h.readi hl writable dst off n, ?_⟩⟩
  · have hc := Fs.copy_inodeAt (s := s.fs) hi
    have hf := h.tidy.disk.file _ hc h0
    have hno := h.tidy.noHole _ hc h0
    refine ⟨hf.size, fun k hk => ⟨_, rfl, hno k hk, hf.owns.mem _ ⟨hno k hk, _, ?_, rfl⟩⟩⟩
    have hmax : (s.fs.dinodeAt sb i.toNat).size.toNat ≤ MAXFILE * BSIZE := hf.size
    exact Layout.slotOf_lt (Nat.div_lt_of_lt_mul (by simp only [BSIZE] at *; omega))
  · intro writable dst off n hoff hn' hw
    obtain ⟨hc, h0⟩ := h.ok.lockedCopy (locked hl)
    exact Fs.readi_there sb writable dst (h.tidy.noHole _ hc h0) (h.tidy.disk.file _ hc h0).size hoff hn' hw

/-! ## A run -/

theorem rootVolume_sound : Sound mkfsSb rootVolume := by
  have hw := rootVolume_wellFormed
  have hd := Fs.dinodeAt_rootDir
  have hempty : Fs.Tidy mkfsSb Fs.empty := by
    have hbits : ∀ b < 2000, 46 ≤ b → ¬ Fs.empty.Used mkfsSb b := by decide +kernel
    refine ⟨Fs.diskOk_empty, fun x hx => ?_, fun ip hc h0 => absurd ?_ h0⟩
    · exact absurd hx.2 (hbits x hx.1.2 hx.1.1)
    · rw [hc.d]
      exact Fs.dinodeAt_empty hc.lt
  refine ⟨hw.tree.ok, ?_, fun ip h => ?_⟩
  · exact hempty.fresh Fs.mkfsSb_ok (by decide) (Fs.dinodeAt_empty (by decide)) rfl
  · rw [(rootVolume_used h).2]
    rw [show rootVolume.fs = Fs.empty.iupdate mkfsSb Fs.rootDir from rfl, hd, if_pos (by decide)]
    decide

/-- A file is made, and its name; it gets five bytes. -/
theorem rootVolume_file : ∃ s, Runs.Steps (step mkfsSb) (Known mkfsSb) rootVolume s ∧
    (s.inode 1).lock = some 7 ∧ (s.inode 1).d.size = 5 :=
  Runs.Steps.of_any
    [.ialloc T_FILE, .ilock 7 0, .dirlink 7 0 (fun i => [97].getD i 0) 2, .iunlock 7 0, .ilock 7 1,
      .writei 7 1 (fun _ => some 5) 0 5]
    (by decide +kernel : (Runs.exec (step mkfsSb) (Known mkfsSb) rootVolume _).any
      (fun s => (s.inode 1).lock = some 7 ∧ (s.inode 1).d.size = 5) = true)

theorem blocks_owned_once_file : ∃ s, Runs.Steps (step mkfsSb) (Known mkfsSb) rootVolume s ∧
    (s.inode 1).d.size = 5 ∧ (∀ x, mkfsSb.IsData x → (s.fs.Used mkfsSb x ↔ ∃ i, s.fs.Held mkfsSb i x)) ∧
    ∃ i fs, s.fs.itrunc mkfsSb (s.inode 1) = .ok (i, fs) := by
  obtain ⟨s, hrun, hl, hsize⟩ := rootVolume_file
  obtain ⟨hown, -, -, hfree⟩ :=
    blocks_owned_once Fs.mkfsSb_ok (by decide) (by decide) rootVolume_sound hrun
  obtain ⟨i, fs, heq, -⟩ := hfree 7 1 hl
  exact ⟨s, hrun, hsize, hown, i, fs, heq⟩

theorem files_have_no_holes_file : ∃ s, Runs.Steps (step mkfsSb) (Known mkfsSb) rootVolume s ∧
    (s.inode 1).d.size = 5 ∧ s.fs.readi mkfsSb (fun _ => true) (fun _ => 0) 0 512 (s.inode 1) =
      .ok (5, ByteStore.blit (fun _ => 0) 0 5 (fun k => s.fs.bytes (s.inode 1) (0 + k)),
        s.inode 1, s.fs) := by
  obtain ⟨s, hrun, hl, hsize⟩ := rootVolume_file
  obtain ⟨-, hread⟩ := files_have_no_holes Fs.mkfsSb_ok (by decide) (by decide) rootVolume_sound hrun
  have h := (hread 7 1 hl).2 (fun _ => true) (fun _ => 0) 0 512 (Nat.zero_le _) (by decide) fun _ _ => rfl
  rw [hsize] at h
  exact ⟨s, hrun, hsize, h⟩

end Volume

end Xv6
