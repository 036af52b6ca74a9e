import Xv6.Fs.Refs
import Xv6.Fs.Resolve

/-!
# Walk — looking up a path in a well-formed tree

`Ok` is what holds of the inode table and the disk in the middle of a call.  In a well-formed tree
(`Tree`) the inodes that a path can reach are not freed by a lookup, and so it changes nothing but
references (`Walked`).
-/

namespace Xv6

namespace Volume

variable {sb : superblock} {p : ℕ} {cwd ip dp : Fin NINODE} {s t u : Volume} {i : Xv6.inode} {fs : Fs}
  {inum : UInt32} {F : Fs → Prop} {refs locks : List (Fin NINODE)} {name : ℕ → UInt8} {n : ℕ}

/-- The entries that are in use are different inodes of the disk. -/
structure Ok (sb : superblock) (s : Volume) : Prop where
  disk : s.fs.DiskOk sb
  entry : ∀ ip, 0 < (s.inode ip).ref →
    (s.inode ip).dev = ROOTDEV ∧ (s.inode ip).inum.toNat < sb.ninodes
  unique : ∀ ip ip', 0 < (s.inode ip).ref → 0 < (s.inode ip').ref →
    (s.inode ip).inum = (s.inode ip').inum → ip = ip'
  copy : ∀ ip, 0 < (s.inode ip).ref → (s.inode ip).valid = true →
    (s.inode ip).d = s.fs.dinodeAt sb (s.inode ip).inum.toNat ∧ (s.inode ip).d.type ≠ 0
  locked : ∀ ip, (s.inode ip).lock ≠ none → 0 < (s.inode ip).ref ∧ (s.inode ip).valid = true

theorem Ok.isCopy (h : Ok sb s) (href : 0 < (s.inode ip).ref) (hv : (s.inode ip).valid = true) :
    Fs.Copy sb s.fs (s.inode ip) := ⟨(h.entry ip href).2, (h.copy ip href hv).1⟩

/-- One entry changes, and its inode. -/
theorem Ok.set (h : Ok sb t) (hdisk : fs.DiskOk sb)
    (hother : ∀ m < sb.ninodes, m ≠ i.inum.toNat → fs.dinodeAt sb m = t.fs.dinodeAt sb m)
    (hentry : 0 < i.ref → i.dev = ROOTDEV ∧ i.inum.toNat < sb.ninodes)
    (hunique : ∀ ip' ≠ ip, 0 < (t.inode ip').ref → (t.inode ip').inum ≠ i.inum)
    (hcopy : 0 < i.ref → i.valid = true → i.d = fs.dinodeAt sb i.inum.toNat ∧ i.d.type ≠ 0)
    (hlocked : i.lock ≠ none → 0 < i.ref ∧ i.valid = true) : Ok sb (t.set ip i fs) := by
  refine ⟨hdisk, fun ip' h0 => ?_, fun ip₁ ip₂ h1 h2 he => ?_, fun ip' h0 hv => ?_, fun ip' hl => ?_⟩
  · by_cases hip : ip' = ip
    · rw [hip, set_self] at h0 ⊢
      exact hentry h0
    · rw [set_ne hip] at h0 ⊢
      exact h.entry ip' h0
  · by_cases hip₁ : ip₁ = ip <;> by_cases hip₂ : ip₂ = ip
    · exact hip₁.trans hip₂.symm
    · rw [hip₁, set_self, set_ne hip₂] at he
      rw [set_ne hip₂] at h2
      exact absurd he.symm (hunique ip₂ hip₂ h2)
    · rw [hip₂, set_self, set_ne hip₁] at he
      rw [set_ne hip₁] at h1
      exact absurd he (hunique ip₁ hip₁ h1)
    · rw [set_ne hip₁] at h1 he
      rw [set_ne hip₂] at h2 he
      exact h.unique ip₁ ip₂ h1 h2 he
  · by_cases hip : ip' = ip
    · rw [hip, set_self] at h0 hv ⊢
      exact hcopy h0 hv
    · rw [set_ne hip] at h0 hv ⊢
      obtain ⟨hd, htype⟩ := h.copy ip' h0 hv
      refine ⟨hd.trans (hother _ (h.entry ip' h0).2 fun he => ?_).symm, htype⟩
      exact hunique ip' hip h0 (UInt32.toNat_inj.mp he)
  · by_cases hip : ip' = ip
    · rw [hip, set_self] at hl ⊢
      exact hlocked hl
    · rw [set_ne hip] at hl ⊢
      exact h.locked ip' hl

/-- One entry changes, and the disk does not. -/
theorem Ok.setInode (h : Ok sb t) (hentry : 0 < i.ref → i.dev = ROOTDEV ∧ i.inum.toNat < sb.ninodes)
    (hunique : ∀ ip' ≠ ip, 0 < (t.inode ip').ref → (t.inode ip').inum ≠ i.inum)
    (hcopy : 0 < i.ref → i.valid = true → i.d = t.fs.dinodeAt sb i.inum.toNat ∧ i.d.type ≠ 0)
    (hlocked : i.lock ≠ none → 0 < i.ref ∧ i.valid = true) : Ok sb (t.setInode ip i) :=
  h.set h.disk (fun _ _ _ => rfl) hentry hunique hcopy hlocked

theorem Ok.unique_ne (h : Ok sb t) (href : 0 < (t.inode ip).ref) :
    ∀ ip' ≠ ip, 0 < (t.inode ip').ref → (t.inode ip').inum ≠ (t.inode ip).inum := fun ip' hne h0 he =>
  hne (h.unique ip' ip h0 href he)

theorem Ok.iget (h : Ok sb t) (hn : inum.toNat < sb.ninodes) (hg : t.iget ROOTDEV inum = .ok (ip, u)) :
    Ok sb u ∧ u.fs = t.fs ∧ 0 < (u.inode ip).ref ∧ (u.inode ip).inum = inum := by
  obtain ⟨i, rfl, hdev, hinum, href, hlock, hd, hcase⟩ := iget_ok hg
  refine ⟨h.setInode (fun _ => ⟨hdev, hinum ▸ hn⟩) ?_ (fun _ hv => ?_) (fun hl => ?_), rfl, ?_, ?_⟩
  · obtain ⟨h0, -, hin, -⟩ | ⟨-, -, hnone⟩ := hcase
    · rw [hinum, ← hin]
      exact h.unique_ne h0
    · intro ip' _ h0 he
      exact hnone ip' h0 ⟨(h.entry ip' h0).1, he.trans hinum⟩
  · obtain ⟨h0, -, hin, hvalid⟩ | ⟨-, hvalid, -⟩ := hcase
    · rw [hd, hinum, ← hin]
      exact h.copy ip h0 (hvalid.symm.trans hv)
    · rw [hv] at hvalid
      cases hvalid
  · rw [hlock] at hl
    obtain ⟨h0, hv⟩ := h.locked ip hl
    refine ⟨by omega, ?_⟩
    obtain ⟨-, -, -, hvalid⟩ | ⟨h0', -⟩ := hcase
    · exact hvalid.trans hv
    · omega
  · rw [setInode_self]
    omega
  · rw [setInode_self]
    exact hinum

theorem Ok.idup (h : Ok sb t) (href : 0 < (t.inode ip).ref) : Ok sb (t.idup ip) :=
  h.setInode (fun _ => h.entry ip href) (h.unique_ne href) (fun _ => h.copy ip href)
    fun hl => ⟨Nat.succ_pos _, (h.locked ip hl).2⟩

theorem Ok.ilock (h : Ok sb t) (hl : t.ilock sb p ip = .ok u) : Ok sb u ∧ u.fs = t.fs ∧
    (u.inode ip).inum = (t.inode ip).inum ∧ (u.inode ip).lock = some p := by
  obtain ⟨href, -, d, rfl, hcase⟩ := ilock_ok hl
  refine ⟨h.setInode (fun _ => h.entry ip href) (h.unique_ne href) (fun _ _ => ?_)
    (fun _ => ⟨href, rfl⟩), rfl, ?_, ?_⟩
  · obtain ⟨hv, hd⟩ | ⟨-, hd, htype⟩ := hcase
    · rw [hd]
      exact h.copy ip href hv
    · exact ⟨hd, htype⟩
  · rw [setInode_self]
  · rw [setInode_self]

theorem Ok.iunlock (h : Ok sb t) (hu : t.iunlock p ip = .ok u) : Ok sb u ∧ u.fs = t.fs := by
  obtain ⟨hl, rfl⟩ := iunlock_ok hu
  obtain ⟨href, hv⟩ := h.locked ip (by
    rw [hl]
    exact Option.some_ne_none p)
  exact ⟨h.setInode (fun _ => h.entry ip href) (h.unique_ne href) (fun _ => h.copy ip href)
    fun hn => absurd rfl hn, rfl⟩

/-- A reference that is not the last one to an inode without links. -/
theorem Ok.iput (h : Ok sb t) (href : 0 < (t.inode ip).ref)
    (hkeep : ¬ ((t.inode ip).ref = 1 ∧ (t.inode ip).valid = true ∧ (t.inode ip).d.nlink = 0))
    (hlock : (t.inode ip).lock ≠ none → 1 < (t.inode ip).ref) (hp : t.iput sb p ip = .ok u) :
    Ok sb u ∧ u.fs = t.fs := by
  obtain ⟨h1, h2, h3, -⟩ | ⟨-, rfl⟩ := iput_ok hp
  · exact absurd ⟨h1, h2, h3⟩ hkeep
  · refine ⟨h.setInode (fun _ => h.entry ip href) (h.unique_ne href) (fun _ => h.copy ip href)
      fun hl => ⟨?_, (h.locked ip hl).2⟩, rfl⟩
    have h1 := hlock hl
    show 0 < (t.inode ip).ref - 1
    omega

/-- The last reference to an inode without links. -/
theorem Ok.iput_free (hsb : sb.Ok) (h : Ok sb t)
    (hlast : (t.inode ip).ref = 1 ∧ (t.inode ip).valid = true ∧ (t.inode ip).d.nlink = 0)
    (hp : t.iput sb p ip = .ok u) : Ok sb u ∧ Fs.Changes sb (t.inode ip).inum t.fs u.fs ∧
      (u.fs.dinodeAt sb (t.inode ip).inum.toNat).type = 0 := by
  have href : 0 < (t.inode ip).ref := by omega
  have hc := h.isCopy href hlast.2.1
  obtain ⟨-, -, -, -, i, fs, hi, rfl⟩ | ⟨hnot, -⟩ := iput_ok hp
  swap
  · exact absurd hlast hnot
  obtain ⟨d, rfl⟩ := Fs.itrunc_same hi
  have hcl : Fs.Copy sb t.fs { t.inode ip with lock := some p } := ⟨hc.lt, hc.d⟩
  obtain ⟨hdisk, hch⟩ := h.disk.discard hsb hcl (h.copy ip href hlast.2.1).2 hi
    (i := { t.inode ip with lock := some p, d := { d with type := 0 } }) rfl rfl
  refine ⟨h.set hdisk hch.dinodes (fun _ => h.entry ip href) (h.unique_ne href) (fun h0 => ?_)
    fun hn => absurd rfl hn, hch, ?_⟩
  · have h1 := hlast.1
    dsimp only at h0
    omega
  · rw [set_fs, Fs.dinodeAt_iupdate sb fs { t.inode ip with lock := some p, d := { d with type := 0 } }]

/-! ## Paths -/

/-- Inode `n` has links or references. -/
def Kept (sb : superblock) (s : Volume) (n : ℕ) : Prop :=
  (s.fs.dinodeAt sb n).nlink ≠ 0 ∨ ∃ ip, 0 < (s.inode ip).ref ∧ (s.inode ip).inum.toNat = n

/-- An entry of a directory may have the number `n`. -/
def Safe (sb : superblock) (s : Volume) (n : ℕ) : Prop :=
  n < sb.ninodes ∧ ((s.fs.dinodeAt sb n).type ≠ 0 → Kept sb s n)

/-- A path leads to inodes with links or references. -/
structure Tree (sb : superblock) (cwd : Fin NINODE) (s : Volume) : Prop where
  ok : Ok sb s
  root : Safe sb s ROOTINO.toNat
  cwd : 0 < (s.inode cwd).ref
  names : ∀ m : UInt32, Safe sb s m.toNat → (s.fs.dinodeAt sb m.toNat).type = T_DIR →
    ∀ k < Fs.entries (s.fs.inodeAt sb m), ∀ key v,
      s.fs.slots (s.fs.inodeAt sb m) k = some (key, v) → Safe sb s v

/-- Nothing has changed since `s` but references and locks, and the disk as far as `F` says. -/
structure Walked (sb : superblock) (p : ℕ) (F : Fs → Prop) (refs locks : List (Fin NINODE))
    (s t : Volume) : Prop where
  took : Took p refs locks s t
  ok : Ok sb t
  fs : F t.fs

theorem Walked.refl (hs : Ok sb s) : Walked sb p (· = s.fs) [] [] s s := ⟨.refl p s, hs, rfl⟩

theorem Walked.perm {refs' locks' : List (Fin NINODE)} (h : Walked sb p F refs locks s t)
    (hr : refs.Perm refs') (hl : locks.Perm locks') : Walked sb p F refs' locks' s t :=
  ⟨h.took.perm hr hl, h.ok, h.fs⟩

theorem Walked.weaken {G : Fs → Prop} (h : Walked sb p F refs locks s t) (hG : ∀ f, F f → G f) :
    Walked sb p G refs locks s t := ⟨h.took, h.ok, hG _ h.fs⟩

/-- On the disk as far as `F` says, inode `i` looks as in `s`. -/
def Looks (sb : superblock) (F : Fs → Prop) (s : Volume) (i : UInt32) : Prop :=
  ∀ f, F f → Fs.SameInode sb 0 s.fs f i

theorem looks_eq (sb : superblock) (s : Volume) (i : UInt32) : Looks sb (· = s.fs) s i := fun _ hf =>
  hf ▸ .refl sb s.fs i

theorem looks_sameBut {D : Set UInt32} (hi : inum.toNat < sb.ninodes) (hD : inum ∉ D) :
    Looks sb (Fs.SameBut sb D s.fs) s inum := fun _ hf => hf inum hi hD

/-- What has links or references is not freed with the reference of the call. -/
theorem Took.not_last (h : Took p (ip :: refs) locks s t) (ht : Ok sb t)
    (hsafe : Safe sb s (t.inode ip).inum.toNat)
    (htype : (s.fs.dinodeAt sb (t.inode ip).inum.toNat).type ≠ 0)
    (hnlink : (t.inode ip).d.nlink = (s.fs.dinodeAt sb (t.inode ip).inum.toNat).nlink) :
    ¬ ((t.inode ip).ref = 1 ∧ (t.inode ip).valid = true ∧ (t.inode ip).d.nlink = 0) := by
  rintro ⟨h1, -, h0⟩
  have hr := h.ref ip
  rw [List.count_cons_self] at hr
  obtain hlinks | ⟨ip', h0', hin⟩ := hsafe.2 htype
  · exact hlinks (hnlink.symm.trans h0)
  · have hr' := h.ref ip'
    have heq : (t.inode ip').inum = (t.inode ip).inum := (h.same ip' h0').2.trans (UInt32.toNat_inj.mp hin)
    rw [ht.unique ip' ip (by omega) (by omega) heq] at h0'
    omega

theorem Took.held (h : Took p (ip :: refs) locks s t) : 0 < (t.inode ip).ref := by
  have hr := h.ref ip
  rw [List.count_cons_self] at hr
  omega

/-- An entry that others have locked has a reference of theirs. -/
theorem Took.lock_ref (hs : Ok sb s) (h : Took p (ip :: refs) locks s t) (hnot : ip ∉ locks)
    (hl : (t.inode ip).lock ≠ none) : 1 < (t.inode ip).ref := by
  have hr := h.ref ip
  rw [List.count_cons_self] at hr
  rw [h.lock, if_neg hnot] at hl
  have h0 := (hs.locked ip hl).1
  omega

theorem Walked.iget (h : Walked sb p F refs locks s t) (hn : inum.toNat < sb.ninodes)
    (hg : t.iget ROOTDEV inum = .ok (ip, u)) :
    Walked sb p F (ip :: refs) locks s u ∧ (u.inode ip).inum = inum := by
  obtain ⟨hu, hfs, -, hinum⟩ := h.ok.iget hn hg
  exact ⟨⟨h.took.iget hg, hu, hfs ▸ h.fs⟩, hinum⟩

theorem Walked.ilock (h : Walked sb p F refs locks s t) (hl : t.ilock sb p ip = .ok u) :
    Walked sb p F refs (ip :: locks) s u ∧ ip ∉ locks ∧ (u.inode ip).inum = (t.inode ip).inum := by
  obtain ⟨hu, hfs, hinum, -⟩ := h.ok.ilock hl
  obtain ⟨htook, hnot⟩ := h.took.ilock hl
  exact ⟨⟨htook, hu, hfs ▸ h.fs⟩, hnot, hinum⟩

theorem Walked.iunlock (h : Walked sb p F refs (ip :: locks) s t) (hu : t.iunlock p ip = .ok u) :
    Walked sb p F refs locks s u :=
  ⟨h.took.iunlock hu, (h.ok.iunlock hu).1, (h.ok.iunlock hu).2 ▸ h.fs⟩

/-- What has links or references stays when a reference of the call is given back. -/
theorem Took.iput_keep (hs : Ok sb s) (h : Took p (ip :: refs) locks s t) (ht : Ok sb t) (hnot : ip ∉ locks)
    (hsafe : Safe sb s (t.inode ip).inum.toNat)
    (htype : (t.fs.dinodeAt sb (t.inode ip).inum.toNat).type =
      (s.fs.dinodeAt sb (t.inode ip).inum.toNat).type)
    (hnlink : (s.fs.dinodeAt sb (t.inode ip).inum.toNat).type ≠ 0 →
      (t.fs.dinodeAt sb (t.inode ip).inum.toNat).nlink = (s.fs.dinodeAt sb (t.inode ip).inum.toNat).nlink)
    (hp : t.iput sb p ip = .ok u) : Ok sb u ∧ u.fs = t.fs := by
  have hkeep : ¬ ((t.inode ip).ref = 1 ∧ (t.inode ip).valid = true ∧ (t.inode ip).d.nlink = 0) := by
    intro hlast
    obtain ⟨hd, h0⟩ := ht.copy ip h.held hlast.2.1
    rw [hd, htype] at h0
    exact h.not_last ht hsafe h0 (by rw [hd, hnlink h0]) hlast
  exact ht.iput h.held hkeep (h.lock_ref hs hnot) hp

theorem Walked.iput (hs : Ok sb s) (h : Walked sb p F (ip :: refs) locks s t) (hnot : ip ∉ locks)
    (hF : Looks sb F s (t.inode ip).inum) (hsafe : Safe sb s (t.inode ip).inum.toNat)
    (hp : t.iput sb p ip = .ok u) : Walked sb p F refs locks s u := by
  have hsame := hF _ h.fs
  obtain ⟨hu, hfs⟩ := h.took.iput_keep hs h.ok hnot hsafe hsame.type
    (fun h0 => (hsame.nlink h0).trans (Int16.add_zero _)) hp
  exact ⟨h.took.iput hp, hu, hfs ▸ h.fs⟩

theorem iunlock_inum (h : t.iunlock p ip = .ok u) (ip' : Fin NINODE) :
    (u.inode ip').inum = (t.inode ip').inum := by
  obtain ⟨-, rfl⟩ := iunlock_ok h
  by_cases hip : ip' = ip
  · rw [hip, setInode_self]
  · rw [setInode_ne hip]

theorem iput_inum (h : t.iput sb p ip = .ok u) (ip' : Fin NINODE) :
    (u.inode ip').inum = (t.inode ip').inum := by
  obtain ⟨-, -, -, -, i, fs, hi, rfl⟩ | ⟨-, rfl⟩ := iput_ok h
  · obtain ⟨d, rfl⟩ := Fs.itrunc_same hi
    by_cases hip : ip' = ip
    · rw [hip, set_self]
    · rw [set_ne hip]
  · by_cases hip : ip' = ip
    · rw [hip, setInode_self]
    · rw [setInode_ne hip]

theorem iunlockput_inum (h : t.iunlockput sb p ip = .ok u) (ip' : Fin NINODE) :
    (u.inode ip').inum = (t.inode ip').inum := by
  obtain ⟨u', hu, hp⟩ := bind_ok h
  exact (iput_inum hp ip').trans (iunlock_inum hu ip')

theorem Walked.iunlockput (hs : Ok sb s) (h : Walked sb p F (ip :: refs) (ip :: locks) s t)
    (hF : Looks sb F s (t.inode ip).inum) (hsafe : Safe sb s (t.inode ip).inum.toNat)
    (hp : t.iunlockput sb p ip = .ok u) : Walked sb p F refs locks s u := by
  obtain ⟨u', hu, hp⟩ := bind_ok hp
  rw [← iunlock_inum hu ip] at hF hsafe
  exact (h.iunlock hu).iput hs (List.nodup_cons.mp h.took.nodup).1 hF hsafe hp

theorem slots_lt {f : Fs} {j : Xv6.inode} {k v : ℕ} {key : List UInt8} (h : f.slots j k = some (key, v)) :
    v < 2 ^ 16 := by
  unfold Fs.slots Fs.named at h
  split_ifs at h
  injection h with h
  injection h with _ hv
  rw [← hv]
  exact ByteStore.load_lt

/-- The copy of an inode that is locked. -/
theorem Ok.lockedCopy (h : Ok sb t) (hl : (t.inode ip).lock ≠ none) :
    Fs.Copy sb t.fs (t.inode ip) ∧ (t.inode ip).d.type ≠ 0 := by
  obtain ⟨href, hv⟩ := h.locked ip hl
  exact ⟨h.isCopy href hv, (h.copy ip href hv).2⟩

/-- **`dirlookup`** looks into the map of the directory. -/
theorem Ok.dirlookup {o : Option (Fin NINODE × ℕ)} (h : Ok sb t) (hl : (t.inode dp).lock ≠ none)
    (htype : (t.inode dp).d.type = T_DIR) (hd : t.dirlookup sb dp name = .ok (o, u)) :
    (o = none ∧ u = t ∧
        SlotMap.find (t.fs.slots (t.inode dp)) (Fs.entries (t.inode dp)) (cstr DIRSIZ name) = none) ∨
      ∃ ip k v, o = some (ip, 16 * k) ∧ t.iget ROOTDEV (UInt32.ofNat v) = .ok (ip, u) ∧
        SlotMap.find (t.fs.slots (t.inode dp)) (Fs.entries (t.inode dp)) (cstr DIRSIZ name) = some (k, v) := by
  have hc := (h.lockedCopy hl).1
  unfold Volume.dirlookup at hd
  rw [(h.disk.dir _ hc htype).dirlookup, ok_bind] at hd
  dsimp only at hd
  rw [set_eq_self] at hd
  cases hf : SlotMap.find (t.fs.slots (t.inode dp)) (Fs.entries (t.inode dp)) (cstr DIRSIZ name) with
  | none =>
    rw [hf] at hd
    cases hd
    exact Or.inl ⟨rfl, rfl, rfl⟩
  | some x =>
    obtain ⟨k, v⟩ := x
    rw [hf] at hd
    obtain ⟨⟨ip, t₁⟩, hg, hd⟩ := bind_ok hd
    cases hd
    rw [(h.entry dp (h.locked dp hl).1).1] at hg
    exact Or.inr ⟨ip, k, v, rfl, hg, rfl⟩

theorem Walked.type (h : Walked sb p F refs locks s t) (hl : (t.inode ip).lock ≠ none)
    (hF : Looks sb F s (t.inode ip).inum) :
    (s.fs.dinodeAt sb (t.inode ip).inum.toNat).type = (t.inode ip).d.type := by
  have hc := (h.ok.lockedCopy hl).1
  rw [← (hF _ h.fs).type, ← hc.d]

/-- The map of a directory is that of before. -/
theorem Walked.child (hs : Ok sb s) (h : Walked sb p F refs locks s t) (hl : (t.inode dp).lock ≠ none)
    (hF : Looks sb F s (t.inode dp).inum) (htype : (t.inode dp).d.type = T_DIR) (key : List UInt8) :
    s.fs.child sb (t.inode dp).inum key =
      (SlotMap.find (t.fs.slots (t.inode dp)) (Fs.entries (t.inode dp)) key).map fun x =>
        UInt32.ofNat x.2 := by
  obtain ⟨hc, h0⟩ := h.ok.lockedCopy hl
  have hsame := hF _ h.fs
  rw [← h.type hl hF] at h0
  have hslots : t.fs.slots (t.inode dp) = t.fs.slots (t.fs.inodeAt sb (t.inode dp).inum) :=
    Fs.slots_congr hc.d
  have hentries : Fs.entries (t.inode dp) = Fs.entries (s.fs.inodeAt sb (t.inode dp).inum) := by
    rw [← hsame.entries h0]
    unfold Fs.entries
    rw [hc.d]
    rfl
  rw [Fs.child, if_pos ((h.type hl hF).trans htype), hslots, hentries,
    SlotMap.find_congr fun k hk => (hsame.slots hs.disk hc.lt h0 hk).symm]

/-- The entry that is found in a directory may be returned. -/
theorem Walked.dirlookup {o : Option (Fin NINODE × ℕ)} (htree : Tree sb cwd s)
    (h : Walked sb p F refs locks s t) (hl : (t.inode dp).lock ≠ none) (hF : Looks sb F s (t.inode dp).inum)
    (hsafe : Safe sb s (t.inode dp).inum.toNat) (htype : (t.inode dp).d.type = T_DIR)
    (hd : t.dirlookup sb dp name = .ok (o, u)) :
    (o = none ∧ u = t ∧ s.fs.child sb (t.inode dp).inum (cstr DIRSIZ name) = none) ∨
      ∃ ip k, o = some (ip, 16 * k) ∧ Walked sb p F (ip :: refs) locks s u ∧
        Safe sb s (u.inode ip).inum.toNat ∧ (u.inode dp).inum = (t.inode dp).inum ∧
        s.fs.child sb (t.inode dp).inum (cstr DIRSIZ name) = some (u.inode ip).inum := by
  have hchild := h.child htree.ok hl hF htype (cstr DIRSIZ name)
  obtain ⟨ho, hu, hf⟩ | ⟨ip, k, v, rfl, hg, hf⟩ := h.ok.dirlookup hl htype hd
  · exact Or.inl ⟨ho, hu, by rw [hchild, hf]; rfl⟩
  rw [hf] at hchild
  obtain ⟨hk, hslot⟩ := SlotMap.find_some hf
  have hc := (h.ok.lockedCopy hl).1
  have hsame := hF _ h.fs
  have htypes := (h.type hl hF).trans htype
  have h0 : (s.fs.dinodeAt sb (t.inode dp).inum.toNat).type ≠ 0 := by
    rw [htypes]
    decide
  have hnames : Safe sb s v := by
    have hk' : k < Fs.entries (s.fs.inodeAt sb (t.inode dp).inum) := by
      rw [← hsame.entries h0]
      unfold Fs.entries at hk ⊢
      rwa [hc.d] at hk
    have hdisk : t.fs.slots (t.fs.inodeAt sb (t.inode dp).inum) = t.fs.slots (t.inode dp) :=
      Fs.slots_congr hc.d.symm
    refine htree.names _ hsafe htypes k hk' (cstr DIRSIZ name) v ?_
    rw [← hsame.slots htree.ok.disk hsafe.1 h0 hk', hdisk]
    exact hslot
  have hvn : (UInt32.ofNat v).toNat = v := UInt32.toNat_ofNat_of_lt' (by
    have hlt := slots_lt hslot
    simp only [UInt32.size]
    omega)
  obtain ⟨hw, hinum⟩ := h.iget (by rw [hvn]; exact hnames.1) hg
  refine Or.inr ⟨ip, k, rfl, hw, ?_, (((Took.refl p t).iget hg).same dp (h.ok.locked dp hl).1).2, ?_⟩
  · rw [hinum, hvn]
    exact hnames
  · rw [hchild, hinum]
    rfl

/-- The result of `namex` for a path from inode `i`. -/
def Resolves (sb : superblock) (s : Fs) (i : UInt32) (path : List UInt8) (parent : Bool)
    (x : Option (UInt32 × List UInt8)) : Prop :=
  x = if parent then s.resolveParent sb i path else (s.resolve sb i path).map fun j => (j, [])

/-- **A lookup** changes nothing but the reference that it returns. -/
theorem Walked.namexLoop {fuel : ℕ} {path : List UInt8} {parent : Bool}
    {o : Option (Fin NINODE × List UInt8)} (htree : Tree sb cwd s)
    (h : Walked sb p (· = s.fs) (ip :: refs) [] s t)
    (hsafe : Safe sb s (t.inode ip).inum.toNat) (h0 : (0 : UInt8) ∉ path)
    (hn : t.namexLoop sb p parent fuel path ip = .ok (o, u)) :
    Walked sb p (· = s.fs) ((o.map Prod.fst).toList ++ refs) [] s u ∧
      (∀ x, o = some x → Safe sb s (u.inode x.1).inum.toNat) ∧
      Resolves sb s.fs (t.inode ip).inum path parent (o.map fun x => ((u.inode x.1).inum, x.2)) := by
  induction fuel generalizing path ip t with
  | zero => cases hn
  | succ fuel ih =>
    unfold Volume.namexLoop at hn
    split at hn
    · next hskip =>
      split_ifs at hn with hparent
      · obtain ⟨u', hp, hn⟩ := bind_ok hn
        cases hn
        refine ⟨h.iput htree.ok List.not_mem_nil (looks_eq sb s _) hsafe hp, (fun x hx => by cases hx), ?_⟩
        rw [Resolves, if_pos hparent, Fs.resolveParent_nil hskip]
        rfl
      · cases hn
        refine ⟨h, fun x hx => ?_, ?_⟩
        · cases hx
          exact hsafe
        · rw [Resolves, if_neg hparent, Fs.resolve_nil hskip]
          rfl
    · next name rest hskip =>
      obtain ⟨t₁, hl, hn⟩ := bind_ok hn
      obtain ⟨h₁, -, hinum⟩ := h.ilock hl
      have hlocked := h₁.took.locked List.mem_cons_self
      have hF := looks_eq sb s (t₁.inode ip).inum
      have htypes := h₁.type hlocked hF
      rw [← hinum] at hsafe ⊢
      have hkey := skipelem_name hskip h0
      split_ifs at hn with htype hpar
      · obtain ⟨u', hp, hn⟩ := bind_ok hn
        cases hn
        refine ⟨h₁.iunlockput htree.ok hF hsafe hp, (fun x hx => by cases hx), ?_⟩
        rw [← htypes] at htype
        have hchild : s.fs.child sb (t₁.inode ip).inum name = none := by rw [Fs.child, if_neg htype]
        unfold Resolves
        split_ifs
        · by_cases hrest : rest = []
          · rw [hrest] at hskip
            rw [Fs.resolveParent_last hskip, if_neg htype]
            rfl
          · rw [Fs.resolveParent_cons hskip hrest, hchild]
            rfl
        · rw [Fs.resolve_cons hskip, hchild]
          rfl
      · obtain ⟨u', hp, hn⟩ := bind_ok hn
        cases hn
        have hinum' := iunlock_inum hp ip
        refine ⟨h₁.iunlock hp, fun x hx => ?_, ?_⟩
        · cases hx
          dsimp only
          rw [hinum']
          exact hsafe
        · rw [hpar.2] at hskip
          rw [Resolves, if_pos hpar.1, Fs.resolveParent_last hskip, if_pos (htypes.trans (not_not.mp htype)),
            ← hinum']
          rfl
      · obtain ⟨⟨next, t₂⟩, hd, hn₂⟩ := bind_ok hn
        obtain ⟨t₃, hp, hn₃⟩ := bind_ok hn₂
        have hstep : ∀ x j, s.fs.child sb (t₁.inode ip).inum name = some j →
            Resolves sb s.fs j rest parent x → Resolves sb s.fs (t₁.inode ip).inum path parent x := by
          intro x j hj hx
          unfold Resolves at hx ⊢
          split_ifs at hx ⊢ with hparent
          · rw [Fs.resolveParent_cons hskip fun hrest => hpar ⟨hparent, hrest⟩, hj]
            exact hx
          · rw [Fs.resolve_cons hskip, hj]
            exact hx
        obtain ⟨rfl, rfl, hchild⟩ | ⟨next, k, rfl, h₂, hsafe₂, hinum₂, hchild⟩ :=
          h₁.dirlookup htree hlocked hF hsafe (not_not.mp htype) hd
        · rw [hkey] at hchild
          cases hn₃
          refine ⟨h₁.iunlockput htree.ok hF hsafe hp, (fun x hx => by cases hx), ?_⟩
          unfold Resolves
          split_ifs with hparent
          · rw [Fs.resolveParent_cons hskip fun hrest => hpar ⟨hparent, hrest⟩, hchild]
            rfl
          · rw [Fs.resolve_cons hskip, hchild]
            rfl
        · rw [hkey] at hchild
          have h₃ := (h₂.perm (List.Perm.swap ip next refs) (List.Perm.refl _)).iunlockput htree.ok
            (looks_eq sb s _) (hinum₂ ▸ hsafe) hp
          rw [← iunlockput_inum hp] at hsafe₂ hchild
          obtain ⟨hw, hsafe', hres⟩ := ih h₃ hsafe₂ (fun h => h0 ((skipelem_some hskip).2.2.2 0 h)) hn₃
          exact ⟨hw, hsafe', hstep _ _ hchild hres⟩

/-- The inode where a path starts. -/
def start (cwd : Fin NINODE) (s : Volume) (path : List UInt8) : UInt32 :=
  if path.head? = some 47 then ROOTINO else (s.inode cwd).inum

theorem Walked.namex {path : List UInt8} {parent : Bool} {o : Option (Fin NINODE × List UInt8)}
    (htree : Tree sb cwd s) (h0 : (0 : UInt8) ∉ path) (hn : s.namex sb p cwd path parent = .ok (o, u)) :
    Walked sb p (· = s.fs) (o.map Prod.fst).toList [] s u ∧
      (∀ x, o = some x → Safe sb s (u.inode x.1).inum.toNat) ∧
      Resolves sb s.fs (s.start cwd path) path parent (o.map fun x => ((u.inode x.1).inum, x.2)) := by
  obtain ⟨⟨ip, t⟩, hs, hn⟩ := bind_ok hn
  have hstart : Walked sb p (· = s.fs) [ip] [] s t ∧ Safe sb s (t.inode ip).inum.toNat ∧
      (t.inode ip).inum = s.start cwd path := by
    unfold start
    split_ifs at hs ⊢
    · obtain ⟨hw, hinum⟩ := (Walked.refl htree.ok).iget htree.root.1 hs
      rw [hinum]
      exact ⟨hw, htree.root, rfl⟩
    · cases hs
      refine ⟨⟨(Took.refl p s).idup cwd, htree.ok.idup htree.cwd, rfl⟩, ?_, ?_⟩
      · rw [idup, setInode_self]
        exact ⟨(htree.ok.entry cwd htree.cwd).2, fun _ => Or.inr ⟨cwd, htree.cwd, rfl⟩⟩
      · rw [idup, setInode_self]
  have hw := hstart.1.namexLoop htree hstart.2.1 h0 hn
  rwa [List.append_nil, hstart.2.2] at hw

/-- **`namei`** finds the inode of the path. -/
theorem Walked.namei {path : List UInt8} {o : Option (Fin NINODE)} (htree : Tree sb cwd s)
    (h0 : (0 : UInt8) ∉ path) (hn : s.namei sb p cwd path = .ok (o, u)) :
    Walked sb p (· = s.fs) o.toList [] s u ∧ (∀ ip, o = some ip → Safe sb s (u.inode ip).inum.toNat) ∧
      s.fs.resolve sb (s.start cwd path) path = o.map fun ip => (u.inode ip).inum := by
  obtain ⟨⟨o', t⟩, hn, he⟩ := bind_ok hn
  obtain ⟨hw, hsafe, hres⟩ := Walked.namex htree h0 hn
  cases he
  refine ⟨hw, fun ip hip => ?_, ?_⟩
  · obtain ⟨x, rfl, rfl⟩ := Option.map_eq_some_iff.mp hip
    exact hsafe x rfl
  · have hfst := congrArg (Option.map Prod.fst) hres
    have hid : (s.fs.resolve sb (s.start cwd path) path).map (Prod.fst ∘ fun j => (j, ([] : List UInt8))) =
        s.fs.resolve sb (s.start cwd path) path := Option.map_id'
    rw [if_neg Bool.false_ne_true, Option.map_map, Option.map_map, hid] at hfst
    rw [Option.map_map]
    exact hfst.symm

/-- **`nameiparent`** finds the directory and the name. -/
theorem Walked.nameiparent {path : List UInt8} {o : Option (Fin NINODE × List UInt8)}
    (htree : Tree sb cwd s) (h0 : (0 : UInt8) ∉ path) (hn : s.nameiparent sb p cwd path = .ok (o, u)) :
    Walked sb p (· = s.fs) (o.map Prod.fst).toList [] s u ∧
      (∀ x, o = some x → Safe sb s (u.inode x.1).inum.toNat) ∧
      s.fs.resolveParent sb (s.start cwd path) path = o.map fun x => ((u.inode x.1).inum, x.2) := by
  obtain ⟨hw, hsafe, hres⟩ := Walked.namex htree h0 hn
  rw [Resolves, if_pos rfl] at hres
  exact ⟨hw, hsafe, hres.symm⟩

end Volume

end Xv6
