import Xv6.Fs.Walk

/-!
# Link — new entries, new numbers of links, new inodes

What `dirlink`, `iupdate` and `ialloc` do in the middle of a call: they change at most one inode.
-/

namespace Xv6

namespace Volume

variable {sb : superblock} {p : ℕ} {cwd ip dp : Fin NINODE} {s t u v : Volume} {i : Xv6.inode} {fs : Fs}
  {inum : UInt32} {D : Set UInt32} {refs locks : List (Fin NINODE)} {name : ℕ → UInt8} {n : ℕ} {r : ℤ}

/-! ## `dirlink` -/

/-- A reference that is given back at once. -/
theorem Ok.iget_iput (h : Ok sb t) (hg : t.iget ROOTDEV inum = .ok (ip, u)) (hp : u.iput sb p ip = .ok v) :
    Ok sb v ∧ v.fs = t.fs := by
  obtain ⟨i, rfl, hdev, hinum, href, hlock, hd, hcase⟩ := iget_ok hg
  obtain ⟨h1, hv, -⟩ | ⟨-, rfl⟩ := iput_ok hp
  · -- an entry with a new reference is not valid
    rw [setInode_self] at h1 hv
    obtain ⟨h0, -⟩ | ⟨-, hvalid, -⟩ := hcase
    · omega
    · rw [hv] at hvalid
      cases hvalid
  have hback : (t.setInode ip i).setInode ip { i with ref := i.ref - 1 } =
      t.setInode ip { i with ref := (t.inode ip).ref } := by
    rw [href, setInode_setInode]
    rfl
  rw [setInode_self, hback]
  refine ⟨h.setInode (fun h0 => ?_) ?_ (fun h0 hv => ?_) fun hl => ?_, rfl⟩
  · obtain ⟨-, h1, h2, -⟩ | ⟨h0', -⟩ := hcase
    · dsimp only
      rw [hdev, hinum, ← h2]
      exact ⟨rfl, (h.entry ip h0).2⟩
    · exact absurd h0' (Nat.pos_iff_ne_zero.mp h0)
  · obtain ⟨h0, -, h2, -⟩ | ⟨-, -, hnone⟩ := hcase
    · dsimp only
      rw [hinum, ← h2]
      exact h.unique_ne h0
    · exact fun ip' _ h0 he => hnone ip' h0 ⟨(h.entry ip' h0).1, he.trans hinum⟩
  · obtain ⟨-, -, h2, hvalid⟩ | ⟨h0', -⟩ := hcase
    · dsimp only
      rw [hd, hinum, ← h2]
      exact h.copy ip h0 (hvalid.symm.trans hv)
    · exact absurd h0' (Nat.pos_iff_ne_zero.mp h0)
  · dsimp only at hl ⊢
    rw [hlock] at hl
    obtain ⟨h0, hv⟩ := h.locked ip hl
    obtain ⟨-, -, -, hvalid⟩ | ⟨h0', -⟩ := hcase
    · exact ⟨h0, hvalid.trans hv⟩
    · exact absurd h0' (Nat.pos_iff_ne_zero.mp h0)

/-- **`dirlink`** changes its directory, or nothing that can be seen. -/
theorem Ok.dirlink (hsb : sb.Ok) (h : Ok sb t) (hl : (t.inode dp).lock ≠ none)
    (htype : (t.inode dp).d.type = T_DIR) (hd : t.dirlink sb p dp name n = .ok (r, u)) :
    Ok sb u ∧ Fs.SameBut sb {(t.inode dp).inum} t.fs u.fs ∧ (r < 0 → Fs.SameBut sb ∅ t.fs u.fs) ∧
      (u.fs.dinodeAt sb (t.inode dp).inum.toNat).type = T_DIR ∧
      (u.fs.dinodeAt sb (t.inode dp).inum.toNat).nlink = (t.inode dp).d.nlink ∧
      (SlotMap.find (t.fs.slots (t.inode dp)) (Fs.entries (t.inode dp)) (cstr DIRSIZ name) = none →
        (0 ≤ r ↔ Fs.HasSpace sb (t.inode dp) t.fs)) := by
  obtain ⟨⟨found, t₁⟩, hf, hd₁⟩ := bind_ok hd
  obtain ⟨hc, h0⟩ := h.lockedCopy hl
  obtain ⟨rfl, ht₁, hnone⟩ | ⟨ip, k, v, rfl, hg, hfound⟩ := h.dirlookup hl htype hf
  swap
  · obtain ⟨t₂, hp, hd₂⟩ := bind_ok hd₁
    cases hd₂
    obtain ⟨hu, hfs⟩ := h.iget_iput hg hp
    rw [hfs]
    refine ⟨hu, fun _ _ _ => .refl _ _ _, fun _ => .refl sb t.fs, by rw [← hc.d, htype],
      by rw [← hc.d], fun hnone => ?_⟩
    rw [hfound] at hnone
    cases hnone
  rw [ht₁] at hd₁
  obtain ⟨⟨off, i, fs⟩, he, hd₂⟩ := bind_ok hd₁
  obtain ⟨⟨r', i', fs'⟩, hw, hd₃⟩ := bind_ok hd₂
  cases hd₃
  obtain ⟨hdisk, hch, hat, ht, hnlink, hsame, hspace⟩ := h.disk.link hsb hc htype hnone he hw
  obtain ⟨d, hi'⟩ := (Fs.emptyLoop_same he).trans (Fs.writei_same hw)
  have href := (h.locked dp hl).1
  have hbut := hch.sameBut h.disk
  refine ⟨h.set hdisk ?_ (fun _ => ?_) ?_ (fun _ _ => ?_) fun _ => ?_, hbut, fun hr m hm hD => ?_, ?_,
    ?_, fun _ => ?_⟩
  · rw [hi']
    exact hch.dinodes
  · rw [hi']
    exact h.entry dp href
  · rw [hi']
    exact h.unique_ne href
  · refine ⟨?_, by rw [ht]; exact h0⟩
    rw [← hat, hi']
  · rw [hi']
    exact h.locked dp hl
  · by_cases hmd : m = (t.inode dp).inum
    · rw [hmd]
      refine hsame fun hr' => ?_
      rw [if_neg (not_not.mpr hr')] at hr
      exact absurd hr (by decide)
    · exact hbut m hm hmd
  · rw [set_fs, hat, ht, htype]
  · rw [set_fs, hat, hnlink]
  · rw [← hspace]
    by_cases hr : r' = 16
    · rw [if_neg (not_not.mpr hr)]
      exact ⟨fun _ => hr, fun _ => le_rfl⟩
    · rw [if_pos hr]
      exact ⟨fun h => absurd h (by decide), fun h => absurd h hr⟩

/-- The same, after other steps. -/
theorem Walked.dirlink (hsb : sb.Ok) (h : Walked sb p (Fs.SameBut sb D s.fs) refs locks s t)
    (hl : (t.inode dp).lock ≠ none) (htype : (t.inode dp).d.type = T_DIR)
    (hd : t.dirlink sb p dp name n = .ok (r, u)) :
    Walked sb p (Fs.SameBut sb (D ∪ {(t.inode dp).inum}) s.fs) refs locks s u ∧
      (r < 0 → Walked sb p (Fs.SameBut sb D s.fs) refs locks s u) := by
  obtain ⟨hu, hbut, hfail, -⟩ := h.ok.dirlink hsb hl htype hd
  refine ⟨⟨h.took.dirlink hd, hu, h.fs.trans hbut⟩, fun hr => ⟨h.took.dirlink hd, hu, ?_⟩⟩
  have hsame := h.fs.trans (hfail hr)
  rwa [Set.union_empty] at hsame

/-- An entry that is in use stays the same inode. -/
theorem dirlink_inum (h : t.dirlink sb p dp name n = .ok (r, u)) (href : 0 < (t.inode ip).ref) :
    (u.inode ip).inum = (t.inode ip).inum :=
  (((Took.refl p t).dirlink h).same ip href).2

/-- The type of an inode that is locked, read from the disk. -/
theorem Ok.type (h : Ok sb t) (hl : (t.inode ip).lock ≠ none) :
    (t.inode ip).d.type = (t.fs.dinodeAt sb (t.inode ip).inum.toNat).type := by
  rw [← (h.lockedCopy hl).1.d]

/-! ## `iupdate` -/

/-- **Another number of links** is written. -/
theorem Ok.relink {a b c : Int16} (hsb : sb.Ok) (h : Ok sb t) (hl : (t.inode ip).lock ≠ none)
    (hi : i = { t.inode ip with d := { (t.inode ip).d with major := a, minor := b, nlink := c } }) :
    Ok sb ((t.setInode ip i).iupdate sb ip) ∧
      Fs.SameBut sb {(t.inode ip).inum} t.fs ((t.setInode ip i).iupdate sb ip).fs ∧
      ∀ k, c = (t.inode ip).d.nlink + k →
        Fs.SameInode sb k t.fs ((t.setInode ip i).iupdate sb ip).fs (t.inode ip).inum := by
  obtain ⟨hc, h0⟩ := h.lockedCopy hl
  obtain ⟨hdisk, hch, hat, hsame⟩ := h.disk.relink hsb hc h0 hi
  have href := (h.locked ip hl).1
  have hnum : i.inum = (t.inode ip).inum := by rw [hi]
  rw [setInode_iupdate]
  refine ⟨h.set hdisk ?_ (fun _ => ?_) ?_ (fun _ _ => ⟨?_, ?_⟩) fun _ => ?_, hch.sameBut h.disk, hsame⟩
  · rw [hnum]
    exact hch.dinodes
  · rw [hi]
    exact h.entry ip href
  · rw [hnum]
    exact h.unique_ne href
  · rw [← hat, hnum]
  · rw [hi]
    exact h0
  · rw [hi]
    exact h.locked ip hl

theorem addLink_eq (ip : Fin NINODE) (k : Int16) (t : Volume) : t.addLink sb ip k =
    (t.setInode ip { t.inode ip with d := { (t.inode ip).d with nlink := (t.inode ip).d.nlink + k } }).iupdate
      sb ip := rfl

theorem Took.addLink (h : Took p refs locks s t) (ip : Fin NINODE) (k : Int16) :
    Took p refs locks s (t.addLink sb ip k) := h.iupdate ⟨_, rfl⟩

theorem addLink_self (ip : Fin NINODE) (k : Int16) (t : Volume) : (t.addLink sb ip k).inode ip =
    { t.inode ip with d := { (t.inode ip).d with nlink := (t.inode ip).d.nlink + k } } := by
  rw [addLink_eq, setInode_iupdate, set_self]

/-! ## `ialloc` -/

theorem Ok.withFs (h : Ok sb t) (hdisk : fs.DiskOk sb)
    (hsame : ∀ ip, 0 < (t.inode ip).ref → fs.dinodeAt sb (t.inode ip).inum.toNat =
      t.fs.dinodeAt sb (t.inode ip).inum.toNat) : Ok sb { t with fs := fs } := by
  refine ⟨hdisk, h.entry, h.unique, fun ip h0 hv => ?_, h.locked⟩
  dsimp only at h0 hv ⊢
  rw [hsame ip h0]
  exact h.copy ip h0 hv

/-- The first free inode on the disk gets the type, and a reference. -/
theorem iallocLoop_ok {dev : UInt32} {type : Int16} {k : ℕ} {o : Option (Fin NINODE)}
    (h : t.iallocLoop sb dev type k n = .ok (o, u)) :
    (o = none ∧ u = t ∧ ∀ m, n ≤ m → m < n + k → (t.fs.dinodeAt sb m).type ≠ 0) ∨
      ∃ ip m, o = some ip ∧ n ≤ m ∧ m < n + k ∧ (t.fs.dinodeAt sb m).type = 0 ∧
        Volume.iget dev (UInt32.ofNat m) { t with fs := (t.fs.log_write (IBLOCK m sb)
          (({ dinode.zero with type := type } : dinode).store (t.fs.blocks (IBLOCK m sb))
            (64 * (m % IPB)))) } = .ok (ip, u) := by
  induction k generalizing n with
  | zero =>
    cases h
    exact Or.inl ⟨rfl, rfl, fun m h1 h2 => by omega⟩
  | succ k ih =>
    unfold iallocLoop at h
    split_ifs at h with h0
    · obtain ⟨⟨ip, t₁⟩, hg, h₁⟩ := bind_ok h
      cases h₁
      exact Or.inr ⟨ip, n, rfl, le_rfl, by omega, h0, hg⟩
    · obtain ⟨ho, hu, hall⟩ | ⟨ip, m, ho, h1, h2, hm⟩ := ih h
      · refine Or.inl ⟨ho, hu, fun m h1 h2 => ?_⟩
        by_cases hmn : m = n
        · rw [hmn]
          exact h0
        · exact hall m (by omega) (by omega)
      · exact Or.inr ⟨ip, m, ho, by omega, by omega, hm⟩

/-- **A new inode**: it had no type, and its entry of the table was not in use. -/
theorem Ok.ialloc {type : Int16} {o : Option (Fin NINODE)} (hsb : sb.Ok) (hn : sb.ninodes < 2 ^ 32)
    (hn1 : 0 < sb.ninodes) (h : Ok sb t)
    (hused : ∀ ip, 0 < (t.inode ip).ref → (t.fs.dinodeAt sb (t.inode ip).inum.toNat).type ≠ 0)
    (ha : t.ialloc sb ROOTDEV type = .ok (o, u)) :
    (o = none ∧ u = t ∧ ∀ m, 0 < m → m < sb.ninodes → (t.fs.dinodeAt sb m).type ≠ 0) ∨
      ∃ ip, o = some ip ∧ Ok sb u ∧ (t.inode ip).ref = 0 ∧ (∀ ip' ≠ ip, u.inode ip' = t.inode ip') ∧
        Fs.SameBut sb {(u.inode ip).inum} t.fs u.fs ∧ (u.inode ip).inum.toNat < sb.ninodes ∧
        0 < (u.inode ip).inum.toNat ∧ (t.fs.dinodeAt sb (u.inode ip).inum.toNat).type = 0 ∧
        u.fs.dinodeAt sb (u.inode ip).inum.toNat = { dinode.zero with type := type } ∧
        (∃ j : Xv6.inode, j.inum = (u.inode ip).inum ∧ u.fs = t.fs.iupdate sb j) ∧
        ∀ refs locks s, Took p refs locks s t → Took p (ip :: refs) locks s u := by
  obtain ⟨ho, hu, hall⟩ | ⟨ip, m, ho, h1, h2, h0, hg⟩ := iallocLoop_ok ha
  · exact Or.inl ⟨ho, hu, fun m h1 h2 => hall m h1 (by omega)⟩
  have hm : m < sb.ninodes := by omega
  have hval : (UInt32.ofNat m).toNat = m := UInt32.toNat_ofNat_of_lt' (hm.trans hn)
  generalize hj : ({ dev := ROOTDEV, inum := UInt32.ofNat m, ref := 0, lock := none, valid := false, d :=
    { dinode.zero with type := type } } : Xv6.inode) = j at *
  have hjd : j.d = { dinode.zero with type := type } := by rw [← hj]
  have hjm : j.inum.toNat = m := by
    rw [← hj]
    exact hval
  have hwrite : t.fs.log_write (IBLOCK m sb) (({ dinode.zero with type := type } : dinode).store
      (t.fs.blocks (IBLOCK m sb)) (64 * (m % IPB))) = t.fs.iupdate sb j := by
    unfold Fs.iupdate
    rw [hjm, hjd]
  rw [hwrite] at hg
  obtain ⟨hdisk, hch⟩ := h.disk.fresh hsb (hjm ▸ hm) hjd
  have hne : ∀ ip', 0 < (t.inode ip').ref → (t.inode ip').inum.toNat ≠ m := fun ip' h0' he =>
    hused ip' h0' (he ▸ h0)
  have hok : Ok sb { t with fs := t.fs.iupdate sb j } := h.withFs hdisk fun ip' h0' =>
    hch.dinodes _ (h.entry ip' h0').2 (hjm ▸ hne ip' h0')
  obtain ⟨hu, hfs, -, hinum⟩ := hok.iget (hval.symm ▸ hm) hg
  have hin : (u.inode ip).inum.toNat = m := by rw [hinum, hval]
  refine Or.inr ⟨ip, ho, hu, ?_, fun ip' hip => ?_, ?_, hin ▸ hm, hin ▸ h1, hin ▸ h0, ?_,
    ⟨j, UInt32.toNat_inj.mp (hjm.trans hin.symm), hfs⟩, fun refs locks s htook => (htook.withFs _).iget hg⟩
  · obtain ⟨i, -, -, -, -, -, -, hcase⟩ := iget_ok hg
    obtain ⟨h0', -, he, -⟩ | ⟨h0', -⟩ := hcase
    · exact absurd (by rw [he, hval]) (hne ip h0')
    · exact h0'
  · obtain ⟨i, rfl, -⟩ := iget_ok hg
    exact setInode_ne hip
  · have hji : (u.inode ip).inum = j.inum := UInt32.toNat_inj.mp (hin.trans hjm.symm)
    rw [hfs, hji]
    exact hch.sameBut h.disk
  · rw [hin, hfs, ← hjd, ← hjm]
    exact Fs.dinodeAt_iupdate sb t.fs j

end Volume

end Xv6
