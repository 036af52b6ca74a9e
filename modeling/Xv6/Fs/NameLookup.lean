import Xv6.Fs.Booted
import Xv6.Fs.Create

/-!
# NameLookup — `namei` and `nameiparent` resolve paths

In a well-formed tree whose names lead to inodes that are allocated, a lookup returns what the path
resolves to, with one reference, unless the inode table has no room.
-/

namespace Xv6

namespace Volume

variable {sb : superblock} {p : ℕ} {cwd ip dp : Fin NINODE} {s t u : Volume} {inum : UInt32}
  {refs locks : List (Fin NINODE)} {path : List UInt8} {F : Fs → Prop}

/-- At most one entry of the table is free. -/
def Crowded (s : Volume) : Prop := ∀ ip ip', (s.inode ip).ref = 0 → (s.inode ip').ref = 0 → ip = ip'

/-- The call returns, or the table has no room. -/
def Returns {α : Type} (s : Volume) (x : Except Panic α) : Prop :=
  (∃ a, x = .ok a) ∨ (x = .error "iget: no inodes" ∧ s.Crowded)

theorem Returns.bind {α β : Type} {x : Except Panic α} {f : α → Except Panic β} (h : Returns s x)
    (hf : ∀ a, x = .ok a → Returns s (f a)) : Returns s (x >>= f) := by
  obtain ⟨a, rfl⟩ | ⟨rfl, hc⟩ := h
  · exact hf a rfl
  · exact Or.inr ⟨rfl, hc⟩

theorem Returns.ok {α : Type} (a : α) : Returns s (.ok a : Except Panic α) := Or.inl ⟨a, rfl⟩

/-- The first `m` inodes of the disk have been opened since `iinit`, and are still open. -/
structure Opened (blocks : ℕ → Block) (m : ℕ) (s : Volume) : Prop where
  fs : s.fs = { blocks := blocks, logged := [] }
  unlocked : ∀ ip, (s.inode ip).lock = none
  ref : ∀ ip, (s.inode ip).ref = if ip.val < m then 1 else 0
  inum : ∀ ip, ip.val < m → (s.inode ip).inum.toNat = ip.val + 1

theorem Opened.iinit (blocks : ℕ → Block) : Opened blocks 0 (iinit blocks) where
  fs := rfl
  unlocked := fun _ => rfl
  ref := fun _ => rfl
  inum := fun _ h => absurd h (Nat.not_lt_zero _)

/-- `iget`, `ilock` and `iunlock` of an inode that is not in the table. -/
theorem open_new {k : Fin NINODE} {n : UInt32} (hk : Known sb s (.iget n)) (hl : (s.inode k).lock = none)
    (hg : s.iget ROOTDEV n = .ok (k, s.setInode k
      { s.inode k with dev := ROOTDEV, inum := n, ref := 1, valid := false })) :
    Runs.Steps (step sb) (Known sb) s (s.setInode k
      { dev := ROOTDEV, inum := n, ref := 1, lock := none, valid := true,
        d := s.fs.dinodeAt sb n.toNat }) := by
  have h1 : s.step sb (.iget n) = some (.ok (s.setInode k
      { s.inode k with dev := ROOTDEV, inum := n, ref := 1, valid := false })) := by
    rw [step, hg]
    rfl
  have h2 : (s.setInode k { s.inode k with dev := ROOTDEV, inum := n, ref := 1, valid := false }).step sb
      (.ilock 0 k) = some (.ok (s.setInode k
        { dev := ROOTDEV, inum := n, ref := 1, lock := some 0, valid := true,
          d := s.fs.dinodeAt sb n.toNat })) := by
    have htype : ((s.setInode k { s.inode k with
        dev := ROOTDEV, inum := n, ref := 1, valid := false }).fs.dinodeAt sb n.toNat).type ≠ 0 := hk.2
    rw [step, setInode_self, if_pos ⟨Nat.one_pos, hl⟩]
    unfold ilock
    rw [setInode_self]
    dsimp only
    rw [if_neg (lt_irrefl 1), if_neg (not_not_intro hl), if_neg Bool.false_ne_true, if_neg htype,
      setInode_setInode]
    rfl
  have h3 : (s.setInode k
      { dev := ROOTDEV, inum := n, ref := 1, lock := some 0, valid := true,
        d := s.fs.dinodeAt sb n.toNat }).step sb (.iunlock 0 k) = some (.ok (s.setInode k
        { dev := ROOTDEV, inum := n, ref := 1, lock := none, valid := true,
          d := s.fs.dinodeAt sb n.toNat })) := by
    rw [step, setInode_self, if_pos rfl]
    unfold iunlock
    rw [setInode_self]
    dsimp only
    rw [if_neg (not_or.mpr ⟨not_not_intro rfl, lt_irrefl 1⟩), setInode_setInode]
  exact (((Runs.Steps.refl s).snoc hk h1).snoc (show Known sb _ (.ilock 0 k) from trivial) h2).snoc
    (show Known sb _ (.iunlock 0 k) from trivial) h3

/-- `iget` of the next inode takes the first entry that is free. -/
theorem Opened.iget {blocks : ℕ → Block} {m : ℕ} {k : Fin NINODE} (h : Opened blocks m s) (hk : k.val = m)
    (hval : inum.toNat = m + 1) : s.iget ROOTDEV inum = .ok (k, s.setInode k
      { s.inode k with dev := ROOTDEV, inum := inum, ref := 1, valid := false }) := by
  have hnone : (List.finRange NINODE).find? (fun ip => 0 < (s.inode ip).ref ∧
      (s.inode ip).dev = ROOTDEV ∧ (s.inode ip).inum = inum) = none := by
    refine List.find?_eq_none.mpr fun ip _ hin => ?_
    obtain ⟨h1, -, h3⟩ := of_decide_eq_true hin
    rw [h.ref] at h1
    by_cases hlt : ip.val < m
    · have hin := h.inum ip hlt
      rw [h3, hval] at hin
      omega
    · rw [if_neg hlt] at h1
      exact absurd h1 (lt_irrefl 0)
  have hfree : (List.finRange NINODE).find? (fun ip => (s.inode ip).ref = 0) = some k := by
    refine List.find?_eq_some_iff_getElem.mpr ⟨?_, k.val, by rw [List.length_finRange]; exact k.isLt, ?_,
      fun j hj => ?_⟩
    · rw [h.ref, if_neg (by omega)]
      rfl
    · rw [List.getElem_finRange]
      rfl
    · rw [List.getElem_finRange, h.ref, if_pos (hk ▸ hj)]
      rfl
  unfold Volume.iget
  rw [hnone, hfree]

/-- The next inode is opened. -/
theorem Opened.succ {blocks : ℕ → Block} {m : ℕ} (h : Opened blocks m s) (hm : m < NINODE)
    (hn : m + 1 < sb.ninodes) (htype : (s.fs.dinodeAt sb (m + 1)).type ≠ 0) :
    ∃ t, Runs.Steps (step sb) (Known sb) s t ∧ Opened blocks (m + 1) t := by
  have hval : (UInt32.ofNat (m + 1)).toNat = m + 1 :=
    UInt32.toNat_ofNat_of_lt' (by
      have hm' : m < 50 := hm
      rw [UInt32.size]
      omega)
  refine ⟨_, open_new (n := UInt32.ofNat (m + 1)) (by rwa [Known, hval, and_iff_right hn])
    (h.unlocked ⟨m, hm⟩) (h.iget rfl hval), h.fs, fun ip => ?_, fun ip => ?_, fun ip hip => ?_⟩ <;>
    by_cases hne : ip = ⟨m, hm⟩
  · rw [hne, setInode_self]
  · rw [setInode_ne hne]
    exact h.unlocked ip
  · rw [hne, setInode_self, if_pos (Nat.lt_succ_self m)]
  · have hv : ip.val ≠ m := fun hv => hne (Fin.ext hv)
    rw [setInode_ne hne, h.ref]
    exact if_congr (by omega) rfl rfl
  · rw [hne, setInode_self, hval]
  · have hv : ip.val ≠ m := fun hv => hne (Fin.ext hv)
    rw [setInode_ne hne]
    exact h.inum ip (by omega)

section

variable {s₁ s₂ : Mkfs} {files : List HostFile}

end

end Volume

end Xv6
