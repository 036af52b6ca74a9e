import Mathlib.Tactic.SplitIfs
import Xv6.Kernel.Names

/-!
# Refs — the references and locks of a call

Whatever is on the disk, a call changes an entry of the inode table in its contents only, but for the
references and the locks that it takes (`Took`).
-/

namespace Xv6

namespace Fs

variable {sb : superblock} {s s' : Fs} {ip ip' : inode} {bn off n : ℕ}

/-- Only the copy of the disk inode changes. -/
def SameEntry (ip ip' : inode) : Prop := ∃ d, ip' = { ip with d := d }

theorem SameEntry.refl (ip : inode) : SameEntry ip ip := ⟨ip.d, rfl⟩

theorem SameEntry.trans {ip'' : inode} (h : SameEntry ip ip') (h' : SameEntry ip' ip'') :
    SameEntry ip ip'' := by
  obtain ⟨d, rfl⟩ := h
  obtain ⟨d', rfl⟩ := h'
  exact ⟨d', rfl⟩

theorem blockAt_same (sb : superblock) (i : ℕ) (ip : inode) (s : Fs) :
    SameEntry ip (s.blockAt sb i ip).2.1 := by
  unfold blockAt
  dsimp only
  split_ifs
  · exact .refl _
  · exact ⟨_, rfl⟩
  · exact .refl _

theorem bmap_same {a : ℕ} (h : s.bmap sb bn ip = .ok (a, ip', s')) : SameEntry ip ip' := by
  unfold bmap at h
  split_ifs at h
  · have hs := blockAt_same sb bn ip s
    rw [Except.ok.inj h] at hs
    exact hs
  · have hs := blockAt_same sb NDIRECT ip s
    generalize s.blockAt sb NDIRECT ip = x at h hs
    obtain ⟨ind, ip₁, s₁⟩ := x
    dsimp only at h hs
    split_ifs at h <;> cases h <;> exact hs

theorem readLoop_same {writable : ℕ → Bool} {fuel tot : ℕ} {dst dst' : ByteStore} {r : ℤ}
    (h : readLoop sb writable n fuel tot off dst ip s = .ok (r, dst', ip', s')) : SameEntry ip ip' := by
  induction fuel generalizing tot off dst ip s with
  | zero =>
    cases h
    exact .refl _
  | succ fuel ih =>
    unfold readLoop at h
    split_ifs at h
    · obtain ⟨⟨a, ip₁, s₁⟩, hb, h⟩ := bind_ok h
      dsimp only at h
      split_ifs at h
      · cases h
        exact bmap_same hb
      · exact (bmap_same hb).trans (ih h)
      · cases h
        exact bmap_same hb
    · cases h
      exact .refl _

theorem readi_same {writable : ℕ → Bool} {dst dst' : ByteStore} {r : ℤ}
    (h : s.readi sb writable dst off n ip = .ok (r, dst', ip', s')) : SameEntry ip ip' := by
  unfold readi at h
  dsimp only at h
  split_ifs at h
  · cases h
    exact .refl _
  · exact readLoop_same h
  · exact readLoop_same h

theorem writeLoop_same {src : ℕ → Option UInt8} {fuel tot tot' off' : ℕ}
    (h : writeLoop sb src n fuel tot off ip s = .ok (tot', off', ip', s')) : SameEntry ip ip' := by
  induction fuel generalizing tot off ip s with
  | zero =>
    cases h
    exact .refl _
  | succ fuel ih =>
    unfold writeLoop at h
    split_ifs at h
    · obtain ⟨⟨a, ip₁, s₁⟩, hb, h⟩ := bind_ok h
      dsimp only at h
      split_ifs at h
      · cases h
        exact bmap_same hb
      · exact (bmap_same hb).trans (ih h)
      · cases h
        exact bmap_same hb
    · cases h
      exact .refl _

theorem writei_same {src : ℕ → Option UInt8} {r : ℤ}
    (h : s.writei sb src off n ip = .ok (r, ip', s')) : SameEntry ip ip' := by
  unfold writei at h
  split_ifs at h
  · cases h
    exact .refl _
  · cases h
    exact .refl _
  · obtain ⟨⟨tot, off', ip₁, s₁⟩, hl, h⟩ := bind_ok h
    cases h
    refine (writeLoop_same hl).trans ?_
    dsimp only
    split_ifs
    · exact ⟨_, rfl⟩
    · exact .refl _

theorem lookupLoop_same {name : ℕ → UInt8} {fuel : ℕ} {found : Option (ℕ × ℕ)}
    (h : s.lookupLoop sb name fuel off ip = .ok (found, ip', s')) : SameEntry ip ip' := by
  induction fuel generalizing off ip s with
  | zero =>
    cases h
    exact .refl _
  | succ fuel ih =>
    unfold lookupLoop at h
    split_ifs at h
    · obtain ⟨⟨r, de, ip₁, s₁⟩, hr, h⟩ := bind_ok h
      dsimp only at h
      split_ifs at h
      · exact (readi_same hr).trans (ih h)
      · cases h
        exact readi_same hr
      · exact (readi_same hr).trans (ih h)
    · cases h
      exact .refl _

theorem dirlookup_same {name : ℕ → UInt8} {found : Option (ℕ × ℕ)}
    (h : s.dirlookup sb name ip = .ok (found, ip', s')) : SameEntry ip ip' := by
  unfold Fs.dirlookup at h
  split_ifs at h
  exact lookupLoop_same h

theorem emptyLoop_same {fuel off' : ℕ} (h : s.emptyLoop sb fuel off ip = .ok (off', ip', s')) :
    SameEntry ip ip' := by
  induction fuel generalizing off ip s with
  | zero =>
    cases h
    exact .refl _
  | succ fuel ih =>
    unfold emptyLoop at h
    split_ifs at h
    · obtain ⟨⟨r, de, ip₁, s₁⟩, hr, h⟩ := bind_ok h
      dsimp only at h
      split_ifs at h
      · cases h
        exact readi_same hr
      · exact (readi_same hr).trans (ih h)
    · cases h
      exact .refl _

theorem truncDirect_same {i : ℕ} (h : s.truncDirect sb n i ip = .ok (ip', s')) : SameEntry ip ip' := by
  induction n generalizing i ip s with
  | zero =>
    cases h
    exact .refl _
  | succ n ih =>
    unfold truncDirect at h
    split_ifs at h
    · obtain ⟨s₁, -, h⟩ := bind_ok h
      exact SameEntry.trans ⟨_, rfl⟩ (ih h)
    · exact ih h

theorem itrunc_same (h : s.itrunc sb ip = .ok (ip', s')) : SameEntry ip ip' := by
  unfold itrunc at h
  obtain ⟨⟨ip₁, s₁⟩, h₁, h⟩ := bind_ok h
  obtain ⟨⟨ip₂, s₂⟩, h₂, h⟩ := bind_ok h
  cases h
  refine (truncDirect_same h₁).trans (SameEntry.trans ?_ ⟨_, rfl⟩)
  split_ifs at h₂
  · obtain ⟨s₃, -, h₂⟩ := bind_ok h₂
    obtain ⟨s₄, -, h₂⟩ := bind_ok h₂
    cases h₂
    exact ⟨_, rfl⟩
  · cases h₂
    exact .refl _

end Fs

namespace Volume

variable {sb : superblock} {p : ℕ} {cwd ip dp : Fin NINODE} {s t u : Volume} {i : Xv6.inode} {fs : Fs}
  {dev inum : UInt32} {refs locks : List (Fin NINODE)} {name : ℕ → UInt8} {type : Int16}

@[simp] theorem set_self : (s.set ip i fs).inode ip = i := Function.update_self _ _ _

theorem set_ne {ip' : Fin NINODE} (h : ip' ≠ ip) : (s.set ip i fs).inode ip' = s.inode ip' :=
  Function.update_of_ne h _ _

@[simp] theorem set_fs : (s.set ip i fs).fs = fs := rfl

@[simp] theorem setInode_self : (s.setInode ip i).inode ip = i := set_self

theorem setInode_ne {ip' : Fin NINODE} (h : ip' ≠ ip) : (s.setInode ip i).inode ip' = s.inode ip' := set_ne h

theorem setInode_setInode {j : Xv6.inode} : (s.setInode ip i).setInode ip j = s.setInode ip j := by
  unfold setInode set
  rw [Function.update_idem]

theorem set_eq_self : s.set ip (s.inode ip) s.fs = s := by
  unfold set
  rw [Function.update_eq_self]

/-- Process `p` has taken the references `refs` and the locks `locks` since `s`. -/
structure Took (p : ℕ) (refs locks : List (Fin NINODE)) (s t : Volume) : Prop where
  ref : ∀ ip, (t.inode ip).ref = (s.inode ip).ref + refs.count ip
  lock : ∀ ip, (t.inode ip).lock = if ip ∈ locks then some p else (s.inode ip).lock
  unlocked : ∀ ip ∈ locks, (s.inode ip).lock = none
  nodup : locks.Nodup
  same : ∀ ip, 0 < (s.inode ip).ref →
    (t.inode ip).dev = (s.inode ip).dev ∧ (t.inode ip).inum = (s.inode ip).inum

theorem Took.refl (p : ℕ) (s : Volume) : Took p [] [] s s where
  ref := fun _ => rfl
  lock := fun _ => (if_neg List.not_mem_nil).symm
  unlocked := fun _ h => absurd h List.not_mem_nil
  nodup := List.nodup_nil
  same := fun _ _ => ⟨rfl, rfl⟩

theorem Took.perm {refs' locks' : List (Fin NINODE)} (h : Took p refs locks s t)
    (hr : refs.Perm refs') (hl : locks.Perm locks') : Took p refs' locks' s t where
  ref := fun ip => by rw [h.ref, hr.count_eq]
  lock := fun ip => by simp only [h.lock, hl.mem_iff]
  unlocked := fun ip hip => h.unlocked ip (hl.mem_iff.mpr hip)
  nodup := hl.nodup_iff.mp h.nodup
  same := h.same

/-- One entry is changed. -/
theorem Took.set {refs' locks' : List (Fin NINODE)} (h : Took p refs locks s t)
    (href : i.ref = (s.inode ip).ref + refs'.count ip) (hrefs : ∀ ip' ≠ ip, refs'.count ip' = refs.count ip')
    (hlock : i.lock = if ip ∈ locks' then some p else (s.inode ip).lock)
    (hlocks : ∀ ip' ≠ ip, ip' ∈ locks' ↔ ip' ∈ locks) (hun : ip ∈ locks' → (s.inode ip).lock = none)
    (hnd : locks'.Nodup)
    (hsame : 0 < (s.inode ip).ref → i.dev = (t.inode ip).dev ∧ i.inum = (t.inode ip).inum) :
    Took p refs' locks' s (t.set ip i fs) := by
  refine ⟨fun ip' => ?_, fun ip' => ?_, fun ip' hip' => ?_, hnd, fun ip' h0 => ?_⟩
  · by_cases hip : ip' = ip
    · rw [hip, set_self, href]
    · rw [set_ne hip, hrefs ip' hip]
      exact h.ref ip'
  · by_cases hip : ip' = ip
    · rw [hip, set_self]
      exact hlock
    · rw [set_ne hip, h.lock]
      simp only [hlocks ip' hip]
  · by_cases hip : ip' = ip
    · rw [hip] at hip' ⊢
      exact hun hip'
    · exact h.unlocked ip' ((hlocks ip' hip).mp hip')
  · by_cases hip : ip' = ip
    · rw [hip] at h0 ⊢
      rw [set_self, (hsame h0).1, (hsame h0).2]
      exact h.same ip h0
    · rw [set_ne hip]
      exact h.same ip' h0

/-- The contents of an entry change, and the blocks. -/
theorem Took.contents (h : Took p refs locks s t) (hi : Fs.SameEntry (t.inode ip) i) (fs : Fs) :
    Took p refs locks s (t.set ip i fs) := by
  obtain ⟨d, rfl⟩ := hi
  exact h.set (h.ref ip) (fun _ _ => rfl) (h.lock ip) (fun _ _ => Iff.rfl) (h.unlocked ip) h.nodup
    fun _ => ⟨rfl, rfl⟩

/-- A reference to an entry that is in use, or to one that was not. -/
theorem Took.take (h : Took p refs locks s t) (href : i.ref = (t.inode ip).ref + 1)
    (hlock : i.lock = (t.inode ip).lock)
    (hsame : 0 < (t.inode ip).ref → i.dev = (t.inode ip).dev ∧ i.inum = (t.inode ip).inum) :
    Took p (ip :: refs) locks s (t.set ip i fs) := by
  have hr := h.ref ip
  refine h.set ?_ (fun ip' hip => List.count_cons_of_ne (Ne.symm hip)) (hlock.trans (h.lock ip))
    (fun _ _ => Iff.rfl) (h.unlocked ip) h.nodup fun h0 => hsame (by omega)
  rw [List.count_cons_self, href, hr]
  omega

/-- A reference is given back. -/
theorem Took.give (h : Took p (ip :: refs) locks s t) (href : i.ref = (t.inode ip).ref - 1)
    (hlock : i.lock = (t.inode ip).lock)
    (hsame : i.dev = (t.inode ip).dev ∧ i.inum = (t.inode ip).inum) :
    Took p refs locks s (t.set ip i fs) := by
  have hr := h.ref ip
  refine h.set ?_ (fun ip' hip => (List.count_cons_of_ne (Ne.symm hip)).symm) (hlock.trans (h.lock ip))
    (fun _ _ => Iff.rfl) (h.unlocked ip) h.nodup fun _ => hsame
  rw [List.count_cons_self] at hr
  omega

theorem iget_ok (h : t.iget dev inum = .ok (ip, u)) : ∃ i, u = t.setInode ip i ∧ i.dev = dev ∧
    i.inum = inum ∧ i.ref = (t.inode ip).ref + 1 ∧ i.lock = (t.inode ip).lock ∧ i.d = (t.inode ip).d ∧
    ((0 < (t.inode ip).ref ∧ (t.inode ip).dev = dev ∧ (t.inode ip).inum = inum ∧
        i.valid = (t.inode ip).valid) ∨
      ((t.inode ip).ref = 0 ∧ i.valid = false ∧ ∀ ip', 0 < (t.inode ip').ref →
        ¬ ((t.inode ip').dev = dev ∧ (t.inode ip').inum = inum))) := by
  unfold iget at h
  split at h
  · next ip' hf =>
    cases h
    have hin := List.find?_some hf
    rw [decide_eq_true_eq] at hin
    exact ⟨_, rfl, hin.2.1, hin.2.2, rfl, rfl, rfl, Or.inl ⟨hin.1, hin.2.1, hin.2.2, rfl⟩⟩
  · next hnone =>
    split at h
    · cases h
    · next ip' hf =>
      cases h
      have h0 := List.find?_some hf
      rw [decide_eq_true_eq] at h0
      refine ⟨_, rfl, rfl, rfl, by rw [h0], rfl, rfl, Or.inr ⟨h0, rfl, fun ip₁ h1 hin => ?_⟩⟩
      have hno := List.find?_eq_none.mp hnone ip₁ (List.mem_finRange ip₁)
      simp only [decide_eq_true_eq] at hno
      exact hno ⟨h1, hin⟩

theorem Took.iget (h : Took p refs locks s t) (hg : t.iget dev inum = .ok (ip, u)) :
    Took p (ip :: refs) locks s u := by
  obtain ⟨i, rfl, hdev, hinum, href, hlock, -, hcase⟩ := iget_ok hg
  refine h.take href hlock fun h0 => ?_
  obtain ⟨-, h1, h2, -⟩ | ⟨h1, -⟩ := hcase
  · rw [hdev, hinum, h1, h2]
    exact ⟨rfl, rfl⟩
  · omega

theorem Took.idup (h : Took p refs locks s t) (ip : Fin NINODE) :
    Took p (ip :: refs) locks s (t.idup ip) := h.take rfl rfl fun _ => ⟨rfl, rfl⟩

theorem ilock_ok (h : t.ilock sb p ip = .ok u) : 0 < (t.inode ip).ref ∧ (t.inode ip).lock = none ∧
    ∃ d, u = t.setInode ip { t.inode ip with lock := some p, valid := true, d := d } ∧
      (((t.inode ip).valid = true ∧ d = (t.inode ip).d) ∨ ((t.inode ip).valid = false ∧
        d = t.fs.dinodeAt sb (t.inode ip).inum.toNat ∧ d.type ≠ 0)) := by
  unfold ilock at h
  dsimp only at h
  split_ifs at h with href hlock hv htype
  · cases h
    exact ⟨by omega, not_not.mp hlock, (t.inode ip).d, by rw [← hv], Or.inl ⟨hv, rfl⟩⟩
  · cases h
    exact ⟨by omega, not_not.mp hlock, _, rfl, Or.inr ⟨Bool.eq_false_iff.mpr hv, rfl, htype⟩⟩

theorem Took.ilock (h : Took p refs locks s t) (hl : t.ilock sb p ip = .ok u) :
    Took p refs (ip :: locks) s u ∧ ip ∉ locks := by
  obtain ⟨-, hlock, d, rfl, -⟩ := ilock_ok hl
  have hl := h.lock ip
  rw [hlock] at hl
  have hnot : ip ∉ locks := fun hip => by
    rw [if_pos hip] at hl
    cases hl
  rw [if_neg hnot] at hl
  refine ⟨h.set (h.ref ip) (fun _ _ => rfl) (if_pos List.mem_cons_self).symm (fun ip' hip => ?_)
    (fun _ => hl.symm) (List.nodup_cons.mpr ⟨hnot, h.nodup⟩) fun _ => ⟨rfl, rfl⟩, hnot⟩
  rw [List.mem_cons]
  exact ⟨fun h' => h'.resolve_left hip, Or.inr⟩

theorem iunlock_ok (h : t.iunlock p ip = .ok u) :
    (t.inode ip).lock = some p ∧ u = t.setInode ip { t.inode ip with lock := none } := by
  unfold iunlock at h
  dsimp only at h
  split_ifs at h with hlock
  cases h
  rw [not_or, not_not] at hlock
  exact ⟨hlock.1, rfl⟩

theorem Took.iunlock (h : Took p refs (ip :: locks) s t) (hu : t.iunlock p ip = .ok u) :
    Took p refs locks s u := by
  obtain ⟨-, rfl⟩ := iunlock_ok hu
  obtain ⟨hnot, hnd⟩ := List.nodup_cons.mp h.nodup
  refine h.set (h.ref ip) (fun _ _ => rfl) ?_ (fun ip' hip => ?_) (fun hip => absurd hip hnot) hnd
    fun _ => ⟨rfl, rfl⟩
  · rw [if_neg hnot, h.unlocked ip List.mem_cons_self]
  · rw [List.mem_cons]
    exact ⟨Or.inr, fun h' => h'.resolve_left hip⟩

/-- The last reference to an inode without links frees it; else a reference is dropped. -/
theorem iput_ok (h : t.iput sb p ip = .ok u) :
    ((t.inode ip).ref = 1 ∧ (t.inode ip).valid = true ∧ (t.inode ip).d.nlink = 0 ∧
      (t.inode ip).lock = none ∧ ∃ i fs, t.fs.itrunc sb { t.inode ip with lock := some p } = .ok (i, fs) ∧
        u = t.set ip { i with d := { i.d with type := 0 }, valid := false, lock := none, ref := i.ref - 1 }
          (fs.iupdate sb { i with d := { i.d with type := 0 } })) ∨
      (¬ ((t.inode ip).ref = 1 ∧ (t.inode ip).valid = true ∧ (t.inode ip).d.nlink = 0) ∧
        u = t.setInode ip { t.inode ip with ref := (t.inode ip).ref - 1 }) := by
  unfold iput at h
  dsimp only at h
  split_ifs at h with hlast hlock
  · obtain ⟨⟨i, fs⟩, hi, h⟩ := bind_ok h
    cases h
    exact Or.inl ⟨hlast.1, hlast.2.1, hlast.2.2, not_not.mp hlock, i, fs, hi, rfl⟩
  · cases h
    exact Or.inr ⟨hlast, rfl⟩

theorem Took.iput (h : Took p (ip :: refs) locks s t) (hp : t.iput sb p ip = .ok u) :
    Took p refs locks s u := by
  obtain ⟨-, -, -, hlock, i, fs, hi, rfl⟩ | ⟨-, rfl⟩ := iput_ok hp
  · obtain ⟨d, rfl⟩ := Fs.itrunc_same hi
    exact h.give rfl hlock.symm ⟨rfl, rfl⟩
  · exact h.give rfl rfl ⟨rfl, rfl⟩

theorem Took.iunlockput (h : Took p (ip :: refs) (ip :: locks) s t)
    (hp : t.iunlockput sb p ip = .ok u) : Took p refs locks s u := by
  obtain ⟨u', hu, hp⟩ := bind_ok hp
  exact (h.iunlock hu).iput hp

theorem Took.dirlookup {o : Option (Fin NINODE × ℕ)} (h : Took p refs locks s t)
    (hd : t.dirlookup sb dp name = .ok (o, u)) :
    Took p ((o.map Prod.fst).toList ++ refs) locks s u := by
  obtain ⟨⟨found, i, fs⟩, hf, hd⟩ := bind_ok hd
  have h₁ := h.contents (Fs.dirlookup_same hf) fs
  cases found with
  | none =>
    cases hd
    exact h₁
  | some x =>
    obtain ⟨⟨ip, u'⟩, hg, hd⟩ := bind_ok hd
    cases hd
    exact h₁.iget hg

theorem Took.withFs (h : Took p refs locks s t) (fs : Fs) : Took p refs locks s { t with fs := fs } :=
  ⟨h.ref, h.lock, h.unlocked, h.nodup, h.same⟩

theorem Took.dirlink {n : ℕ} {r : ℤ} (h : Took p refs locks s t)
    (hd : t.dirlink sb p dp name n = .ok (r, u)) : Took p refs locks s u := by
  obtain ⟨⟨found, t₁⟩, hf, hd⟩ := bind_ok hd
  have h₁ := h.dirlookup hf
  cases found with
  | some x =>
    obtain ⟨t₂, hp, hd⟩ := bind_ok hd
    cases hd
    exact h₁.iput hp
  | none =>
    obtain ⟨⟨off, i, fs⟩, he, hd⟩ := bind_ok hd
    obtain ⟨⟨r', i', fs'⟩, hw, hd⟩ := bind_ok hd
    cases hd
    exact h₁.contents ((Fs.emptyLoop_same he).trans (Fs.writei_same hw)) fs'

theorem setInode_iupdate : (s.setInode ip i).iupdate sb ip = s.set ip i (s.fs.iupdate sb i) := by
  unfold iupdate
  rw [setInode_self]
  rfl

/-- The copy is changed and written. -/
theorem Took.iupdate (h : Took p refs locks s t) (hi : Fs.SameEntry (t.inode ip) i) :
    Took p refs locks s ((t.setInode ip i).iupdate sb ip) := by
  rw [setInode_iupdate]
  exact h.contents hi _

theorem Took.locked (h : Took p refs locks s t) (hip : ip ∈ locks) : (t.inode ip).lock ≠ none := by
  rw [h.lock, if_pos hip]
  exact Option.some_ne_none p

/-- **`namex`** returns a reference to the inode that it returns, and nothing else. -/
theorem Took.namexLoop {fuel : ℕ} {path : List UInt8} {parent : Bool} {o : Option (Fin NINODE × List UInt8)}
    (h : Took p (ip :: refs) locks s t) (hn : t.namexLoop sb p parent fuel path ip = .ok (o, u)) :
    Took p ((o.map Prod.fst).toList ++ refs) locks s u := by
  induction fuel generalizing path ip t with
  | zero => cases hn
  | succ fuel ih =>
    unfold Volume.namexLoop at hn
    split at hn
    · split_ifs at hn
      · obtain ⟨u', hp, hn⟩ := bind_ok hn
        cases hn
        exact h.iput hp
      · cases hn
        exact h
    · obtain ⟨t₁, hl, hn⟩ := bind_ok hn
      obtain ⟨h₁, -⟩ := h.ilock hl
      split_ifs at hn
      · obtain ⟨u', hp, hn⟩ := bind_ok hn
        cases hn
        exact h₁.iunlockput hp
      · obtain ⟨u', hp, hn⟩ := bind_ok hn
        cases hn
        exact h₁.iunlock hp
      · obtain ⟨⟨next, t₂⟩, hd, hn⟩ := bind_ok hn
        obtain ⟨t₃, hp, hn⟩ := bind_ok hn
        have h₂ := h₁.dirlookup hd
        cases next with
        | none =>
          cases hn
          exact h₂.iunlockput hp
        | some x =>
          refine ih ((h₂.perm ?_ (List.Perm.refl _)).iunlockput hp) hn
          exact List.Perm.swap ip x.1 refs

theorem Took.namex {path : List UInt8} {parent : Bool} {o : Option (Fin NINODE × List UInt8)}
    (h : Took p refs locks s t) (hn : t.namex sb p cwd path parent = .ok (o, u)) :
    Took p ((o.map Prod.fst).toList ++ refs) locks s u := by
  obtain ⟨⟨ip, t₁⟩, hs, hn⟩ := bind_ok hn
  refine Took.namexLoop ?_ hn
  split_ifs at hs
  · exact h.iget hs
  · cases hs
    exact h.idup cwd

theorem Took.namei {path : List UInt8} {o : Option (Fin NINODE)} (h : Took p refs locks s t)
    (hn : t.namei sb p cwd path = .ok (o, u)) : Took p (o.toList ++ refs) locks s u := by
  obtain ⟨⟨o', t₁⟩, hn, he⟩ := bind_ok hn
  cases he
  exact h.namex hn

end Volume

end Xv6
