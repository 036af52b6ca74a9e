import Xv6.Fs.NamesFail
import Xv6.Fs.OpenFiles
import Xv6.Kernel.Open
import Xv6.Lib.Runs

/-!
# OpenFails — an `open` that fails

`sys_open` looks the path up or creates it, and then allocates a file and a descriptor.  If one of the
tables is full, the references are given back, but a file that has just been created stays.
-/

namespace Xv6

namespace OpenSys

open Volume (WellFormed Creatable Walked Made SameTree Safe looks_eq)

variable {sb : superblock} {p : Fin NPROC} {cwd ip : Fin NINODE} {s t : OpenSys} {v u : Volume}
  {path : List UInt8} {omode : UInt32}

/-- No `struct file` is free, or process `p` has no free descriptor. -/
def Full (p : Fin NPROC) (s : FileSys) : Prop :=
  (∀ f, (s.tab.file f).ref ≠ 0) ∨ ∀ fd, s.ofile p fd ≠ none

/-- The tree, the files and the descriptors are the same. -/
structure Unchanged (sb : superblock) (s t : OpenSys) : Prop where
  tree : SameTree sb s.vol t.vol
  file : t.sys.tab.file = s.sys.tab.file
  ofile : t.sys.ofile = s.sys.ofile

/-! ## The tables -/

theorem filealloc_none {tab : Ftable} (h : tab.filealloc = none) (f : Fin NFILE) :
    (tab.file f).ref ≠ 0 := by
  have hnone := List.find?_eq_none.mp (Option.map_eq_none_iff.mp h) f (List.mem_finRange f)
  simpa using hnone

theorem filealloc_some {tab tab' : Ftable} {f : Fin NFILE} (h : tab.filealloc = some (f, tab')) :
    (tab.file f).ref = 0 ∧ tab' = tab.set f { tab.file f with ref := 1 } := by
  obtain ⟨g, hg, he⟩ := Option.map_eq_some_iff.mp h
  cases he
  exact ⟨by simpa using List.find?_some hg, rfl⟩

theorem fdalloc_none {sys : FileSys} {f : Fin NFILE} (h : sys.fdalloc p f = none) (fd : Fin NOFILE) :
    sys.ofile p fd ≠ none := by
  have hnone := List.find?_eq_none.mp (Option.map_eq_none_iff.mp h) fd (List.mem_finRange fd)
  simpa using hnone

/-- Closing a file that is open on nothing. -/
theorem fileclose_new (sb : superblock) (p : Fin NPROC) {f : Fin NFILE} (href : (s.sys.tab.file f).ref = 1)
    (htype : (s.sys.tab.file f).type = .FD_NONE) : s.fileclose sb p f =
      .ok (s.setTab (s.sys.tab.set f { s.sys.tab.file f with ref := 0, type := .FD_NONE })) := by
  have hclose : s.sys.tab.fileclose f =
      .ok (s.sys.tab.set f { s.sys.tab.file f with ref := 0, type := .FD_NONE }) := by
    unfold Ftable.fileclose
    simp [href, htype]
  unfold fileclose
  rw [hclose, ok_bind, if_neg]
  · rfl
  · rintro ⟨-, hi | hd⟩
    · rw [htype] at hi
      cases hi
    · rw [htype] at hd
      cases hd

/-- **A file and a descriptor** are allocated, or the tables are as before. -/
theorem openFile_ok {o : Option (Fin NFILE × Fin NOFILE)}
    (hfree : ∀ f, (s.sys.tab.file f).ref = 0 → (s.sys.tab.file f).type = .FD_NONE)
    (h : s.openFile sb p = .ok (o, t)) : t.vol = s.vol ∧
      (o = none ∧ Full p s.sys ∧ t.sys.tab.file = s.sys.tab.file ∧ t.sys.ofile = s.sys.ofile ∨
        o ≠ none ∧ ¬ Full p s.sys) := by
  unfold openFile at h
  cases ha : s.sys.tab.filealloc with
  | none =>
    rw [ha] at h
    cases h
    exact ⟨rfl, Or.inl ⟨rfl, Or.inl (filealloc_none ha), rfl, rfl⟩⟩
  | some x =>
    obtain ⟨f, tab⟩ := x
    obtain ⟨href, htab⟩ := filealloc_some ha
    rw [ha] at h
    dsimp only at h
    cases hd : (s.setTab tab).sys.fdalloc p f with
    | none =>
      rw [hd] at h
      have hfile : (s.setTab tab).sys.tab.file f = { s.sys.tab.file f with ref := 1 } := by
        rw [htab]
        exact Function.update_self f _ _
      have hclose := fileclose_new sb p (by rw [hfile]) (by rw [hfile]; exact hfree f href)
      dsimp only at h
      rw [hclose, ok_bind] at h
      cases h
      have hnone := fdalloc_none hd
      refine ⟨rfl, Or.inl ⟨rfl, Or.inr hnone, ?_, rfl⟩⟩
      -- the entry is as it was before
      have hsame : { s.sys.tab.file f with ref := 0, type := .FD_NONE } = s.sys.tab.file f := by
        rw [← href, ← hfree f href]
      rw [hfile, hsame, htab]
      show Function.update (Function.update s.sys.tab.file f _) f _ = s.sys.tab.file
      rw [Function.update_idem, Function.update_eq_self]
    | some x =>
      rw [hd] at h
      cases h
      obtain ⟨fd, sys⟩ := x
      refine ⟨rfl, Or.inr ⟨Option.some_ne_none _, ?_⟩⟩
      rintro (hfull | hfull)
      · exact hfull f href
      · exact hfull fd (FileSys.fdalloc_ok hd).1

/-! ## The volume -/

/-- **The path**: nothing has changed, or the inode was there, or it has been made. -/
theorem openPath_ok {o : Option (Fin NINODE)} (hsb : sb.Ok) (hs : WellFormed sb cwd v)
    (h0 : (0 : UInt8) ∉ path) (h : openPath sb p cwd path omode v = .ok (o, u)) :
    (o = none ∧ Walked sb p (Fs.SameBut sb ∅ v.fs) [] [] v u ∧
        ¬ (omode &&& O_CREATE ≠ 0 ∧ Creatable sb cwd v path)) ∨
      (∃ ip, o = some ip ∧ Walked sb p (· = v.fs) [ip] [ip] v u ∧ Safe sb v (u.inode ip).inum.toNat ∧
        ¬ (omode &&& O_CREATE ≠ 0 ∧ Creatable sb cwd v path)) ∨
      ∃ ip, o = some ip ∧ (omode &&& O_CREATE ≠ 0 ∧ Creatable sb cwd v path) ∧ Made sb p T_FILE ip v u := by
  unfold openPath at h
  split_ifs at h with hcr
  · obtain ⟨ho, hw, hno⟩ | ⟨ip, ho, hw, hsafe, hno⟩ | ⟨ip, ho, hmade⟩ := Volume.create_ok hsb hs h0 h
    · exact Or.inl ⟨ho, hw, fun hc => hno (by decide) hc.2⟩
    · exact Or.inr (Or.inl ⟨ip, ho, hw, hsafe, fun hc => hno hc.2⟩)
    · obtain ⟨hcreat, hm⟩ := hmade (by decide)
      exact Or.inr (Or.inr ⟨ip, ho, ⟨hcr, hcreat⟩, hm⟩)
  · have hno : ¬ (omode &&& O_CREATE ≠ 0 ∧ Creatable sb cwd v path) := fun hc => hcr hc.1
    obtain ⟨⟨found, v₁⟩, hn, h⟩ := bind_ok h
    obtain ⟨h₁, hsafe, -⟩ := Walked.namei hs.tree h0 hn
    cases found with
    | none =>
      cases h
      exact Or.inl ⟨rfl, h₁.sameBut, hno⟩
    | some ip =>
      obtain ⟨v₂, hl, h⟩ := bind_ok h
      obtain ⟨h₂, -, hin⟩ := h₁.ilock hl
      have hsafe₂ := hsafe ip rfl
      rw [← hin] at hsafe₂
      split_ifs at h
      · obtain ⟨v₃, hp, h⟩ := bind_ok h
        cases h
        exact Or.inl ⟨rfl, (h₂.iunlockput hs.tree.ok (looks_eq sb v _) hsafe₂ hp).sameBut, hno⟩
      · cases h
        exact Or.inr (Or.inl ⟨ip, rfl, h₂, hsafe₂, hno⟩)


/-- **A new file stays** when its reference is given back. -/
theorem made_stays {type : Int16} {w : Volume} (h : Made sb p type ip v u)
    (hp : u.iunlockput sb p ip = .ok w) : ¬ SameTree sb v w := by
  intro hsame
  have hlock := h.took.locked (List.mem_cons_self (a := ip))
  obtain ⟨hc, h0⟩ := h.ok.lockedCopy hlock
  obtain ⟨u', hu, hp⟩ := bind_ok hp
  obtain ⟨-, hfs⟩ := h.ok.iunlock hu
  have hnlink : (u'.inode ip).d.nlink = 1 := by
    obtain ⟨-, rfl⟩ := Volume.iunlock_ok hu
    rw [Volume.setInode_self]
    exact h.nlink
  have hfs' : w.fs = u.fs := by
    obtain ⟨-, -, hlast, -⟩ | ⟨-, rfl⟩ := Volume.iput_ok hp
    · rw [hnlink] at hlast
      exact absurd hlast (by decide)
    · exact hfs
  refine ((hsame.allocated _ hc.lt).mp ?_) h.free
  rw [hfs', ← hc.d]
  exact h0

/-! ## The call -/

/-- With this mode the call creates the file of the path. -/
def Creates (sb : superblock) (cwd : Fin NINODE) (v : Volume) (path : Option (List UInt8)) (omode : UInt32) :
    Prop := ∃ l ∈ path, omode &&& O_CREATE ≠ 0 ∧ Creatable sb cwd v l

/-- Behind the path the call fails for a bad device number or a full table, and gives the inode back. -/
theorem openInode_ok {r : ℤ}
    (hfree : ∀ f, (s.sys.tab.file f).ref = 0 → (s.sys.tab.file f).type = .FD_NONE)
    (h : s.openInode sb p ip omode = .ok (r, t)) :
    (0 ≤ r ∧ ¬ Full p s.sys) ∨
      (r = -1 ∧ s.vol.iunlockput sb p ip = .ok t.vol ∧ t.sys.tab.file = s.sys.tab.file ∧
        t.sys.ofile = s.sys.ofile ∧ ((s.vol.inode ip).d.type ≠ T_DEVICE → Full p s.sys)) := by
  unfold openInode at h
  dsimp only at h
  by_cases hdev : (s.vol.inode ip).d.type = T_DEVICE ∧
      ((s.vol.inode ip).d.major < 0 ∨ NDEV ≤ (s.vol.inode ip).d.major)
  · rw [if_pos hdev] at h
    obtain ⟨s₁, hp, h⟩ := bind_ok h
    obtain ⟨vol, hvol, hp⟩ := bind_ok hp
    cases hp
    cases h
    exact Or.inr ⟨rfl, hvol, rfl, rfl, fun hne => absurd hdev.1 hne⟩
  · rw [if_neg hdev] at h
    obtain ⟨⟨file, s₁⟩, hf, h⟩ := bind_ok h
    obtain ⟨hvol₁, ⟨rfl, hfull, hfile, hofile⟩ | ⟨hsome, hnot⟩⟩ := openFile_ok hfree hf
    · obtain ⟨s₂, hp, h⟩ := bind_ok h
      obtain ⟨vol, hvol, hp⟩ := bind_ok hp
      cases hp
      cases h
      exact Or.inr ⟨rfl, hvol₁ ▸ hvol, hfile, hofile, fun _ => hfull⟩
    · cases file with
      | none => exact absurd rfl hsome
      | some x =>
        obtain ⟨vol, -, h⟩ := bind_ok h
        obtain ⟨vol', -, h⟩ := bind_ok h
        cases h
        exact Or.inl ⟨Int.natCast_nonneg _, hnot⟩

/-- **What `sys_open` returns**: a descriptor; or `-1`, with nothing changed unless it has created the file
and then found a table full. -/
theorem sys_open_ok {path : Option (List UInt8)} {r : ℤ} (hsb : sb.Ok) (hs : WellFormed sb cwd s.vol)
    (hfree : ∀ f, (s.sys.tab.file f).ref = 0 → (s.sys.tab.file f).type = .FD_NONE)
    (h0 : ∀ l ∈ path, (0 : UInt8) ∉ l) (h : s.sys_open sb p cwd path omode = .ok (r, t)) :
    (r = -1 ∧ Unchanged sb s t ∧ ¬ (Creates sb cwd s.vol path omode ∧ Full p s.sys)) ∨
      (r = -1 ∧ ¬ Unchanged sb s t ∧ Creates sb cwd s.vol path omode ∧ Full p s.sys) ∨
      (0 ≤ r ∧ ¬ Full p s.sys) := by
  unfold sys_open at h
  cases path with
  | none =>
    cases h
    refine Or.inl ⟨rfl, ⟨(Walked.refl hs.tree.ok).sameBut.sameTree (p := p) hs, rfl, rfl⟩, ?_⟩
    rintro ⟨⟨l, hl, -⟩, -⟩
    cases hl
  | some path =>
    have hcr : Creates sb cwd s.vol (some path) omode ↔
        omode &&& O_CREATE ≠ 0 ∧ Creatable sb cwd s.vol path :=
      ⟨fun ⟨l, hl, hc⟩ => Option.mem_some_iff.mp hl ▸ hc, fun hc => ⟨path, rfl, hc⟩⟩
    rw [hcr]
    dsimp only at h
    obtain ⟨⟨found, vol⟩, hp, h⟩ := bind_ok h
    obtain ⟨ho, hw, hno⟩ | ⟨ip, ho, hw, hsafe, hno⟩ | ⟨ip, ho, hcreat, hm⟩ :=
      openPath_ok hsb hs (h0 path rfl) hp
    · rw [ho] at h
      cases h
      exact Or.inl ⟨rfl, ⟨hw.sameTree hs, rfl, rfl⟩, fun hc => hno hc.1⟩
    · -- the inode was there
      rw [ho] at h
      obtain ⟨hr, hnot⟩ | ⟨hr, hvol, hfile, hofile, -⟩ := openInode_ok (s := s.setVol vol) hfree h
      · exact Or.inr (Or.inr ⟨hr, hnot⟩)
      · have hw' := hw.iunlockput hs.tree.ok (looks_eq sb s.vol _) hsafe hvol
        exact Or.inl ⟨hr, ⟨hw'.sameBut.sameTree hs, hfile, hofile⟩, fun hc => hno hc.1⟩
    · -- the inode is new
      rw [ho] at h
      obtain ⟨hr, hnot⟩ | ⟨hr, hvol, -, -, hfull⟩ := openInode_ok (s := s.setVol vol) hfree h
      · exact Or.inr (Or.inr ⟨hr, hnot⟩)
      · have htype : (vol.inode ip).d.type ≠ T_DEVICE := by
          rw [hm.type]
          decide
        exact Or.inr (Or.inl ⟨hr, fun hu => made_stays hm hvol hu.tree, hcreat, hfull htype⟩)

/-- **An `open` that fails** leaves everything as it was, unless it has created the file before it found a
table full. -/
theorem sys_open_fails_iff {path : Option (List UInt8)} {r : ℤ} (hsb : sb.Ok) (hs : WellFormed sb cwd s.vol)
    (hfree : ∀ f, (s.sys.tab.file f).ref = 0 → (s.sys.tab.file f).type = .FD_NONE)
    (h0 : ∀ l ∈ path, (0 : UInt8) ∉ l) (h : s.sys_open sb p cwd path omode = .ok (r, t)) :
    (r = -1 → Unchanged sb s t) ↔ ¬ (Creates sb cwd s.vol path omode ∧ Full p s.sys) := by
  obtain ⟨-, hu, hno⟩ | ⟨hr, hu, hc⟩ | ⟨hr, hnot⟩ := sys_open_ok hsb hs hfree h0 h
  · exact iff_of_true (fun _ => hu) hno
  · exact iff_of_false (fun himp => hu (himp hr)) (not_not.mpr hc)
  · exact iff_of_true (fun he => absurd (he ▸ hr) (by decide)) fun hc => hnot hc.2

/-! ## A full descriptor table -/

/-- A process has made a pipe and has duplicated a descriptor until it has no more. -/
def pipeFiles : FileSys :=
  (Runs.exec fileStep (fun _ _ => True) FileSys.userinit
    (.sys_pipe 0 true true :: List.replicate 14 (.sys_dup 0 0))).getD FileSys.userinit

/-- It works on an empty root directory. -/
def fullSys : OpenSys := { vol := Volume.rootVolume, sys := pipeFiles }

theorem fullSys_free : ∀ f, (fullSys.sys.tab.file f).ref = 0 → (fullSys.sys.tab.file f).type = .FD_NONE := by
  decide +kernel

/-- The call fails, and inode 2 is allocated. -/
theorem fullSys_open : Runs.okWith (fun x => x.1 = -1 ∧ (x.2.vol.fs.dinodeAt mkfsSb 2).type ≠ 0)
    (fullSys.sys_open mkfsSb 0 0 (some [97]) (O_CREATE ||| O_WRONLY)) = true := by
  decide +kernel

theorem sys_open_fails_iff_full : ∃ r t,
    fullSys.sys_open mkfsSb 0 0 (some [97]) (O_CREATE ||| O_WRONLY) = .ok (r, t) ∧
    ((r = -1 → Unchanged mkfsSb fullSys t) ↔
      ¬ (Creates mkfsSb 0 fullSys.vol (some [97]) (O_CREATE ||| O_WRONLY) ∧ Full 0 fullSys.sys)) := by
  obtain ⟨⟨r, t⟩, h, -⟩ := Runs.okWith_iff.mp fullSys_open
  have h0 : ∀ l ∈ some [97], (0 : UInt8) ∉ l := by decide
  exact ⟨r, t, h, sys_open_fails_iff Fs.mkfsSb_ok Volume.rootVolume_wellFormed fullSys_free h0 h⟩

/-- **A failing `open` leaves a new file behind.** -/
theorem sys_open_leaves : WellFormed mkfsSb 0 fullSys.vol ∧
    (∀ f, (fullSys.sys.tab.file f).ref = 0 → (fullSys.sys.tab.file f).type = .FD_NONE) ∧
    ∃ t, fullSys.sys_open mkfsSb 0 0 (some [97]) (O_CREATE ||| O_WRONLY) = .ok (-1, t) ∧
      ¬ Unchanged mkfsSb fullSys t := by
  obtain ⟨⟨r, t⟩, h, hx⟩ := Runs.okWith_iff.mp fullSys_open
  obtain ⟨rfl, h2⟩ := of_decide_eq_true hx
  refine ⟨Volume.rootVolume_wellFormed, fullSys_free, t, h, fun hu => ?_⟩
  have hfree : (Volume.rootVolume.fs.dinodeAt mkfsSb 2).type = 0 := by decide +kernel
  exact (hu.tree.allocated 2 (by decide)).mp h2 hfree

end OpenSys

end Xv6
