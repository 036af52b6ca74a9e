import Xv6.Fs.Link

/-!
# Create — a new inode and its entries

`create` makes a new inode, or it finds one, or it leaves everything as it was.
-/

namespace Xv6

namespace Volume

variable {sb : superblock} {p : ℕ} {cwd ip dp : Fin NINODE} {s t u : Volume} {inum : UInt32} {n : ℕ} {r : ℤ}
  {D : Set UInt32} {refs locks : List (Fin NINODE)} {name path : List UInt8} {type : Int16}

/-- `dirlink` in the new inode itself. -/
theorem Walked.dirlink_new {key : ℕ → UInt8} (hsb : sb.Ok)
    (h : Walked sb p (Fs.SameBut sb {inum} s.fs) refs locks s t) (hl : ip ∈ locks)
    (hin : (t.inode ip).inum = inum) (htype : (t.inode ip).d.type = T_DIR)
    (hd : t.dirlink sb p ip key n = .ok (r, u)) :
    Walked sb p (Fs.SameBut sb {inum} s.fs) refs locks s u ∧ (u.inode ip).inum = inum ∧
      (u.inode ip).d.type = T_DIR := by
  have hlock := h.took.locked hl
  have hw := (h.dirlink hsb hlock htype hd).1
  rw [hin, Set.union_self] at hw
  have hin' := dirlink_inum hd (h.ok.locked ip hlock).1
  refine ⟨hw, hin'.trans hin, ?_⟩
  rw [hw.ok.type (hw.took.locked hl), hin']
  exact (h.ok.dirlink hsb hlock htype hd).2.2.2.1

theorem Took.linkNew (h : Took p refs locks s t) (hn : t.linkNew sb p dp ip type name = .ok (r, u)) :
    Took p refs locks s u := by
  obtain ⟨⟨r₁, t₁⟩, hdots, hn⟩ := bind_ok hn
  have h₁ : Took p refs locks s t₁ := by
    split_ifs at hdots
    · obtain ⟨⟨r₂, t₂⟩, hd, hdots⟩ := bind_ok hdots
      dsimp only at hdots
      split_ifs at hdots
      · cases hdots
        exact h.dirlink hd
      · exact (h.dirlink hd).dirlink hdots
    · cases hdots
      exact h
  dsimp only at hn
  split_ifs at hn
  · cases hn
    exact h₁
  · exact h₁.dirlink hn

/-- **The entries of a new inode**: if one of them cannot be written, nothing else has changed. -/
theorem Walked.linkNew_fail (hsb : sb.Ok) (h : Walked sb p (Fs.SameBut sb {inum} s.fs) refs locks s t)
    (hl : ip ∈ locks) (hl' : dp ∈ locks) (hin : (t.inode ip).inum = inum) (hne : (t.inode dp).inum ≠ inum)
    (hdir : (t.inode dp).d.type = T_DIR) (htype : type = T_DIR → (t.inode ip).d.type = T_DIR)
    (hn : t.linkNew sb p dp ip type name = .ok (r, u)) (hr : r < 0) :
    Walked sb p (Fs.SameBut sb {inum} s.fs) refs locks s u := by
  obtain ⟨⟨r₁, t₁⟩, hdots, hn⟩ := bind_ok hn
  have href := (h.ok.locked dp (h.took.locked hl')).1
  have h₁ : Walked sb p (Fs.SameBut sb {inum} s.fs) refs locks s t₁ ∧
      (t₁.inode dp).inum = (t.inode dp).inum := by
    split_ifs at hdots with ht
    · obtain ⟨⟨r₂, t₂⟩, hd, hdots⟩ := bind_ok hdots
      obtain ⟨h₂, hin₂, htype₂⟩ := h.dirlink_new hsb hl hin (htype ht) hd
      have hdp₂ := dirlink_inum hd href
      dsimp only at hdots
      split_ifs at hdots
      · cases hdots
        exact ⟨h₂, hdp₂⟩
      · have href₂ := (h₂.ok.locked dp (h₂.took.locked hl')).1
        exact ⟨(h₂.dirlink_new hsb hl hin₂ htype₂ hdots).1, (dirlink_inum hdots href₂).trans hdp₂⟩
    · cases hdots
      exact ⟨h, rfl⟩
  dsimp only at hn
  split_ifs at hn
  · cases hn
    exact h₁.1
  · have hlock₁ := h₁.1.took.locked hl'
    have hlt := (h.ok.entry dp href).2
    have hdir₁ : (t₁.inode dp).d.type = T_DIR := by
      rw [← h₁.1.type hlock₁ (looks_sameBut (h₁.2 ▸ hlt) (h₁.2 ▸ hne)), h₁.2,
        h.type (h.took.locked hl') (looks_sameBut hlt hne)]
      exact hdir
    exact (h₁.1.dirlink hsb hlock₁ hdir₁ hn).2 hr

theorem Took.iunlockput_keep (hs : Ok sb s) (h : Took p (ip :: refs) (ip :: locks) s t) (ht : Ok sb t)
    (hsafe : Safe sb s (t.inode ip).inum.toNat)
    (htype : (t.fs.dinodeAt sb (t.inode ip).inum.toNat).type =
      (s.fs.dinodeAt sb (t.inode ip).inum.toNat).type)
    (hnlink : (s.fs.dinodeAt sb (t.inode ip).inum.toNat).type ≠ 0 →
      (t.fs.dinodeAt sb (t.inode ip).inum.toNat).nlink = (s.fs.dinodeAt sb (t.inode ip).inum.toNat).nlink)
    (hp : t.iunlockput sb p ip = .ok u) : Ok sb u ∧ u.fs = t.fs := by
  obtain ⟨t₁, hu, hp⟩ := bind_ok hp
  obtain ⟨h₁, hfs⟩ := ht.iunlock hu
  rw [← iunlock_inum hu ip] at hsafe htype hnlink
  rw [← hfs] at htype hnlink ⊢
  exact (h.iunlock hu).iput_keep hs h₁ (List.nodup_cons.mp h.nodup).1 hsafe htype hnlink hp

/-- **What has failed is undone.** -/
theorem Walked.createFail {o : Option (Fin NINODE)} (hsb : sb.Ok) (hs : Ok sb s)
    (h : Walked sb p (Fs.SameBut sb {inum} s.fs) [ip, dp] [ip, dp] s t) (hin : (t.inode ip).inum = inum)
    (href : (s.inode ip).ref = 0) (hfree : (s.fs.dinodeAt sb inum.toNat).type = 0)
    (hsafe : Safe sb s (t.inode dp).inum.toNat) (hf : t.createFail sb p dp ip = .ok (o, u)) :
    o = none ∧ Walked sb p (Fs.SameBut sb ∅ s.fs) [] [] s u := by
  obtain ⟨t₁, hp, hf⟩ := bind_ok hf
  obtain ⟨t₂, hp₂, hf⟩ := bind_ok hf
  cases hf
  have hlock := h.took.locked (List.mem_cons_self (a := ip))
  have hipdp : dp ≠ ip := fun he => (List.nodup_cons.mp h.took.nodup).1 (he ▸ List.mem_cons_self)
  generalize hj : ({ t.inode ip with d := { (t.inode ip).d with nlink := 0 } } : Xv6.inode) = j at hp
  obtain ⟨hok, hbut, -⟩ := h.ok.relink hsb hlock hj.symm
  have htook : Took p [ip, dp] [ip, dp] s ((t.setInode ip j).iupdate sb ip) := h.took.iupdate (hj ▸ ⟨_, rfl⟩)
  have hin₀ : ((t.setInode ip j).iupdate sb ip).inode ip = j := by rw [setInode_iupdate, set_self]
  have hjin : j.inum = inum := by
    rw [← hj]
    exact hin
  obtain ⟨t₀, hu, hp⟩ := bind_ok hp
  obtain ⟨h₀, hfs₀⟩ := hok.iunlock hu
  have htook₀ := htook.iunlock hu
  have hin₁ : (t₀.inode ip).inum = inum := by rw [iunlock_inum hu, hin₀, hjin]
  have hlast : (t₀.inode ip).ref = 1 ∧ (t₀.inode ip).valid = true ∧ (t₀.inode ip).d.nlink = 0 := by
    have hr := htook₀.ref ip
    rw [href, List.count_cons_self, List.count_cons_of_ne hipdp, List.count_nil] at hr
    have hv := (h.ok.locked ip hlock).2
    obtain ⟨-, rfl⟩ := iunlock_ok hu
    rw [setInode_self, hin₀] at hr ⊢
    refine ⟨hr, ?_, ?_⟩
    · rw [← hj]
      exact hv
    · rw [← hj]
  obtain ⟨h₁, hch, htype⟩ := h₀.iput_free hsb hlast hp
  rw [hin₁] at hch htype
  have hsame : Fs.SameBut sb ∅ s.fs t₁.fs := by
    intro m hm _
    by_cases hmi : m = inum
    · rw [hmi]
      exact ⟨htype.trans hfree.symm, fun h0 => absurd hfree h0, fun h0 => absurd hfree h0,
        fun h0 => absurd hfree h0⟩
    · have hfs := (h.fs.trans hbut).trans (hfs₀ ▸ hch.sameBut h₀.disk)
      refine hfs m hm fun hD => ?_
      rw [hin, Set.union_self, Set.union_self] at hD
      exact hmi hD
  have hw₁ : Walked sb p (Fs.SameBut sb ∅ s.fs) [dp] [dp] s t₁ := ⟨htook₀.iput hp, h₁, hsame⟩
  have hdp : (t₁.inode dp).inum = (t.inode dp).inum := by
    rw [iput_inum hp, iunlock_inum hu, setInode_iupdate, set_ne hipdp]
  rw [← hdp] at hsafe
  exact ⟨rfl, hw₁.iunlockput hs (looks_sameBut hsafe.1 (Set.notMem_empty _)) hsafe hp₂⟩

/-- A volume between two calls. -/
structure WellFormed (sb : superblock) (cwd : Fin NINODE) (s : Volume) : Prop where
  tree : Tree sb cwd s
  ninodes : sb.ninodes < 2 ^ 32
  unlocked : ∀ ip, (s.inode ip).lock = none
  used : ∀ ip, 0 < (s.inode ip).ref → (s.fs.dinodeAt sb (s.inode ip).inum.toNat).type ≠ 0

/-- There is no such file yet, and a file can be made: its directory has a place for the name, and an inode
is free. -/
def Creatable (sb : superblock) (cwd : Fin NINODE) (s : Volume) (path : List UInt8) : Prop :=
  ∃ i name, s.fs.resolveParent sb (s.start cwd path) path = some (i, name) ∧ s.fs.child sb i name = none ∧
    (∃ m, 0 < m ∧ m < sb.ninodes ∧ (s.fs.dinodeAt sb m).type = 0) ∧
    Fs.HasSpace sb (s.fs.inodeAt sb i) s.fs

/-- A new inode that is not a directory. -/
structure Made (sb : superblock) (p : ℕ) (type : Int16) (ip : Fin NINODE) (s u : Volume) : Prop where
  took : Took p [ip] [ip] s u
  ok : Ok sb u
  free : (s.fs.dinodeAt sb (u.inode ip).inum.toNat).type = 0
  type : (u.inode ip).d.type = type
  nlink : (u.inode ip).d.nlink = 1

/-- A new inode before its entries are written; `dp` is the directory that is to have the name. -/
structure New (sb : superblock) (p : ℕ) (type : Int16) (dp ip : Fin NINODE) (s t : Volume) : Prop where
  walked : Walked sb p (Fs.SameBut sb {(t.inode ip).inum} s.fs) [ip, dp] [ip, dp] s t
  unused : (s.inode ip).ref = 0
  free : (s.fs.dinodeAt sb (t.inode ip).inum.toNat).type = 0
  inum : 0 < (t.inode ip).inum.toNat ∧ (t.inode ip).inum.toNat < sb.ninodes
  type : (t.inode ip).d.type = type
  nlink : (t.inode ip).d.nlink = 1
  space : Fs.HasSpace sb (t.inode dp) t.fs ↔ Fs.HasSpace sb (s.fs.inodeAt sb (t.inode dp).inum) s.fs

/-- **A new inode**, if one is free. -/
theorem Walked.ialloc {o : Option (Fin NINODE)} (hsb : sb.Ok) (hs : WellFormed sb cwd s)
    (h : Walked sb p (· = s.fs) [dp] [dp] s t) (ha : t.ialloc sb (t.inode dp).dev type = .ok (o, u)) :
    (o = none ∧ u = t ∧ ∀ m, 0 < m → m < sb.ninodes → (s.fs.dinodeAt sb m).type ≠ 0) ∨
      ∃ ip, o = some ip ∧ ∀ v w major minor, u.ilock sb p ip = .ok v →
        w = (v.setInode ip { v.inode ip with d :=
          { (v.inode ip).d with major := major, minor := minor, nlink := 1 } }).iupdate sb ip →
        New sb p type dp ip s w ∧ w.inode dp = t.inode dp := by
  have hlock := h.took.locked List.mem_cons_self
  have href := (h.ok.locked dp hlock).1
  have hc := (h.ok.lockedCopy hlock).1
  have hused : ∀ ip, 0 < (t.inode ip).ref → (t.fs.dinodeAt sb (t.inode ip).inum.toNat).type ≠ 0 := by
    intro ip h0
    by_cases hip : ip = dp
    · rw [hip, ← h.ok.type hlock]
      exact (h.ok.lockedCopy hlock).2
    · have hr := h.took.ref ip
      rw [List.count_cons_of_ne (Ne.symm hip), List.count_nil, Nat.add_zero] at hr
      rw [h.fs, (h.took.same ip (hr ▸ h0)).2]
      exact hs.used ip (hr ▸ h0)
  rw [(h.ok.entry dp href).1] at ha
  obtain ⟨ho, hu, hall⟩ | ⟨ip, ho, hu, hunused, hother, hbut, hlt, hpos, hfree, hnew, ⟨j, hj, hjfs⟩, htook⟩ :=
    h.ok.ialloc hsb hs.ninodes (Nat.zero_lt_of_lt hc.lt) hused ha
  · rw [h.fs] at hall
    exact Or.inl ⟨ho, hu, hall⟩
  refine Or.inr ⟨ip, ho, fun v w major minor hl hw => ?_⟩
  have hne : dp ≠ ip := by
    rintro rfl
    omega
  have hw₁ : Walked sb p (Fs.SameBut sb {(u.inode ip).inum} s.fs) [ip, dp] [dp] s u :=
    ⟨htook _ _ _ h.took, hu, h.fs ▸ hbut⟩
  obtain ⟨hw₂, -, hin⟩ := hw₁.ilock hl
  have hvfs := (hu.ilock hl).2.1
  have hlock₂ := hw₂.took.locked (List.mem_cons_self (a := ip))
  have hd : (v.inode ip).d = { dinode.zero with type := type } := by
    rw [(hw₂.ok.lockedCopy hlock₂).1.d, hin, hvfs]
    exact hnew
  generalize hi : ({ v.inode ip with d := { (v.inode ip).d with
    major := major, minor := minor, nlink := 1 } } : Xv6.inode) = i at hw
  obtain ⟨hok, hbut₃, -⟩ := hw₂.ok.relink hsb hlock₂ hi.symm
  have hself : w.inode ip = i := by rw [hw, setInode_iupdate, set_self]
  have hinum : (w.inode ip).inum = (u.inode ip).inum := by
    rw [hself, ← hi]
    exact hin
  have hdpv : v.inode dp = t.inode dp := by
    obtain ⟨-, -, d, rfl, -⟩ := ilock_ok hl
    rw [setInode_ne hne, hother dp hne]
  have hdpw : w.inode dp = t.inode dp := by
    rw [hw, setInode_iupdate, set_ne hne, hdpv]
  rw [← hw] at hok hbut₃
  refine ⟨⟨⟨?_, hok, ?_⟩, ?_, ?_, ?_, ?_, ?_, ?_⟩, hdpw⟩
  · rw [hw]
    exact hw₂.took.iupdate (hi ▸ ⟨_, rfl⟩)
  · have hsame := hw₂.fs.trans hbut₃
    rwa [hin, Set.union_self, ← hinum] at hsame
  · have hr := h.took.ref ip
    omega
  · rw [hinum, ← h.fs]
    exact hfree
  · rw [hinum]
    exact ⟨hpos, hlt⟩
  · rw [hself, ← hi]
    show (v.inode ip).d.type = type
    rw [hd]
  · rw [hself, ← hi]
  · obtain ⟨hcv, h0v⟩ := hw₂.ok.lockedCopy
      (hw₂.took.locked (List.mem_cons_of_mem ip (List.mem_cons_self (a := dp))))
    obtain ⟨hct, h0t⟩ := h.ok.lockedCopy hlock
    have hwfs : w.fs = v.fs.iupdate sb i := by rw [hw, setInode_iupdate, set_fs]
    have hilt : i.inum.toNat < sb.ninodes := by
      rw [← hself, hinum]
      exact hlt
    rw [hdpv] at hcv h0v
    rw [hdpw, hwfs, hw₂.ok.disk.hasSpace_iupdate hsb hcv h0v hilt, hvfs, hjfs,
      h.ok.disk.hasSpace_iupdate hsb hct h0t (hj ▸ hlt), h.fs]
    refine Fs.hasSpace_congr ?_
    rw [hct.d, h.fs]
    rfl

theorem Walked.sameBut (h : Walked sb p (· = s.fs) refs locks s t) :
    Walked sb p (Fs.SameBut sb ∅ s.fs) refs locks s t := h.weaken fun _ hf => hf ▸ .refl sb s.fs

/-- **The entry of a new file** is written if there is space, and the file is there. -/
theorem New.linkNew (hsb : sb.Ok) (hs : WellFormed sb cwd s)
    (h : New sb p type dp ip s t) (hne : type ≠ T_DIR) (hsafe : Safe sb s (t.inode dp).inum.toNat)
    (hdir : (t.inode dp).d.type = T_DIR)
    (hnone : s.fs.child sb (t.inode dp).inum (cstr DIRSIZ (chars name)) = none)
    (hn : t.linkNew sb p dp ip type name = .ok (r, u)) :
    (0 ≤ r ↔ Fs.HasSpace sb (s.fs.inodeAt sb (t.inode dp).inum) s.fs) ∧
      (0 ≤ r → ∀ v, u.iunlockput sb p dp = .ok v → Made sb p type ip s v) := by
  have hd : t.dirlink sb p dp (chars name) (t.inode ip).inum.toNat = .ok (r, u) := by
    unfold Volume.linkNew at hn
    rw [if_neg hne] at hn
    exact hn
  have hw := h.walked
  have hlip := hw.took.locked (List.mem_cons_self (a := ip))
  have hldp := hw.took.locked (List.mem_cons_of_mem ip (List.mem_cons_self (a := dp)))
  have hip : dp ≠ ip := fun he => (List.nodup_cons.mp hw.took.nodup).1 (he ▸ List.mem_cons_self)
  obtain ⟨hrefdp, -⟩ := hw.ok.locked dp hldp
  obtain ⟨hrefip, -⟩ := hw.ok.locked ip hlip
  have hnum : (t.inode dp).inum ≠ (t.inode ip).inum := hw.ok.unique_ne hrefip dp hip hrefdp
  have hF := @looks_sameBut sb s _ {(t.inode ip).inum} hsafe.1 hnum
  obtain ⟨hu, hbut, -, htype, hnlink, hspace⟩ := hw.ok.dirlink hsb hldp hdir hd
  have hfind := hw.child hs.tree.ok hldp hF hdir (cstr DIRSIZ (chars name))
  rw [hnone] at hfind
  refine ⟨(hspace (Option.map_eq_none_iff.mp hfind.symm)).trans h.space, fun _ v hv => ?_⟩
  have htook := (hw.took.dirlink hd).perm (List.Perm.swap dp ip []) (List.Perm.swap dp ip [])
  have hdp := dirlink_inum hd hrefdp
  have hsame := hF _ hw.fs
  obtain ⟨hvok, hvfs⟩ := htook.iunlockput_keep hs.tree.ok hu (hdp ▸ hsafe)
    (by rw [hdp, htype, hw.type hldp hF, hdir])
    (fun h0 => by
      rw [hdp] at h0 ⊢
      rw [hnlink, (hw.ok.lockedCopy hldp).1.d, hsame.nlink h0, Int16.add_zero]) hv
  have hvtook := htook.iunlockput hv
  have hin : (v.inode ip).inum = (t.inode ip).inum := (iunlockput_inum hv ip).trans (dirlink_inum hd hrefip)
  obtain ⟨hc, h0⟩ := hw.ok.lockedCopy hlip
  have hkept := hbut _ hc.lt (Ne.symm hnum)
  have hcv := (hvok.lockedCopy (hvtook.locked (List.mem_cons_self (a := ip)))).1.d
  rw [hin, hvfs] at hcv
  refine ⟨hvtook, hvok, hin ▸ h.free, ?_, ?_⟩
  · rw [hcv, hkept.type, ← hc.d]
    exact h.type
  · rw [hc.d] at h0
    rw [hcv, hkept.nlink h0, ← hc.d, Int16.add_zero]
    exact h.nlink

/-- The rest of `create`. -/
theorem New.create {o : Option (Fin NINODE)} {v : Volume} (hsb : sb.Ok) (hs : WellFormed sb cwd s)
    (h : New sb p type dp ip s t) (hsafe : Safe sb s (t.inode dp).inum.toNat)
    (hdir : (t.inode dp).d.type = T_DIR)
    (hnone : s.fs.child sb (t.inode dp).inum (cstr DIRSIZ (chars name)) = none)
    (hn : t.linkNew sb p dp ip type name = .ok (r, u))
    (hc : (if r < 0 then u.createFail sb p dp ip
      else do
        let w := if type = T_DIR then u.addLink sb dp 1 else u
        let w ← w.iunlockput sb p dp
        return (some ip, w) : Except Panic (Option (Fin NINODE) × Volume)) = .ok (o, v)) :
    (o = none ∧ Walked sb p (Fs.SameBut sb ∅ s.fs) [] [] s v ∧
        (type ≠ T_DIR → ¬ Fs.HasSpace sb (s.fs.inodeAt sb (t.inode dp).inum) s.fs)) ∨
      (o = some ip ∧ (type ≠ T_DIR → Fs.HasSpace sb (s.fs.inodeAt sb (t.inode dp).inum) s.fs ∧
        Made sb p type ip s v)) := by
  have hw := h.walked
  have hlip := hw.took.locked (List.mem_cons_self (a := ip))
  have hldp := hw.took.locked (List.mem_cons_of_mem ip (List.mem_cons_self (a := dp)))
  have hip : dp ≠ ip := fun he => (List.nodup_cons.mp hw.took.nodup).1 (he ▸ List.mem_cons_self)
  have hrefip := (hw.ok.locked ip hlip).1
  have hrefdp := (hw.ok.locked dp hldp).1
  have hnum : (t.inode dp).inum ≠ (t.inode ip).inum := hw.ok.unique_ne hrefip dp hip hrefdp
  split_ifs at hc with hr ht
  · refine Or.inl ?_
    have htype : type = T_DIR → (t.inode ip).d.type = T_DIR := fun ht => h.type.trans ht
    have hfail := hw.linkNew_fail hsb List.mem_cons_self (List.mem_cons_of_mem ip List.mem_cons_self) rfl
      hnum hdir htype hn hr
    have hsame := ((Took.refl p t).linkNew hn).same
    have hinip := (hsame ip hrefip).2
    have hindp := (hsame dp hrefdp).2
    obtain ⟨ho, hv⟩ := hfail.createFail hsb hs.tree.ok hinip h.unused h.free (hindp ▸ hsafe) hc
    refine ⟨ho, hv, fun hne hspace => ?_⟩
    have hiff := (h.linkNew hsb hs hne hsafe hdir hnone hn).1
    have h0 := hiff.mpr hspace
    omega
  · obtain ⟨w, -, hc⟩ := bind_ok hc
    cases hc
    exact Or.inr ⟨rfl, fun hne => absurd ht hne⟩
  · obtain ⟨w, hp, hc⟩ := bind_ok hc
    cases hc
    refine Or.inr ⟨rfl, fun hne => ?_⟩
    obtain ⟨hiff, hmade⟩ := h.linkNew hsb hs hne hsafe hdir hnone hn
    exact ⟨hiff.mp (by omega), hmade (by omega) _ hp⟩

/-- **`create`** changes nothing, or it returns an inode that was there, or it has made the inode. -/
theorem create_ok {o : Option (Fin NINODE)} {major minor : Int16} (hsb : sb.Ok) (hs : WellFormed sb cwd s)
    (h0 : (0 : UInt8) ∉ path) (hc : s.create sb p cwd path type major minor = .ok (o, u)) :
    (o = none ∧ Walked sb p (Fs.SameBut sb ∅ s.fs) [] [] s u ∧
        (type ≠ T_DIR → ¬ Creatable sb cwd s path)) ∨
      (∃ ip, o = some ip ∧ Walked sb p (· = s.fs) [ip] [ip] s u ∧ Safe sb s (u.inode ip).inum.toNat ∧
        ¬ Creatable sb cwd s path) ∨
      ∃ ip, o = some ip ∧ (type ≠ T_DIR → Creatable sb cwd s path ∧ Made sb p type ip s u) := by
  obtain ⟨⟨parent, t₁⟩, hp, hc⟩ := bind_ok hc
  obtain ⟨h₁, hsafe₁, hres⟩ := Walked.nameiparent hs.tree h0 hp
  cases parent with
  | none =>
    cases hc
    refine Or.inl ⟨rfl, h₁.sameBut, fun _ hcr => ?_⟩
    obtain ⟨i, name, hi, -⟩ := hcr
    rw [hres] at hi
    cases hi
  | some x =>
    obtain ⟨dp, name⟩ := x
    obtain ⟨t₂, hl, hc⟩ := bind_ok hc
    obtain ⟨h₂, -, hin₂⟩ := h₁.ilock hl
    have hsafe : Safe sb s (t₂.inode dp).inum.toNat := by
      rw [hin₂]
      exact hsafe₁ _ rfl
    have hres : s.fs.resolveParent sb (s.start cwd path) path = some ((t₂.inode dp).inum, name) := by
      rw [hres, hin₂]
      rfl
    have hlock₂ := h₂.took.locked (List.mem_cons_self (a := dp))
    have hF := looks_eq sb s (t₂.inode dp).inum
    have hdirs : (s.fs.dinodeAt sb (t₂.inode dp).inum.toNat).type = T_DIR := Fs.resolveParent_dir hres
    have hdir := (h₂.type hlock₂ hF).symm.trans hdirs
    have hkey : cstr DIRSIZ (chars name) = name := Fs.resolveParent_name h0 hres
    obtain ⟨⟨found, t₃⟩, hd, hc⟩ := bind_ok hc
    -- what there is to be for a new file
    have hcr : Creatable sb cwd s path → s.fs.child sb (t₂.inode dp).inum name = none ∧
        (∃ m, 0 < m ∧ m < sb.ninodes ∧ (s.fs.dinodeAt sb m).type = 0) ∧
          Fs.HasSpace sb (s.fs.inodeAt sb (t₂.inode dp).inum) s.fs := by
      rintro ⟨i, name', hi, hrest⟩
      rw [hres] at hi
      cases hi
      exact hrest
    obtain ⟨hfound, ht₃, hchild⟩ | ⟨ip, k, hfound, h₃, hsafe₃, hin₃, hchild⟩ :=
      h₂.dirlookup hs.tree hlock₂ hF hsafe hdir hd
    · rw [hfound, ht₃] at hc
      obtain ⟨⟨new, t₄⟩, ha, hc⟩ := bind_ok hc
      obtain ⟨hnew, ht₄, hall⟩ | ⟨ip, hnew, hmake⟩ := h₂.ialloc hsb hs ha
      · rw [hnew, ht₄] at hc
        obtain ⟨t₅, hp₅, hc⟩ := bind_ok hc
        cases hc
        refine Or.inl ⟨rfl, (h₂.iunlockput hs.tree.ok hF hsafe hp₅).sameBut, fun _ hcreat => ?_⟩
        obtain ⟨m, h1, h2, h3⟩ := (hcr hcreat).2.1
        exact hall m h1 h2 h3
      · rw [hnew] at hc
        obtain ⟨t₅, hl₅, hc⟩ := bind_ok hc
        obtain ⟨⟨r, t₆⟩, hlink, hc⟩ := bind_ok hc
        obtain ⟨hN, hdp⟩ := hmake t₅ _ major minor hl₅ rfl
        rw [← hdp] at hsafe hdir hcr hchild
        rw [hkey] at hchild
        obtain ⟨ho, hw, hno⟩ | ⟨ho, hmade⟩ := hN.create hsb hs hsafe hdir (hkey.symm ▸ hchild) hlink hc
        · exact Or.inl ⟨ho, hw, fun hne hcreat => hno hne (hcr hcreat).2.2⟩
        · refine Or.inr (Or.inr ⟨ip, ho, fun hne => ?_⟩)
          obtain ⟨hspace, hv⟩ := hmade hne
          exact ⟨⟨_, name, hdp ▸ hres, hchild, ⟨_, hN.inum.1, hN.inum.2, hN.free⟩, hspace⟩, hv⟩
    · have hnot : ¬ Creatable sb cwd s path := fun hcreat => by
        have hnone := (hcr hcreat).1
        rw [← hkey, hchild] at hnone
        cases hnone
      rw [hfound] at hc
      obtain ⟨t₄, hp₄, hc⟩ := bind_ok hc
      obtain ⟨t₅, hl₅, hc⟩ := bind_ok hc
      have h₄ := (h₃.perm (List.Perm.swap dp ip []) (List.Perm.refl _)).iunlockput hs.tree.ok
        (looks_eq sb s _) (hin₃ ▸ hsafe) hp₄
      obtain ⟨h₅, -, hin₅⟩ := h₄.ilock hl₅
      rw [← iunlockput_inum hp₄, ← hin₅] at hsafe₃
      split_ifs at hc
      · cases hc
        exact Or.inr (Or.inl ⟨ip, rfl, h₅, hsafe₃, hnot⟩)
      · obtain ⟨t₆, hp₆, hc⟩ := bind_ok hc
        cases hc
        exact Or.inl ⟨rfl, (h₅.iunlockput hs.tree.ok (looks_eq sb s _) hsafe₃ hp₆).sameBut, fun _ => hnot⟩

/-! ## An empty root directory -/

/-- The root directory is the current directory, and all other entries of the table are free. -/
def rootVolume : Volume :=
  { inode := fun ip => if ip.val = 0 then Fs.rootDir else { Fs.rootDir with ref := 0 }
    fs := Fs.empty.iupdate mkfsSb Fs.rootDir }

theorem rootVolume_used (h : 0 < (rootVolume.inode ip).ref) :
    ip = 0 ∧ rootVolume.inode ip = Fs.rootDir := by
  unfold rootVolume at h ⊢
  dsimp only at h ⊢
  by_cases hip : ip.val = 0
  · exact ⟨Fin.ext hip, if_pos hip⟩
  · rw [if_neg hip] at h
    exact absurd h (Nat.lt_irrefl 0)

theorem rootVolume_unlocked (ip : Fin NINODE) :
    (rootVolume.inode ip).lock = none ∧ (rootVolume.inode ip).valid = false := by
  unfold rootVolume
  dsimp only
  split_ifs
  · exact ⟨rfl, rfl⟩
  · exact ⟨rfl, rfl⟩

theorem rootVolume_wellFormed : WellFormed mkfsSb 0 rootVolume := by
  have hroot : Safe mkfsSb rootVolume 1 := ⟨by decide, fun _ => Or.inr ⟨0, by decide, by decide⟩⟩
  have hok : Ok mkfsSb rootVolume := by
    refine ⟨Fs.diskOk_rootDir, fun ip h => ?_, fun ip ip' h h' _ => ?_, fun ip _ hv => ?_, fun ip hl => ?_⟩
    · rw [(rootVolume_used h).2]
      exact ⟨rfl, by decide⟩
    · rw [(rootVolume_used h).1, (rootVolume_used h').1]
    · rw [(rootVolume_unlocked ip).2] at hv
      cases hv
    · exact absurd (rootVolume_unlocked ip).1 hl
  refine ⟨⟨hok, hroot, by decide, fun m hm hdir k hk => ?_⟩, by decide, fun ip => (rootVolume_unlocked ip).1,
    fun ip h => ?_⟩
  · have hd := Fs.dinodeAt_rootDir m.toNat
    by_cases h1 : m.toNat = 1
    · rw [if_pos h1] at hd
      unfold Fs.entries Fs.inodeAt at hk
      rw [show rootVolume.fs = Fs.empty.iupdate mkfsSb Fs.rootDir from rfl, hd] at hk
      have hz : k < Fs.rootDir.d.size.toNat / 16 := hk
      exact absurd hz (Nat.not_lt_zero k)
    · rw [if_neg h1] at hd
      rw [show rootVolume.fs = Fs.empty.iupdate mkfsSb Fs.rootDir from rfl, hd, Fs.dinodeAt_empty hm.1] at hdir
      exact absurd hdir (by decide)
  · rw [(rootVolume_used h).2]
    have hd := Fs.dinodeAt_rootDir Fs.rootDir.inum.toNat
    rw [show rootVolume.fs = Fs.empty.iupdate mkfsSb Fs.rootDir from rfl, hd, if_pos (by decide)]
    decide

end Volume

end Xv6
