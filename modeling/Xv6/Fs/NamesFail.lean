import Xv6.Fs.Create
import Xv6.Fs.Owners

/-!
# NamesFail — calls that fail

`link`, `unlink`, `mkdir` and `mknod` leave the tree as it was if they return `-1`.
-/

namespace Xv6

namespace Volume

variable {sb : superblock} {p : ℕ} {cwd ip dp : Fin NINODE} {s t u : Volume} {i : UInt32} {n : ℕ} {r : ℤ}
  {refs locks : List (Fin NINODE)} {path : List UInt8} {type : Int16}

/-! ## `link` -/

/-- The tree after one more link of an inode that the call holds. -/
theorem Tree.linked {k : Int16} (hn : sb.ninodes < 2 ^ 32) (htree : Tree sb cwd s)
    (htook : Took p [ip] [] s t) (ht : Ok sb t) (hi : (t.inode ip).inum = i)
    (hbut : Fs.SameBut sb {i} s.fs t.fs) (hsame : Fs.SameInode sb k s.fs t.fs i)
    (hfile : (s.fs.dinodeAt sb i.toNat).type ≠ T_DIR) : Tree sb cwd t := by
  have htypes : ∀ m : UInt32, m.toNat < sb.ninodes →
      (t.fs.dinodeAt sb m.toNat).type = (s.fs.dinodeAt sb m.toNat).type := fun m hm => by
    by_cases hmi : m = i
    · rw [hmi]
      exact hsame.type
    · exact (hbut m hm hmi).type
  have hheld : ∀ ip', 0 < (s.inode ip').ref →
      0 < (t.inode ip').ref ∧ (t.inode ip').inum = (s.inode ip').inum := fun ip' h0 => by
    have hr := htook.ref ip'
    exact ⟨by omega, (htook.same ip' h0).2⟩
  have hup : ∀ m, Safe sb s m → Safe sb t m := by
    rintro m ⟨hm, hkept⟩
    obtain ⟨m, rfl⟩ : ∃ m' : UInt32, m'.toNat = m := ⟨.ofNat m, UInt32.toNat_ofNat_of_lt' (hm.trans hn)⟩
    refine ⟨hm, fun h0 => ?_⟩
    rw [htypes m hm] at h0
    by_cases hmi : m = i
    · exact Or.inr ⟨ip, htook.held, by rw [hi, hmi]⟩
    · obtain hlinks | ⟨ip', h0', hin⟩ := hkept h0
      · left
        rwa [(hbut m hm hmi).nlink h0, Int16.add_zero]
      · exact Or.inr ⟨ip', (hheld ip' h0').1, by rw [(hheld ip' h0').2, hin]⟩
  have hdown : ∀ m : UInt32, m ≠ i → Safe sb t m.toNat → Safe sb s m.toNat := by
    rintro m hmi ⟨hm, hkept⟩
    refine ⟨hm, fun h0 => ?_⟩
    obtain hlinks | ⟨ip', h0', hin⟩ := hkept (by rwa [htypes m hm])
    · left
      rwa [(hbut m hm hmi).nlink h0, Int16.add_zero] at hlinks
    · have hip : ip' ≠ ip := fun hip => hmi (UInt32.toNat_inj.mp (hin.symm.trans (by rw [hip, hi])))
      have hr := htook.ref ip'
      rw [List.count_cons_of_ne (Ne.symm hip), List.count_nil, Nat.add_zero] at hr
      exact Or.inr ⟨ip', hr ▸ h0', by rw [← (hheld ip' (hr ▸ h0')).2, hin]⟩
  refine ⟨ht, hup _ htree.root, (hheld cwd htree.cwd).1, fun m hm hdir j hj key v hv => hup v ?_⟩
  rw [htypes m hm.1] at hdir
  have hmi : m ≠ i := fun hmi => hfile (hmi ▸ hdir)
  have h0 : (s.fs.dinodeAt sb m.toNat).type ≠ 0 := by
    rw [hdir]
    decide
  have hs := hbut m hm.1 hmi
  rw [hs.entries h0] at hj
  rw [hs.slots htree.ok.disk hm.1 h0 hj] at hv
  exact htree.names m (hdown m hmi hm) hdir j hj key v hv

/-- **The end of a `link` that has failed** takes the link back. -/
theorem linkBad_undone (hsb : sb.Ok) (hs : Ok sb s) (htook : Took p [ip] [] s t) (ht : Ok sb t)
    (hi : (t.inode ip).inum = i) (hbut : Fs.SameBut sb {i} s.fs t.fs)
    (hone : Fs.SameInode sb 1 s.fs t.fs i) (hsafe : Safe sb s i.toNat)
    (hb : t.linkBad sb p ip = .ok (r, u)) : Walked sb p (Fs.SameBut sb ∅ s.fs) [] [] s u := by
  obtain ⟨t₁, hl, hb⟩ := bind_ok hb
  obtain ⟨t₂, hp, hb⟩ := bind_ok hb
  cases hb
  obtain ⟨h₁, hfs₁, hin₁, -⟩ := ht.ilock hl
  obtain ⟨htook₁, -⟩ := htook.ilock hl
  obtain ⟨h₂, hbut₂, hsame₂⟩ := h₁.relink hsb (htook₁.locked (List.mem_cons_self (a := ip))) rfl
  have hin₂ : ((t₁.addLink sb ip (-1)).inode ip).inum = i := by
    rw [addLink_self]
    exact hin₁.trans hi
  rw [← addLink_eq] at h₂ hbut₂ hsame₂
  rw [hin₁, hi] at hbut₂ hsame₂
  rw [hfs₁] at hbut₂ hsame₂
  have hall : Fs.SameBut sb ∅ s.fs (t₁.addLink sb ip (-1)).fs := by
    intro m hm _
    by_cases hmi : m = i
    · rw [hmi]
      exact hone.trans (hsame₂ (-1) rfl)
    · exact (hbut m hm hmi).trans (hbut₂ m hm hmi)
  have hw : Walked sb p (Fs.SameBut sb ∅ s.fs) [ip] [ip] s (t₁.addLink sb ip (-1)) :=
    ⟨htook₁.addLink ip (-1), h₂, hall⟩
  rw [← hin₂] at hsafe
  exact hw.iunlockput hs (looks_sameBut hsafe.1 (Set.notMem_empty _)) hsafe hp

/-- **`sys_link`** that fails. -/
theorem sys_link_undone {old new : Option (List UInt8)} (hsb : sb.Ok) (hs : WellFormed sb cwd s)
    (hold : ∀ l ∈ old, (0 : UInt8) ∉ l) (hnew : ∀ l ∈ new, (0 : UInt8) ∉ l)
    (h : s.sys_link sb p cwd old new = .ok (-1, u)) : Walked sb p (Fs.SameBut sb ∅ s.fs) [] [] s u := by
  unfold sys_link at h
  split at h
  swap
  · cases h
    exact (Walked.refl hs.tree.ok).sameBut
  next old new =>
  obtain ⟨⟨found, t₁⟩, hf, h⟩ := bind_ok h
  obtain ⟨h₁, hsafe₁, -⟩ := Walked.namei hs.tree (hold old rfl) hf
  cases found with
  | none =>
    cases h
    exact h₁.sameBut
  | some ip =>
    obtain ⟨t₂, hl₂, h⟩ := bind_ok h
    obtain ⟨h₂, -, hin₂⟩ := h₁.ilock hl₂
    have hsafe := hsafe₁ ip rfl
    rw [← hin₂] at hsafe
    have hlock₂ := h₂.took.locked (List.mem_cons_self (a := ip))
    split_ifs at h with htype
    · obtain ⟨t₃, hp, h⟩ := bind_ok h
      cases h
      exact (h₂.iunlockput hs.tree.ok (looks_eq sb s _) hsafe hp).sameBut
    · obtain ⟨t₄, hu, h⟩ := bind_ok h
      obtain ⟨h₃, hbut₃, hsame₃⟩ := h₂.ok.relink hsb hlock₂ rfl
      rw [← addLink_eq, h₂.fs] at hbut₃ hsame₃
      rw [← addLink_eq] at h₃
      obtain ⟨h₄, hfs₄⟩ := h₃.iunlock hu
      rw [← hfs₄] at hbut₃ hsame₃
      have htook₄ := (h₂.took.addLink ip 1).iunlock hu
      have hin₄ : (t₄.inode ip).inum = (t₂.inode ip).inum := by rw [iunlock_inum hu, addLink_self]
      have hfile : (s.fs.dinodeAt sb (t₂.inode ip).inum.toNat).type ≠ T_DIR := by
        rwa [h₂.type hlock₂ (looks_eq sb s _)]
      have htree₄ := hs.tree.linked hs.ninodes htook₄ h₄ hin₄ hbut₃ (hsame₃ 1 rfl) hfile
      -- what has failed behind `t₄` ends like this
      have hbad : ∀ v, Took p [ip] [] s v → Walked sb p (Fs.SameBut sb ∅ t₄.fs) [] [] t₄ v →
          v.linkBad sb p ip = .ok (-1, u) → Walked sb p (Fs.SameBut sb ∅ s.fs) [] [] s u := by
        intro v htook hv hb
        have hin : (v.inode ip).inum = (t₂.inode ip).inum := (hv.took.same ip htook₄.held).2.trans hin₄
        have hbut := hbut₃.trans hv.fs
        rw [Set.union_empty] at hbut
        exact linkBad_undone hsb hs.tree.ok htook hv.ok hin hbut
          ((hsame₃ 1 rfl).trans (hv.fs _ hsafe.1 (Set.notMem_empty _))) hsafe hb
      obtain ⟨⟨parent, t₅⟩, hp₅, h⟩ := bind_ok h
      obtain ⟨h₅, hsafe₅, hres⟩ := Walked.nameiparent htree₄ (hnew new rfl) hp₅
      have htook₅ := htook₄.namex hp₅
      cases parent with
      | none => exact hbad t₅ htook₅ h₅.sameBut h
      | some x =>
        obtain ⟨dp, name⟩ := x
        obtain ⟨t₆, hl₆, h⟩ := bind_ok h
        obtain ⟨⟨r, t₇⟩, hd, h⟩ := bind_ok h
        obtain ⟨t₈, hp₈, h⟩ := bind_ok h
        obtain ⟨h₆, -, hin₆⟩ := h₅.ilock hl₆
        obtain ⟨htook₆, -⟩ := htook₅.ilock hl₆
        have hres : t₄.fs.resolveParent sb (t₄.start cwd new) new = some ((t₆.inode dp).inum, name) := by
          rw [hres, hin₆]
          rfl
        have hdirs : (t₄.fs.dinodeAt sb (t₆.inode dp).inum.toNat).type = T_DIR := Fs.resolveParent_dir hres
        have hsafe₆ : Safe sb t₄ (t₆.inode dp).inum.toNat := by
          rw [hin₆]
          exact hsafe₅ _ rfl
        have hlock₆ := h₆.took.locked (List.mem_cons_self (a := dp))
        have hdir := (h₆.type hlock₆ (looks_eq sb t₄ _)).symm.trans hdirs
        split_ifs at h with hr
        swap
        · obtain ⟨t₉, -, h⟩ := bind_ok h
          cases h
        have h₇ : Took p [dp, ip] [dp] s t₇ ∧ Walked sb p (Fs.SameBut sb ∅ t₄.fs) [dp] [dp] t₄ t₇ ∧
            (t₇.inode dp).inum = (t₆.inode dp).inum := by
          split_ifs at hd
          · cases hd
            exact ⟨htook₆, h₆.sameBut, rfl⟩
          · exact ⟨htook₆.dirlink hd, (h₆.sameBut.dirlink hsb hlock₆ hdir hd).2 hr,
              dirlink_inum hd (h₆.ok.locked dp hlock₆).1⟩
        obtain ⟨htook₇, hw₇, hin₇⟩ := h₇
        rw [← hin₇] at hsafe₆
        exact hbad t₈ (htook₇.iunlockput hp₈) (hw₇.iunlockput htree₄.ok
          (looks_sameBut hsafe₆.1 (Set.notMem_empty _)) hsafe₆ hp₈) h

/-! ## `unlink` -/

theorem Walked.unlinkBad (hs : Ok sb s) (h : Walked sb p (· = s.fs) (dp :: refs) (dp :: locks) s t)
    (hsafe : Safe sb s (t.inode dp).inum.toNat) (hb : t.unlinkBad sb p dp = .ok (r, u)) :
    Walked sb p (· = s.fs) refs locks s u := by
  obtain ⟨t₁, hp, hb⟩ := bind_ok hb
  cases hb
  exact h.iunlockput hs (looks_eq sb s _) hsafe hp

/-- **`sys_unlink`** that fails. -/
theorem sys_unlink_undone {path : Option (List UInt8)} (hs : WellFormed sb cwd s)
    (h0 : ∀ l ∈ path, (0 : UInt8) ∉ l) (h : s.sys_unlink sb p cwd path = .ok (-1, u)) :
    Walked sb p (· = s.fs) [] [] s u := by
  unfold sys_unlink at h
  split at h
  · cases h
    exact .refl hs.tree.ok
  next path =>
  obtain ⟨⟨parent, t₁⟩, hp, h⟩ := bind_ok h
  obtain ⟨h₁, hsafe₁, hres⟩ := Walked.nameiparent hs.tree (h0 path rfl) hp
  cases parent with
  | none =>
    cases h
    exact h₁
  | some x =>
    obtain ⟨dp, name⟩ := x
    obtain ⟨t₂, hl₂, h⟩ := bind_ok h
    obtain ⟨h₂, -, hin₂⟩ := h₁.ilock hl₂
    have hres : s.fs.resolveParent sb (s.start cwd path) path = some ((t₂.inode dp).inum, name) := by
      rw [hres, hin₂]
      rfl
    have hdirs : (s.fs.dinodeAt sb (t₂.inode dp).inum.toNat).type = T_DIR := Fs.resolveParent_dir hres
    have hsafe : Safe sb s (t₂.inode dp).inum.toNat := by
      rw [hin₂]
      exact hsafe₁ _ rfl
    have hlock₂ := h₂.took.locked (List.mem_cons_self (a := dp))
    have hdir := (h₂.type hlock₂ (looks_eq sb s _)).symm.trans hdirs
    split_ifs at h
    · exact h₂.unlinkBad hs.tree.ok hsafe h
    · obtain ⟨⟨found, t₃⟩, hd, h⟩ := bind_ok h
      obtain ⟨hfound, ht₃, -⟩ | ⟨ip, k, hfound, h₃, hsafe₃, hin₃, -⟩ :=
        h₂.dirlookup hs.tree hlock₂ (looks_eq sb s _) hsafe hdir hd
      · rw [hfound, ht₃] at h
        exact h₂.unlinkBad hs.tree.ok hsafe h
      · rw [hfound] at h
        obtain ⟨t₄, hl₄, h⟩ := bind_ok h
        obtain ⟨h₄, -, hin₄⟩ := h₃.ilock hl₄
        have hlock₄ := h₄.took.locked (List.mem_cons_self (a := ip))
        rw [← hin₄] at hsafe₃
        by_cases hlinks : (t₄.inode ip).d.nlink < 1
        · rw [if_pos hlinks] at h
          cases h
        rw [if_neg hlinks] at h
        obtain ⟨⟨empty, t₅⟩, he, h⟩ := bind_ok h
        -- `isdirempty` changes nothing
        have ht₅ : t₅ = t₄ := by
          split_ifs at he with htype
          · obtain ⟨⟨b, i, fs⟩, hi, he⟩ := bind_ok he
            cases he
            obtain ⟨rfl, rfl⟩ := (h₄.ok.disk.dir _ (h₄.ok.lockedCopy hlock₄).1 htype).isdirempty hi
            exact set_eq_self
          · cases he
            rfl
        rw [ht₅] at h
        dsimp only at h
        split_ifs at h with hempty
        · obtain ⟨t₆, hp₆, h⟩ := bind_ok h
          have h₆ := h₄.iunlockput hs.tree.ok (looks_eq sb s _) hsafe₃ hp₆
          refine h₆.unlinkBad hs.tree.ok ?_ h
          have hdp : (t₄.inode dp).inum = (t₃.inode dp).inum :=
            (((Took.refl p t₃).ilock hl₄).1.same dp (h₃.ok.locked dp
              (h₃.took.locked (List.mem_cons_self (a := dp)))).1).2
          rw [iunlockput_inum hp₆, hdp, hin₃]
          exact hsafe
        · obtain ⟨⟨i, fs⟩, -, h⟩ := bind_ok h
          obtain ⟨t₆, -, h⟩ := bind_ok h
          obtain ⟨t₇, -, h⟩ := bind_ok h
          cases h

/-! ## `mkdir` and `mknod` -/

/-- **`sys_mkdir` and `sys_mknod`** that fail. -/
theorem sysCreate_undone {path : Option (List UInt8)} {major minor : Int16} (hsb : sb.Ok)
    (hs : WellFormed sb cwd s) (h0 : ∀ l ∈ path, (0 : UInt8) ∉ l)
    (h : s.sysCreate sb p cwd path type major minor = .ok (-1, u)) :
    Walked sb p (Fs.SameBut sb ∅ s.fs) [] [] s u := by
  unfold sysCreate at h
  split at h
  · cases h
    exact (Walked.refl hs.tree.ok).sameBut
  next path =>
  obtain ⟨⟨new, t⟩, hc, h⟩ := bind_ok h
  cases new with
  | some ip =>
    obtain ⟨v, -, h⟩ := bind_ok h
    cases h
  | none =>
    cases h
    obtain ⟨-, hw, -⟩ | ⟨ip, ho, -⟩ | ⟨ip, ho, -⟩ := create_ok hsb hs (h0 path rfl) hc
    · exact hw
    · cases ho
    · cases ho

/-! ## All of them -/

/-- The entries of a directory. -/
def listing (sb : superblock) (s : Fs) (i : UInt32) : Set (List UInt8 × ℕ) :=
  {e | ∃ k < Fs.entries (s.inodeAt sb i), s.slots (s.inodeAt sb i) k = some e}

/-- The same files under the same names, and the same references. -/
structure SameTree (sb : superblock) (s t : Volume) : Prop where
  allocated : ∀ i : UInt32, i.toNat < sb.ninodes →
    ((t.fs.dinodeAt sb i.toNat).type ≠ 0 ↔ (s.fs.dinodeAt sb i.toNat).type ≠ 0)
  inode : ∀ i : UInt32, i.toNat < sb.ninodes → (s.fs.dinodeAt sb i.toNat).type ≠ 0 →
    (t.fs.dinodeAt sb i.toNat).type = (s.fs.dinodeAt sb i.toNat).type ∧
      (t.fs.dinodeAt sb i.toNat).nlink = (s.fs.dinodeAt sb i.toNat).nlink ∧
      (t.fs.dinodeAt sb i.toNat).size = (s.fs.dinodeAt sb i.toNat).size
  bytes : ∀ i : UInt32, i.toNat < sb.ninodes → (s.fs.dinodeAt sb i.toNat).type ≠ 0 →
    ∀ k < (s.fs.dinodeAt sb i.toNat).size.toNat,
      t.fs.bytes (t.fs.inodeAt sb i) k = s.fs.bytes (s.fs.inodeAt sb i) k
  entries : ∀ i : UInt32, i.toNat < sb.ninodes → (s.fs.dinodeAt sb i.toNat).type = T_DIR →
    listing sb t.fs i = listing sb s.fs i
  /-- what is in memory is what is on the disk -/
  copy : ∀ ip, 0 < (t.inode ip).ref → (t.inode ip).valid = true →
    (t.inode ip).d = t.fs.dinodeAt sb (t.inode ip).inum.toNat
  ident : ∀ ip, 0 < (s.inode ip).ref →
    (t.inode ip).dev = (s.inode ip).dev ∧ (t.inode ip).inum = (s.inode ip).inum
  ref : ∀ ip, (t.inode ip).ref = (s.inode ip).ref
  unlocked : ∀ ip, (t.inode ip).lock = none

theorem Walked.sameTree (hs : WellFormed sb cwd s) (h : Walked sb p (Fs.SameBut sb ∅ s.fs) [] [] s t) :
    SameTree sb s t := by
  have hsame : ∀ i : UInt32, i.toNat < sb.ninodes → Fs.SameInode sb 0 s.fs t.fs i := fun i hi =>
    h.fs i hi (Set.notMem_empty i)
  refine ⟨fun i hi => ?_, fun i hi h0 => ⟨(hsame i hi).type, ?_, (hsame i hi).size h0⟩,
    fun i hi h0 k hk => ?_, fun i hi hdir => ?_, fun ip h0 hv => (h.ok.copy ip h0 hv).1, h.took.same,
    fun ip => ?_, fun ip => ?_⟩
  · rw [(hsame i hi).type]
  · rw [(hsame i hi).nlink h0, Int16.add_zero]
  · refine (hsame i hi).bytes h0 k (hk.trans_le ?_)
    exact (hs.tree.ok.disk.file _ (Fs.copy_inodeAt hi) h0).size
  · have h0 : (s.fs.dinodeAt sb i.toNat).type ≠ 0 := by
      rw [hdir]
      decide
    ext e
    refine exists_congr fun k => ?_
    rw [(hsame i hi).entries h0]
    exact and_congr_right fun hk => by rw [(hsame i hi).slots hs.tree.ok.disk hi h0 hk]
  · rw [h.took.ref, List.count_nil, Nat.add_zero]
  · rw [h.took.lock, if_neg List.not_mem_nil]
    exact hs.unlocked ip

/-- The calls that change names. -/
inductive NameCall where
  | link (old new : Option (List UInt8))
  | unlink (path : Option (List UInt8))
  | mkdir (path : Option (List UInt8))
  | mknod (path : Option (List UInt8)) (major minor : Int16)

/-- The paths of a call. -/
def NameCall.paths : NameCall → List (Option (List UInt8))
  | .link old new => [old, new]
  | .unlink path => [path]
  | .mkdir path => [path]
  | .mknod path _ _ => [path]

def NameCall.run (sb : superblock) (p : ℕ) (cwd : Fin NINODE) (s : Volume) :
    NameCall → Except Panic (ℤ × Volume)
  | .link old new => s.sys_link sb p cwd old new
  | .unlink path => s.sys_unlink sb p cwd path
  | .mkdir path => s.sys_mkdir sb p cwd path
  | .mknod path major minor => s.sys_mknod sb p cwd path major minor

/-- **A call that fails leaves the tree as it was.** -/
theorem name_call_fails (hsb : sb.Ok) (hs : WellFormed sb cwd s) (c : NameCall)
    (hstr : ∀ l, some l ∈ c.paths → (0 : UInt8) ∉ l) (h : c.run sb p cwd s = .ok (-1, t)) :
    SameTree sb s t := by
  cases c with
  | link old new =>
    refine (sys_link_undone hsb hs (fun l hl => hstr l ?_) (fun l hl => hstr l ?_) h).sameTree hs
    · rw [hl]
      exact List.mem_cons_self
    · rw [hl]
      exact List.mem_cons_of_mem _ List.mem_cons_self
  | unlink path =>
    refine (sys_unlink_undone hs (fun l hl => hstr l ?_) h).sameBut.sameTree hs
    rw [hl]
    exact List.mem_cons_self
  | mkdir path =>
    refine (sysCreate_undone hsb hs (fun l hl => hstr l ?_) h).sameTree hs
    rw [hl]
    exact List.mem_cons_self
  | mknod path major minor =>
    refine (sysCreate_undone hsb hs (fun l hl => hstr l ?_) h).sameTree hs
    rw [hl]
    exact List.mem_cons_self

/-! ## A link to a name that exists -/

/-- The root directory with its two names and a file, `"a"`, and `link("/a", "/a")` fails. -/
structure LinkFails (s : Volume) : Prop where
  dirs : ∀ m < 200, (s.fs.dinodeAt mkfsSb m).type = T_DIR → m = 1
  linked : ∀ m < 3, m ≠ 0 → (s.fs.dinodeAt mkfsSb m).nlink ≠ 0
  size : Fs.entries (s.fs.inodeAt mkfsSb 1) = 3
  names : ∀ k < 3, ∀ e ∈ s.fs.slots (s.fs.inodeAt mkfsSb 1) k, e.2 < 3 ∧ e.2 ≠ 0
  cwd : 0 < (s.inode 0).ref
  unlocked : ∀ ip : Fin NINODE, (s.inode ip).lock = none
  fails : Runs.okWith (fun y => y.1 == -1 && y.2.fs.logged == 32 :: 32 :: s.fs.logged)
    (s.sys_link mkfsSb 0 0 (some [47, 97]) (some [47, 97])) = true

instance (s : Volume) : Decidable (LinkFails s) :=
  decidable_of_iff (_ ∧ _ ∧ _ ∧ _ ∧ _ ∧ _ ∧ _)
    ⟨fun ⟨h1, h2, h3, h4, h5, h6, h7⟩ => ⟨h1, h2, h3, h4, h5, h6, h7⟩,
      fun ⟨h1, h2, h3, h4, h5, h6, h7⟩ => ⟨h1, h2, h3, h4, h5, h6, h7⟩⟩

theorem LinkFails.wellFormed (h : LinkFails s) (hv : Sound mkfsSb s) : WellFormed mkfsSb 0 s := by
  have hsafe : ∀ m < 3, m ≠ 0 → Safe mkfsSb s m := fun m hm h0 =>
    ⟨hm.trans (by decide), fun _ => Or.inl (h.linked m hm h0)⟩
  refine ⟨⟨hv.ok, hsafe 1 (by decide) (by decide), h.cwd, fun m hm hT k hk key n hslot => ?_⟩,
    by decide, h.unlocked, hv.used⟩
  obtain rfl : m = 1 := UInt32.toNat_inj.mp (h.dirs m.toNat hm.1 hT)
  rw [h.size] at hk
  obtain ⟨hn, h0⟩ := h.names k hk _ hslot
  exact hsafe n hn h0

/-- `link("/a", "/a")`: the inode of the file is written with one link more, and then as before. -/
theorem name_call_fails_link : ∃ s t, Runs.Steps (step mkfsSb) (Known mkfsSb) rootVolume s ∧
    (NameCall.link (some [47, 97]) (some [47, 97])).run mkfsSb 0 0 s = .ok (-1, t) ∧
    t.fs.logged = 32 :: 32 :: s.fs.logged ∧ SameTree mkfsSb s t := by
  obtain ⟨s, hrun, h⟩ := Runs.Steps.of_any (Q := LinkFails)
    [.ilock 7 0, .dirlink 7 0 (fun i => [46].getD i 0) 1, .dirlink 7 0 (fun i => [46, 46].getD i 0) 1,
      .ialloc T_FILE, .ilock 7 1, .relink 7 1 0 0 1, .iunlock 7 1,
      .dirlink 7 0 (fun i => [97].getD i 0) 2, .iunlock 7 0, .iput 7 1]
    (by decide +kernel : (Runs.exec (step mkfsSb) (Known mkfsSb) rootVolume _).any _ = true)
  have hw := h.wellFormed (rootVolume_sound.run Fs.mkfsSb_ok (by decide) (by decide) hrun)
  obtain ⟨⟨r, t⟩, ht, hr⟩ := Runs.okWith_iff.mp h.fails
  rw [Bool.and_eq_true, beq_iff_eq, beq_iff_eq] at hr
  obtain ⟨rfl, hlog⟩ := hr
  have hstr : ∀ l, some l ∈ (NameCall.link (some [47, 97]) (some [47, 97])).paths → (0 : UInt8) ∉ l := by
    intro l hl
    obtain rfl : l = [47, 97] := by simpa [NameCall.paths] using hl
    decide
  exact ⟨s, t, hrun, ht, hlog, name_call_fails Fs.mkfsSb_ok hw _ hstr ht⟩

end Volume

end Xv6
