import Mathlib.Tactic.SplitIfs
import Xv6.Kernel.Inode
import Xv6.Lib.Runs

/-!
# InodeTable — the inode table never aliases

`Refs` counts the references and keeps the inodes in use apart; `Locks` says who holds what; `EntryOk`
relates a table entry to its disk inode, by what its holder does with it.  While `iput` frees an inode
the entry stays referenced and locked, so that an `iget` of the same number finds it, and waits.
-/

namespace Xv6.ITable

/-! ## What an entry is used for -/

inductive Use where
  | unlocked
  | loading
  | holding
  | freeing (stage : Stage)

/-- What a process with the lock of `ip` does with it. -/
def Pc.use (ip : Fin NINODE) : Pc → Use
  | .load ip' => if ip' = ip then .loading else .holding
  | .iput ip' stage => if ip' = ip then .freeing stage else .holding
  | _ => .holding

def use (s : ITable) (ip : Fin NINODE) : Use :=
  match (s.inode ip).lock with
  | none => .unlocked
  | some p => (s.pc p).use ip

/-- A table entry against its disk inode. -/
def EntryOk (i : Xv6.inode) (dirty : Bool) (disk : dinode) : Use → Prop
  | .unlocked | .loading => i.valid = true → i.d = disk ∧ disk.type ≠ 0
  | .holding => i.valid = true ∧ (dirty = false → i.d = disk) ∧ i.d.type ≠ 0 ∧ disk.type ≠ 0
  | .freeing .trunc | .freeing .truncUpdate => i.valid = true ∧ i.d.type ≠ 0 ∧ disk.type ≠ 0
  | .freeing .clear | .freeing .update => i.valid = true ∧ disk.type ≠ 0
  | .freeing .invalidate => True
  | .freeing .unlock => i.valid = false
  | .freeing .put => False

/-- The references of the table are those that have been handed out. -/
structure Refs (s : ITable) : Prop where
  count : ∀ ip, (s.inode ip).ref = (s.held.map Prod.snd).count ip
  unique : ∀ ip ip', 0 < (s.inode ip).ref → 0 < (s.inode ip').ref →
    (s.inode ip).dev = (s.inode ip').dev → (s.inode ip).inum = (s.inode ip').inum → ip = ip'

/-- What a process that is at `pc` has. -/
def PcOk (s : ITable) (p : ℕ) : Pc → Prop
  | .ilock ip => (p, ip) ∈ s.held
  | .load ip => (s.inode ip).lock = some p
  | .ialloc _ type _ => type ≠ 0
  | .iput ip stage => (p, ip) ∈ s.held ∧ (stage ≠ .put → (s.inode ip).lock = some p)
  | _ => True

structure Locks (s : ITable) : Prop where
  holder : ∀ ip p, (s.inode ip).lock = some p → (p, ip) ∈ s.held
  pcs : ∀ p, s.PcOk p (s.pc p)

/-- **The invariant.** -/
structure Inv (s : ITable) : Prop where
  refs : s.Refs
  locks : s.Locks
  entry : ∀ ip, 0 < (s.inode ip).ref → EntryOk (s.inode ip) (s.dirty ip) (s.diskOf ip) (s.use ip)

variable {s t : ITable} {p q : ℕ} {ip ip' : Fin NINODE} {i : Xv6.inode} {pc : Pc} {dev inum : UInt32}
  {d : dinode} {held : List (ℕ × Fin NINODE)}

theorem Inv.init (disk : UInt32 → UInt32 → dinode) : (iinit disk).Inv := by
  refine ⟨⟨fun ip => rfl, fun ip ip' h => ?_⟩, ⟨fun ip p h => ?_, fun p => trivial⟩, fun ip h => ?_⟩
  · exact absurd h (Nat.lt_irrefl 0)
  · cases h
  · exact absurd h (Nat.lt_irrefl 0)

/-! ## Counting -/

theorem count_cons (held : List (ℕ × Fin NINODE)) :
    (((p, ip) :: held).map Prod.snd).count ip' =
      (held.map Prod.snd).count ip' + if ip = ip' then 1 else 0 := by
  rw [List.map_cons, List.count_cons]
  simp only [beq_iff_eq]

theorem count_erase (h : (p, ip) ∈ held) :
    (held.map Prod.snd).count ip' =
      ((held.erase (p, ip)).map Prod.snd).count ip' + if ip = ip' then 1 else 0 := by
  rw [← count_cons]
  exact ((List.perm_cons_erase h).map Prod.snd).count_eq ip'

theorem Refs.pos (h : s.Refs) (hp : (p, ip) ∈ s.held) : 0 < (s.inode ip).ref := by
  rw [h.count, List.count_pos_iff]
  exact List.mem_map_of_mem hp

/-- **An entry that nobody refers to is not locked**, and one with a single reference only by the
process that has it. -/
theorem Inv.unlocked (h : s.Inv) (h0 : (s.inode ip).ref = 0) : (s.inode ip).lock = none := by
  cases hl : (s.inode ip).lock with
  | none => rfl
  | some p =>
    have hpos := h.refs.pos (h.locks.holder ip p hl)
    omega

theorem CanPut.mem (h : s.CanPut p ip) : (p, ip) ∈ s.held := by
  rw [← List.count_pos_iff]
  exact Nat.lt_of_le_of_lt (Nat.zero_le _) h

/-- A process that puts a reference keeps one if it holds the lock. -/
theorem CanPut.keeps (h : s.CanPut p ip) (hl : (s.inode ip).lock = some p) :
    (p, ip) ∈ s.held.erase (p, ip) := by
  unfold CanPut at h
  rw [if_pos hl] at h
  rw [← List.count_pos_iff, List.count_erase_self]
  omega

theorem Inv.last_unlocked (h : s.Inv) (hp : s.CanPut p ip) (h1 : (s.inode ip).ref = 1) :
    (s.inode ip).lock = none := by
  cases hl : (s.inode ip).lock with
  | none => rfl
  | some q =>
    have hmem : (q, ip) ∈ s.held.erase (p, ip) := by
      by_cases hqp : q = p
      · subst hqp
        exact hp.keeps hl
      · have hne : (q, ip) ≠ (p, ip) := fun he => hqp (congrArg Prod.fst he)
        exact (List.mem_erase_of_ne hne).mpr (h.locks.holder ip q hl)
    have hpos : 0 < ((s.held.erase (p, ip)).map Prod.snd).count ip :=
      List.count_pos_iff.mpr (List.mem_map_of_mem hmem)
    have hcount := h.refs.count ip
    rw [count_erase hp.mem, if_pos rfl] at hcount
    omega

/-! ## Frames -/

theorem use_of_lock (h : (s.inode ip).lock = some p) : s.use ip = (s.pc p).use ip := by
  unfold use
  rw [h]

theorem use_of_unlocked (h : (s.inode ip).lock = none) : s.use ip = .unlocked := by
  unfold use
  rw [h]

/-- The use of an entry is told by its lock and the place of its holder. -/
theorem use_congr (hlock : (t.inode ip).lock = (s.inode ip).lock)
    (hpc : ∀ q, (s.inode ip).lock = some q → (t.pc q).use ip = (s.pc q).use ip) :
    t.use ip = s.use ip := by
  cases hl : (s.inode ip).lock with
  | none => rw [use_of_unlocked hl, use_of_unlocked (hlock.trans hl)]
  | some q => rw [use_of_lock hl, use_of_lock (hlock.trans hl), hpc q hl]

/-- Process `p` moves, and it does not matter to `ip`. -/
theorem use_update (h : pc.use ip = (s.pc p).use ip) (q : ℕ) :
    (Function.update s.pc p pc q).use ip = (s.pc q).use ip := by
  by_cases hqp : q = p
  · rw [hqp, Function.update_self, h]
  · rw [Function.update_of_ne hqp]

theorem Refs.congr (h : s.Refs) (hheld : t.held = s.held)
    (hi : ∀ ip, (t.inode ip).ref = (s.inode ip).ref ∧ (t.inode ip).dev = (s.inode ip).dev ∧
      (t.inode ip).inum = (s.inode ip).inum) : t.Refs := by
  refine ⟨fun ip => ?_, fun ip ip' => ?_⟩
  · rw [(hi ip).1, hheld]
    exact h.count ip
  · rw [(hi ip).1, (hi ip').1, (hi ip).2.1, (hi ip').2.1, (hi ip).2.2, (hi ip').2.2]
    exact h.unique ip ip'

/-- The entries that a step does not concern. -/
theorem Inv.entry_of_ne (h : s.Inv) (hi : t.inode ip = s.inode ip) (hdirty : t.dirty ip = s.dirty ip)
    (hdisk : t.diskOf ip = s.diskOf ip)
    (hpc : ∀ q, (t.pc q).use ip = (s.pc q).use ip) (hpos : 0 < (t.inode ip).ref) :
    EntryOk (t.inode ip) (t.dirty ip) (t.diskOf ip) (t.use ip) := by
  rw [hi, hdirty, hdisk, use_congr (by rw [hi]) fun q _ => hpc q]
  exact h.entry ip (hi ▸ hpos)

theorem PcOk.congr (h : s.PcOk q pc) (hheld : ∀ ip, (q, ip) ∈ s.held → (q, ip) ∈ t.held)
    (hlock : ∀ ip, (s.inode ip).lock = some q → (t.inode ip).lock = some q) : t.PcOk q pc := by
  cases pc with
  | idle => exact trivial
  | ilock ip => exact hheld ip h
  | load ip => exact hlock ip h
  | ialloc dev type inum => exact h
  | ialloced dev inum => exact trivial
  | iput ip stage => exact ⟨hheld ip h.1, fun hs => hlock ip (h.2 hs)⟩

/-- **Process `p` acts on entry `ip`**, without changing who refers to it. -/
theorem Inv.act (h : s.Inv) (hheld : t.held = s.held) (hi : ∀ ip', ip' ≠ ip → t.inode ip' = s.inode ip')
    (href : (t.inode ip).ref = (s.inode ip).ref ∧ (t.inode ip).dev = (s.inode ip).dev ∧
      (t.inode ip).inum = (s.inode ip).inum)
    (hdirty : ∀ ip', ip' ≠ ip → t.dirty ip' = s.dirty ip')
    (hdisk : ∀ ip', ip' ≠ ip → 0 < (s.inode ip').ref → t.diskOf ip' = s.diskOf ip')
    (hpc : t.pc = Function.update s.pc p pc) (huse : ∀ ip', ip' ≠ ip → pc.use ip' = (s.pc p).use ip')
    (hp : (p, ip) ∈ s.held) (hold : (s.inode ip).lock = none ∨ (s.inode ip).lock = some p)
    (hnew : (t.inode ip).lock = none ∨ (t.inode ip).lock = some p) (hok : t.PcOk p pc)
    (hentry : EntryOk (t.inode ip) (t.dirty ip) (t.diskOf ip) (t.use ip)) : t.Inv := by
  have hi' : ∀ ip', (t.inode ip').ref = (s.inode ip').ref ∧ (t.inode ip').dev = (s.inode ip').dev ∧
      (t.inode ip').inum = (s.inode ip').inum := by
    intro ip'
    by_cases hip : ip' = ip
    · rw [hip]
      exact href
    · rw [hi ip' hip]
      exact ⟨rfl, rfl, rfl⟩
  refine ⟨h.refs.congr hheld hi', ⟨fun ip' q hl => ?_, fun q => ?_⟩, fun ip' hpos => ?_⟩
  · rw [hheld]
    by_cases hip : ip' = ip
    · rw [hip] at hl ⊢
      rcases hnew with hn | hn <;> rw [hn] at hl <;> cases hl
      exact hp
    · rw [hi ip' hip] at hl
      exact h.locks.holder ip' q hl
  · rw [hpc]
    by_cases hqp : q = p
    · rw [hqp, Function.update_self]
      exact hok
    · rw [Function.update_of_ne hqp]
      refine (h.locks.pcs q).congr (fun ip' => by rw [hheld]; exact id) fun ip' hl => ?_
      by_cases hip : ip' = ip
      · rw [hip] at hl
        rcases hold with ho | ho <;> rw [ho] at hl <;> cases hl
        exact absurd rfl hqp
      · rw [hi ip' hip]
        exact hl
  · by_cases hip : ip' = ip
    · rw [hip]
      exact hentry
    · rw [(hi' ip').1] at hpos
      refine h.entry_of_ne (hi ip' hip) (hdirty ip' hip) (hdisk ip' hip hpos) (fun q => ?_)
        (by rw [(hi' ip').1]; exact hpos)
      rw [hpc]
      exact use_update (huse ip' hip) q

/-- A process goes on, which matters to none of its locked entries. -/
theorem Inv.setPc (h : s.Inv) (huse : ∀ ip, (s.inode ip).lock = some p → pc.use ip = (s.pc p).use ip)
    (hok : s.PcOk p pc) : (s.setPc p pc).Inv := by
  refine ⟨h.refs.congr rfl fun _ => ⟨rfl, rfl, rfl⟩, ⟨h.locks.holder, fun q => ?_⟩, fun ip hpos => ?_⟩
  · show PcOk (s.setPc p pc) q (Function.update s.pc p pc q)
    by_cases hqp : q = p
    · rw [hqp, Function.update_self]
      exact hok.congr (fun _ => id) fun _ => id
    · rw [Function.update_of_ne hqp]
      exact (h.locks.pcs q).congr (fun _ => id) fun _ => id
  · have huse' : (s.setPc p pc).use ip = s.use ip := by
      refine use_congr rfl fun q hl => ?_
      show (Function.update s.pc p pc q).use ip = _
      by_cases hqp : q = p
      · rw [hqp, Function.update_self]
        exact huse ip (hqp ▸ hl)
      · rw [Function.update_of_ne hqp]
    rw [huse']
    exact h.entry ip hpos

/-! ## References -/

/-- The references change, the locks and the contents do not. -/
theorem Inv.of_refs (h : s.Inv) (hrefs : t.Refs)
    (hi : ∀ ip, (t.inode ip).lock = (s.inode ip).lock)
    (hheld : ∀ ip q, (q, ip) ∈ s.held →
      (s.inode ip).lock = some q ∨ s.pc q ≠ .idle → (q, ip) ∈ t.held)
    (hentry : ∀ ip, 0 < (t.inode ip).ref → EntryOk (t.inode ip) (s.dirty ip) (t.diskOf ip) (s.use ip))
    (hsame : t.dirty = s.dirty ∧ t.pc = s.pc) : t.Inv := by
  obtain ⟨hdirty, hpc⟩ := hsame
  refine ⟨hrefs, ⟨fun ip q hl => ?_, fun q => ?_⟩, fun ip hpos => ?_⟩
  · rw [hi] at hl
    exact hheld ip q (h.locks.holder ip q hl) (.inl hl)
  · rw [hpc]
    by_cases hq : s.pc q = .idle
    · rw [hq]
      exact trivial
    · exact (h.locks.pcs q).congr (fun ip hm => hheld ip q hm (.inr hq)) fun ip hl => (hi ip).trans hl
  · rw [hdirty, use_congr (hi ip) fun q _ => by rw [hpc]]
    exact hentry ip hpos

theorem EntryOk.congr {i' : Xv6.inode} {dirty : Bool} {disk : dinode} {use : Use}
    (h : EntryOk i dirty disk use) (hv : i'.valid = i.valid) (hd : i'.d = i.d) :
    EntryOk i' dirty disk use := by
  cases use with
  | freeing stage => cases stage <;> simp only [EntryOk, hv, hd] <;> exact h
  | unlocked | loading | holding => simp only [EntryOk, hv, hd]; exact h

/-- The number of references to an entry in use changes. -/
theorem Inv.setRef {ref : ℕ} (h : s.Inv) (hpos : 0 < (s.inode ip).ref)
    (hcount : ∀ ip', (if ip' = ip then ref else (s.inode ip').ref) = (held.map Prod.snd).count ip')
    (hheld : ∀ ip q, (q, ip) ∈ s.held →
      (s.inode ip).lock = some q ∨ s.pc q ≠ .idle → (q, ip) ∈ held) :
    Inv { s.setInode ip { s.inode ip with ref := ref } with held := held } := by
  generalize ht : { s.setInode ip { s.inode ip with ref := ref } with held := held } = t
  have hself : t.inode ip = { s.inode ip with ref := ref } := by
    rw [← ht]
    exact Function.update_self _ _ _
  have hne : ∀ ip', ip' ≠ ip → t.inode ip' = s.inode ip' := fun ip' hip => by
    rw [← ht]
    exact Function.update_of_ne hip _ _
  have hdata : ∀ ip', (t.inode ip').dev = (s.inode ip').dev ∧ (t.inode ip').inum = (s.inode ip').inum ∧
      (t.inode ip').lock = (s.inode ip').lock ∧ (t.inode ip').valid = (s.inode ip').valid ∧
      (t.inode ip').d = (s.inode ip').d := by
    intro ip'
    by_cases hip : ip' = ip
    · rw [hip, hself]
      exact ⟨rfl, rfl, rfl, rfl, rfl⟩
    · rw [hne ip' hip]
      exact ⟨rfl, rfl, rfl, rfl, rfl⟩
  have hwas : ∀ ip', 0 < (t.inode ip').ref → 0 < (s.inode ip').ref := by
    intro ip' hp
    by_cases hip : ip' = ip
    · rw [hip]
      exact hpos
    · rw [← hne ip' hip]
      exact hp
  have hheld' : t.held = held := by rw [← ht]
  have hdisk : t.disk = s.disk := by rw [← ht]; rfl
  refine h.of_refs ⟨fun ip' => ?_, fun ip₁ ip₂ h1 h2 => ?_⟩ (fun ip' => (hdata ip').2.2.1)
    (fun ip' q hm hq => ?_) (fun ip' hp => ?_) (by rw [← ht]; exact ⟨rfl, rfl⟩)
  · rw [hheld', ← hcount]
    by_cases hip : ip' = ip
    · rw [hip, hself, if_pos rfl]
    · rw [hne ip' hip, if_neg hip]
  · rw [(hdata ip₁).1, (hdata ip₁).2.1, (hdata ip₂).1, (hdata ip₂).2.1]
    exact h.refs.unique ip₁ ip₂ (hwas ip₁ h1) (hwas ip₂ h2)
  · rw [hheld']
    exact hheld ip' q hm hq
  · obtain ⟨hdev, hinum, -, hvalid, hd⟩ := hdata ip'
    have hdo : t.diskOf ip' = s.diskOf ip' := by simp only [diskOf, hdisk, hdev, hinum]
    rw [hdo]
    exact (h.entry ip' (hwas ip' hp)).congr hvalid hd

theorem Inv.addRef (h : s.Inv) (hpos : 0 < (s.inode ip).ref) :
    Inv { s.setInode ip { s.inode ip with ref := (s.inode ip).ref + 1 } with
          held := (p, ip) :: s.held } := by
  refine h.setRef hpos (fun ip' => ?_) fun ip' q hm _ => List.mem_cons_of_mem _ hm
  rw [count_cons, ← h.refs.count]
  by_cases hip : ip' = ip
  · rw [if_pos hip, if_pos hip.symm, hip]
  · rw [if_neg hip, if_neg (Ne.symm hip)]
    rfl

/-- **The end of `iput`.** -/
theorem Inv.drop (h : s.Inv) (hp : (p, ip) ∈ s.held) (hpc : s.pc p = .idle)
    (hlock : (s.inode ip).lock = some p → (p, ip) ∈ s.held.erase (p, ip)) : (s.drop p ip).Inv := by
  refine h.setRef (h.refs.pos hp) (fun ip' => ?_) fun ip' q hm hq => ?_
  · have hcount := @count_erase p ip ip' s.held hp
    rw [← h.refs.count] at hcount
    by_cases hip : ip' = ip
    · rw [if_pos hip.symm, hip] at hcount
      rw [if_pos hip, hip]
      omega
    · rw [if_neg (Ne.symm hip)] at hcount
      rw [if_neg hip]
      exact hcount
  · by_cases hqp : (q, ip') = (p, ip)
    · cases hqp
      rcases hq with hq | hq
      · exact hlock hq
      · exact absurd hpc hq
    · exact (List.mem_erase_of_ne hqp).mpr hm

/-- A reference goes to another process. -/
theorem Inv.pass (h : s.Inv) (hp : s.CanPut p ip) (hpc : s.pc p = .idle) :
    Inv { s with held := (q, ip) :: s.held.erase (p, ip) } := by
  refine h.of_refs ⟨fun ip' => ?_, h.refs.unique⟩ (fun _ => rfl) (fun ip' r hm hr => ?_)
    (fun ip' hpos => h.entry ip' hpos) ⟨rfl, rfl⟩
  · refine (h.refs.count ip').trans ?_
    show _ = (((q, ip) :: s.held.erase (p, ip)).map Prod.snd).count ip'
    rw [count_cons, count_erase hp.mem]
  · refine List.mem_cons_of_mem _ ?_
    by_cases hqp : (r, ip') = (p, ip)
    · cases hqp
      rcases hr with hr | hr
      · exact hp.keeps hr
      · exact absurd hpc hr
    · exact (List.mem_erase_of_ne hqp).mpr hm

/-- A free entry is taken for another inode. -/
theorem Inv.recycle (h : s.Inv) (h0 : (s.inode ip).ref = 0)
    (hno : ∀ ip', ¬ (0 < (s.inode ip').ref ∧ (s.inode ip').dev = dev ∧ (s.inode ip').inum = inum)) :
    Inv { s.setInode ip { s.inode ip with dev := dev, inum := inum, ref := 1, valid := false } with
          held := (p, ip) :: s.held } := by
  generalize ht : { s.setInode ip { s.inode ip with dev := dev, inum := inum, ref := 1, valid := false }
    with held := (p, ip) :: s.held } = t
  have hself : t.inode ip = { s.inode ip with dev := dev, inum := inum, ref := 1, valid := false } := by
    rw [← ht]
    exact Function.update_self _ _ _
  have hne : ∀ ip', ip' ≠ ip → t.inode ip' = s.inode ip' := fun ip' hip => by
    rw [← ht]
    exact Function.update_of_ne hip _ _
  have hlock := h.unlocked h0
  have hheld : t.held = (p, ip) :: s.held := by rw [← ht]
  have hdisk : t.disk = s.disk := by rw [← ht]; rfl
  refine h.of_refs ⟨fun ip' => ?_, fun ip₁ ip₂ h1 h2 hdev hinum => ?_⟩ (fun ip' => ?_)
    (fun ip' q hm _ => ?_) (fun ip' hp => ?_) (by rw [← ht]; exact ⟨rfl, rfl⟩)
  · rw [hheld, count_cons, ← h.refs.count]
    by_cases hip : ip' = ip
    · rw [hip, hself, if_pos rfl, h0]
    · rw [hne ip' hip, if_neg (Ne.symm hip)]
      rfl
  · by_cases hip₁ : ip₁ = ip
    · by_cases hip₂ : ip₂ = ip
      · rw [hip₁, hip₂]
      · rw [hip₁, hself, hne ip₂ hip₂] at hdev hinum
        rw [hne ip₂ hip₂] at h2
        exact absurd ⟨h2, hdev.symm, hinum.symm⟩ (hno ip₂)
    · by_cases hip₂ : ip₂ = ip
      · rw [hip₂, hself, hne ip₁ hip₁] at hdev hinum
        rw [hne ip₁ hip₁] at h1
        exact absurd ⟨h1, hdev, hinum⟩ (hno ip₁)
      · rw [hne ip₁ hip₁, hne ip₂ hip₂] at hdev hinum
        rw [hne ip₁ hip₁] at h1
        rw [hne ip₂ hip₂] at h2
        exact h.refs.unique ip₁ ip₂ h1 h2 hdev hinum
  · by_cases hip : ip' = ip
    · rw [hip, hself]
    · rw [hne ip' hip]
  · rw [hheld]
    exact List.mem_cons_of_mem _ hm
  · by_cases hip : ip' = ip
    · rw [hip, hself, use_of_unlocked hlock]
      exact fun hv => by cases hv
    · have hdo : t.diskOf ip' = s.diskOf ip' := by simp only [diskOf, hdisk, hne ip' hip]
      rw [hdo, hne ip' hip]
      rw [hne ip' hip] at hp
      exact h.entry ip' hp

/-- **`iget`**: an entry in use is found, or a free one is taken. -/
theorem Inv.iget (h : s.Inv) (hs : s.iget p dev inum = .ok t) : t.Inv ∧ t.pc = s.pc := by
  unfold ITable.iget at hs
  split at hs
  · next ip hf =>
    cases hs
    have hip := List.find?_some hf
    rw [decide_eq_true_eq] at hip
    exact ⟨h.addRef hip.1, rfl⟩
  · next hno =>
    split at hs
    · cases hs
    · next ip hf =>
      cases hs
      have hip := List.find?_some hf
      rw [decide_eq_true_eq] at hip
      refine ⟨h.recycle hip fun ip' he => ?_, rfl⟩
      have hnot := List.find?_eq_none.mp hno ip' (List.mem_finRange ip')
      exact hnot (decide_eq_true he)

/-! ## The disk -/

theorem disk_setDisk (dev' inum' : UInt32) : (s.setDisk dev inum d).disk dev' inum' =
    if dev' = dev ∧ inum' = inum then d else s.disk dev' inum' := by
  unfold setDisk
  dsimp only
  by_cases hdev : dev' = dev
  · subst hdev
    rw [Function.update_self]
    by_cases hinum : inum' = inum
    · rw [hinum, Function.update_self, if_pos ⟨rfl, rfl⟩]
    · rw [Function.update_of_ne hinum, if_neg fun he => hinum he.2]
  · rw [Function.update_of_ne hdev, if_neg fun he => hdev he.1]

theorem diskOf_iupdate : (s.iupdate ip).diskOf ip = (s.inode ip).d := by
  unfold diskOf ITable.iupdate
  rw [disk_setDisk]
  exact if_pos ⟨rfl, rfl⟩

/-- `iupdate` writes no other inode that is in use. -/
theorem Refs.diskOf_iupdate_of_ne (h : s.Refs) (hpos : 0 < (s.inode ip).ref)
    (hpos' : 0 < (s.inode ip').ref) (hne : ip' ≠ ip) : (s.iupdate ip).diskOf ip' = s.diskOf ip' := by
  unfold diskOf ITable.iupdate
  rw [disk_setDisk]
  exact if_neg fun he => hne (h.unique ip' ip hpos' hpos he.1 he.2)

/-- A disk inode that is free belongs to no entry with contents. -/
theorem EntryOk.of_free {dirty : Bool} {disk : dinode} {use : Use} (h : EntryOk i dirty disk use)
    (h0 : disk.type = 0) (disk' : dinode) : EntryOk i dirty disk' use := by
  cases use with
  | unlocked => exact fun hv => absurd h0 (h hv).2
  | loading => exact fun hv => absurd h0 (h hv).2
  | holding => exact absurd h0 h.2.2.2
  | freeing stage =>
    cases stage with
    | trunc => exact absurd h0 h.2.2
    | truncUpdate => exact absurd h0 h.2.2
    | clear => exact absurd h0 h.2
    | update => exact absurd h0 h.2
    | invalidate => exact trivial
    | unlock => exact h
    | put => exact h

/-- **`ialloc` takes a number that is free on disk**, whatever the table still holds of it. -/
theorem Inv.allocated (h : s.Inv) (h0 : (s.disk dev inum).type = 0) (d : dinode) :
    (s.setDisk dev inum d).Inv := by
  refine ⟨h.refs.congr rfl fun _ => ⟨rfl, rfl, rfl⟩, ⟨h.locks.holder, fun q => ?_⟩, fun ip hpos => ?_⟩
  · exact (h.locks.pcs q).congr (fun _ => id) fun _ => id
  · have hok := h.entry ip hpos
    show EntryOk (s.inode ip) (s.dirty ip) ((s.setDisk dev inum d).disk _ _) (s.use ip)
    rw [disk_setDisk]
    split_ifs with he
    · refine hok.of_free ?_ d
      rw [diskOf]
      show (s.disk (s.inode ip).dev (s.inode ip).inum).type = 0
      have he' : (s.inode ip).dev = dev ∧ (s.inode ip).inum = inum := he
      rw [he'.1, he'.2]
      exact h0
    · exact hok

/-! ## One entry and its holder -/

/-- Process `p` acts with the lock of `ip`, or takes it; `i` is the entry afterwards. -/
theorem Inv.change {dirty : Bool} (h : s.Inv) (hp : (p, ip) ∈ s.held)
    (hold : (s.inode ip).lock = none ∨ (s.inode ip).lock = some p) (hl : i.lock = some p)
    (hi : i.ref = (s.inode ip).ref ∧ i.dev = (s.inode ip).dev ∧ i.inum = (s.inode ip).inum)
    (huse : ∀ ip', ip' ≠ ip → pc.use ip' = (s.pc p).use ip')
    (hok : ∀ t : ITable, t.held = s.held → (t.inode ip).lock = some p → t.PcOk p pc)
    (hentry : EntryOk i dirty (s.diskOf ip) (pc.use ip)) :
    Inv { (s.setInode ip i).setPc p pc with dirty := Function.update s.dirty ip dirty } := by
  generalize ht : { (s.setInode ip i).setPc p pc with dirty := Function.update s.dirty ip dirty } = t
  have hself : t.inode ip = i := by
    rw [← ht]
    exact Function.update_self _ _ _
  have hne : ∀ ip', ip' ≠ ip → t.inode ip' = s.inode ip' := fun ip' hip => by
    rw [← ht]
    exact Function.update_of_ne hip _ _
  have hsame : t.held = s.held ∧ t.disk = s.disk ∧ t.pc = Function.update s.pc p pc ∧
      t.dirty = Function.update s.dirty ip dirty := by
    rw [← ht]
    exact ⟨rfl, rfl, rfl, rfl⟩
  obtain ⟨hheld, hdisk, hpc, hdirty⟩ := hsame
  have hdo : ∀ ip', t.diskOf ip' = s.diskOf ip' := by
    intro ip'
    by_cases hip : ip' = ip
    · rw [hip, diskOf, diskOf, hself, hdisk, hi.2.1, hi.2.2]
    · rw [diskOf, diskOf, hne ip' hip, hdisk]
  have hlt : (t.inode ip).lock = some p := by rw [hself, hl]
  refine h.act hheld hne (by rw [hself]; exact hi)
    (fun ip' hip => by rw [hdirty, Function.update_of_ne hip]) (fun ip' _ _ => hdo ip') hpc huse hp hold
    (.inr hlt) (hok t hheld hlt) ?_
  rw [use_of_lock hlt, hdo, hself, hdirty, hpc, Function.update_self, Function.update_self]
  exact hentry

theorem Inv.hold (h : s.Inv) (hp : (p, ip) ∈ s.held)
    (hold : (s.inode ip).lock = none ∨ (s.inode ip).lock = some p) (hl : i.lock = some p)
    (hi : i.ref = (s.inode ip).ref ∧ i.dev = (s.inode ip).dev ∧ i.inum = (s.inode ip).inum)
    (huse : ∀ ip', ip' ≠ ip → pc.use ip' = (s.pc p).use ip')
    (hok : ∀ t : ITable, t.held = s.held → (t.inode ip).lock = some p → t.PcOk p pc)
    (hentry : EntryOk i (s.dirty ip) (s.diskOf ip) (pc.use ip)) :
    ((s.setInode ip i).setPc p pc).Inv := by
  have hc := h.change hp hold hl hi huse hok hentry
  rw [Function.update_eq_self] at hc
  exact hc

/-- Process `p` gives the lock of `ip` back. -/
theorem Inv.unlock (h : s.Inv) (hl : (s.inode ip).lock = some p)
    (huse : ∀ ip', ip' ≠ ip → pc.use ip' = (s.pc p).use ip')
    (hok : ∀ t : ITable, t.held = s.held → t.PcOk p pc)
    (hentry : (s.inode ip).valid = true → (s.inode ip).d = s.diskOf ip ∧ (s.diskOf ip).type ≠ 0) :
    ((s.setInode ip { s.inode ip with lock := none }).setPc p pc).Inv := by
  have hself : ((s.setInode ip { s.inode ip with lock := none }).setPc p pc).inode ip =
      { s.inode ip with lock := none } := Function.update_self _ _ _
  have hdisk : ∀ ip', ((s.setInode ip { s.inode ip with lock := none }).setPc p pc).diskOf ip' =
      s.diskOf ip' := by
    intro ip'
    by_cases hip : ip' = ip
    · rw [hip, diskOf, diskOf, hself]
      rfl
    · show s.disk (Function.update s.inode ip _ ip').dev (Function.update s.inode ip _ ip').inum = _
      rw [Function.update_of_ne hip]
      rfl
  refine h.act rfl (fun ip' hip => Function.update_of_ne hip _ _) (by rw [hself]; exact ⟨rfl, rfl, rfl⟩)
    (fun _ _ => rfl) (fun ip' _ _ => hdisk ip') rfl huse (h.locks.holder ip p hl) (.inr hl)
    (.inl (by rw [hself])) (hok _ rfl) ?_
  rw [hself, hdisk, use_of_unlocked (by rw [hself])]
  exact hentry

/-- The holder of `ip` writes it to disk. -/
theorem Inv.written {dirty : Bool} (h : s.Inv) (hl : (s.inode ip).lock = some p)
    (huse : ∀ ip', ip' ≠ ip → pc.use ip' = (s.pc p).use ip')
    (hok : ∀ t : ITable, t.held = s.held → (t.inode ip).lock = some p → t.PcOk p pc)
    (hentry : EntryOk (s.inode ip) dirty (s.inode ip).d (pc.use ip)) :
    Inv { (s.iupdate ip).setPc p pc with dirty := Function.update s.dirty ip dirty } := by
  have hp := h.locks.holder ip p hl
  generalize ht : { (s.iupdate ip).setPc p pc with dirty := Function.update s.dirty ip dirty } = t
  have hsame : t.held = s.held ∧ t.inode = s.inode ∧ t.pc = Function.update s.pc p pc ∧
      t.dirty = Function.update s.dirty ip dirty ∧ t.diskOf = (s.iupdate ip).diskOf := by
    rw [← ht]
    exact ⟨rfl, rfl, rfl, rfl, rfl⟩
  obtain ⟨hheld, hinode, hpc, hdirty, hdisk⟩ := hsame
  have hlt : (t.inode ip).lock = some p := by rw [hinode, hl]
  refine h.act hheld (fun ip' _ => by rw [hinode]) (by rw [hinode]; exact ⟨rfl, rfl, rfl⟩)
    (fun ip' hip => by rw [hdirty, Function.update_of_ne hip]) (fun ip' hip hpos => ?_) hpc huse hp
    (.inr hl) (.inr hlt) (hok t hheld hlt) ?_
  · rw [hdisk]
    exact h.refs.diskOf_iupdate_of_ne (h.refs.pos hp) hpos hip
  · rw [use_of_lock hlt, hdisk, diskOf_iupdate, hinode, hdirty, hpc, Function.update_self,
      Function.update_self]
    exact hentry

/-! ## Steps -/

/-- The places of a process that concern no other entry than `ip`. -/
theorem use_iput_of_ne {stage : Stage} (hip : ip' ≠ ip) : (Pc.iput ip stage).use ip' = .holding :=
  if_neg (Ne.symm hip)

theorem use_load_of_ne (hip : ip' ≠ ip) : (Pc.load ip).use ip' = .holding := if_neg (Ne.symm hip)

theorem use_iput_self {stage : Stage} : (Pc.iput ip stage).use ip = .freeing stage := if_pos rfl

theorem use_load_self : (Pc.load ip).use ip = .loading := if_pos rfl

/-- **`iput`**, up to where it releases the lock of the table. -/
theorem Inv.iput (h : s.Inv) (hpc : s.pc p = .idle) (hp : s.CanPut p ip) :
    ∃ t, s.iput p ip = .ok t ∧ t.Inv := by
  unfold ITable.iput
  dsimp only
  split_ifs with hfree hlock
  · obtain ⟨-, hvalid, -⟩ := hfree
    refine ⟨_, rfl, h.hold hp.mem (.inl hlock) rfl ⟨rfl, rfl, rfl⟩ (fun ip' hip => ?_)
      (fun t ht hl => ?_) ?_⟩
    · rw [use_iput_of_ne hip, hpc]
      rfl
    · exact ⟨by rw [ht]; exact hp.mem, fun _ => hl⟩
    · have hok := h.entry ip (h.refs.pos hp.mem)
      rw [use_of_unlocked hlock] at hok
      obtain ⟨hd, htype⟩ := hok hvalid
      rw [use_iput_self]
      exact ⟨hvalid, by rw [hd]; exact htype, htype⟩
  · exact absurd (h.last_unlocked hp hfree.1) hlock
  · exact ⟨_, rfl, h.drop hp.mem hpc hp.keeps⟩

/-- **The steps of `iput` that free an inode.** -/
theorem Inv.free {stage : Stage} {ninodes : UInt32} {r : Except Panic ITable} (h : s.Inv)
    (hpc : s.pc p = .iput ip stage) (hr : s.run ninodes p = some r) : ∃ t, r = .ok t ∧ t.Inv := by
  have hlocks := h.locks.pcs p
  rw [hpc] at hlocks
  obtain ⟨hp, hl⟩ := hlocks
  have hok := h.entry ip (h.refs.pos hp)
  have hothers : ∀ (stage' : Stage) (ip' : Fin NINODE), ip' ≠ ip →
      (Pc.iput ip stage').use ip' = (s.pc p).use ip' := by
    intro stage' ip' hip
    rw [hpc, use_iput_of_ne hip, use_iput_of_ne hip]
  have hpcok : ∀ (stage' : Stage) (t : ITable), t.held = s.held → (t.inode ip).lock = some p →
      t.PcOk p (.iput ip stage') := fun stage' t ht hl => ⟨by rw [ht]; exact hp, fun _ => hl⟩
  unfold ITable.run at hr
  rw [hpc] at hr
  cases stage with
  | trunc =>
    have hl := hl (by decide)
    rw [use_of_lock hl, hpc, use_iput_self] at hok
    cases hr
    refine ⟨_, rfl, h.hold hp (.inr hl) hl ⟨rfl, rfl, rfl⟩ (hothers _) (hpcok _) ?_⟩
    rw [use_iput_self]
    exact ⟨hok.1, hok.2.1, hok.2.2⟩
  | truncUpdate =>
    have hl := hl (by decide)
    rw [use_of_lock hl, hpc, use_iput_self] at hok
    cases hr
    have ht := @written s p ip (.iput ip .clear) (s.dirty ip) h hl (hothers _) (hpcok _) (by
      rw [use_iput_self]
      exact ⟨hok.1, hok.2.1⟩)
    rw [Function.update_eq_self] at ht
    exact ⟨_, rfl, ht⟩
  | clear =>
    have hl := hl (by decide)
    rw [use_of_lock hl, hpc, use_iput_self] at hok
    cases hr
    refine ⟨_, rfl, h.hold hp (.inr hl) hl ⟨rfl, rfl, rfl⟩ (hothers _) (hpcok _) ?_⟩
    rw [use_iput_self]
    exact ⟨hok.1, hok.2⟩
  | update =>
    have hl := hl (by decide)
    cases hr
    have ht := @written s p ip (.iput ip .invalidate) (s.dirty ip) h hl (hothers _) (hpcok _) (by
      rw [use_iput_self]
      exact trivial)
    rw [Function.update_eq_self] at ht
    exact ⟨_, rfl, ht⟩
  | invalidate =>
    have hl := hl (by decide)
    cases hr
    refine ⟨_, rfl, h.hold hp (.inr hl) hl ⟨rfl, rfl, rfl⟩ (hothers _) (hpcok _) ?_⟩
    rw [use_iput_self]
    rfl
  | unlock =>
    have hl := hl (by decide)
    rw [use_of_lock hl, hpc, use_iput_self] at hok
    cases hr
    refine ⟨_, rfl, h.unlock hl (hothers _) (fun t ht => ⟨by rw [ht]; exact hp, fun hs => ?_⟩)
      fun hv => ?_⟩
    · exact absurd rfl hs
    · rw [show (s.inode ip).valid = false from hok] at hv
      cases hv
  | put =>
    have hnl : (s.inode ip).lock ≠ some p := by
      intro hl
      rw [use_of_lock hl, hpc, use_iput_self] at hok
      exact hok
    cases hr
    refine ⟨_, rfl, ?_⟩
    have hidle : (s.setPc p .idle).Inv := by
      refine h.setPc (fun ip' hl' => ?_) trivial
      have hip : ip' ≠ ip := fun he => hnl (he ▸ hl')
      rw [hpc, use_iput_of_ne hip]
      rfl
    exact hidle.drop hp (Function.update_self _ _ _) fun hl => absurd hl hnl

/-- What a step does to the invariant; the panics are those of `iget`, and of `ilock` for an inode that
is free on disk. -/
def Good : Except Panic ITable → Prop
  | .ok t => t.Inv
  | .error m => m = "iget: no inodes" ∨ m = "ilock: no type"

theorem iget_error {m : Panic} (h : s.iget p dev inum = .error m) : m = "iget: no inodes" := by
  unfold ITable.iget at h
  split at h
  · cases h
  · split at h
    · cases h
      rfl
    · cases h

theorem Inv.run {ninodes : UInt32} {r : Except Panic ITable} (h : s.Inv)
    (hr : s.run ninodes p = some r) : Good r := by
  cases hpc : s.pc p with
  | idle =>
    unfold ITable.run at hr
    rw [hpc] at hr
    cases hr
  | ilock ip =>
    have hp := h.locks.pcs p
    rw [hpc] at hp
    unfold ITable.run at hr
    rw [hpc] at hr
    dsimp only at hr
    split_ifs at hr with hl
    cases hr
    refine h.hold hp (.inl hl) rfl ⟨rfl, rfl, rfl⟩ (fun ip' hip => ?_) (fun t _ hl => hl) ?_
    · rw [hpc, use_load_of_ne hip]
      rfl
    · have hok := h.entry ip (h.refs.pos hp)
      rw [use_of_unlocked hl] at hok
      rw [use_load_self]
      exact hok
  | load ip =>
    have hl := h.locks.pcs p
    rw [hpc] at hl
    have hl : (s.inode ip).lock = some p := hl
    have hp := h.locks.holder ip p hl
    have hok := h.entry ip (h.refs.pos hp)
    rw [use_of_lock hl, hpc, use_load_self] at hok
    have hothers : ∀ ip', ip' ≠ ip → Pc.idle.use ip' = (s.pc p).use ip' := fun ip' hip => by
      rw [hpc, use_load_of_ne hip]
      rfl
    unfold ITable.run at hr
    rw [hpc] at hr
    dsimp only at hr
    split_ifs at hr with hv htype
    · cases hr
      obtain ⟨hd, ht⟩ := hok hv
      have hc := @hold s p ip (s.inode ip) .idle h hp (.inr hl) hl ⟨rfl, rfl, rfl⟩ hothers
        (fun _ _ _ => trivial) ⟨hv, fun _ => hd, by rw [hd]; exact ht, ht⟩
      have hsame : s.setInode ip (s.inode ip) = s := by
        show { s with inode := Function.update s.inode ip (s.inode ip) } = s
        rw [Function.update_eq_self]
      rw [hsame] at hc
      exact hc
    · cases hr
      exact .inr rfl
    · cases hr
      exact h.hold hp (.inr hl) hl ⟨rfl, rfl, rfl⟩ hothers (fun _ _ _ => trivial)
        ⟨rfl, fun _ => rfl, htype, htype⟩
  | ialloc dev type inum =>
    unfold ITable.run at hr
    rw [hpc] at hr
    dsimp only at hr
    have htype := h.locks.pcs p
    rw [hpc] at htype
    split_ifs at hr with hin h0
    · cases hr
      refine (h.allocated h0 _).setPc (fun ip _ => ?_) trivial
      show _ = (s.pc p).use ip
      rw [hpc]
      rfl
    · cases hr
      refine h.setPc (fun ip _ => ?_) htype
      rw [hpc]
      rfl
    · cases hr
      refine h.setPc (fun ip _ => ?_) trivial
      rw [hpc]
      rfl
  | ialloced dev inum =>
    unfold ITable.run at hr
    rw [hpc] at hr
    cases hr
    cases hs : s.iget p dev inum with
    | error m => exact .inl (iget_error hs)
    | ok t =>
      obtain ⟨ht, htpc⟩ := h.iget hs
      refine ht.setPc (fun ip _ => ?_) trivial
      rw [htpc, hpc]
      rfl
  | iput ip stage =>
    obtain ⟨t, rfl, ht⟩ := h.free hpc hr
    exact ht

theorem setPc_idle (h : t.pc p = .idle) : t.setPc p .idle = t := by
  show { t with pc := Function.update t.pc p .idle } = t
  rw [← h, Function.update_eq_self]

/-- What the holder of a lock knows when it is in no call. -/
theorem Inv.holding (h : s.Inv) (hpc : s.pc p = .idle) (hl : (s.inode ip).lock = some p) :
    EntryOk (s.inode ip) (s.dirty ip) (s.diskOf ip) .holding := by
  have hok := h.entry ip (h.refs.pos (h.locks.holder ip p hl))
  rw [use_of_lock hl, hpc] at hok
  exact hok

/-- **Every step** keeps the invariant. -/
theorem Inv.step {ninodes : UInt32} {e : Op} {r : Except Panic ITable} (h : s.Inv)
    (hr : s.step ninodes e = some r) : Good r := by
  cases e with
  | iget p dev inum =>
    simp only [ITable.step] at hr
    split_ifs at hr
    cases hr
    cases hs : s.iget p dev inum with
    | error m => exact .inl (iget_error hs)
    | ok t => exact (h.iget hs).1
  | idup p ip =>
    simp only [ITable.step] at hr
    split_ifs at hr with hp
    cases hr
    exact h.addRef (h.refs.pos hp.2)
  | pass p q ip =>
    simp only [ITable.step] at hr
    split_ifs at hr with hp
    cases hr
    exact h.pass hp.2 hp.1
  | ilock p ip =>
    simp only [ITable.step] at hr
    split_ifs at hr with hp h1
    · have hpos := h.refs.pos hp.2
      omega
    · cases hr
      refine h.setPc (fun ip' _ => ?_) hp.2
      rw [hp.1]
      rfl
  | modify p ip d =>
    simp only [ITable.step] at hr
    split_ifs at hr with hp
    cases hr
    obtain ⟨hpc, hl, htype⟩ := hp
    obtain ⟨hv, -, ht, hdt⟩ := h.holding hpc hl
    have hc := @change s p ip { s.inode ip with d := d } .idle true h
      (h.locks.holder ip p hl) (.inr hl) hl ⟨rfl, rfl, rfl⟩ (fun _ _ => by rw [hpc])
      (fun _ _ _ => trivial) ⟨hv, fun he => (by cases he), by rw [htype]; exact ht, hdt⟩
    rw [setPc_idle (t := s.setInode ip { s.inode ip with d := d }) hpc] at hc
    exact hc
  | iupdate p ip =>
    simp only [ITable.step] at hr
    split_ifs at hr with hp
    cases hr
    obtain ⟨hpc, hl⟩ := hp
    obtain ⟨hv, -, ht, -⟩ := h.holding hpc hl
    have hw := @written s p ip .idle false h hl (fun _ _ => by rw [hpc])
      (fun _ _ _ => trivial) ⟨hv, fun _ => rfl, ht, ht⟩
    rw [setPc_idle (t := s.iupdate ip) hpc] at hw
    exact hw
  | iunlock p ip =>
    simp only [ITable.step] at hr
    split_ifs at hr with hp hpanic
    · have hpos := h.refs.pos (h.locks.holder ip p hp.2.1)
      rcases hpanic with hne | h1
      · exact absurd hp.2.1 hne
      · omega
    · cases hr
      obtain ⟨hpc, hl, hd⟩ := hp
      obtain ⟨-, hclean, -, ht⟩ := h.holding hpc hl
      have hu := @unlock s p ip .idle h hl (fun _ _ => by rw [hpc]) (fun _ _ => trivial)
        fun _ => ⟨hclean hd, ht⟩
      rw [setPc_idle (t := s.setInode ip { s.inode ip with lock := none }) hpc] at hu
      exact hu
  | iput p ip =>
    simp only [ITable.step] at hr
    split_ifs at hr with hp
    cases hr
    obtain ⟨t, ht, hinv⟩ := h.iput hp.1 hp.2
    rw [ht]
    exact hinv
  | ialloc p dev type =>
    simp only [ITable.step] at hr
    split_ifs at hr with hp
    cases hr
    refine h.setPc (fun ip _ => ?_) hp.2
    rw [hp.1]
    rfl
  | run p => exact h.run hr

/-- Entries in use stay with their inode. -/
def SameInodes (s t : ITable) : Prop :=
  ∀ ip, 0 < (s.inode ip).ref → (t.inode ip).dev = (s.inode ip).dev ∧ (t.inode ip).inum = (s.inode ip).inum

theorem SameInodes.of_eq (h : t.inode = s.inode) : SameInodes s t := fun ip _ => by
  rw [h]
  exact ⟨rfl, rfl⟩

theorem SameInodes.of_update (ht : t.inode = Function.update s.inode ip i)
    (hi : 0 < (s.inode ip).ref → i.dev = (s.inode ip).dev ∧ i.inum = (s.inode ip).inum) :
    SameInodes s t := by
  intro ip' hpos
  rw [ht]
  by_cases hip : ip' = ip
  · subst hip
    rw [Function.update_self]
    exact hi hpos
  · rw [Function.update_of_ne hip]
    exact ⟨rfl, rfl⟩

theorem same_iget (hs : s.iget p dev inum = .ok t) : SameInodes s t := by
  unfold ITable.iget at hs
  split at hs
  · cases hs
    exact .of_update rfl fun _ => ⟨rfl, rfl⟩
  · split at hs
    · cases hs
    · next ip hf =>
      cases hs
      have hip := List.find?_some hf
      rw [decide_eq_true_eq] at hip
      exact .of_update rfl fun hpos => absurd hip (Nat.ne_of_gt hpos)

theorem same_run {ninodes : UInt32} (hr : s.run ninodes p = some (.ok t)) : SameInodes s t := by
  unfold ITable.run at hr
  cases hpc : s.pc p with
  | idle => rw [hpc] at hr; cases hr
  | ilock ip =>
    rw [hpc] at hr
    dsimp only at hr
    split_ifs at hr
    cases hr
    exact .of_update rfl fun _ => ⟨rfl, rfl⟩
  | load ip =>
    rw [hpc] at hr
    dsimp only at hr
    split_ifs at hr
    · cases hr
      exact .of_eq rfl
    · cases hr
    · cases hr
      exact .of_update rfl fun _ => ⟨rfl, rfl⟩
  | ialloc dev type inum =>
    rw [hpc] at hr
    dsimp only at hr
    split_ifs at hr <;> cases hr <;> exact .of_eq rfl
  | ialloced dev inum =>
    rw [hpc] at hr
    cases hs : s.iget p dev inum with
    | error m => simp only [hs] at hr; cases hr
    | ok u =>
      simp only [hs] at hr
      cases hr
      have hu : SameInodes s u := same_iget hs
      exact hu
  | iput ip stage =>
    rw [hpc] at hr
    cases stage <;> cases hr <;>
      first | exact .of_eq rfl | exact .of_update rfl fun _ => ⟨rfl, rfl⟩

theorem same_iput (hs : s.iput p ip = .ok t) : SameInodes s t := by
  unfold ITable.iput at hs
  dsimp only at hs
  split_ifs at hs <;> cases hs <;> exact .of_update rfl fun _ => ⟨rfl, rfl⟩

theorem same_step {ninodes : UInt32} {e : Op} (hr : s.step ninodes e = some (.ok t)) :
    SameInodes s t := by
  cases e with
  | iget p dev inum =>
    simp only [ITable.step] at hr
    split_ifs at hr
    exact same_iget (Option.some.inj hr)
  | iput p ip =>
    simp only [ITable.step] at hr
    split_ifs at hr
    exact same_iput (Option.some.inj hr)
  | run p => exact same_run hr
  | idup p ip | modify p ip d =>
    simp only [ITable.step] at hr
    split_ifs at hr
    cases hr
    exact .of_update rfl fun _ => ⟨rfl, rfl⟩
  | iunlock p ip =>
    simp only [ITable.step] at hr
    split_ifs at hr
    · cases hr
    · cases hr
      exact .of_update rfl fun _ => ⟨rfl, rfl⟩
  | pass p q ip | iupdate p ip | ialloc p dev type =>
    simp only [ITable.step] at hr
    split_ifs at hr
    cases hr
    exact .of_eq rfl
  | ilock p ip =>
    simp only [ITable.step] at hr
    split_ifs at hr
    · cases hr
    · cases hr
      exact .of_eq rfl

/-- **The inode table never aliases.**  No two entries in use are for the same inode, an entry in use
stays with its inode, its count is that of the references to it, and an entry with contents that is not
locked has those of the inode on disk, which is not a free one. -/
theorem inodes_never_alias {ninodes : UInt32} {disk : UInt32 → UInt32 → dinode}
    (h : Runs.Steps (ITable.step ninodes) (fun _ _ => True) (iinit disk) s) :
    (∀ ip ip', 0 < (s.inode ip).ref → 0 < (s.inode ip').ref →
      (s.inode ip).dev = (s.inode ip').dev → (s.inode ip).inum = (s.inode ip').inum → ip = ip') ∧
    (∀ e t, s.step ninodes e = some (.ok t) → ∀ ip, 0 < (s.inode ip).ref →
      (t.inode ip).dev = (s.inode ip).dev ∧ (t.inode ip).inum = (s.inode ip).inum) ∧
    (∀ ip, (s.inode ip).ref = (s.held.map Prod.snd).count ip) ∧
    ∀ ip, (s.inode ip).lock = none → (s.inode ip).valid = true → 0 < (s.inode ip).ref →
      (s.inode ip).d = s.diskOf ip ∧ (s.diskOf ip).type ≠ 0 := by
  have hinv : s.Inv := h.invariant (I := Inv) (.init disk) fun s e t hs _ he => hs.step he
  refine ⟨hinv.refs.unique, fun e t he => same_step he, hinv.refs.count, fun ip hl hv hpos => ?_⟩
  have hok := hinv.entry ip hpos
  rw [use_of_unlocked hl] at hok
  exact hok hv

/-- Process 0 frees inode 1 while process 1 allocates it again. -/
theorem inodes_never_alias_run : ∃ s,
    Runs.Steps (ITable.step 2) (fun _ _ => True) (iinit fun _ _ => { dinode.zero with type := 2 }) s ∧
    ((s.inode 0).ref = 1 ∧ (s.diskOf 0).type = 3) ∧ (s.held.map Prod.snd).count 0 = 1 := by
  obtain ⟨s, hs, href, htype⟩ := Runs.Steps.of_any (P := fun _ _ => True)
    (Q := fun s : ITable => (s.inode 0).ref = 1 ∧ (s.diskOf 0).type = 3)
    ([.iget 0 0 1, .ilock 0 0, .run 0, .run 0, .iunlock 0 0, .iput 0 0, .run 0, .run 0, .run 0, .run 0,
      .ialloc 1 0 3, .run 1, .run 1, .run 0, .run 0, .run 0])
    (by decide +kernel : (Runs.exec (ITable.step 2) (fun _ _ => True)
      (iinit fun _ _ => { dinode.zero with type := 2 }) _).any _ = true)
  exact ⟨s, hs, ⟨href, htype⟩, ((inodes_never_alias hs).2.2.1 0).symm.trans href⟩

end Xv6.ITable
