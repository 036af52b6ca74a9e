import Xv6.Sync.Machine

/-!
# Deadlock — the order in which locks are taken

* `Lock.rank`: the spinlocks of users of `sleep` and `wait_lock` come first, then the process locks
  in the order of the table, then the locks under which no process lock is taken.
* `no_deadlock`: no CPUs wait in `acquire` for each other, and none takes a lock that it has.

`iput` takes a lock against this order, which nobody else can hold: the reference is the last one.
-/

namespace Xv6

variable {C : Type} [DecidableEq C]

/-- The order in which locks are taken. -/
def Lock.rank : Lock → ℕ
  | .wait_lock | .spin _ => 0
  | .proc i => i.val + 1
  | .itable => NPROC + 1
  | .leaf _ => NPROC + 2

theorem Lock.rank_lt {l l' : Lock} (h : l.level < l'.level) : l.rank < l'.rank := by
  have hproc : ∀ (i : Fin NPROC) (n : ℕ), i.val + 1 < NPROC + 1 + n := fun i n => by
    have := i.isLt
    omega
  cases l' with
  | wait_lock | spin => exact absurd h (Nat.not_lt_zero _)
  | proc j =>
    cases l with
    | wait_lock | spin => exact Nat.succ_pos _
    | proc | itable | leaf => exact absurd h (of_decide_eq_true rfl)
  | itable =>
    cases l with
    | wait_lock | spin => exact Nat.succ_pos _
    | proc i => exact hproc i 0
    | itable | leaf => exact absurd h (of_decide_eq_true rfl)
  | leaf =>
    cases l with
    | wait_lock | spin => exact Nat.succ_pos _
    | proc i => exact hproc i 1
    | itable => exact Nat.lt_succ_self _
    | leaf => exact absurd h (of_decide_eq_true rfl)

section

variable {me t : Option (Fin NPROC)} {noff : ℕ} {d : Data} {f : Frame} {ch : Choice} {l : Lock}
  {e : Eff} {gs : List Frame}

/-- **Locks are taken in order**, the sleep-lock of an inode in `iput` apart. -/
theorem code_order (hs : f.code me d ch = some (.acquire l, e, gs)) (hf : f.Of t) :
    (f.base ≤ l.level ∧ ∀ l' ∈ f.held, l'.rank < l.rank) ∨
      ∃ p n, f = .iputSleep p n ∧ l = .spin (.inode n) := by
  have hlevel : (f.base ≤ l.level ∧ ∀ l' ∈ f.held, l'.level < l.level) →
      f.base ≤ l.level ∧ ∀ l' ∈ f.held, l'.rank < l.rank :=
    fun h => ⟨h.1, fun l' hl' => Lock.rank_lt (h.2 l' hl')⟩
  cases f with
  | user p =>
    simp only [Frame.code, Frame.call] at hs
    repeat' split at hs
    all_goals cases hs
  | crit k h todo =>
    simp only [Frame.code, Frame.section_] at hs
    repeat' split at hs
    all_goals cases hs
  | scheduler j highest m =>
    simp only [Frame.code] at hs
    split at hs
    · rename_i i hi
      cases hs
      rw [slot_eq_some] at hi
      refine Or.inl ⟨Nat.zero_le _, fun l' hl' => ?_⟩
      obtain ⟨h, hh, rfl⟩ := List.mem_map.mp hl'
      have := hf.2 h (Option.mem_toList.mp hh)
      simp only [Lock.rank]
      omega
    · split at hs
      all_goals cases hs
  | sleep p x lk =>
    cases hs
    obtain ⟨rfl, -⟩ | ⟨k, n, rfl, -⟩ := hf.2
    all_goals exact Or.inl (hlevel (of_decide_eq_true rfl))
  | iputSleep p n =>
    cases hs
    exact Or.inr ⟨p, n, rfl, rfl⟩
  | _ =>
    simp only [Frame.code] at hs
    repeat' split at hs
    all_goals cases hs
    all_goals exact Or.inl (hlevel (of_decide_eq_true rfl))

end

/-! ## The last reference to an inode -/

/-- The inode whose sleep-lock has this spinlock. -/
def Spin.inode? : Spin → Option ℕ
  | .inode n => some n
  | _ => none

def Lock.inode? : Lock → Option ℕ
  | .spin k => k.inode?
  | _ => none

/-- The inode whose sleep-lock a frame is about. -/
def Frame.inode? : Frame → Option ℕ
  | enter k _ | crit k _ _ | regain _ k _ | test _ k _ | testing _ k _ _ | tested _ k _ => k.inode?
  | sleep _ _ l | sleeping _ _ l | unlock l => l.inode?
  | iput _ n | iputRef _ n | iputSleep _ n | iputLocked _ n => some n
  | _ => none

section

variable {me : Option (Fin NPROC)} {noff : ℕ} {d : Data} {f : Frame} {ch : Choice} {op : Op}
  {e : Eff} {gs : List Frame} {n : ℕ} {p : Fin NPROC}

theorem use_uses (q : Fin NPROC) (m : ℕ) (b : Bool) :
    (Eff.apply d (.use q m b)).uses p n = if p = q ∧ n = m then b else d.uses p n := by
  simp only [Eff.apply]
  by_cases hp : p = q
  · subst hp
    rw [Function.update_self, Function.update_apply]
    simp
  · rw [Function.update_of_ne hp]
    simp [hp]

theorem Frame.depth_inode (h : f.inode? = some n) : 1 ≤ f.depth := by
  cases f with
  | enter k b => cases b <;> exact of_decide_eq_true rfl
  | crit k b todo => cases b <;> exact of_decide_eq_true rfl
  | user | exit | reparent | exitLock | exitRel | scheduler | look | dispatched => cases h
  | _ => exact of_decide_eq_true rfl

/-- A frame that holds the lock of an inode is about that inode. -/
theorem Frame.inode_held (h : Lock.spin (.inode n) ∈ f.held) : f.inode? = some n := by
  have hl : ∀ l ∈ f.held, l.inode? = none ∨ f.inode? = l.inode? := by
    intro l hl
    cases f with
    | scheduler j highest m =>
      obtain ⟨i, -, rfl⟩ := List.mem_map.mp hl
      exact Or.inl rfl
    | look j highest m =>
      obtain rfl | hl := List.mem_cons.mp hl
      · exact Or.inl rfl
      · obtain ⟨i, -, rfl⟩ := List.mem_map.mp hl
        exact Or.inl rfl
    | unlock l' | sleep p x l' | crit k | test p k | tested p k =>
      rw [List.mem_singleton.mp hl]
      exact Or.inr rfl
    | sleeping p x l' | testing p k | iputLocked p m | waitLook | waitTested | exitRel =>
      simp only [Frame.held, List.mem_cons, List.not_mem_nil, or_false] at hl
      obtain rfl | rfl := hl
      all_goals simp [Lock.inode?, Frame.inode?, Spin.inode?]
    | _ =>
      simp [Frame.held] at hl
      all_goals simp [hl, Lock.inode?]
  obtain h' | h' := hl _ h
  · cases h'
  · exact h'

theorem call_inode (hs : Frame.call p d ch = some (op, e, gs)) :
    gs.Forall fun g => ∀ n, g.inode? = some n → d.uses p n = true := by
  unfold Frame.call at hs
  repeat' split at hs
  all_goals cases hs
  all_goals simp_all [Frame.inode?, Spin.inode?]

theorem code_inode (hs : f.code me d ch = some (op, e, gs)) (hf : ∀ p, f ≠ .user p) :
    gs.Forall fun g => ∀ n, g.inode? = some n → f.inode? = some n := by
  cases f with
  | user p => exact absurd rfl (hf p)
  | crit k h todo =>
    simp only [Frame.code, Frame.section_] at hs
    repeat' split at hs
    all_goals cases hs
    all_goals simp [Frame.inode?, Lock.inode?]
  | _ =>
    simp only [Frame.code] at hs
    repeat' split at hs
    all_goals cases hs
    all_goals simp [Frame.inode?, Lock.inode?, Spin.inode?]

/-- A thread deals with inodes that it has a reference to. -/
theorem step_inode (hs : f.step me noff d ch = some (op, e, gs)) {g : Frame} (hg : g ∈ gs)
    (hn : g.inode? = some n) : f.inode? = some n ∨ ∃ p, f = .user p ∧ d.uses p n = true := by
  obtain ⟨-, rfl, rfl, k, hk, rfl⟩ | ⟨-, rfl, rfl, p, -, rfl⟩ | hs := step_cases hs
  · rcases List.mem_cons.mp hg with rfl | hg
    · cases k with
      | inode m => cases hk
      | _ => cases hn
    · rw [List.mem_singleton.mp hg] at hn
      exact Or.inl hn
  · rcases List.mem_cons.mp hg with rfl | hg
    · cases hn
    · rw [List.mem_singleton.mp hg] at hn
      exact Or.inl hn
  · by_cases hf : ∃ p, f = .user p
    · obtain ⟨p, rfl⟩ := hf
      exact Or.inr ⟨p, rfl, List.forall_iff_forall_mem.mp (call_inode hs) g hg n hn⟩
    · exact Or.inl (List.forall_iff_forall_mem.mp (code_inode hs fun p hp => hf ⟨p, hp⟩) g hg n hn)

/-- `iput` takes the sleep-lock when nobody else has a reference. -/
theorem step_last (hs : f.step me noff d ch = some (op, e, gs)) (hg : .iputSleep p n ∈ gs) :
    f = .iputSleep p n ∨ e = .nop ∧ ∀ q, q ≠ p → d.uses q n = false := by
  obtain ⟨-, rfl, rfl, k, -, rfl⟩ | ⟨-, rfl, rfl, p', -, rfl⟩ | hs := step_cases hs
  · exact Or.inl (by simpa [eq_comm] using hg)
  · exact Or.inl (by simpa [eq_comm] using hg)
  · right
    cases f with
    | user p =>
      simp only [Frame.code, Frame.call] at hs
      repeat' split at hs
      all_goals cases hs
      all_goals simp at hg
    | crit k h todo =>
      simp only [Frame.code, Frame.section_] at hs
      repeat' split at hs
      all_goals cases hs
      all_goals simp at hg
    | iputRef p m =>
      simp only [Frame.code] at hs
      repeat' split at hs
      all_goals cases hs
      · simp at hg
      · simp only [List.mem_singleton, Frame.iputSleep.injEq] at hg
        obtain ⟨rfl, rfl⟩ := hg
        exact ⟨rfl, ‹_›⟩
    | _ =>
      simp only [Frame.code] at hs
      repeat' split at hs
      all_goals cases hs
      all_goals simp at hg

end

namespace Smp

variable {s t : Smp C} {c c' : C} {f f' : Frame} {fs : List Frame} {op : Op} {e : Eff}
  {gs : List Frame} {u : Ctx C} {p : Fin NPROC} {n : ℕ}

/-- References to inodes: a thread that deals with one has one, and `iput` with the sleep-lock has
the last. -/
structure UsesOk (s : Smp C) : Prop where
  uses : ∀ u, ∀ f ∈ s.stack u, ∀ n, f.inode? = some n → ∃ p, u = .proc p ∧ s.data.uses p n = true
  last : ∀ u p n, .iputSleep p n ∈ s.stack u → ∀ q, q ≠ p → s.data.uses q n = false

omit [DecidableEq C] in
theorem UsesOk.boot : UsesOk (boot : Smp C) := by
  refine ⟨fun u f hf n hn => ?_, fun u p n hf => ?_⟩
  · obtain ⟨-, rfl⟩ | ⟨p, -, ⟨b, rfl⟩ | rfl⟩ := boot_frames hf
    all_goals cases hn
  · obtain ⟨-, h⟩ | ⟨p, -, ⟨b, h⟩ | h⟩ := boot_frames hf
    all_goals cases h

section

variable (hu : UsesOk s) (hs : Ok s) (ht : Turn s t c f fs op e gs)
include hs ht

/-- A reference that a stack relies on is not given up. -/
theorem Ok.uses_stays (hf' : f' ∈ gs ∧ u = s.cur c ∨ f' ∈ fs ∧ u = s.cur c ∨
    f' ∈ s.stack u ∧ u ≠ s.cur c) (hn : f'.inode? = some n) (hp : u = .proc p)
    (hup : s.data.uses p n = true) : t.data.uses p n = true := by
  rw [ht.data]
  obtain ⟨ch, hstep⟩ := ht.step
  have hfrom := (step_from hstep).1
  have hof := hs.top_of ht
  have hdepth := Frame.depth_inode hn
  cases e with
  | use q m b =>
    by_cases hq : p = q ∧ n = m
    · obtain ⟨rfl, rfl⟩ := hq
      obtain ⟨rfl, -⟩ | ⟨rfl, rfl, -, rfl⟩ | ⟨rfl, rfl, -, rfl⟩ := hfrom
      · rw [use_uses, if_pos ⟨rfl, rfl⟩]
      · have hcur := Ctx.eq_proc hof
        obtain ⟨hf', -⟩ | ⟨hf', -⟩ | ⟨-, hne⟩ := hf'
        · rw [List.mem_singleton.mp hf'] at hn
          cases hn
        · have := hs.below_shallow ht (Nat.zero_le _) hf'
          omega
        · exact absurd (hp.trans hcur.symm) hne
      · have hcur := Ctx.eq_proc hof
        obtain ⟨hf', -⟩ | ⟨hf', -⟩ | ⟨-, hne⟩ := hf'
        · cases hf'
        · have := hs.below_shallow ht (Nat.le_refl _) hf'
          omega
        · exact absurd (hp.trans hcur.symm) hne
    · rw [use_uses, if_neg hq]
      exact hup
  | inherit i j =>
    obtain ⟨rfl, -⟩ := hfrom
    have hused : (s.data.proc j).state = .USED := hs.top_tells ht
    have hpj : p ≠ j := by
      rintro rfl
      obtain ⟨-, huc⟩ | ⟨-, huc⟩ | ⟨hf', -⟩ := hf'
      · exact hs.used_idle hused c (huc.symm.trans hp)
      · exact hs.used_idle hused c (huc.symm.trans hp)
      · rw [hp] at hf'
        obtain ⟨b, hb | hb⟩ := hs.fresh p (Or.inr hused)
        all_goals
          rw [hb] at hf'
          simp only [List.mem_cons, List.not_mem_nil, or_false] at hf'
        · rw [hf'] at hn
          cases hn
        · obtain rfl | rfl := hf'
          all_goals cases hn
    simpa [Eff.apply, Function.update_of_ne hpj] using hup
  | wakeup i x =>
    simp only [Eff.apply]
    split_ifs
    all_goals exact hup
  | _ => exact hup

include hu

/-- Nobody gets a reference to an inode while `iput` holds the last one. -/
theorem UsesOk.last_stays (hf' : .iputSleep p n ∈ s.stack u) (hfs : u = s.cur c → .iputSleep p n ∈ fs)
    {q : Fin NPROC} (hq : q ≠ p) : t.data.uses q n = false := by
  have hold := hu.last u p n hf'
  have hup : u = .proc p := Ctx.eq_proc (hs.own u _ hf')
  rw [ht.data]
  obtain ⟨ch, hstep⟩ := ht.step
  have hfrom := (step_from hstep).1
  have hof := hs.top_of ht
  cases e with
  | use q' m b =>
    obtain ⟨rfl, rfl, rfl, rfl⟩ | ⟨rfl, -⟩ | ⟨rfl, -⟩ := hfrom
    · obtain ⟨c', hc'⟩ | ⟨_, _, h⟩ | ⟨_, h⟩ := hs.holder hf' (List.mem_singleton.mpr rfl)
      · have hfree : s.lock .itable = none := ht.does.1
        refine absurd ?_ (hs.agrees.free hfree c')
        show .itable ∈ locks (s.stack (s.cur c'))
        rw [hc']
        exact mem_locks hf' (List.mem_singleton.mpr rfl)
      · cases h
      · cases h
    all_goals
      rw [use_uses]
      split_ifs
      · rfl
      · exact hold q hq
  | inherit i j =>
    obtain ⟨rfl, -⟩ := hfrom
    have hip : i ≠ p := by
      rintro rfl
      have := hs.below_shallow ht (Nat.le_refl _) (hfs (hup.trans (Ctx.eq_proc hof).symm))
      cases this
    simp only [Eff.apply, Function.update_apply]
    split_ifs with h1
    · exact hold i hip
    · exact hold q hq
  | wakeup i x =>
    simp only [Eff.apply]
    split_ifs
    all_goals exact hold q hq
  | _ => exact hold q hq

theorem UsesOk.turn : UsesOk t := by
  obtain ⟨ch, hstep⟩ := ht.step
  refine ⟨fun u f' hf' n hn => ?_, fun u p n hf' q hq => ?_⟩
  · obtain ⟨hne, hf'⟩ | ⟨rfl, hf' | hf'⟩ | ⟨i, -, rfl, rfl | rfl⟩ := ht.mem_stack hf'
    · obtain ⟨p, hp, hup⟩ := hu.uses u f' hf' n hn
      exact ⟨p, hp, hs.uses_stays ht (Or.inr (Or.inr ⟨hf', hne⟩)) hn hp hup⟩
    · have : ∃ p, s.cur c = .proc p ∧ s.data.uses p n = true := by
        obtain hfn | ⟨p, rfl, hup⟩ := step_inode hstep hf' hn
        · exact hu.uses _ f (by rw [ht.top]; exact List.mem_cons_self ..) n hfn
        · exact ⟨p, Ctx.eq_proc (hs.top_of ht), hup⟩
      obtain ⟨p, hp, hup⟩ := this
      exact ⟨p, hp, hs.uses_stays ht (Or.inl ⟨hf', rfl⟩) hn hp hup⟩
    · obtain ⟨p, hp, hup⟩ := hu.uses _ f' (by rw [ht.top]; exact List.mem_cons_of_mem _ hf') n hn
      exact ⟨p, hp, hs.uses_stays ht (Or.inr (Or.inl ⟨hf', rfl⟩)) hn hp hup⟩
    · cases hn
    · cases hn
  · obtain ⟨hne, hf'⟩ | ⟨rfl, hf' | hf'⟩ | ⟨i, -, -, h | h⟩ := ht.mem_stack hf'
    · exact hu.last_stays hs ht hf' (fun h => absurd h hne) hq
    · obtain rfl | ⟨rfl, hlast⟩ := step_last hstep hf'
      · obtain ⟨hz, -⟩ | ⟨hz, -⟩ | hcode := step_cases hstep
        · have := hs.noff_zero ht hz
          simp [Frame.held] at this
        · have := hs.noff_zero ht hz
          simp [Frame.held] at this
        · cases hcode
          simp at hf'
      · rw [ht.data]
        exact hlast q hq
    · exact hu.last_stays hs ht (by rw [ht.top]; exact List.mem_cons_of_mem _ hf') (fun _ => hf') hq
    · cases h
    · cases h

end

theorem Reach.usesOk (h : Reach s) : UsesOk s :=
  h.invariant UsesOk.boot UsesOk.turn

/-! ## No deadlock -/

/-- CPU `c` is at a call of `acquire(l)`. -/
def Acquires (s : Smp C) (c : C) (l : Lock) : Prop :=
  ∃ f fs ch e gs, s.stack (s.cur c) = f :: fs ∧
    f.step (s.cpuproc c) (s.noff c) s.data ch = some (.acquire l, e, gs)

omit [DecidableEq C] in
/-- A CPU waits for a lock of a higher rank than its own. -/
theorem Ok.acquires_rank (hs : Ok s) (hu : UsesOk s) {l l' : Lock} (ha : Acquires s c l)
    (hl : s.lock l = some c') (hl' : s.lock l' = some c) : l'.rank < l.rank := by
  obtain ⟨f, fs, ch, e, gs, htop, hstep⟩ := ha
  have hmem : f ∈ s.stack (s.cur c) := by
    rw [htop]
    exact List.mem_cons_self ..
  have hof := hs.own _ f hmem
  have hn := hs.nest (s.cur c)
  rw [htop, List.pairwise_cons] at hn
  rw [hs.agrees.iff] at hl hl'
  obtain ⟨-, h, -⟩ | ⟨-, h, -⟩ | hcode := step_cases hstep
  · cases h
  · cases h
  · obtain ⟨hbase, hheld⟩ | ⟨p, n, rfl, rfl⟩ := code_order hcode hof
    · unfold held at hl'
      rw [htop, locks_cons, List.mem_append] at hl'
      obtain hl' | hl' := hl'
      · exact hheld l' hl'
      · obtain ⟨g, hg, hlg⟩ := List.mem_flatMap.mp hl'
        exact Lock.rank_lt (Nat.lt_of_lt_of_le ((hn.1 g hg).2 l' hlg) hbase)
    · -- the last reference: the holder would be this process, which does not hold it
      exfalso
      obtain ⟨g, hg, hlg⟩ := List.mem_flatMap.mp hl
      obtain ⟨q, hq, huq⟩ := hu.uses _ g hg n (Frame.inode_held hlg)
      have hqp : q = p := by
        by_contra hne
        rw [hu.last _ p n hmem q hne] at huq
        cases huq
      subst hqp
      have hcc := hs.one c' c q hq (Ctx.eq_proc hof)
      subst hcc
      rw [htop] at hg
      obtain rfl | hg := List.mem_cons.mp hg
      · simp [Frame.held] at hlg
      · have h0 := (hn.1 g hg).1 (Nat.le_refl 1)
        have h1 := Frame.depth_inode (Frame.inode_held hlg)
        have h2 : (Frame.iputSleep q n).depth = 1 := rfl
        omega

/-- **Holding two process locks cannot deadlock**: in every reachable state no CPU waits for itself
in `acquire`, directly or through others, and none is about to acquire a lock that it holds. -/
theorem no_deadlock (hr : Reach s) :
    (∀ c, ¬ Relation.TransGen (SpinLock.Waits s.lock (Acquires s)) c c) ∧
    ∀ c l, Acquires s c l → s.lock l ≠ some c := by
  have hcycle : ∀ c, ¬ Relation.TransGen (SpinLock.Waits s.lock (Acquires s)) c c := fun _ =>
    SpinLock.no_cycle Lock.rank fun _ _ _ _ ha hl hl' => hr.ok.acquires_rank hr.usesOk ha hl hl'
  exact ⟨hcycle, fun c l ha hl => hcycle c (Relation.TransGen.single ⟨l, ha, hl⟩)⟩

/-- A CPU keeps the lock of its candidate while it takes the lock of the next entry. -/
theorem no_deadlock_candidate : ∃ s : Smp (Fin 2), Reach s ∧ s.lock (.proc initproc) = some 0 ∧
    s.lock (.proc 1) = some 0 ∧
    (∀ c, ¬ Relation.TransGen (SpinLock.Waits s.lock (Acquires s)) c c) ∧
    ∀ c l, Acquires s c l → s.lock l ≠ some c := by
  have hrun : ∃ s : Smp (Fin 2), Reach s ∧ s.lock (.proc initproc) = some 0 ∧
      s.lock (.proc 1) = some 0 :=
    Runs.Steps.of_any (go 0 3) (by decide +kernel)
  obtain ⟨s, hr, h0, h1⟩ := hrun
  exact ⟨s, hr, h0, h1, no_deadlock hr⟩

end Smp

end Xv6
