import Xv6.Sync.Turn

/-!
# Machine — what holds in every state of the machine

* `Smp.Ok`: locks and the frames that hold them agree, a process is on one CPU at most, and what
  the frames tell of the processes they are about.
* `Smp.Ok.turn`, `Smp.Reach.ok`: every step keeps `Ok`, and it holds in every reachable state.
-/

namespace Xv6

variable {C : Type} [DecidableEq C]

/-- The stack of a slot without a process that has run. -/
def Dormant (p : Fin NPROC) (stk : List Frame) : Prop :=
  ∃ b, stk = [.back p b] ∨ stk = [.back p b, .user p]

namespace Smp

/-- The locks that CPU `c` holds. -/
def held (s : Smp C) (c : C) : List Lock := locks (s.stack (s.cur c))

structure Ok (s : Smp C) : Prop where
  agrees : SpinLock.Agrees s.lock s.held
  noff : ∀ c, s.noff c = (s.held c).length
  idle : ∀ c c', s.cur c = .cpu c' → c' = c ∧ s.cpuproc c = none
  busy : ∀ c p, s.cur c = .proc p → s.cpuproc c = some p ∧ s.stack (.cpu c) = [.dispatched p]
  one : ∀ c c' p, s.cur c = .proc p → s.cur c' = .proc p → c = c'
  parked : ∀ p, (∀ c, s.cur c ≠ .proc p) →
    ∃ b fs, s.stack (.proc p) = .back p b :: fs ∧ locks fs = []
  own : ∀ u, ∀ f ∈ s.stack u, f.Of u.self
  nest : ∀ u, (s.stack u).Pairwise Frame.Over
  tells : ∀ u, ∀ f ∈ s.stack u, f.Tells s.data
  running : ∀ c p, s.cur c = .proc p → (s.data.proc p).state = .RUNNING ∨
    ∃ f fs, s.stack (.proc p) = f :: fs ∧ f.leaving = true
  onCpu : ∀ p, (s.data.proc p).state = .RUNNING → ∃ c, s.cur c = .proc p
  fresh : ∀ p, (s.data.proc p).state = .UNUSED ∨ (s.data.proc p).state = .USED →
    Dormant p (s.stack (.proc p))
  zombie : ∀ p, (s.data.proc p).state = .ZOMBIE → s.stack (.proc p) = [.exitRel p] ∨
    s.stack (.proc p) = [.swtch p .exited] ∨ s.stack (.proc p) = [.back p .exited]
  children : ∀ u u' f f' i, f ∈ s.stack u → f' ∈ s.stack u' → f.child = some i →
    f'.child = some i → u = u'

variable {s t : Smp C} {c c' : C} {f f' : Frame} {fs : List Frame} {op : Op} {e : Eff}
  {gs stk : List Frame} {u : Ctx C} {p i : Fin NPROC} {l : Lock}

section

variable (hs : Ok s)
include hs

omit [DecidableEq C] in
theorem Ok.self_eq (c : C) : s.cpuproc c = (s.cur c).self := by
  cases hc : s.cur c with
  | cpu c' => rw [(hs.idle c c' hc).2]; rfl
  | proc p => rw [(hs.busy c p hc).1]; rfl

omit [DecidableEq C] in
/-- A frame that holds a lock is on the stack of a CPU that runs, or was left by `swtch`. -/
theorem Ok.holder (hf : f ∈ s.stack u) (hl : l ∈ f.held) :
    (∃ c, s.cur c = u) ∨ (∃ p b, f = .back p b) ∨ ∃ p, f = .dispatched p := by
  by_cases hu : ∃ c, s.cur c = u
  · exact Or.inl hu
  · cases u with
    | cpu c =>
      cases hc : s.cur c with
      | cpu c' =>
        obtain ⟨rfl, -⟩ := hs.idle c c' hc
        exact absurd ⟨_, hc⟩ hu
      | proc p =>
        rw [(hs.busy c p hc).2] at hf
        exact Or.inr (Or.inr ⟨p, List.mem_singleton.mp hf⟩)
    | proc p =>
      obtain ⟨b, fs, hstk, hfs⟩ := hs.parked p fun c hc => hu ⟨c, hc⟩
      rw [hstk] at hf
      rcases List.mem_cons.mp hf with rfl | hf
      · exact Or.inr (Or.inl ⟨p, b, rfl⟩)
      · have := mem_locks hf hl
        rw [hfs] at this
        cases this

/-- A process whose lock a CPU holds is not changed by another CPU. -/
theorem Ok.exclusive (ht : Turn s t c f fs op e gs) (hl : l ∈ s.held c') (hc : c' ≠ c) :
    l ∉ e.guards := by
  intro hg
  obtain ⟨ch, hstep⟩ := ht.step
  obtain hf | rfl := step_guards hstep l hg
  · refine hc (hs.agrees.exclusive hl ?_)
    show l ∈ locks (s.stack (s.cur c))
    rw [ht.top]
    exact mem_locks (List.mem_cons_self ..) hf
  · have hfree : s.lock l = none := ht.does.1
    exact hs.agrees.free hfree c' hl

omit [DecidableEq C] in
theorem Ok.cur_ne (hc : c' ≠ c) : s.cur c' ≠ s.cur c := by
  intro he
  cases hcur : s.cur c with
  | cpu d =>
    rw [hcur] at he
    exact hc ((hs.idle c' d he).1.symm.trans (hs.idle c d hcur).1)
  | proc p => exact hc (hs.one c' c p (he.trans hcur) hcur)

omit [DecidableEq C] in
/-- Nobody is about to make a process of a slot that is free and not locked. -/
theorem Ok.no_child (hi : (s.data.proc i).state = .UNUSED) (hl : s.lock (.proc i) = none)
    (hf : f' ∈ s.stack u) : f'.child ≠ some i := by
  intro hc
  have htells := hs.tells u f' hf
  cases f' with
  | allocpid p np =>
    cases hc
    obtain ⟨c', hc'⟩ | ⟨p, b, hb⟩ | ⟨p, hd⟩ := hs.holder hf (List.mem_singleton.mpr rfl)
    · refine hs.agrees.free hl c' ?_
      show .proc i ∈ locks (s.stack (s.cur c'))
      rw [hc']
      exact mem_locks hf (List.mem_singleton.mpr rfl)
    · cases hb
    · cases hd
  | allocContext p np | fork p np | forkParent p np | forkRun p np =>
    cases hc
    rw [show (s.data.proc i).state = _ from htells] at hi
    cases hi
  | _ => cases hc

omit [DecidableEq C] in
/-- On no CPU: a process that `fork` is making. -/
theorem Ok.used_idle (hp : (s.data.proc p).state = .USED) (c : C) : s.cur c ≠ .proc p := by
  intro hc
  obtain ⟨b, hb⟩ := hs.fresh p (Or.inr hp)
  obtain hr | ⟨f, fs, hstk, hf⟩ := hs.running c p hc
  · rw [hp] at hr
    cases hr
  · obtain hb | hb := hb
    all_goals rw [hb] at hstk
    all_goals cases hstk
    all_goals cases hf

omit [DecidableEq C] in
/-- On no CPU: a `RUNNABLE` process whose lock CPU `c` holds. -/
theorem Ok.runnable_idle (hp : (s.data.proc p).state = .RUNNABLE) (hl : .proc p ∈ s.held c)
    (hc : s.cur c ≠ .proc p) (c' : C) : s.cur c' ≠ .proc p := by
  intro hc'
  obtain hr | ⟨f, fs, hstk, hf⟩ := hs.running c' p hc'
  · rw [hp] at hr
    cases hr
  · have hof : f.Of (some p) := hs.own (.proc p) f (by rw [hstk]; exact List.mem_cons_self ..)
    have hm : .proc p ∈ s.held c' := by
      show .proc p ∈ locks (s.stack (s.cur c'))
      rw [hc', hstk]
      refine mem_locks (List.mem_cons_self ..) ?_
      cases f with
      | swtch q b =>
        cases hof
        simp [Frame.held]
      | exitRel q =>
        cases hof
        simp [Frame.held]
      | _ => cases hf
    have := hs.agrees.exclusive hl hm
    subst this
    exact hc hc'

section

variable (ht : Turn s t c f fs op e gs)
include ht

theorem Ok.top_of : f.Of (s.cur c).self :=
  hs.own _ _ (by rw [ht.top]; exact List.mem_cons_self ..)

theorem Ok.top_tells : f.Tells s.data :=
  hs.tells _ _ (by rw [ht.top]; exact List.mem_cons_self ..)

theorem Ok.noff_zero (h0 : s.noff c = 0) : locks (f :: fs) = [] := by
  rw [hs.noff c] at h0
  have : s.held c = [] := List.length_eq_zero_iff.mp h0
  unfold held at this
  rwa [ht.top] at this

/-- Nothing stands below a frame of depth 0. -/
theorem Ok.bottom (hf : f.depth = 0) : fs = [] := by
  have hn := hs.nest (s.cur c)
  rw [ht.top, List.pairwise_cons] at hn
  cases fs with
  | nil => rfl
  | cons g gs =>
    have := (hn.1 g (List.mem_cons_self ..)).1 (by omega)
    omega

/-- A lock of the frame that steps is not held below it. -/
theorem Ok.held_once (hf : l ∈ f.held) : l ∉ locks fs := by
  intro hl
  have hnd := hs.agrees.nodup c
  unfold held at hnd
  rw [ht.top, locks_cons] at hnd
  exact (List.nodup_append.mp hnd).2.2 _ hf _ hl rfl

/-- Nothing but `user` stands below a call. -/
theorem Ok.below_shallow (hf : f.depth ≤ 1) (hg : f' ∈ fs) : f'.depth = 0 := by
  have hn := hs.nest (s.cur c)
  rw [ht.top, List.pairwise_cons] at hn
  have := (hn.1 f' hg).1 hf
  omega

/-- The process on the CPU is `RUNNING` until it leaves. -/
theorem Ok.state_running (hp : s.cur c = .proc p) (hf : f.leaving = false) :
    (s.data.proc p).state = .RUNNING := by
  obtain hr | ⟨g, gs', hstk, hg⟩ := hs.running c p hp
  · exact hr
  · rw [← hp, ht.top] at hstk
    cases hstk
    rw [hf] at hg
    cases hg

/-- **The state in which an effect finds its process.** -/
theorem Ok.pre : e.Pre s.data := by
  obtain ⟨ch, hstep⟩ := ht.step
  have hfrom := (step_from hstep).1
  have hof := hs.top_of ht
  have htells := hs.top_tells ht
  cases e with
  | run i =>
    obtain ⟨-, -, j, m, rfl⟩ := hfrom
    exact htells i rfl
  | yield i =>
    obtain ⟨rfl, -⟩ := hfrom
    exact hs.state_running ht (Ctx.eq_proc hof) rfl
  | sleep i x =>
    obtain ⟨lk, rfl, -⟩ := hfrom
    exact hs.state_running ht (Ctx.eq_proc hof.1) rfl
  | exit i status =>
    obtain ⟨rfl, -⟩ := hfrom
    exact hs.state_running ht (Ctx.eq_proc hof.1) rfl
  | alloc i =>
    obtain ⟨p, rfl, -⟩ := hfrom
    exact htells
  | start j =>
    obtain ⟨p, rfl, -⟩ := hfrom
    exact htells
  | free j =>
    obtain ⟨p, rfl, -⟩ := hfrom
    exact htells
  | reap i j =>
    obtain ⟨x, rfl, hz, -⟩ := hfrom
    exact hz
  | _ => trivial

/-- The effects that take a process off the CPU are its own. -/
theorem Ok.own_eff (he : e = .yield p ∨ (∃ x, e = .sleep p x) ∨ ∃ status, e = .exit p status) :
    s.cur c = .proc p ∧ ∃ g, gs = [g] ∧ g.leaving = true := by
  obtain ⟨ch, hstep⟩ := ht.step
  have hfrom := (step_from hstep).1
  have hof := hs.top_of ht
  obtain rfl | ⟨x, rfl⟩ | ⟨status, rfl⟩ := he
  · obtain ⟨rfl, -, rfl⟩ := hfrom
    exact ⟨Ctx.eq_proc hof, _, rfl, rfl⟩
  · obtain ⟨lk, rfl, -, rfl⟩ := hfrom
    exact ⟨Ctx.eq_proc hof.1, _, rfl, rfl⟩
  · obtain ⟨rfl, -, rfl⟩ := hfrom
    exact ⟨Ctx.eq_proc hof.1, _, rfl, rfl⟩

/-- A step into a process. -/
theorem Ok.resume (ho : op = .resume i) : s.cur c = .cpu c ∧ (s.data.proc i).state = .RUNNABLE ∧
    (∀ c', s.cur c' ≠ .proc i) ∧ fs = [] ∧ s.held c = [.proc i] ∧ e = .run i ∧
    gs = [.dispatched i] := by
  subst ho
  obtain ⟨ch, hstep⟩ := ht.step
  obtain ⟨hfrom, he⟩ := step_from hstep
  have he' : e = .run i := he
  subst he'
  obtain ⟨-, rfl, j, m, rfl⟩ := hfrom
  have hof := hs.top_of ht
  have hfs : fs = [] := hs.bottom ht rfl
  have hheld : s.held c = [.proc i] := by
    unfold held
    rw [ht.top, hfs]
    rfl
  have hcur : s.cur c = .cpu c := by
    cases hc : s.cur c with
    | cpu c' => rw [(hs.idle c c' hc).1]
    | proc p =>
      rw [hc] at hof
      cases hof.1
  have hst : (s.data.proc i).state = .RUNNABLE := hs.pre ht
  refine ⟨hcur, hst, hs.runnable_idle (c := c) hst ?_ ?_, hfs, hheld, rfl, rfl⟩
  · rw [hheld]
    exact List.mem_singleton.mpr rfl
  · rw [hcur]
    exact fun hc => by cases hc

/-- A step out of a process. -/
theorem Ok.sched (ho : op = .sched p) : s.cur c = .proc p ∧ s.held c = [.proc p] ∧ locks fs = [] ∧
    e = .nop ∧ ∃ b, f = .swtch p b ∧ gs = [.back p b] := by
  subst ho
  obtain ⟨ch, hstep⟩ := ht.step
  obtain ⟨-, rfl, b, rfl, rfl⟩ := step_from hstep
  have hlen : s.noff c = 1 := ht.does.2.1
  rw [hs.noff c] at hlen
  have hheld : s.held c = .proc p :: locks fs := by
    unfold held
    rw [ht.top]
    rfl
  have hfs : locks fs = [] := by
    rw [hheld, List.length_cons] at hlen
    exact List.length_eq_zero_iff.mp (by omega)
  rw [hfs] at hheld
  exact ⟨Ctx.eq_proc (hs.top_of ht), hheld, hfs, rfl, b, rfl, rfl⟩

/-- A step that makes the context of a new process. -/
theorem Ok.context (ho : op = .context i) : (s.data.proc i).state = .USED ∧
    (∀ c', s.cur c' ≠ .proc i) ∧ e = .nop ∧ ∃ p, f = .allocContext p i ∧ gs = [.fork p i] := by
  subst ho
  obtain ⟨ch, hstep⟩ := ht.step
  obtain ⟨-, rfl, p, rfl, rfl⟩ := step_from hstep
  have hst : (s.data.proc i).state = .USED := hs.top_tells ht
  exact ⟨hst, hs.used_idle hst, rfl, p, rfl, rfl⟩

/-- The stack of another CPU. -/
theorem Ok.stack_other (hc : c' ≠ c) : t.stack (s.cur c') = s.stack (s.cur c') := by
  obtain ⟨-, -, h⟩ | ⟨h, -⟩ | ⟨i, ho, h, -⟩ := ht.stack_cases (s.cur c')
  · exact h
  · exact absurd h (hs.cur_ne hc)
  · exact absurd h ((hs.context ht ho).2.1 c')

/-- The stack of the CPU, unless it comes from the scheduler. -/
theorem Ok.stack_own : t.stack (s.cur c) = gs ++ fs := by
  obtain ⟨h, -⟩ | ⟨-, -, h⟩ | ⟨i, ho, h, -⟩ := ht.stack_cases (s.cur c)
  · exact absurd rfl h
  · exact h
  · exact absurd h ((hs.context ht ho).2.1 c)

/-! ### What other processes see -/

/-- What is locked below the frame that steps is not written. -/
theorem Ok.guard_below (hl : l ∈ locks fs) : l ∉ e.guards := by
  intro hg
  obtain ⟨ch, hstep⟩ := ht.step
  obtain hf | rfl := step_guards hstep _ hg
  · exact hs.held_once ht hf hl
  · have hfree : s.lock l = none := ht.does.1
    refine hs.agrees.free hfree c ?_
    unfold held
    rw [ht.top, locks_cons]
    exact List.mem_append_right _ hl

/-- What a frame that stays has locked is not written. -/
theorem Ok.guard_stays (hf : f' ∈ s.stack u) (hu : u = s.cur c → f' ∈ fs) (hl : l ∈ f'.held)
    (hb : ∀ p b, f' ≠ .back p b) (hd : ∀ p, f' ≠ .dispatched p) : l ∉ e.guards := by
  by_cases huc : u = s.cur c
  · exact hs.guard_below ht (mem_locks (hu huc) hl)
  · obtain ⟨c', hc'⟩ | ⟨p, b, rfl⟩ | ⟨p, rfl⟩ := hs.holder hf hl
    · have hne : c' ≠ c := fun h => huc (h ▸ hc'.symm)
      refine hs.exclusive ht ?_ hne
      show l ∈ locks (s.stack (s.cur c'))
      rw [hc']
      exact mem_locks hf hl
    · exact absurd rfl (hb p b)
    · exact absurd rfl (hd p)

/-- The transition of a process in this step. -/
theorem Ok.trans (i : Fin NPROC) : e.Trans i (s.data.proc i).state (t.data.proc i).state := by
  rw [ht.data]
  exact apply_trans (hs.pre ht) i

/-- The slot of a child is `USED` until its own `fork` changes that. -/
theorem Ok.used_stays (hi : (s.data.proc i).state = .USED) (hf : f.child ≠ some i) :
    (t.data.proc i).state = .USED := by
  obtain ⟨ch, hstep⟩ := ht.step
  have hfrom := (step_from hstep).1
  have htr := hs.trans ht i
  rw [hi] at htr
  generalize (t.data.proc i).state = b at htr
  cases htr with
  | stay => rfl
  | start =>
    obtain ⟨p, rfl, -⟩ := hfrom
    exact absurd rfl hf
  | free =>
    obtain ⟨p, rfl, -⟩ := hfrom
    exact absurd rfl hf

/-- A running process goes on, unless it leaves by itself. -/
theorem Ok.running_stays (hi : (s.data.proc i).state = .RUNNING) :
    (t.data.proc i).state = .RUNNING ∨ s.cur c = .proc i ∧ ∃ g, gs = [g] ∧ g.leaving = true := by
  have htr := hs.trans ht i
  rw [hi] at htr
  generalize (t.data.proc i).state = b at htr
  cases htr with
  | stay => exact Or.inl rfl
  | yield => exact Or.inr (hs.own_eff ht (Or.inl rfl))
  | sleep x => exact Or.inr (hs.own_eff ht (Or.inr (Or.inl ⟨x, rfl⟩)))
  | exit status => exact Or.inr (hs.own_eff ht (Or.inr (Or.inr ⟨status, rfl⟩)))

/-! ### The parts of the invariant -/

theorem Ok.own_step (u : Ctx C) : ∀ f' ∈ t.stack u, f'.Of u.self := by
  intro f' hf'
  obtain ⟨-, hf'⟩ | ⟨rfl, hf' | hf'⟩ | ⟨i, -, rfl, rfl | rfl⟩ := ht.mem_stack hf'
  · exact hs.own u f' hf'
  · obtain ⟨ch, hstep⟩ := ht.step
    rw [hs.self_eq c] at hstep
    exact step_of hstep (hs.top_of ht) f' hf'
  · exact hs.own _ f' (by rw [ht.top]; exact List.mem_cons_of_mem _ hf')
  · exact rfl
  · exact rfl

theorem Ok.nest_step (u : Ctx C) : (t.stack u).Pairwise Frame.Over := by
  obtain ⟨-, -, h⟩ | ⟨rfl, -, h⟩ | ⟨i, -, -, h⟩ := ht.stack_cases u
  · rw [h]
    exact hs.nest u
  · rw [h]
    obtain ⟨ch, hstep⟩ := ht.step
    exact step_nest hstep (ht.top ▸ hs.nest (s.cur c)) (hs.noff_zero ht)
  · rw [h]
    exact of_decide_eq_true rfl

/-- What the old frames tell is still true. -/
theorem Ok.tells_stays (hf : f' ∈ s.stack u) (hu : u = s.cur c → f' ∈ fs) : f'.Tells t.data := by
  refine (hs.tells u f' hf).congr (fun i hi hb hd => ?_) (fun i hi hused => ?_)
  · rw [ht.data]
    exact (Entry.core_eq (apply_core (hs.guard_stays ht hf hu hi hb hd))).1
  · refine hs.used_stays ht hused fun hfc => ?_
    have htop : f ∈ s.stack (s.cur c) := by
      rw [ht.top]
      exact List.mem_cons_self ..
    have h1 := Frame.depth_child hfc
    have h2 := hs.below_shallow ht (by omega) (hu (hs.children _ _ _ _ i hf htop hi hfc))
    have h3 := Frame.depth_child hi
    omega

theorem Ok.tells_step : ∀ u, ∀ f' ∈ t.stack u, f'.Tells t.data := by
  refine ht.frames hs.tells (fun hf => ?_) (fun u f' hf' hu _ => hs.tells_stays ht hf' hu)
    fun i => ⟨trivial, trivial⟩
  obtain ⟨ch, hstep⟩ := ht.step
  rw [ht.data]
  exact step_tells hstep hf

theorem Ok.children_step {u u' : Ctx C} {g g' : Frame} (hg : g ∈ t.stack u) (hg' : g' ∈ t.stack u')
    (hi : g.child = some i) (hi' : g'.child = some i) : u = u' := by
  obtain ⟨a, ha, hai⟩ | ⟨rfl, rfl, hun⟩ := ht.child_of hg hi
  · obtain ⟨b, hb, hbi⟩ | ⟨rfl, rfl, hun⟩ := ht.child_of hg' hi'
    · exact hs.children _ _ _ _ i ha hb hai hbi
    · exact absurd hai (hs.no_child hun ht.does.1 ha)
  · obtain ⟨b, hb, hbi⟩ | ⟨rfl, -, -⟩ := ht.child_of hg' hi'
    · exact absurd hbi (hs.no_child hun ht.does.1 hb)
    · rfl

theorem Ok.idle_step {c1 c2 : C} (h : t.cur c1 = .cpu c2) : c2 = c1 ∧ t.cpuproc c1 = none := by
  by_cases hc : c1 = c
  · subst hc
    obtain ⟨i, rfl⟩ | ⟨p, rfl⟩ | ⟨hcur, hproc⟩ := ht.switch_cases
    · rw [(ht.resumed rfl).1] at h
      cases h
    · rw [(ht.left rfl).1] at h
      cases h
      exact ⟨rfl, (ht.left rfl).2⟩
    · rw [hproc]
      exact hs.idle _ _ (hcur ▸ h)
  · obtain ⟨hcur, hproc, -⟩ := ht.others hc
    rw [hproc]
    exact hs.idle _ _ (hcur ▸ h)

theorem Ok.busy_step {c1 : C} (h : t.cur c1 = .proc p) :
    t.cpuproc c1 = some p ∧ t.stack (.cpu c1) = [.dispatched p] := by
  have hkeep : s.cur c1 = .proc p → t.stack (.cpu c1) = s.stack (.cpu c1) := by
    intro hp
    obtain ⟨-, -, hk⟩ | ⟨hu, -⟩ | ⟨i, -, hu, -⟩ := ht.stack_cases (.cpu c1)
    · exact hk
    · have := (hs.idle c c1 hu.symm).1
      subst this
      rw [← hu] at hp
      cases hp
    · cases hu
  by_cases hc : c1 = c
  · subst hc
    obtain ⟨i, rfl⟩ | ⟨q, rfl⟩ | ⟨hcur, hproc⟩ := ht.switch_cases
    · obtain ⟨hcur, -, -, rfl, -, -, rfl⟩ := hs.resume ht rfl
      rw [(ht.resumed rfl).1] at h
      cases h
      refine ⟨(ht.resumed rfl).2, ?_⟩
      rw [← hcur]
      exact hs.stack_own ht
    · rw [(ht.left rfl).1] at h
      cases h
    · rw [hcur] at h
      rw [hproc, hkeep h]
      exact hs.busy _ _ h
  · obtain ⟨hcur, hproc, -⟩ := ht.others hc
    rw [hcur] at h
    rw [hproc, hkeep h]
    exact hs.busy _ _ h

theorem Ok.one_step {c1 c2 : C} (h1 : t.cur c1 = .proc p) (h2 : t.cur c2 = .proc p) : c1 = c2 := by
  obtain ⟨h1, -⟩ | ⟨rfl, ho1⟩ := ht.cur_before h1
  · obtain ⟨h2, -⟩ | ⟨rfl, ho2⟩ := ht.cur_before h2
    · exact hs.one _ _ p h1 h2
    · exact absurd h1 ((hs.resume ht ho2).2.2.1 c1)
  · obtain ⟨h2, -⟩ | ⟨rfl, -⟩ := ht.cur_before h2
    · exact absurd h2 ((hs.resume ht ho1).2.2.1 c2)
    · rfl

theorem Ok.parked_step (h : ∀ c1, t.cur c1 ≠ .proc p) :
    ∃ b fs, t.stack (.proc p) = .back p b :: fs ∧ locks fs = [] := by
  obtain ⟨hu, -, hk⟩ | ⟨hu, -, hk⟩ | ⟨i, -, hu, hk⟩ := ht.stack_cases (.proc p)
  · rw [hk]
    refine hs.parked p fun c1 hc1 => ?_
    by_cases hc : c1 = c
    · exact hu (hc ▸ hc1.symm)
    · exact h c1 ((ht.others hc).1.trans hc1)
  · rw [hk]
    obtain ⟨i, rfl⟩ | ⟨q, rfl⟩ | ⟨hcur, -⟩ := ht.switch_cases
    · rw [(hs.resume ht rfl).1] at hu
      cases hu
    · obtain ⟨hq, -, hfs, -, b, -, rfl⟩ := hs.sched ht rfl
      rw [hq] at hu
      cases hu
      exact ⟨b, fs, rfl, hfs⟩
    · exact absurd (hcur.trans hu.symm) (h c)
  · cases hu
    rw [hk]
    exact ⟨_, _, rfl, rfl⟩

/-- What a thread does before `sched` when it exits. -/
theorem Ok.leaving_step (hf : f.leaving = true) (ho : ∀ q, op ≠ .sched q) :
    ∃ q, f = .exitRel q ∧ gs = [.swtch q .exited] := by
  obtain ⟨ch, hstep⟩ := ht.step
  have h0 : s.noff c ≠ 0 := by
    intro hz
    have hl := hs.noff_zero ht hz
    rw [locks_cons, List.append_eq_nil_iff] at hl
    cases f with
    | swtch q b => cases hl.1
    | exitRel q => cases hl.1
    | _ => cases hf
  obtain ⟨hz, -⟩ | ⟨hz, -⟩ | hcode := step_cases hstep
  · exact absurd hz h0
  · exact absurd hz h0
  · cases f with
    | swtch q b =>
      cases hcode
      exact absurd rfl (ho q)
    | exitRel q =>
      cases hcode
      exact ⟨q, rfl, rfl⟩
    | _ => cases hf

theorem Ok.running_step {c1 : C} (h : t.cur c1 = .proc p) : (t.data.proc p).state = .RUNNING ∨
    ∃ f fs, t.stack (.proc p) = f :: fs ∧ f.leaving = true := by
  obtain ⟨hp, ho⟩ | ⟨rfl, ho⟩ := ht.cur_before h
  · by_cases hc : c1 = c
    · subst hc
      have hstk := hs.stack_own ht
      rw [hp] at hstk
      rw [hstk]
      by_cases hf : f.leaving = true
      · obtain ⟨q, -, rfl⟩ := hs.leaving_step ht hf (ho rfl)
        exact Or.inr ⟨_, fs, rfl, rfl⟩
      · have hr := hs.state_running ht hp (by simpa using hf)
        obtain hr | ⟨-, g, rfl, hg⟩ := hs.running_stays ht hr
        · exact Or.inl hr
        · exact Or.inr ⟨g, fs, rfl, hg⟩
    · have hstk := hs.stack_other ht hc
      rw [hp] at hstk
      obtain hr | ⟨g, gs', hg, hl⟩ := hs.running c1 p hp
      · obtain hr | ⟨hcp, -⟩ := hs.running_stays ht hr
        · exact Or.inl hr
        · exact absurd (hs.one _ _ p hp hcp) hc
      · exact Or.inr ⟨g, gs', hstk.trans hg, hl⟩
  · obtain ⟨-, hst, -, -, -, rfl, -⟩ := hs.resume ht ho
    left
    rw [ht.data]
    simp [Eff.apply]

theorem Ok.onCpu_step (h : (t.data.proc p).state = .RUNNING) : ∃ c, t.cur c = .proc p := by
  have hkeep : (s.data.proc p).state = .RUNNING → ∃ c, t.cur c = .proc p := by
    intro hr
    obtain ⟨c1, hc1⟩ := hs.onCpu p hr
    by_cases hc : c1 = c
    · subst hc
      obtain ⟨i, ho⟩ | ⟨q, ho⟩ | ⟨hcur, -⟩ := ht.switch_cases
      · rw [(hs.resume ht ho).1] at hc1
        cases hc1
      · obtain ⟨hq, -, -, -, b, rfl, -⟩ := hs.sched ht ho
        rw [hq] at hc1
        cases hc1
        have htells : (s.data.proc p).state = b.state := hs.top_tells ht
        rw [hr] at htells
        cases b <;> cases htells
      · exact ⟨c1, hcur.trans hc1⟩
    · exact ⟨c1, (ht.others hc).1.trans hc1⟩
  obtain ⟨ch, hstep⟩ := ht.step
  have hfrom := (step_from hstep).1
  have htr := hs.trans ht p
  rw [h] at htr
  generalize ha : (s.data.proc p).state = a at htr
  cases htr with
  | stay => exact hkeep ha
  | run => exact ⟨c, (ht.resumed hfrom.1).1⟩

/-- A process on the CPU has a state of its own. -/
theorem Ok.own_state (hp : s.cur c = .proc p) : (s.data.proc p).state = .RUNNING ∨
    (∃ b, f = .swtch p b ∧ (s.data.proc p).state = b.state) ∨
    f = .exitRel p ∧ (s.data.proc p).state = .ZOMBIE := by
  have hof := hs.top_of ht
  have htells := hs.top_tells ht
  rw [hp] at hof
  by_cases hf : f.leaving = true
  · cases f with
    | swtch q b =>
      cases hof
      exact Or.inr (Or.inl ⟨b, rfl, htells⟩)
    | exitRel q =>
      cases hof
      exact Or.inr (Or.inr ⟨rfl, htells⟩)
    | _ => cases hf
  · exact Or.inl (hs.state_running ht hp (by simpa using hf))

/-- A process on the CPU is in use. -/
theorem Ok.own_used (hp : s.cur c = .proc p) :
    (s.data.proc p).state ≠ .UNUSED ∧ (s.data.proc p).state ≠ .USED := by
  obtain h | ⟨b, -, h⟩ | ⟨-, h⟩ := hs.own_state ht hp
  · rw [h]
    decide
  · rw [h]
    cases b <;> exact ⟨procstate.noConfusion, procstate.noConfusion⟩
  · rw [h]
    decide

/-- A `ZOMBIE` whose lock another CPU can take is off the CPU for good. -/
theorem Ok.zombie_gone (hz : (s.data.proc p).state = .ZOMBIE) (hu : s.cur c ≠ .proc p)
    (hg : .proc p ∈ e.guards) : s.stack (.proc p) = [.back p .exited] := by
  have hno : ∀ g, g ∈ s.stack (.proc p) → .proc p ∈ g.held → (∀ b, g ≠ .back p b) →
      g.leaving = true → False := by
    intro g hg' hl hb hleave
    obtain ⟨c', hc'⟩ | ⟨q, b, rfl⟩ | ⟨q, rfl⟩ := hs.holder hg' hl
    · have hne : c' ≠ c := fun h => hu (h ▸ hc')
      refine hs.exclusive ht ?_ hne hg
      show .proc p ∈ locks (s.stack (s.cur c'))
      rw [hc']
      exact mem_locks hg' hl
    · cases hleave
    · cases hleave
  obtain h | h | h := hs.zombie p hz
  · exact (hno (.exitRel p) (by rw [h]; exact List.mem_singleton.mpr rfl) (by simp [Frame.held])
      (by simp) rfl).elim
  · exact (hno (.swtch p .exited) (by rw [h]; exact List.mem_singleton.mpr rfl) (by simp [Frame.held])
      (by simp) rfl).elim
  · exact h

theorem Ok.fresh_step (h : (t.data.proc p).state = .UNUSED ∨ (t.data.proc p).state = .USED) :
    Dormant p (t.stack (.proc p)) := by
  have htr := hs.trans ht p
  obtain ⟨hu, -, hk⟩ | ⟨hu, -, -⟩ | ⟨i, -, hu, hk⟩ := ht.stack_cases (.proc p)
  · rw [hk]
    generalize ha : (s.data.proc p).state = a at htr
    generalize hb : (t.data.proc p).state = b at htr h
    cases htr with
    | stay => exact hs.fresh p (ha ▸ h)
    | alloc => exact hs.fresh p (Or.inl ha)
    | free => exact hs.fresh p (Or.inr ha)
    | reap q =>
      rw [hs.zombie_gone ht ha (Ne.symm hu) (by simp [Eff.guards])]
      exact ⟨_, Or.inl rfl⟩
    | _ => simp at h
  · obtain ⟨h1, h2⟩ := hs.own_used ht hu.symm
    generalize ha : (s.data.proc p).state = a at htr h1 h2
    generalize hb : (t.data.proc p).state = b at htr h
    cases htr with
    | stay =>
      obtain h | h := h
      · exact absurd h h1
      · exact absurd h h2
    | alloc => exact absurd rfl h1
    | free => exact absurd rfl h2
    | reap q =>
      obtain ⟨ch, hstep⟩ := ht.step
      obtain ⟨x, rfl, -⟩ := (step_from hstep).1
      have := hs.state_running ht hu.symm rfl
      rw [ha] at this
      cases this
    | _ => simp at h
  · cases hu
    rw [hk]
    exact ⟨_, Or.inr rfl⟩

theorem Ok.zombie_step (h : (t.data.proc p).state = .ZOMBIE) : t.stack (.proc p) = [.exitRel p] ∨
    t.stack (.proc p) = [.swtch p .exited] ∨ t.stack (.proc p) = [.back p .exited] := by
  obtain ⟨ch, hstep⟩ := ht.step
  have hfrom := (step_from hstep).1
  have htr := hs.trans ht p
  rw [h] at htr
  generalize ha : (s.data.proc p).state = a at htr
  obtain ⟨hu, -, hk⟩ | ⟨hu, -, hk⟩ | ⟨i, ho, hu, -⟩ := ht.stack_cases (.proc p)
  · rw [hk]
    cases htr with
    | stay => exact hs.zombie p ha
    | exit status => exact absurd (hs.own_eff ht (Or.inr (Or.inr ⟨status, rfl⟩))).1.symm hu
  · rw [hk]
    cases htr with
    | stay =>
      have hz := hs.zombie p ha
      rw [hu, ht.top] at hz
      obtain hst | ⟨b, rfl, hb⟩ | ⟨rfl, -⟩ := hs.own_state ht hu.symm
      · rw [ha] at hst
        cases hst
      · have hfs : fs = [] := by
          obtain hz | hz | hz := hz
          all_goals cases hz
          rfl
        subst hfs
        by_cases ho : ∃ q, op = .sched q
        · obtain ⟨q, ho⟩ := ho
          obtain ⟨-, -, -, -, b', hf, rfl⟩ := hs.sched ht ho
          cases hf
          rw [ha] at hb
          cases b with
          | exited => exact Or.inr (Or.inr rfl)
          | _ => cases hb
        · obtain ⟨q, hf, -⟩ := hs.leaving_step ht rfl fun q hq => ho ⟨q, hq⟩
          cases hf
      · have hfs : fs = [] := hs.bottom ht rfl
        subst hfs
        have ho : ∀ q, op ≠ .sched q := by
          intro q hq
          obtain ⟨-, -, -, -, b, hf, -⟩ := hs.sched ht hq
          cases hf
        obtain ⟨q, hf, rfl⟩ := hs.leaving_step ht rfl ho
        cases hf
        exact Or.inr (Or.inl rfl)
    | exit status =>
      obtain ⟨rfl, -, rfl⟩ := hfrom
      rw [hs.bottom ht rfl]
      exact Or.inl rfl
  · obtain ⟨hst, -, rfl, -⟩ := hs.context ht ho
    cases hu
    rw [ht.data] at h
    rw [show (s.data.proc p).state = _ from h] at hst
    cases hst

/-! ### Locks -/

theorem Ok.held_other (hc : c' ≠ c) : t.held c' = s.held c' := by
  unfold held
  rw [(ht.others hc).1, hs.stack_other ht hc]

theorem Ok.held_own (h1 : ∀ i, op ≠ .resume i) (h2 : ∀ i, op ≠ .sched i) :
    t.held c = locks gs ++ locks fs := by
  unfold held
  rw [(ht.cur_eq h1 h2).1, hs.stack_own ht, locks_append]

/-- A switch hands the process lock over. -/
theorem Ok.held_switch (h : (∃ i, op = .resume i) ∨ ∃ p, op = .sched p) : t.held c = s.held c := by
  obtain ⟨i, ho⟩ | ⟨p, ho⟩ := h
  · obtain ⟨hcur, -, hidle, -, hheld, -, -⟩ := hs.resume ht ho
    obtain ⟨b, gs', hstk, hgs⟩ := hs.parked i hidle
    have hk : t.stack (.proc i) = s.stack (.proc i) := by
      obtain ⟨-, -, hk⟩ | ⟨hu, -⟩ | ⟨j, ho', -⟩ := ht.stack_cases (.proc i)
      · exact hk
      · rw [hcur] at hu
        cases hu
      · rw [ho] at ho'
        cases ho'
    unfold held at hheld ⊢
    rw [hheld, (ht.resumed ho).1, hk, hstk, locks_cons, hgs]
    rfl
  · obtain ⟨hcur, hheld, -⟩ := hs.sched ht ho
    have hk : t.stack (.cpu c) = s.stack (.cpu c) := by
      obtain ⟨-, -, hk⟩ | ⟨hu, -⟩ | ⟨j, -, hu, -⟩ := ht.stack_cases (.cpu c)
      · exact hk
      · rw [hcur] at hu
        cases hu
      · cases hu
    unfold held at hheld ⊢
    rw [hheld, (ht.left ho).1, hk, (hs.busy c p hcur).2]
    rfl

/-- **Locks agree with the frames**, and `noff` with their number. -/
theorem Ok.locks_step : SpinLock.Agrees t.lock t.held ∧ ∀ c1, t.noff c1 = (t.held c1).length := by
  obtain ⟨ch, hstep⟩ := ht.step
  have hmoves := step_locks hstep
  have hown : s.held c = f.held ++ locks fs := by
    unfold held
    rw [ht.top, locks_cons]
  have hother : ∀ c', c' ≠ c → (t.held c').Perm (s.held c') := fun c' hc => by rw [hs.held_other ht hc]
  have hnoff : (t.noff c = (t.held c).length) → ∀ c1, t.noff c1 = (t.held c1).length := by
    intro h c1
    by_cases hc : c1 = c
    · exact hc ▸ h
    · rw [(ht.others hc).2.2, hs.held_other ht hc]
      exact hs.noff c1
  have hsame : t.lock = s.lock → t.noff c = s.noff c → (t.held c).Perm (s.held c) →
      SpinLock.Agrees t.lock t.held ∧ ∀ c1, t.noff c1 = (t.held c1).length := by
    intro hl hn hp
    refine ⟨?_, hnoff ?_⟩
    · rw [hl]
      refine hs.agrees.perm fun c' => ?_
      by_cases hc : c' = c
      · exact hc ▸ hp
      · exact hother c' hc
    · rw [hn, hs.noff c]
      exact hp.length_eq.symm
  have hd := ht.does
  cases op with
  | tau =>
    rw [show t = _ from hd] at hsame ⊢
    refine hsame rfl rfl ?_
    rw [← show t = _ from hd, hs.held_own ht (by simp) (by simp), hown]
    exact hmoves.append_right _
  | context i =>
    rw [show t = _ from hd] at hsame ⊢
    refine hsame rfl rfl ?_
    rw [← show t = _ from hd, hs.held_own ht (by simp) (by simp), hown]
    exact hmoves.append_right _
  | resume i =>
    have hh := hs.held_switch ht (Or.inl ⟨i, rfl⟩)
    rw [show t = _ from hd] at hsame hh ⊢
    exact hsame rfl rfl (by rw [hh])
  | sched p =>
    have hh := hs.held_switch ht (Or.inr ⟨p, rfl⟩)
    rw [hd.2.2.2] at hsame hh ⊢
    exact hsame rfl rfl (by rw [hh])
  | acquire l =>
    have hp : (t.held c).Perm (l :: s.held c) := by
      rw [hs.held_own ht (by simp) (by simp), hown]
      exact hmoves.append_right _
    have hag := hs.agrees.acquire hd.1 hp hother
    have hlen := hp.length_eq
    refine ⟨?_, hnoff ?_⟩
    · rw [hd.2] at hag ⊢
      exact hag
    · rw [hlen, List.length_cons, ← hs.noff c, hd.2]
      exact Function.update_self ..
  | release l =>
    have hp : (s.held c).Perm (l :: t.held c) := by
      rw [hs.held_own ht (by simp) (by simp), hown]
      exact hmoves.append_right _
    have hag := hs.agrees.release hp hother
    have hlen := hp.length_eq
    refine ⟨?_, hnoff ?_⟩
    · rw [hd.2] at hag ⊢
      exact hag
    · rw [List.length_cons, ← hs.noff c] at hlen
      have hn : t.noff c = s.noff c - 1 := by
        rw [hd.2]
        exact Function.update_self ..
      omega
  | panic msg => exact hd.elim

/-- **Every step keeps the invariant.** -/
theorem Ok.turn : Ok t where
  agrees := (hs.locks_step ht).1
  noff := (hs.locks_step ht).2
  idle _ _ := hs.idle_step ht
  busy _ _ := hs.busy_step ht
  one _ _ _ := hs.one_step ht
  parked _ := hs.parked_step ht
  own := hs.own_step ht
  nest := hs.nest_step ht
  tells := hs.tells_step ht
  running _ _ := hs.running_step ht
  onCpu _ := hs.onCpu_step ht
  fresh _ := hs.fresh_step ht
  zombie _ := hs.zombie_step ht
  children _ _ _ _ _ := hs.children_step ht

end

end

/-! ### The first state -/

omit [DecidableEq C] in
theorem boot_dormant (p : Fin NPROC) : Dormant p ((boot : Smp C).stack (.proc p)) := by
  simp only [boot]
  split_ifs
  · exact ⟨_, Or.inr rfl⟩
  · exact ⟨_, Or.inl rfl⟩

omit [DecidableEq C] in
/-- The frames of the first stacks. -/
theorem boot_frames (hf : f ∈ (boot : Smp C).stack u) : u.self = none ∧ f = .scheduler 0 none 100 ∨
    ∃ p, u.self = some p ∧ ((∃ b, f = .back p b) ∨ f = .user p) := by
  cases u with
  | cpu c => exact Or.inl ⟨rfl, List.mem_singleton.mp hf⟩
  | proc p =>
    refine Or.inr ⟨p, rfl, ?_⟩
    obtain ⟨b, h | h⟩ := boot_dormant (C := C) p
    all_goals rw [h] at hf
    · exact Or.inl ⟨b, List.mem_singleton.mp hf⟩
    · obtain rfl | hf := List.mem_cons.mp hf
      · exact Or.inl ⟨b, rfl⟩
      · exact Or.inr (List.mem_singleton.mp hf)

omit [DecidableEq C] in
theorem boot_state (p : Fin NPROC) : ((boot : Smp C).data.proc p).state = .RUNNABLE ∧ p = initproc ∨
    (boot : Smp C).data.proc p = Entry.zero := by
  by_cases hp : p = initproc
  · subst hp
    exact Or.inl ⟨rfl, rfl⟩
  · right
    simp only [boot]
    rw [Function.update_of_ne hp]

omit [DecidableEq C] in
theorem Ok.boot : Ok (boot : Smp C) where
  agrees := ⟨fun l c => ⟨fun h => (by cases h), fun h => (by cases h)⟩, fun c => List.nodup_nil⟩
  noff _ := rfl
  idle _ _ h := by
    cases h
    exact ⟨rfl, rfl⟩
  busy _ _ h := by cases h
  one _ _ _ h := by cases h
  parked p _ := by
    obtain ⟨b, h | h⟩ := boot_dormant (C := C) p
    · exact ⟨b, _, h, rfl⟩
    · exact ⟨b, _, h, rfl⟩
  own u f hf := by
    obtain ⟨hu, rfl⟩ | ⟨p, hu, ⟨b, rfl⟩ | rfl⟩ := boot_frames hf
    · exact ⟨hu, fun i hi => by cases hi⟩
    · exact hu
    · exact hu
  nest u := by
    cases u with
    | cpu c => exact of_decide_eq_true rfl
    | proc p =>
      obtain ⟨b, h | h⟩ := boot_dormant (C := C) p
      all_goals rw [h]
      all_goals exact of_decide_eq_true rfl
  tells u f hf := by
    obtain ⟨-, rfl⟩ | ⟨p, -, ⟨b, rfl⟩ | rfl⟩ := boot_frames hf
    · exact fun i hi => by cases hi
    · trivial
    · trivial
  running _ _ h := by cases h
  onCpu p h := by
    obtain ⟨h', -⟩ | h' := boot_state (C := C) p
    all_goals rw [h'] at h
    all_goals cases h
  fresh p _ := boot_dormant p
  zombie p h := by
    obtain ⟨h', -⟩ | h' := boot_state (C := C) p
    all_goals rw [h'] at h
    all_goals cases h
  children u u' f f' i hf _ hi _ := by
    obtain ⟨-, rfl⟩ | ⟨p, -, ⟨b, rfl⟩ | rfl⟩ := boot_frames hf
    all_goals cases hi

/-- The states that the machine reaches. -/
def Reach (s : Smp C) : Prop := Runs.Steps Smp.step (fun _ _ => True) boot s

/-- A CPU executes the next `n` steps where the code leaves no choice. -/
def go (c : C) (n : ℕ) : List (C × Choice) := List.replicate n (c, .go)

theorem ok_step {a : C × Choice} (hs : Ok s) (h : s.step a = some (.ok t)) : Ok t := by
  obtain ⟨f, fs, op, e, gs, ht⟩ := step_turn h
  exact hs.turn ht

theorem Reach.ok (h : Reach s) : Ok s :=
  Runs.Steps.invariant h Ok.boot fun _ _ _ hi _ hl => ok_step hi hl

/-- Further invariants: `Ok` may be used for the step. -/
theorem Reach.invariant {I : Smp C → Prop} (h : Reach s) (h0 : I boot)
    (hturn : ∀ {s t c f fs op e gs}, I s → Ok s → Turn s t c f fs op e gs → I t) : I s := by
  refine (Runs.Steps.invariant (I := fun s => Ok s ∧ I s) h ⟨Ok.boot, h0⟩ ?_).2
  rintro s ⟨c, ch⟩ t ⟨hs, hi⟩ - hl
  obtain ⟨f, fs, op, e, gs, ht⟩ := step_turn hl
  exact ⟨hs.turn ht, hturn hi hs ht⟩

end Smp

end Xv6
