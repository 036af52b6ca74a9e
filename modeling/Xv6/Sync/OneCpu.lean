import Xv6.Sync.Machine

/-!
# OneCpu — a process never runs on two CPUs

* `one_cpu`: what `scheduler` relies on when it chooses a process long before it switches to it.
-/

namespace Xv6

variable {C : Type} [DecidableEq C]

namespace Smp

/-- `scheduler` on CPU `c` has chosen process `h` for the time being. -/
def Candidate (s : Smp C) (c : C) (h : Fin NPROC) : Prop :=
  ∃ f ∈ s.stack (.cpu c), (∃ j m, f = .scheduler j (some h) m) ∨ ∃ i m, f = .look i (some h) m

variable {s t : Smp C} {c c' : C} {p h : Fin NPROC}

omit [DecidableEq C] in
theorem Ok.cur_of_proc (hs : Ok s) (hc : s.cpuproc c = some p) : s.cur c = .proc p :=
  Ctx.eq_proc (hs.self_eq c ▸ hc)

omit [DecidableEq C] in
/-- The lock of a candidate is held from its choice on. -/
theorem Ok.candidate_held (hs : Ok s) (hc : Candidate s c h) : .proc h ∈ s.held c := by
  obtain ⟨f, hf, hfh⟩ := hc
  have hl : Lock.proc h ∈ f.held := by
    obtain ⟨j, m, rfl⟩ | ⟨i, m, rfl⟩ := hfh
    · simp [Frame.held]
    · simp [Frame.held]
  obtain ⟨c1, hc1⟩ | ⟨q, b, rfl⟩ | ⟨q, rfl⟩ := hs.holder hf hl
  · have hcc := (hs.idle c1 c hc1).1
    subst hcc
    show .proc h ∈ locks (s.stack (s.cur c))
    rw [hc1]
    exact mem_locks hf hl
  · obtain ⟨_, _, h'⟩ | ⟨_, _, h'⟩ := hfh
    all_goals cases h'
  · obtain ⟨_, _, h'⟩ | ⟨_, _, h'⟩ := hfh
    all_goals cases h'

/-- A switch to a process. -/
theorem Ok.dispatch {ch : Choice} (hs : Ok s) (hl : s.step (c, ch) = some (.ok t))
    (hc : s.cpuproc c = none) (ht : t.cpuproc c = some h) :
    (s.data.proc h).state = .RUNNABLE ∧ (t.data.proc h).state = .RUNNING := by
  obtain ⟨f, fs, op, e, gs, hturn⟩ := step_turn hl
  have hcur : t.cur c = .proc h := (ok_step hs hl).cur_of_proc ht
  obtain ⟨hp, -⟩ | ⟨-, ho⟩ := hturn.cur_before hcur
  · rw [(hs.busy c h hp).1] at hc
    cases hc
  · obtain ⟨-, hst, -, -, -, rfl, -⟩ := hs.resume hturn ho
    refine ⟨hst, ?_⟩
    rw [hturn.data]
    simp [Eff.apply]

/-- **One process never runs on two CPUs.**  In every reachable state: a process is `c->proc` of one
CPU at most, and of one if it is `RUNNING` and not locked; a candidate of a scheduler is a candidate
of no other; and a process is `RUNNABLE` when a CPU makes it `RUNNING`. -/
theorem one_cpu (hr : Reach s) :
    (∀ c c' p, s.cpuproc c = some p → s.cpuproc c' = some p → c = c') ∧
    (∀ p, (s.data.proc p).state = .RUNNING → s.lock (.proc p) = none → ∃! c, s.cpuproc c = some p) ∧
    (∀ c c' h, Candidate s c h → Candidate s c' h → c = c') ∧
    ∀ c ch t h, s.step (c, ch) = some (.ok t) → s.cpuproc c = none → t.cpuproc c = some h →
      (s.data.proc h).state = .RUNNABLE ∧ (t.data.proc h).state = .RUNNING := by
  have hs := hr.ok
  have hone : ∀ c c' p, s.cpuproc c = some p → s.cpuproc c' = some p → c = c' :=
    fun c c' p h1 h2 => hs.one c c' p (hs.cur_of_proc h1) (hs.cur_of_proc h2)
  refine ⟨hone, fun p hp _ => ?_, fun c c' h h1 h2 => ?_, fun c ch t h hl h1 h2 => ?_⟩
  · obtain ⟨c, hc⟩ := hs.onCpu p hp
    have hproc := (hs.busy c p hc).1
    exact ⟨c, hproc, fun c' hc' => hone c' c p hc' hproc⟩
  · exact hs.agrees.exclusive (hs.candidate_held h1) (hs.candidate_held h2)
  · exact hs.dispatch hl h1 h2

/-- The first process after its first switch. -/
theorem one_cpu_first : ∃ s : Smp (Fin 2), Reach s ∧ (s.data.proc initproc).state = .RUNNING ∧
    ∃! c, s.cpuproc c = some initproc := by
  have hrun : ∃ s : Smp (Fin 2), Reach s ∧ (s.data.proc initproc).state = .RUNNING ∧
      s.lock (.proc initproc) = none :=
    Runs.Steps.of_any (go 0 130) (by decide +kernel)
  obtain ⟨s, hr, hst, hl⟩ := hrun
  exact ⟨s, hr, hst, (one_cpu hr).2.1 initproc hst hl⟩

end Smp

end Xv6
