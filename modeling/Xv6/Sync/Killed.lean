import Xv6.Sync.Wakeup

/-!
# Killed — a process that is killed before it sleeps

`piperead`, `pipewrite`, `consoleread`, `sys_sleep` and `wait` test `killed` before they call `sleep`.
The test and the sleep are two critical sections of `p->lock`.

* `Frame.loops`: the call of `sleep` comes from such a loop.
* `window`: between the test and the `acquire` of `sleep`.
* `killed_awake`: if no `kill` falls into the window, no killed process sleeps in a loop.
* `killed_asleep`: a run in which one does.
-/

namespace Xv6

namespace Frame

/-- After `killed` has returned 0. -/
def isTested : Frame → Bool
  | tested .. => true
  | _ => false

/-- In `sleep`, before `acquire(&p->lock)`. -/
def isSleep : Frame → Bool
  | sleep .. => true
  | _ => false

/-- In `sleep`, before `p->state = SLEEPING`. -/
def falls : Frame → Bool
  | sleep .. | sleeping .. => true
  | _ => false

/-- What follows `sleep` in a loop that tests `killed`. -/
def loops : Frame → Bool
  | regain _ _ true | wait .. => true
  | _ => false

/-- The process that `kill` finds in the next entry. -/
def victim (d : Data) : Frame → Option (Fin NPROC)
  | kill pid j => (slot j).filter fun i => (d.proc i).pid = pid
  | _ => none

/-- What a thread has read under its lock. -/
def Read (d : Data) : Frame → Prop
  | testing p _ b _ | waitTested p b => b = (d.proc p).killed
  | _ => True

end Frame

/-- Between the test of `killed` and the `acquire` of `sleep`. -/
def window (stk : List Frame) : Bool :=
  stk.any Frame.isTested || (stk.any Frame.isSleep && stk.any Frame.loops)

/-- Between the test of `killed` and `p->state = SLEEPING`. -/
def untilAsleep (stk : List Frame) : Bool :=
  stk.any Frame.isTested || (stk.any Frame.falls && stk.any Frame.loops)

section

variable {me : Option (Fin NPROC)} {noff : ℕ} {d : Data} {f : Frame} {ch : Choice} {op : Op}
  {e : Eff} {gs fs stk : List Frame} {p : Fin NPROC}

/-- What changes `p->killed`. -/
theorem apply_killed : ((e.apply d).proc p).killed = (d.proc p).killed ∨
    ((e.apply d).proc p).killed = false ∨ e = .kill p ∨ e = .setkilled p := by
  by_cases ht : e.target = some p
  · cases e with
    | kill j =>
      cases ht
      exact Or.inr (Or.inr (Or.inl rfl))
    | setkilled j =>
      cases ht
      exact Or.inr (Or.inr (Or.inr rfl))
    | free j | reap q j =>
      cases ht
      exact Or.inr (Or.inl (by simp [Eff.apply, Entry.free]))
    | wakeup j x =>
      cases ht
      left
      simp only [Eff.apply]
      split_ifs
      · simp
      · rfl
    | run j | yield j | sleep j x | woken j | alloc j | start j | exit j status | adopt q j
    | orphan j =>
      cases ht
      exact Or.inl (by simp [Eff.apply])
    | _ => cases ht
  · left
    obtain he | ⟨dp, -, he⟩ := apply_proc_of_ne (d := d) ht
    · rw [he]
    · rw [he]

theorem code_read (hs : f.code me d ch = some (op, e, gs)) : gs.Forall (Frame.Read (e.apply d)) := by
  cases f with
  | user p =>
    simp only [Frame.code, Frame.call] at hs
    repeat' split at hs
    all_goals cases hs
    all_goals first | exact trivial | exact ⟨trivial, trivial⟩
  | crit k h todo =>
    simp only [Frame.code, Frame.section_] at hs
    repeat' split at hs
    all_goals cases hs
    all_goals first | exact trivial | exact ⟨trivial, trivial⟩
  | test p k todo | waitTest p =>
    cases hs
    exact rfl
  | _ =>
    simp only [Frame.code] at hs
    repeat' split at hs
    all_goals cases hs
    all_goals first | exact trivial | exact ⟨trivial, trivial⟩

theorem step_read (hs : f.step me noff d ch = some (op, e, gs)) (hf : f.Read d) :
    ∀ g ∈ gs, g.Read (e.apply d) := by
  rw [← List.forall_iff_forall_mem]
  obtain ⟨-, rfl, rfl, k, -, rfl⟩ | ⟨-, rfl, rfl, q, -, rfl⟩ | hs := step_cases hs
  · exact ⟨trivial, hf⟩
  · exact ⟨trivial, hf⟩
  · exact code_read hs

/-- Frames of depth 0 are outside the loops. -/
theorem Frame.outside (h : f.depth = 0) : f.isTested = false ∧ f.falls = false ∧ f.loops = false := by
  cases f with
  | tested | sleep | sleeping | wait => cases h
  | regain p k b =>
    cases b
    all_goals cases h
  | _ => exact ⟨rfl, rfl, rfl⟩

theorem untilAsleep_append (h : ∀ g ∈ fs, g.depth = 0) : untilAsleep (stk ++ fs) = untilAsleep stk := by
  have ht : fs.any Frame.isTested = false := List.any_eq_false.mpr fun g hg => by
    simp [(Frame.outside (h g hg)).1]
  have hf : fs.any Frame.falls = false := List.any_eq_false.mpr fun g hg => by
    simp [(Frame.outside (h g hg)).2.1]
  have hl : fs.any Frame.loops = false := List.any_eq_false.mpr fun g hg => by
    simp [(Frame.outside (h g hg)).2.2]
  simp only [untilAsleep, List.any_append, ht, hf, hl, Bool.or_false]

/-- A call comes to the test, or to `sleep` in a loop, when it has read that it is not killed. -/
theorem code_calls (hs : f.code me d ch = some (op, e, gs)) (hf : f.depth ≤ 1) (hr : f.Read d)
    (hof : f.Of (some p)) (hz : untilAsleep gs = true) :
    untilAsleep [f] = true ∨ (d.proc p).killed = false := by
  cases f with
  | user q =>
    simp only [Frame.code, Frame.call] at hs
    repeat' split at hs
    all_goals cases hs
    all_goals cases hz
  | crit k h todo =>
    simp only [Frame.code, Frame.section_] at hs
    repeat' split at hs
    all_goals cases hs
    all_goals cases hz
  | testing q k b todo =>
    obtain rfl := Option.some.inj hof
    cases hs
    cases b
    · exact Or.inr hr.symm
    · cases hz
  | waitTested q b =>
    obtain rfl := Option.some.inj hof
    cases hs
    cases b
    · exact Or.inr hr.symm
    · cases hz
  | waitScan q x havekids j =>
    obtain rfl := Option.some.inj hof
    simp only [Frame.code] at hs
    repeat' split at hs
    all_goals cases hs
    all_goals first
      | exact Or.inr (by simpa using ‹¬ (d.proc p).killed = true›)
      | cases hz
  | tested q k todo => exact Or.inl rfl
  | _ =>
    simp only [Frame.code] at hs
    repeat' split at hs
    all_goals cases hs
    all_goals cases hz

/-- Code in the depth of a stack comes to no test. -/
theorem code_depth (hs : f.code me d ch = some (op, e, gs)) (hf : 1 < f.depth) :
    gs.any Frame.isTested = false ∧ gs.any Frame.loops = false ∧
      (gs.any Frame.falls = true → f.falls = true) := by
  cases f with
  | crit k h todo =>
    simp only [Frame.code, Frame.section_] at hs
    repeat' split at hs
    all_goals cases hs
    all_goals first
      | exact absurd hf (of_decide_eq_true rfl)
      | exact ⟨rfl, rfl, fun h => by cases h⟩
  | enter k h =>
    cases hs
    exact ⟨rfl, rfl, fun h => by cases h⟩
  | sleep q x lk =>
    cases hs
    exact ⟨rfl, rfl, fun _ => rfl⟩
  | unlock | leaf | yield | swtch | back | sleeping | wakeup | update_time | idup =>
    simp only [Frame.code] at hs
    repeat' split at hs
    all_goals cases hs
    all_goals exact ⟨rfl, rfl, fun h => by cases h⟩
  | _ => exact absurd hf (by simp [Frame.depth])

end

namespace Smp

variable {C : Type} [DecidableEq C] {s t : Smp C} {c : C} {f f' : Frame} {fs : List Frame}
  {op : Op} {e : Eff} {gs : List Frame} {u : Ctx C} {p i : Fin NPROC}

/-- The next step of CPU `c` is not a `kill` of a process in its window. -/
def Clear (s : Smp C) (c : C) : Prop :=
  ∀ i ∈ (s.stack (s.cur c)).head?.bind (Frame.victim s.data), window (s.stack (.proc i)) = false

instance (s : Smp C) (c : C) : Decidable (Clear s c) :=
  inferInstanceAs (Decidable (∀ i ∈ (s.stack (s.cur c)).head?.bind (Frame.victim s.data), _))

/-- Process `p` sleeps in a loop that tests `killed`. -/
def AsleepInLoop (s : Smp C) (p : Fin NPROC) : Prop :=
  (s.data.proc p).state = .SLEEPING ∧ (s.stack (.proc p)).any Frame.loops = true

omit [DecidableEq C] in
instance (s : Smp C) (p : Fin NPROC) : Decidable (AsleepInLoop s p) :=
  inferInstanceAs (Decidable (_ ∧ _))

/-- Whoever goes to sleep in a loop, or sleeps there, is not killed. -/
structure KillOk (s : Smp C) : Prop where
  read : ∀ u, ∀ f ∈ s.stack u, f.Read s.data
  falls : ∀ p, untilAsleep (s.stack (.proc p)) = true → (s.data.proc p).killed = false
  asleep : ∀ p, AsleepInLoop s p → (s.data.proc p).killed = false

omit [DecidableEq C] in
theorem KillOk.boot : KillOk (boot : Smp C) := by
  refine ⟨fun u f hf => ?_, fun p hz => ?_, fun p hp => ?_⟩
  · obtain ⟨-, rfl⟩ | ⟨p, -, ⟨b, rfl⟩ | rfl⟩ := boot_frames hf
    all_goals trivial
  · obtain ⟨b, h | h⟩ := boot_dormant (C := C) p
    all_goals
      rw [h] at hz
      cases hz
  · obtain ⟨h, -⟩ | h := boot_state (C := C) p
    all_goals
      have := hp.1
      rw [h] at this
      cases this

section

variable (hs : Ok s) (ht : Turn s t c f fs op e gs)
include hs ht

theorem Ok.read_stays (hf : f' ∈ s.stack u) (hu : u = s.cur c → f' ∈ fs) (h : f'.Read s.data) :
    f'.Read t.data := by
  have hkeep : ∀ q, Lock.proc q ∈ f'.held → (∀ p b, f' ≠ .back p b) → (∀ p, f' ≠ .dispatched p) →
      (t.data.proc q).killed = (s.data.proc q).killed := by
    intro q hl hb hd
    rw [ht.data]
    exact (Entry.core_eq (apply_core (hs.guard_stays ht hf hu hl hb hd))).2.2.1
  cases f' with
  | testing q k b todo | waitTested q b =>
    exact h.trans (hkeep q (by simp [Frame.held]) (by simp) (by simp)).symm
  | _ => trivial

/-- What comes to `sleep` in a loop on the stack of the process that steps. -/
theorem Ok.untilAsleep_own (hr : f.Read s.data) (hp : s.cur c = .proc p)
    (hz : untilAsleep (gs ++ fs) = true) :
    untilAsleep (f :: fs) = true ∨ (s.data.proc p).killed = false := by
  obtain ⟨ch, hstep⟩ := ht.step
  have hof := hs.top_of ht
  rw [hp] at hof
  obtain ⟨-, -, -, k, -, rfl⟩ | ⟨-, -, -, q, -, rfl⟩ | hcode := step_cases hstep
  · exact Or.inl hz
  · exact Or.inl hz
  · by_cases hd : f.depth ≤ 1
    · have h0 : ∀ g ∈ fs, g.depth = 0 := fun g => hs.below_shallow ht hd
      rw [untilAsleep_append h0] at hz
      rw [← List.singleton_append, untilAsleep_append h0]
      exact code_calls hcode hd hr hof hz
    · obtain ⟨h1, h2, h3⟩ := code_depth hcode (Nat.lt_of_not_le hd)
      left
      simp only [untilAsleep, List.any_append, h1, h2, Bool.false_or, List.any_cons, Bool.or_eq_true,
        Bool.and_eq_true] at hz ⊢
      obtain hz | ⟨hz | hz, hl⟩ := hz
      · exact Or.inl (Or.inr hz)
      · exact Or.inr ⟨Or.inl (h3 hz), Or.inr hl⟩
      · exact Or.inr ⟨Or.inr hz, Or.inr hl⟩

/-- A process that kills itself is not in a loop. -/
theorem Ok.kill_outside (he : e = .kill i ∨ e = .setkilled i) : untilAsleep (gs ++ fs) = false ∧
    (gs ++ fs).any Frame.loops = false ∧ (e = .setkilled i → s.cur c = .proc i) := by
  obtain ⟨ch, hstep⟩ := ht.step
  have hfrom := (step_from hstep).1
  have hfs : f.depth ≤ 1 → ∀ g ∈ fs, g.depth = 0 := fun hd g => hs.below_shallow ht hd
  have hl : (∀ g ∈ fs, g.depth = 0) → fs.any Frame.loops = false := fun h =>
    List.any_eq_false.mpr fun g hg => by simp [(Frame.outside (h g hg)).2.2]
  obtain rfl | rfl := he
  · obtain ⟨pid, j, rfl, -, -, -, rfl⟩ := hfrom
    rw [untilAsleep_append (hfs (Nat.le_refl _)), List.any_append, hl (hfs (Nat.le_refl _))]
    exact ⟨rfl, rfl, fun h => by cases h⟩
  · obtain ⟨rfl, -, rfl⟩ := hfrom
    rw [untilAsleep_append (hfs (Nat.le_refl _)), List.any_append, hl (hfs (Nat.le_refl _))]
    exact ⟨rfl, rfl, fun _ => Ctx.eq_proc (hs.top_of ht)⟩

/-- A process that is about to sleep holds its lock, or is in its window. -/
theorem Ok.falls_window (hc : Clear s c) (he : e = .kill i) (hi : .proc i ≠ s.cur c) :
    untilAsleep (s.stack (.proc i)) = false := by
  subst he
  obtain ⟨ch, hstep⟩ := ht.step
  obtain ⟨pid, j, rfl, hj, hpid, -⟩ := (step_from hstep).1
  have hw : window (s.stack (.proc i)) = false := by
    unfold Clear at hc
    rw [ht.top] at hc
    exact hc i (by simp [Frame.victim, hj, hpid])
  simp only [window, Bool.or_eq_false_iff, Bool.and_eq_false_iff] at hw
  have hno : (s.stack (.proc i)).any Frame.falls = true →
      (s.stack (.proc i)).any Frame.isSleep = true := by
    intro h
    obtain ⟨g, hg, hfalls⟩ := List.any_eq_true.mp h
    refine List.any_eq_true.mpr ⟨g, hg, ?_⟩
    cases g with
    | sleep => rfl
    | sleeping q x lk =>
      have hq := (hs.own _ _ hg).1
      cases hq
      exact absurd (List.mem_singleton.mpr rfl)
        (hs.guard_stays ht hg (fun h => absurd h hi) (l := .proc i) (by simp [Frame.held])
          (by simp) (by simp))
    | _ => cases hfalls
  simp only [untilAsleep, Bool.or_eq_false_iff, Bool.and_eq_false_iff]
  refine ⟨hw.1, ?_⟩
  obtain h | h := hw.2
  · left
    by_contra hf
    rw [Bool.not_eq_false] at hf
    rw [hno hf] at h
    cases h
  · exact Or.inr h

variable (hx : KillOk s)
include hx

theorem KillOk.asleep_step (hp : AsleepInLoop t p) : (t.data.proc p).killed = false := by
  obtain ⟨hst, hl⟩ := hp
  obtain ⟨ch, hstep⟩ := ht.step
  have hfrom := (step_from hstep).1
  have htr := hs.trans ht p
  rw [hst] at htr
  generalize ha : (s.data.proc p).state = a at htr
  obtain ⟨hu, -, hk⟩ | ⟨hu, -, hk⟩ | ⟨i, ho, hu, -⟩ := ht.stack_cases (.proc p)
  · rw [hk] at hl
    cases htr with
    | sleep x => exact absurd (hs.own_eff ht (Or.inr (Or.inl ⟨x, rfl⟩))).1.symm hu
    | stay =>
      have hks := hx.asleep p ⟨ha, hl⟩
      rw [ht.data] at hst ⊢
      obtain h | h | rfl | rfl := apply_killed (e := e) (d := s.data) (p := p)
      · exact h.trans hks
      · exact h
      · simp [Eff.apply, ha] at hst
      · exact absurd ((hs.kill_outside ht (Or.inr rfl)).2.2 rfl).symm hu
  · rw [hk] at hl
    cases htr with
    | sleep x =>
      obtain ⟨lk, rfl, -, rfl⟩ := hfrom
      have hks : (s.data.proc p).killed = false := by
        refine hx.falls p ?_
        rw [hu, ht.top]
        simpa [untilAsleep, Frame.falls, Frame.loops] using Or.inr hl
      rw [ht.data]
      simpa [Eff.apply] using hks
    | stay =>
      obtain h | ⟨b, rfl, -⟩ | ⟨-, h⟩ := hs.own_state ht hu.symm
      · rw [ha] at h
        cases h
      · by_cases ho : ∃ q, op = .sched q
        · obtain ⟨q, ho⟩ := ho
          obtain ⟨-, -, -, rfl, b', -, rfl⟩ := hs.sched ht ho
          have hks := hx.asleep p ⟨ha, by rw [hu, ht.top]; exact hl⟩
          rw [ht.data]
          exact hks
        · obtain ⟨q, h, -⟩ := hs.leaving_step ht rfl fun q hq => ho ⟨q, hq⟩
          cases h
      · rw [ha] at h
        cases h
  · obtain ⟨hused, -, rfl, -⟩ := hs.context ht ho
    cases hu
    rw [ht.data] at hst
    rw [show (s.data.proc p).state = _ from hst] at hused
    cases hused

variable (hc : Clear s c)
include hc

theorem KillOk.falls_step (hz : untilAsleep (t.stack (.proc p)) = true) :
    (t.data.proc p).killed = false := by
  have hfalse : (s.data.proc p).killed = false → (e ≠ .kill p ∧ e ≠ .setkilled p) →
      (t.data.proc p).killed = false := by
    intro hk hne
    rw [ht.data]
    obtain h | h | h | h := apply_killed (e := e) (d := s.data) (p := p)
    · exact h.trans hk
    · exact h
    · exact absurd h hne.1
    · exact absurd h hne.2
  obtain ⟨hu, -, hk⟩ | ⟨hu, -, hk⟩ | ⟨i, -, -, hk⟩ := ht.stack_cases (.proc p)
  · rw [hk] at hz
    refine hfalse (hx.falls p hz) ⟨fun he => ?_, fun he => ?_⟩
    · rw [hs.falls_window ht hc he hu] at hz
      cases hz
    · exact hu ((hs.kill_outside ht (Or.inr he)).2.2 he).symm
  · rw [hk] at hz
    have hk' : (s.data.proc p).killed = false := by
      have hr := hx.read _ f (by rw [ht.top]; exact List.mem_cons_self ..)
      obtain h | h := hs.untilAsleep_own ht hr hu.symm hz
      · exact hx.falls p (by rw [hu, ht.top]; exact h)
      · exact h
    refine hfalse hk' ⟨fun he => ?_, fun he => ?_⟩
    · rw [(hs.kill_outside ht (Or.inl he)).1] at hz
      cases hz
    · rw [(hs.kill_outside ht (Or.inr he)).1] at hz
      cases hz
  · rw [hk] at hz
    cases hz

theorem KillOk.turn : KillOk t where
  read := by
    refine ht.frames hx.read (fun hf => ?_) (fun u f' hf' hu => hs.read_stays ht hf' hu)
      fun i => ⟨trivial, trivial⟩
    obtain ⟨ch, hstep⟩ := ht.step
    rw [ht.data]
    exact step_read hstep hf
  falls _ := hx.falls_step hs ht hc
  asleep _ := hx.asleep_step hs ht

end

/-- **A killed process does not stay asleep** in a loop that tests `killed`, if no `kill` falls
between the test and the `acquire` of `sleep`. -/
theorem killed_awake (h : Runs.Steps Smp.step (fun s a => Clear s a.1) boot s) (p : Fin NPROC) :
    ¬ (AsleepInLoop s p ∧ (s.data.proc p).killed = true) := by
  rintro ⟨hp, hk⟩
  have hx : Ok s ∧ KillOk s := by
    refine h.invariant (I := fun s => Ok s ∧ KillOk s) ⟨Ok.boot, KillOk.boot⟩ ?_
    rintro s ⟨c, ch⟩ t ⟨hs, hx⟩ hc hl
    obtain ⟨f, fs, op, e, gs, ht⟩ := step_turn hl
    exact ⟨hs.turn ht, hx.turn hs ht hc⟩
  rw [hx.2.asleep p hp] at hk
  cases hk

/-- A process waits for input on a pipe when it is killed; it does not sleep any more. -/
theorem killed_awake_piperead : ∃ s : Smp (Fin 2),
    Runs.Steps Smp.step (fun s a => Clear s a.1) boot s ∧ (s.data.proc 1).killed = true ∧
    ¬ (AsleepInLoop s 1 ∧ (s.data.proc 1).killed = true) := by
  have hrun : ∃ s : Smp (Fin 2), Runs.Steps Smp.step (fun s a => Clear s a.1) boot s ∧
      (s.data.proc 1).killed = true :=
    Runs.Steps.of_any (go 0 130 ++ [(0, .fork)] ++ go 0 11 ++ go 1 130 ++
      [(1, .enter (.pipe 0)), (1, .go), (1, .test), (1, .go), (1, .go), (1, .sleep 0)] ++ go 1 4 ++
      [(0, .kill 2)] ++ go 0 4) (by decide +kernel)
  obtain ⟨s, hr, hk⟩ := hrun
  exact ⟨s, hr, hk, killed_awake hr 1⟩

/-- **A killed process stays asleep**: the `kill` falls between the test of `killed` and `sleep` in
`piperead`, and has returned. -/
theorem killed_asleep : ∃ s : Smp (Fin 2), Reach s ∧ (s.stack (.proc initproc)).length = 1 ∧
    AsleepInLoop s 1 ∧ (s.data.proc 1).killed = true :=
  Runs.Steps.of_any (go 0 130 ++ [(0, .fork)] ++ go 0 11 ++ go 1 130 ++
    [(1, .enter (.pipe 0)), (1, .go), (1, .test), (1, .go), (1, .go)] ++ [(0, .kill 2)] ++ go 0 4 ++
    [(1, .sleep 0)] ++ go 1 4) (by decide +kernel)

end Smp

end Xv6
