import Xv6.Sync.Machine

/-!
# Wakeup — `sleep` and `wakeup` lose no wakeup

* `Frame.Owes`: a call of `wakeup` that is in progress, or still to come, and will find `p`.
* `Smp.Ok.owes_stays`: the call is not forgotten while `p` sleeps on the channel.
* `no_lost_wakeup`: whoever sleeps although its condition is true will be woken.
-/

namespace Xv6

/-- Process `p` sleeps on channel `x`. -/
def Data.Asleep (d : Data) (p : Fin NPROC) (x : Chan) : Prop :=
  (d.proc p).state = .SLEEPING ∧ (d.proc p).chan = some x

instance (d : Data) (p : Fin NPROC) (x : Chan) : Decidable (d.Asleep p x) :=
  inferInstanceAs (Decidable (_ ∧ _))

/-- `wakeup` of channel `x` is in progress and has not come to `p`, or is still to be called. -/
def Frame.Owes (x : Chan) (p : Fin NPROC) : Frame → Prop
  | wakeup y j => y = some x ∧ j ≤ p.val
  | crit k _ todo | test _ k todo | testing _ k _ todo | tested _ k todo => ∃ n ∈ todo, x = .of k n
  | _ => False

/-- A sleeper found its condition false. -/
def Frame.Waiting (d : Data) : Frame → Prop
  | sleep p (.of k n) _ | sleeping p (.of k n) _ => d.cond (.of k n) p = false
  | _ => True

section

variable {me : Option (Fin NPROC)} {noff : ℕ} {d : Data} {f : Frame} {ch : Choice} {op : Op}
  {e : Eff} {gs : List Frame} {p : Fin NPROC} {x : Chan} {k : Spin} {n m : ℕ} {todo : List ℕ}

/-- A call of `wakeup` settles what is owed on its channel. -/
theorem owes_wakeup (hm : m ∈ todo) : (Frame.wakeup (some (.of k n)) 0).Owes (.of k m) p ∨
    m ∈ todo.filter (· ≠ n) := by
  by_cases hmn : m = n
  · subst hmn
    exact Or.inl ⟨rfl, Nat.zero_le _⟩
  · exact Or.inr (List.mem_filter.mpr ⟨hm, by simpa using hmn⟩)

theorem code_owes (hs : f.code me d ch = some (op, e, gs)) (hf : f.Owes x p) (hme : me ≠ some p) :
    (∃ g ∈ gs, g.Owes x p) ∨ e = .wakeup p (some x) := by
  cases f with
  | wakeup y j =>
    obtain ⟨rfl, hj⟩ := hf
    simp only [Frame.code] at hs
    split at hs
    · rename_i hno
      rw [slot_eq_none] at hno
      have := p.isLt
      omega
    · rename_i i hi
      rw [slot_eq_some] at hi
      by_cases hip : i = p
      · subst hip
        rw [if_neg hme] at hs
        cases hs
        exact Or.inr rfl
      · have hlt : j + 1 ≤ p.val := by
          have : i.val ≠ p.val := fun h => hip (Fin.ext h)
          omega
        left
        split_ifs at hs
        all_goals cases hs
        · exact ⟨_, List.mem_singleton.mpr rfl, rfl, hlt⟩
        · exact ⟨_, List.mem_cons_of_mem _ (List.mem_singleton.mpr rfl), rfl, hlt⟩
  | crit k h todo =>
    obtain ⟨m, hm, rfl⟩ := hf
    left
    simp only [Frame.code, Frame.section_] at hs
    repeat' split at hs
    all_goals cases hs
    · exact ⟨_, List.mem_singleton.mpr rfl, m, List.mem_cons_of_mem _ hm, rfl⟩
    · exact ⟨_, List.mem_singleton.mpr rfl, m, hm, rfl⟩
    · obtain h1 | h1 := owes_wakeup hm
      · exact ⟨_, List.mem_cons_self .., h1⟩
      · exact ⟨_, List.mem_cons_of_mem _ (List.mem_singleton.mpr rfl), m, h1, rfl⟩
    · exact ⟨_, List.mem_cons_of_mem _ (List.mem_singleton.mpr rfl), m, hm, rfl⟩
    · exact ⟨_, List.mem_singleton.mpr rfl, m, hm, rfl⟩
    · exact ⟨_, List.mem_cons_of_mem _ (List.mem_singleton.mpr rfl), m, hm, rfl⟩
    · exact ⟨_, List.mem_singleton.mpr rfl, m, hm, rfl⟩
    · cases hm
    · exact ⟨_, List.mem_singleton.mpr rfl, m, hm, rfl⟩
    · subst_vars
      cases hm
  | test q k todo =>
    cases hs
    exact Or.inl ⟨_, List.mem_singleton.mpr rfl, hf⟩
  | testing q k b todo =>
    cases hs
    left
    split_ifs
    · exact ⟨_, List.mem_singleton.mpr rfl, hf⟩
    · exact ⟨_, List.mem_singleton.mpr rfl, hf⟩
  | tested q k todo =>
    obtain ⟨m, hm, rfl⟩ := hf
    left
    simp only [Frame.code] at hs
    repeat' split at hs
    all_goals cases hs
    · obtain h1 | h1 := owes_wakeup hm
      · exact ⟨_, List.mem_cons_self .., h1⟩
      · exact ⟨_, List.mem_cons_of_mem _ (List.mem_singleton.mpr rfl), m, h1, rfl⟩
    · rename_i h1
      rw [h1.1] at hm
      cases hm
    · exact ⟨_, List.mem_singleton.mpr rfl, m, hm, rfl⟩
  | _ => exact hf.elim

/-- **A call of `wakeup` stays owed** until it comes to the process. -/
theorem step_owes (hs : f.step me noff d ch = some (op, e, gs)) (hf : f.Owes x p)
    (hme : me ≠ some p) : (∃ g ∈ gs, g.Owes x p) ∨ e = .wakeup p (some x) := by
  obtain ⟨-, rfl, rfl, k, -, rfl⟩ | ⟨-, rfl, rfl, q, -, rfl⟩ | hs := step_cases hs
  · exact Or.inl ⟨f, List.mem_cons_of_mem _ (List.mem_singleton.mpr rfl), hf⟩
  · exact Or.inl ⟨f, List.mem_cons_of_mem _ (List.mem_singleton.mpr rfl), hf⟩
  · exact code_owes hs hf hme

theorem code_waiting (hs : f.code me d ch = some (op, e, gs)) (hf : f.Waiting d) :
    gs.Forall (Frame.Waiting (e.apply d)) := by
  cases f with
  | user p =>
    simp only [Frame.code, Frame.call] at hs
    repeat' split at hs
    all_goals cases hs
    all_goals first | exact trivial | exact ⟨trivial, trivial⟩
  | crit k h todo =>
    simp only [Frame.code, Frame.section_] at hs
    repeat' split at hs
    all_goals cases hs
    all_goals first | exact trivial | exact ⟨trivial, trivial⟩ | exact ⟨‹_›, trivial⟩
  | tested q k todo =>
    simp only [Frame.code] at hs
    repeat' split at hs
    all_goals cases hs
    all_goals first | exact trivial | exact ⟨trivial, trivial⟩ | exact ⟨And.right ‹_›, trivial⟩
  | sleep q y lk =>
    cases hs
    cases y
    all_goals exact hf
  | _ =>
    simp only [Frame.code] at hs
    repeat' split at hs
    all_goals cases hs
    all_goals first | exact trivial | exact ⟨trivial, trivial⟩

theorem step_waiting (hs : f.step me noff d ch = some (op, e, gs)) (hf : f.Waiting d) :
    ∀ g ∈ gs, g.Waiting (e.apply d) := by
  rw [← List.forall_iff_forall_mem]
  obtain ⟨-, rfl, rfl, k, -, rfl⟩ | ⟨-, rfl, rfl, q, -, rfl⟩ | hs := step_cases hs
  · exact ⟨trivial, hf⟩
  · exact ⟨trivial, hf⟩
  · exact code_waiting hs hf

/-- `wakeup` wakes the process. -/
theorem not_asleep_wakeup : ¬ (Eff.apply d (.wakeup p (some x))).Asleep p x := by
  rintro ⟨hst, hch⟩
  simp only [Eff.apply] at hst hch
  split_ifs at hst hch with h
  · rw [Data.set_proc_self] at hst
    cases hst
  · exact h ⟨hst, hch⟩

end

namespace Smp

variable {C : Type} [DecidableEq C] {s t : Smp C} {c : C} {f f' : Frame} {fs : List Frame}
  {op : Op} {e : Eff} {gs : List Frame} {u : Ctx C} {p : Fin NPROC} {x : Chan} {k : Spin} {n : ℕ}

section

variable (hs : Ok s) (ht : Turn s t c f fs op e gs)
include hs ht

/-- The process that steps does not sleep. -/
theorem Ok.awake (hp : s.cpuproc c = some p) (hf : f.leaving = false) :
    (s.data.proc p).state = .RUNNING :=
  hs.state_running ht (Ctx.eq_proc (hs.self_eq c ▸ hp)) hf

/-- A process falls asleep by itself. -/
theorem Ok.asleep_before (h : t.data.Asleep p x) : s.data.Asleep p x ∨
    ∃ lk, f = .sleeping p x lk ∧ e = .sleep p x := by
  obtain ⟨hst, hch⟩ := h
  obtain ⟨ch, hstep⟩ := ht.step
  have hfrom := (step_from hstep).1
  have hpre := hs.pre ht
  have htr := hs.trans ht p
  rw [hst] at htr
  rw [ht.data] at hch
  generalize ha : (s.data.proc p).state = a at htr
  cases htr with
  | stay =>
    obtain hc | ⟨y, rfl⟩ | rfl | rfl | ⟨q, rfl⟩ := apply_chan (e := e) (d := s.data) (i := p)
    · exact Or.inl ⟨ha, hc ▸ hch⟩
    · rw [show (s.data.proc p).state = _ from hpre] at ha
      cases ha
    · obtain ⟨y, rfl, -⟩ := hfrom
      have hof := hs.top_of ht
      rw [hs.state_running ht (Ctx.eq_proc hof) rfl] at ha
      cases ha
    · rw [show (s.data.proc p).state = _ from hpre] at ha
      cases ha
    · rw [show (s.data.proc p).state = _ from hpre] at ha
      cases ha
  | sleep y =>
    obtain ⟨lk, rfl, -⟩ := hfrom
    have hxy : y = x := by simpa [Eff.apply] using hch
    subst hxy
    exact Or.inr ⟨lk, rfl, rfl⟩

/-- **A wakeup that is owed stays owed** by its thread while the process sleeps. -/
theorem Ok.owes_stays (hf : f' ∈ s.stack u) (ho : f'.Owes x p) (hp : s.data.Asleep p x)
    (hp' : t.data.Asleep p x) : ∃ g ∈ t.stack u, g.Owes x p := by
  obtain ⟨hu, -, hk⟩ | ⟨rfl, -, hk⟩ | ⟨i, hctx, rfl, -⟩ := ht.stack_cases u
  · exact ⟨f', hk ▸ hf, ho⟩
  · rw [ht.top] at hf
    obtain rfl | hf := List.mem_cons.mp hf
    · obtain ⟨ch, hstep⟩ := ht.step
      have hme : s.cpuproc c ≠ some p := by
        intro hme
        have hl : f'.leaving = false := by
          cases f' with
          | swtch | exitRel => exact ho.elim
          | _ => rfl
        have := hs.awake ht hme hl
        rw [hp.1] at this
        cases this
      obtain ⟨g, hg, hgo⟩ | rfl := step_owes hstep ho hme
      · exact ⟨g, hk ▸ List.mem_append_left _ hg, hgo⟩
      · rw [ht.data] at hp'
        exact absurd hp' not_asleep_wakeup
    · exact ⟨f', hk ▸ List.mem_append_right _ hf, ho⟩
  · obtain ⟨hst, -⟩ := hs.context ht hctx
    obtain ⟨b, hb | hb⟩ := hs.fresh i (Or.inr hst)
    all_goals
      rw [hb] at hf
      simp only [List.mem_cons, List.not_mem_nil, or_false] at hf
    · rw [hf] at ho
      exact ho.elim
    · obtain rfl | rfl := hf
      all_goals exact ho.elim

/-- What a sleeper has found stays so while it holds the lock. -/
theorem Ok.waiting_stays (hf : f' ∈ s.stack u) (hu : u = s.cur c → f' ∈ fs)
    (h : f'.Waiting s.data) : f'.Waiting t.data := by
  have hkeep : ∀ q k n, Lock.spin k ∈ f'.held → (∀ p b, f' ≠ .back p b) → (∀ p, f' ≠ .dispatched p) →
      s.data.cond (.of k n) q = false → t.data.cond (.of k n) q = false := by
    intro q k n hl hb hd hc
    rw [ht.data]
    obtain hc' | ⟨v, rfl, -⟩ := apply_cond (e := e) (d := s.data) (x := .of k n) (i := q)
    · exact hc'.trans hc
    · exact absurd (List.mem_singleton.mpr rfl) (hs.guard_stays ht hf hu hl hb hd)
  have hof := hs.own u f' hf
  cases f' with
  | sleep q y lk | sleeping q y lk =>
    cases y with
    | proc i => trivial
    | of k n =>
      obtain ⟨-, ⟨-, hy⟩ | ⟨k', n', rfl, hy⟩⟩ := hof
      · cases hy
      · cases hy
        exact hkeep q k n (by simp [Frame.held]) (by simp) (by simp) h
  | _ => trivial

end

/-- A sleeper has found its condition false; whoever sleeps although its condition is true will be
woken. -/
structure WakeOk (s : Smp C) : Prop where
  waiting : ∀ u, ∀ f ∈ s.stack u, f.Waiting s.data
  owed : ∀ p k n, s.data.Asleep p (.of k n) → s.data.cond (.of k n) p = true →
    ∃ u, ∃ f ∈ s.stack u, f.Owes (.of k n) p

omit [DecidableEq C] in
theorem WakeOk.boot : WakeOk (boot : Smp C) := by
  refine ⟨fun u f hf => ?_, fun p k n h => ?_⟩
  · obtain ⟨-, rfl⟩ | ⟨p, -, ⟨b, rfl⟩ | rfl⟩ := boot_frames hf
    all_goals trivial
  · obtain ⟨h', -⟩ | h' := boot_state (C := C) p
    all_goals
      have := h.1
      rw [h'] at this
      cases this

theorem WakeOk.turn (hw : WakeOk s) (hs : Ok s) (ht : Turn s t c f fs op e gs) : WakeOk t := by
  obtain ⟨ch, hstep⟩ := ht.step
  have htop : f ∈ s.stack (s.cur c) := by
    rw [ht.top]
    exact List.mem_cons_self ..
  refine ⟨?_, fun p k n hp hc => ?_⟩
  · refine ht.frames hw.waiting (fun hf => ?_) (fun u f' hf' hu => hs.waiting_stays ht hf' hu)
      fun i => ⟨trivial, trivial⟩
    rw [ht.data]
    exact step_waiting hstep hf
  · obtain hps | ⟨lk, rfl, rfl⟩ := hs.asleep_before ht hp
    · by_cases hcs : s.data.cond (.of k n) p = true
      · obtain ⟨u, g, hg, ho⟩ := hw.owed p k n hps hcs
        exact ⟨u, hs.owes_stays ht hg ho hps hp⟩
      · -- the condition has become true in this step
        rw [ht.data] at hc
        obtain hc' | ⟨v, rfl, hv⟩ := apply_cond (e := e) (d := s.data) (x := .of k n) (i := p)
        · exact absurd (hc' ▸ hc) hcs
        · obtain ⟨k', m, h, todo, hk, rfl, -, rfl | ⟨-, hle⟩⟩ := (step_from hstep).1
          · cases hk
            refine ⟨s.cur c, .crit k h (n :: todo), ?_, n, List.mem_cons_self .., rfl⟩
            rw [hs.stack_own ht]
            exact List.mem_cons_self ..
          · exact absurd (hle p (hv ▸ hc)) hcs
    · have hfalse : s.data.cond (.of k n) p = false := hw.waiting _ _ htop
      rw [ht.data] at hc
      rw [show (Eff.apply s.data (.sleep p (.of k n))).cond = s.data.cond from rfl, hfalse] at hc
      cases hc

theorem Reach.wakeOk (h : Reach s) : WakeOk s :=
  h.invariant WakeOk.boot WakeOk.turn

/-- **No wakeup is lost**: in no reachable state a process sleeps on a channel, its condition is
true, and every call of `wakeup` that this asks for has been completed, or has passed the process. -/
theorem no_lost_wakeup (hr : Reach s) (p : Fin NPROC) (k : Spin) (n : ℕ) :
    ¬ (s.data.Asleep p (.of k n) ∧ s.data.cond (.of k n) p = true ∧
      ∀ u, ∀ f ∈ s.stack u, ¬ f.Owes (.of k n) p) := by
  rintro ⟨hp, hc, hno⟩
  obtain ⟨u, f, hf, ho⟩ := hr.wakeOk.owed p k n hp hc
  exact hno u f hf ho

/-- The first process sleeps until `ticks` changes, and a clock interrupt on the other CPU has just
changed it. -/
theorem no_lost_wakeup_clockintr : ∃ s : Smp (Fin 2), Reach s ∧
    s.data.Asleep initproc (.of .tickslock 0) ∧
    s.data.cond (.of .tickslock 0) initproc = true ∧
    ¬ (s.data.Asleep initproc (.of .tickslock 0) ∧ s.data.cond (.of .tickslock 0) initproc = true ∧
      ∀ u, ∀ f ∈ s.stack u, ¬ f.Owes (.of .tickslock 0) initproc) := by
  have hrun : ∃ s : Smp (Fin 2), Reach s ∧ s.data.Asleep initproc (.of .tickslock 0) ∧
      s.data.cond (.of .tickslock 0) initproc = true :=
    Runs.Steps.of_any (go 0 130 ++ [(0, .enter .tickslock), (0, .go), (0, .sleep 0)] ++ go 0 3 ++
      [(1, .intr .tickslock), (1, .go), (1, .make 0 fun _ => true)]) (by decide +kernel)
  obtain ⟨s, hr, hp, hc⟩ := hrun
  exact ⟨s, hr, hp, hc, no_lost_wakeup hr initproc .tickslock 0⟩

end Smp

end Xv6
