import Xv6.Sync.IntrOff

/-!
# IntrRuns — every step keeps interrupts off while locks are held

`instr_ok`, `scheduler_ok` and `step_ok` go through the steps: each keeps the invariant of IntrOff or
is one of two panics, that of a thread which acquires its own lock and that of a zombie which runs.
-/

namespace Xv6.Intr

/-- The two panics of a caller; the state is good otherwise. -/
def Good (P : Machine → Prop) : Except Panic Machine → Prop
  | .ok t => P t
  | .error m => m = "acquire" ∨ m = "zombie exit"

namespace Machine

variable {s t u : Machine} {c d p q k n : ℕ} {l : Lk} {a : Push} {i : Instr} {is : List Instr}
  {as : List Push} {r : Except Panic Machine} {b pbs better : Bool}

theorem acquire_error {m : Panic} (h : s.acquire c l = .error m) : m = "acquire" := by
  unfold Machine.acquire at h
  dsimp only at h
  split_ifs at h
  cases h
  rfl

/-- The interrupt bit is set only by a thread that has pushed nothing. -/
theorem Prim.setIntr (h : s.Ok) (hb : b = true → s.pushed (s.on c) = []) :
    Prim c s (s.setCpu c { s.cpu c with intr := b }) (s.pushed (s.on c)) := by
  have hcpu : (s.setCpu c { s.cpu c with intr := b }).cpu c = { s.cpu c with intr := b } :=
    Function.update_self _ _ _
  have hon : (s.setCpu c { s.cpu c with intr := b }).on c = s.on c := by rw [Machine.on, hcpu]; rfl
  have hf : Frame c s (s.setCpu c { s.cpu c with intr := b }) :=
    ⟨fun _ hd => Function.update_of_ne hd _ _, hon, fun _ _ => rfl, fun _ _ => rfl, fun _ _ => rfl,
      fun _ _ => rfl, fun _ _ => rfl⟩
  have hl := h.cpu c
  refine ⟨hf, rfl, rfl, rfl, rfl, rfl, ⟨?_, fun hne => ?_, fun hne hb => ?_⟩,
    h.agrees_of_perm hf rfl (List.Perm.refl _), .of_pushed rfl rfl fun d p hd => ?_⟩
  · rw [hcpu, hon]
    exact hl.noff
  · rw [hon] at hne
    rw [hcpu]
    exact Bool.eq_false_iff.mpr fun h1 => hne (hb h1)
  · rw [hon] at hne hb ⊢
    rw [hcpu]
    exact hl.intena hne hb
  · rw [hf.on_eq] at hd
    exact hd

/-! ## Instructions -/

/-- What the first instruction of a thread needs. -/
theorem Ok.head (h : s.Ok) (hi : s.script (s.on c) = i :: is) :
    WF (s.on c) (Ends s.pc (s.on c)) (i :: is) (s.pushed (s.on c)) := hi ▸ (h.cpu c).wf

theorem Ok.leaving (h : s.Ok) (hi : s.script (s.on c) = i :: is) (hon : s.on c = .proc p) :
    (s.state p = .RUNNING ↔ ¬ Leaving p (i :: is)) ∧
      (Leaving p (i :: is) → .lock (.proc p) ∈ s.pushed (s.on c)) := by
  have hrun := (h.cpu c).running p hon
  rw [hon] at hi ⊢
  rw [← hi]
  exact hrun

/-- An instruction that neither begins nor ends the way to `sched`. -/
theorem Ok.step_instr (h : s.Ok) (hi : s.script (s.on c) = i :: is) (hp : Prim c s t as)
    {js : List Instr} (hwf : WF (s.on c) (Ends s.pc (s.on c)) js as)
    (hleave : ∀ p, s.on c = .proc p → (Leaving p js ↔ Leaving p (i :: is)) ∧
      (Leaving p js → .lock (.proc p) ∈ as)) : (t.setScript (s.on c) js).Ok := by
  refine h.step_prim hp (fun hon => (h.cpu c).handler ?_) hwf fun p hon => ?_
  · rw [← hon, hi]
    exact List.cons_ne_nil _ _
  · rw [← hon, hi]
    exact hleave p hon

theorem Ok.instr_acquire (h : s.Ok) (hi : s.script (s.on c) = .acquire l :: is)
    (hs : s.acquire c l = .ok t) : (t.setScript (s.on c) (.take l :: is)).Ok := by
  obtain ⟨hstays, hwf⟩ := h.head hi
  exact h.step_instr hi (Prim.acquire h hs) ⟨_, rfl, hstays, hwf⟩
    fun p _ => ⟨Iff.rfl, fun hn => absurd hn id⟩

theorem Ok.instr_take (h : s.Ok) (hi : s.script (s.on c) = .take l :: is)
    (hs : s.take c l = some t) : (t.setScript (s.on c) is).Ok := by
  obtain ⟨bs, hp, hstays, hwf⟩ := h.head hi
  refine h.step_instr hi (Prim.take h hs hp) hwf fun p hon => ?_
  exact ⟨⟨fun hn => absurd hn (hstays p hon), fun hn => absurd hn id⟩,
    fun hn => absurd hn (hstays p hon)⟩

theorem Ok.instr_release (h : s.Ok) (hi : s.script (s.on c) = .release l :: is) :
    ∃ t, s.release c l = .ok t ∧ (t.setScript (s.on c) is).Ok ∧ t.pc = s.pc ∧ Matched s t := by
  obtain ⟨hmem, hown, hwf⟩ := h.head hi
  obtain ⟨hr, hp⟩ := Prim.release h hmem
  refine ⟨_, hr, h.step_instr hi hp hwf fun p hon => ⟨⟨fun hn => ?_, And.right⟩, fun hn => ?_⟩, rfl,
    hp.matched⟩
  · exact ⟨fun he => hown p hon he hn, hn⟩
  · have hne : l ≠ .proc p := fun he => hown p hon he hn
    have hlock := (h.leaving hi hon).2 ⟨hne, hn⟩
    refine (List.mem_erase_of_ne fun he => hne ?_).mpr hlock
    cases he
    rfl

theorem Ok.instr_setState {st : procstate} (h : s.Ok) (hon : s.on c = .proc p)
    (hi : s.script (s.on c) = .setState st :: is) : ((s.setState p st).setScript (.proc p) is).Ok := by
  obtain ⟨p', hp', hst, hmem, hleave, hwf⟩ := h.head hi
  obtain rfl : p = p' := by rw [hon] at hp'; cases hp'; rfl
  have hsame : ∀ q, q ≠ p → ((s.setState p st).setScript (.proc p) is).state q = s.state q :=
    fun q hq => Function.update_of_ne hq _ _
  have hf : Frame c s ((s.setState p st).setScript (.proc p) is) :=
    ⟨fun _ _ => rfl, rfl, fun _ _ => rfl, fun _ _ => rfl, fun _ _ => rfl,
      fun u hu => Function.update_of_ne (hon ▸ hu) _ _, fun _ _ => rfl⟩
  have hscript : ((s.setState p st).setScript (.proc p) is).script (.proc p) = is :=
    Function.update_self _ _ _
  have hl := h.cpu c
  refine h.step_thread hf ⟨fun q => ?_, fun q hoff hq => .inl ?_⟩ rfl h.agrees
    ⟨hl.noff, hl.off, hl.intena⟩ ⟨?_, fun q hq => ?_, fun hc => ?_⟩
  · by_cases hqp : q = p
    · subst hqp
      rw [hon] at hmem
      exact .inr (.inl ⟨hon, hmem⟩)
    · exact .inl (hsame q hqp)
  · have hqp : q ≠ p := fun he => hoff c (he ▸ hon)
    rw [hsame q hqp] at hq
    exact ⟨hq, rfl⟩
  · rw [hf.on, hon, hscript, ends_proc]
    rw [hon] at hwf
    exact hwf
  · rw [hf.on, hon] at hq
    cases hq
    rw [hscript]
    have hself : ((s.setState p st).setScript (.proc p) is).state p = st := Function.update_self _ _ _
    rw [hself]
    rw [hon] at hmem
    exact ⟨⟨fun he => absurd he hst, fun hn => absurd hleave hn⟩, fun _ => hmem⟩
  · rw [hf.on, hon] at hc
    cases hc

/-- The state of a process that does not run is changed by another one. -/
theorem Ok.step_state (h : s.Ok) (hoff : s.OffCpu q) (hq : s.state q ≠ .RUNNABLE)
    (hst : t.state q ≠ .RUNNING) (hstate : ∀ p, p ≠ q → t.state p = s.state p)
    (hpark : Active (t.state q) → Active (s.state q) ∧ t.ctx q = s.ctx q ∨ t.ctx q = .forkret)
    (hctx : ∀ p, p ≠ q → t.ctx p = s.ctx p) (hsame : t.cpu = s.cpu ∧ t.lock = s.lock ∧
      t.pc = s.pc ∧ t.script = s.script ∧ t.pushed = s.pushed ∧ t.old = s.old) : t.Ok := by
  obtain ⟨hcpu, hlock, hpc, hscript, hpushed, hold⟩ := hsame
  have hon : ∀ d, t.on d = s.on d := fun d => by simp only [Machine.on, hcpu]
  have hne : ∀ p d, s.on d = .proc p → p ≠ q := fun p d hd he => hoff d (he ▸ hd)
  refine ⟨?_, fun d e hd => ?_, fun d e p hd he => ?_, fun d => ?_, fun p hp hact => ?_⟩
  · simp only [hlock, hpushed, hon]
    exact h.agrees
  · rw [hon] at hd
    exact h.own d e hd
  · rw [hon] at hd he
    exact h.once d e p hd he
  · have hl := h.cpu d
    refine ⟨?_, ?_, ?_, ?_, fun p hp => ?_, fun p hp => ?_, fun r hr hb => ?_, ?_, ?_⟩
    · rw [hcpu, hon, hpushed]
      exact hl.noff
    · rw [hcpu, hon, hpushed]
      exact hl.off
    · rw [hcpu, hon, hpushed, hpc, hold]
      exact hl.intena
    · rw [hon, hpc, hscript, hpushed]
      exact hl.wf
    · rw [hon] at hp
      rw [hstate p (hne p d hp), hscript, hpushed]
      exact hl.running p hp
    · rw [hon] at hp
      rw [hpc, hpushed, hscript]
      exact hl.waiting p hp
    · rw [hon] at hr
      rw [hpc] at hb
      have hbest := hl.best r hr hb
      rw [hstate r fun he => hq (he ▸ hbest)]
      exact hbest
    · rw [hscript, hpc]
      exact hl.handler
    · rw [hpc]
      exact hl.resumes
  · have hp' : s.OffCpu p := fun d hd => hp d (by rw [hon, hd])
    unfold Parked
    rw [hpushed, hscript, hold]
    by_cases hpq : p = q
    · subst hpq
      rcases hpark hact with ⟨hact', hc⟩ | hc
      · rw [hc]
        exact h.parked p hp' hact'
      · exact .inl hc
    · rw [hctx p hpq]
      rw [hstate p hpq] at hact
      exact h.parked p hp' hact

theorem Ok.instr_wake (h : s.Ok) (hi : s.script (s.on c) = .wake q :: is) :
    ((if s.state q = .SLEEPING then s.setState q .RUNNABLE else s).setScript (s.on c) is).Ok := by
  obtain ⟨hmem, hstays, hwf⟩ := h.head hi
  have key : ∀ t : Machine, t.Ok → t.script = s.script → t.on c = s.on c →
      t.pushed = s.pushed → t.pc = s.pc → (t.setScript (s.on c) is).Ok := by
    intro t ht hs hon hp hpc
    rw [← hon]
    refine ht.step_instr (by rw [hon, hs, hi]) (Prim.refl ht) ?_ fun p hp' => ?_
    · rw [hon, hp, hpc]
      exact hwf
    · rw [hon] at hp'
      exact ⟨⟨fun hn => absurd hn (hstays p hp'), fun hn => absurd hn id⟩,
        fun hn => absurd hn (hstays p hp')⟩
  split_ifs with hst
  · have hne : s.on c ≠ .proc q := by
      intro hon
      have hrun := (h.leaving hi hon).1.mpr id
      rw [hst] at hrun
      cases hrun
    have hoff := h.offCpu hmem hne (by rw [hst]; exact fun he => by cases he)
    have hself : (s.setState q .RUNNABLE).state q = .RUNNABLE := Function.update_self _ _ _
    refine key _ (h.step_state hoff ?_ ?_ (fun p hp => Function.update_of_ne hp _ _) (fun _ => .inl ?_)
      (fun _ _ => rfl) ⟨rfl, rfl, rfl, rfl, rfl, rfl⟩) rfl rfl rfl rfl
    · rw [hst]
      exact fun he => by cases he
    · rw [hself]
      exact fun he => by cases he
    · exact ⟨.inr (.inl hst), rfl⟩
  · exact key s h rfl rfl rfl rfl

theorem sched_pc (h : s.sched c p is = .ok t) : t.pc = s.pc := by
  unfold Machine.sched at h
  dsimp only at h
  split_ifs at h
  cases h
  rfl

/-- **An instruction** of the thread on CPU `c`. -/
theorem Ok.instr (h : s.Ok) (hi : s.script (s.on c) = i :: is)
    (hr : s.instr c (s.on c) is i = some r) : Good (fun t => t.Ok ∧ t.pc = s.pc ∧ Matched s t) r := by
  cases i with
  | acquire l =>
    simp only [Machine.instr, Option.some.injEq] at hr
    subst hr
    cases hs : s.acquire c l with
    | error m => exact .inl (acquire_error hs)
    | ok t =>
      have hp := Prim.acquire h hs
      exact ⟨h.instr_acquire hi hs, hp.pc, hp.matched.setScript⟩
  | take l =>
    simp only [Machine.instr, Option.map_eq_some_iff] at hr
    obtain ⟨t, hs, rfl⟩ := hr
    obtain ⟨bs, hp, -, -⟩ := h.head hi
    have hp' := Prim.take h hs hp
    exact ⟨h.instr_take hi hs, hp'.pc, hp'.matched.setScript⟩
  | release l =>
    simp only [Machine.instr, Option.some.injEq] at hr
    subst hr
    obtain ⟨t, ht, hok, hpc, hm⟩ := h.instr_release hi
    rw [ht]
    exact ⟨hok, hpc, hm.setScript⟩
  | setState st =>
    obtain ⟨p, hon, -⟩ := h.head hi
    rw [hon] at hr
    cases hr
    exact ⟨h.instr_setState hon hi, rfl, .of_pushed rfl rfl fun _ _ => id⟩
  | wake q =>
    cases hr
    refine ⟨h.instr_wake hi, ?_, .of_pushed ?_ ?_ fun d p => ?_⟩ <;> split_ifs <;> first | rfl | exact id
  | sched =>
    obtain ⟨p, hon, -⟩ := h.head hi
    rw [hon] at hr hi
    cases hr
    obtain ⟨t, ht, hok⟩ := h.sched hon hi
    rw [ht]
    exact ⟨hok, sched_pc ht, sched_matched hon ht⟩
  | zombieExit =>
    cases hr
    exact .inr rfl
  | sret =>
    simp only [Machine.instr] at hr
    split_ifs at hr with h0
    cases hr
    obtain ⟨hstays, hwf⟩ := h.head hi
    have hp := Prim.setIntr (b := true) h fun _ => h0
    refine ⟨?_, rfl, hp.matched.setScript⟩
    refine h.step_instr hi hp (h0.symm ▸ hwf) fun p hon => ?_
    exact ⟨⟨fun hn => absurd hn (hstays p hon), fun hn => absurd hn id⟩,
      fun hn => absurd hn (hstays p hon)⟩

/-! ## The scheduler -/

/-- Where the scheduler of CPU `c` goes next. -/
theorem Ok.sched_to {pc : SchedPc} (h : s.Ok) (hon : s.on c = .scheduler c)
    (hscript : s.script (.scheduler c) = []) (hp : Prim c s t as) (has : as = held pc)
    (hbest : ∀ q, best pc = some q → best (s.pc c) = some q ∨ s.state q = .RUNNABLE)
    (hres : Resumes pc) (hback : held pc = [] ∨ ¬ IsBack (s.pc c)) : (t.setPc c pc).Ok := by
  subst has
  refine h.step_sched hon hscript hp (fun q hq => ?_) hres fun hne => ?_
  · exact (hbest q hq).elim ((h.cpu c).best q hon) id
  · exact hback.resolve_left hne

/-- Only the scheduler that looks for the highest priority keeps a process in mind. -/
def Tracks (pbs : Bool) (s t : Machine) : Prop :=
  ∀ d, pbs = false → best (s.pc d) = none → best (t.pc d) = none

theorem Tracks.of_pc {pc : SchedPc} (hpc : t.pc = Function.update s.pc c pc)
    (hb : pbs = false → best (s.pc c) = none → best pc = none) : Tracks pbs s t := by
  intro d hpbs hd
  rw [hpc]
  by_cases hdc : d = c
  · subst hdc
    rw [Function.update_self]
    exact hb hpbs hd
  · rw [Function.update_of_ne hdc]
    exact hd

theorem Prim.setPc_pc {pc : SchedPc} (hp : Prim c s t as) :
    (t.setPc c pc).pc = Function.update s.pc c pc := by
  show Function.update t.pc c pc = _
  rw [hp.pc]

/-- CPU `c` is in its scheduler. -/
structure InSched (c : ℕ) (s : Machine) : Prop where
  ok : s.Ok
  on : s.on c = .scheduler c
  script : s.script (.scheduler c) = []

/-- What the scheduler promises of one step. -/
def SchedOk (pbs : Bool) (s : Machine) : Except Panic Machine → Prop :=
  Good fun t => t.Ok ∧ Tracks pbs s t ∧ Matched s t

theorem InSched.pushed_on (h : InSched c s) : s.pushed (s.on c) = held (s.pc c) := by
  have hwf := (h.ok.cpu c).wf
  rw [h.on, h.script] at hwf
  rw [h.on]
  exact hwf

/-- A step of the CPU that ends at `pc`. -/
theorem InSched.to {pc : SchedPc} (h : InSched c s) (hp : Prim c s t as) (has : as = held pc)
    (hbest : ∀ q, best pc = some q → best (s.pc c) = some q ∨ s.state q = .RUNNABLE)
    (hres : Resumes pc) (hback : held pc = [] ∨ ¬ IsBack (s.pc c))
    (htrack : pbs = false → best (s.pc c) = none → best pc = none) :
    SchedOk pbs s (.ok (t.setPc c pc)) :=
  ⟨h.ok.sched_to h.on h.script hp has hbest hres hback, .of_pc hp.setPc_pc htrack, hp.matched.setPc⟩

/-- The scheduler releases a lock and goes on at `pc`. -/
theorem InSched.release {pc : SchedPc} (h : InSched c s) (hmem : .lock l ∈ held (s.pc c))
    (has : (held (s.pc c)).erase (.lock l) = held pc)
    (hbest : ∀ q, best pc = some q → best (s.pc c) = some q ∨ s.state q = .RUNNABLE)
    (hres : Resumes pc) (hback : held pc = [] ∨ ¬ IsBack (s.pc c))
    (htrack : pbs = false → best (s.pc c) = none → best pc = none) :
    SchedOk pbs s ((s.release c l).map fun s => s.setPc c pc) := by
  obtain ⟨hr, hp⟩ := Prim.release h.ok (h.pushed_on ▸ hmem)
  rw [hr]
  exact h.to hp (h.pushed_on ▸ has) hbest hres hback htrack

/-- The scheduler gives the CPU to process `q`. -/
theorem InSched.switchTo {next : SchedPc} (h : InSched c s) (hq : held (s.pc c) = [.lock (.proc q)])
    (hst : s.state q = .RUNNABLE) (hb : ¬ IsBack (s.pc c)) (hres : Resumes (.back q next)) :
    SchedOk pbs s (.ok (s.switchTo c q next)) := by
  obtain ⟨hok, hm⟩ := h.ok.switchTo h.on h.script (h.on ▸ h.pushed_on.trans hq) hst hb hres
  exact ⟨hok, .of_pc (switchTo_frame _).2.1 fun _ _ => rfl, hm⟩

theorem InSched.scan {i : ℕ} {highest : Option ℕ} (h : InSched c s) (hpc : s.pc c = .scan i highest)
    (hr : s.scheduler n pbs better c = some r) : SchedOk pbs s r := by
  have hheld := h.pushed_on
  have hnb : ¬ IsBack (s.pc c) := by
    rw [hpc]
    exact id
  unfold Machine.scheduler at hr
  rw [hpc] at hr hheld
  dsimp only at hr
  split_ifs at hr with hin
  · cases hr
    cases hs : s.acquire c (.proc i) with
    | error m => exact .inl (acquire_error hs)
    | ok t =>
      refine h.to (Prim.acquire h.ok hs) (by rw [hheld]; rfl) (fun q hq => .inl (by rw [hpc]; exact hq))
        trivial (.inr hnb) fun _ hb => ?_
      rw [hpc] at hb
      exact hb
  · cases highest with
    | none =>
      cases hr
      exact h.to (Prim.refl h.ok) hheld (fun q hq => by cases hq) trivial (.inl rfl) fun _ _ => rfl
    | some q =>
      cases hr
      exact h.switchTo (by rw [hpc]; rfl) ((h.ok.cpu c).best q h.on (by rw [hpc]; rfl)) hnb
        ⟨rfl, rfl, id, trivial⟩

theorem InSched.spin {i : ℕ} {highest : Option ℕ} (h : InSched c s) (hpc : s.pc c = .spin i highest)
    (hr : s.scheduler n pbs better c = some r) : SchedOk pbs s r := by
  have hheld := h.pushed_on
  unfold Machine.scheduler at hr
  rw [hpc] at hr hheld
  simp only [Option.map_eq_some_iff] at hr
  obtain ⟨t, hs, rfl⟩ := hr
  refine h.to (Prim.take h.ok hs hheld) rfl (fun q hq => .inl (by rw [hpc]; exact hq)) trivial
    (.inr (by rw [hpc]; exact id)) fun _ hb => ?_
  rw [hpc] at hb
  exact hb

/-- The process is not chosen: its lock is released. -/
theorem InSched.skip {i : ℕ} {highest : Option ℕ} (h : InSched c s) (hpc : s.pc c = .look i highest) :
    SchedOk pbs s ((s.release c (.proc i)).map fun s => s.setPc c (.scan (i + 1) highest)) := by
  refine h.release ?_ ?_ (fun q hq => .inl ?_) trivial (.inr ?_) fun _ hb => ?_
  · rw [hpc]
    exact List.mem_cons_self
  · rw [hpc]
    exact List.erase_cons_head ..
  · rw [hpc]
    exact hq
  · rw [hpc]
    exact id
  · rw [hpc] at hb
    exact hb

/-- Process `i` is better than `q`, and the lock of `q` is released. -/
theorem InSched.replace {i : ℕ} (h : InSched c s) (hpc : s.pc c = .look i (some q))
    (hst : s.state i = .RUNNABLE) :
    SchedOk true s ((s.release c (.proc q)).map fun s => s.setPc c (.scan (i + 1) (some i))) := by
  refine h.release ?_ ?_ (fun r hr => .inr ?_) trivial (.inr ?_) fun hf => by cases hf
  · rw [hpc]
    exact List.mem_cons_of_mem _ List.mem_cons_self
  · rw [hpc]
    show List.erase [.lock (.proc i), .lock (.proc q)] _ = [Push.lock (.proc i)]
    by_cases hiq : i = q
    · rw [hiq, List.erase_cons_head]
    · rw [List.erase_cons_tail, List.erase_cons_head]
      rw [beq_iff_eq]
      exact fun he => hiq (by cases he; rfl)
  · cases hr
    exact hst
  · rw [hpc]
    exact id

theorem InSched.look {i : ℕ} {highest : Option ℕ} (h : InSched c s) (hpc : s.pc c = .look i highest)
    (hbest : pbs = false → best (s.pc c) = none) (hr : s.scheduler n pbs better c = some r) :
    SchedOk pbs s r := by
  have hheld := h.pushed_on
  have hnb : ¬ IsBack (s.pc c) := by
    rw [hpc]
    exact id
  unfold Machine.scheduler at hr
  rw [hpc] at hr hheld
  dsimp only at hr
  by_cases hst : s.state i = .RUNNABLE
  swap
  · rw [if_neg hst] at hr
    cases hr
    exact h.skip hpc
  rw [if_pos hst] at hr
  cases pbs with
  | false =>
    cases hr
    obtain rfl : highest = none := by
      have hb := hbest rfl
      rw [hpc] at hb
      exact hb
    exact h.switchTo (by rw [hpc]; rfl) hst hnb ⟨rfl, rfl, id, trivial⟩
  | true =>
    cases highest with
    | none =>
      cases hr
      refine h.to (Prim.refl h.ok) hheld (fun q hq => .inr ?_) trivial (.inr hnb) fun hf => by cases hf
      cases hq
      exact hst
    | some q =>
      cases better with
      | false =>
        cases hr
        exact h.skip hpc
      | true =>
        cases hr
        exact h.replace hpc hst

theorem InSched.back {next : SchedPc} (h : InSched c s) (hpc : s.pc c = .back p next) :
    SchedOk pbs s ((s.release c (.proc p)).map fun s => s.setPc c next) := by
  have hres := (h.ok.cpu c).resumes
  rw [hpc] at hres
  obtain ⟨hnone, hbn, -, hres⟩ := hres
  refine h.release ?_ ?_ (fun q hq => ?_) hres (.inl hnone) fun _ _ => hbn
  · rw [hpc]
    exact List.mem_cons_self
  · rw [hpc, hnone]
    exact List.erase_cons_head ..
  · rw [hbn] at hq
    cases hq

/-- **A step of the scheduler.** -/
theorem Ok.scheduler (h : s.Ok) (hon : s.on c = .scheduler c) (hscript : s.script (.scheduler c) = [])
    (hbest : pbs = false → best (s.pc c) = none) (hr : s.scheduler n pbs better c = some r) :
    Good (fun t => t.Ok ∧ Tracks pbs s t ∧ Matched s t) r := by
  have hin : InSched c s := ⟨h, hon, hscript⟩
  cases hpc : s.pc c with
  | top =>
    have hheld := hin.pushed_on
    unfold Machine.scheduler at hr
    rw [hpc] at hr hheld
    cases hr
    exact hin.to (Prim.setIntr h fun _ => hheld) hheld (fun q hq => by cases hq) trivial (.inl rfl)
      fun _ _ => rfl
  | scan i highest => exact hin.scan hpc hr
  | spin i highest => exact hin.spin hpc hr
  | look i highest => exact hin.look hpc hbest hr
  | back p next =>
    unfold Machine.scheduler at hr
    rw [hpc] at hr
    cases hr
    exact hin.back hpc

/-! ## Between the instructions -/

/-- A thread in no call may push and pop what it likes. -/
theorem Ok.idle (h : s.Ok) (hi : s.idle c = true) :
    (∀ as, WF (s.on c) (Ends s.pc (s.on c)) (s.script (s.on c)) as) ∧
      Stays (s.on c) (s.script (s.on c)) ∧ (s.on c = .scheduler c → held (s.pc c) = []) := by
  unfold Machine.idle at hi
  split at hi
  · next p hscript hon =>
    rw [hscript, hon]
    exact ⟨fun _ => trivial, fun _ _ => id, fun he => by cases he⟩
  · next is t hscript =>
    have hwf := (h.cpu c).wf
    rw [hscript] at hwf ⊢
    refine ⟨fun _ => hwf, fun _ _ => id, fun hon => (h.cpu c).handler ?_⟩
    rw [← hon, hscript]
    exact List.cons_ne_nil _ _
  · cases hi

/-- A thread in no call goes into a call. -/
theorem Ok.step_call {js : List Instr} (h : s.Ok) (hi : s.idle c = true) (hp : Prim c s t as)
    (hwf : WF (s.on c) (Ends s.pc (s.on c)) js as) (hstays : Stays (s.on c) js) :
    (t.setScript (s.on c) js).Ok := by
  obtain ⟨-, hstays', hhand⟩ := h.idle hi
  refine h.step_prim hp hhand hwf fun p hon => ?_
  rw [← hon]
  exact ⟨⟨fun hn => absurd hn (hstays p hon), fun hn => absurd hn (hstays' p hon)⟩,
    fun hn => absurd hn (hstays p hon)⟩

/-- A thread in no call stays out of calls. -/
theorem Ok.step_idle (h : s.Ok) (hi : s.idle c = true) (hp : Prim c s t as) : t.Ok := by
  obtain ⟨hwf, hstays, -⟩ := h.idle hi
  have ht := h.step_call hi hp (hwf as) hstays
  have hsame : t.setScript (s.on c) (s.script (s.on c)) = t := by
    rw [← hp.script]
    show { t with script := Function.update t.script (s.on c) (t.script (s.on c)) } = t
    rw [Function.update_eq_self]
  rw [hsame] at ht
  exact ht

theorem wf_yield {fin : List Push → Prop} (hwf : ∀ as, WF (.proc p) fin is as)
    (hstays : Stays (.proc p) is) : WF (.proc p) fin (yield p ++ is) [] := by
  refine ⟨fun _ _ => id, p, rfl, fun he => (by cases he), List.mem_cons_self, trivial, p, rfl, rfl,
    fun hn => hn.1 rfl, List.mem_cons_self, fun q hq _ => hstays q hq, hwf _⟩

theorem wf_sleep {fin : List Push → Prop} (hwf : ∀ as, WF (.proc p) fin is as)
    (hstays : Stays (.proc p) is) : WF (.proc p) fin (sleep p l ++ is) [.lock l] := by
  have herase : List.erase [.lock (.proc p), .lock l] (.lock l) = [Push.lock (.proc p)] := by
    by_cases hl : l = .proc p
    · rw [hl, List.erase_cons_head]
    · rw [List.erase_cons_tail, List.erase_cons_head]
      rw [beq_iff_eq]
      exact fun he => hl (by cases he; rfl)
  refine ⟨fun _ _ => And.right, List.mem_cons_of_mem _ List.mem_cons_self, fun _ _ _ => id, ?_⟩
  rw [herase]
  exact ⟨p, rfl, fun he => (by cases he), List.mem_cons_self, trivial, p, rfl, rfl,
    fun hn => hn.1 rfl, List.mem_cons_self, fun _ _ _ => id, hstays, hwf _⟩

theorem stays_wakeup {t : Tid} (qs : List ℕ) (hstays : Stays t is) : Stays t (wakeup p qs ++ is) := by
  unfold wakeup
  cases qs.filter (· ≠ p) with
  | nil => exact hstays
  | cons q qs => exact fun _ _ => id

theorem wf_wakeup {t : Tid} {fin : List Push → Prop} (qs : List ℕ) (hstays : Stays t is)
    (hwf : WF t fin is as) : WF t fin (wakeup p qs ++ is) as := by
  unfold wakeup
  induction qs.filter (· ≠ p) with
  | nil => exact hwf
  | cons q qs ih =>
    have hrest : Stays t (qs.flatMap (fun q => [.acquire (.proc q), .wake q, .release (.proc q)]) ++ is) := by
      cases qs with
      | nil => exact hstays
      | cons q qs => exact fun _ _ => id
    refine ⟨fun _ _ => id, List.mem_cons_self, fun _ _ hn => ?_, List.mem_cons_self,
      fun r hr _ => hrest r hr, ?_⟩
    · exact hrest _ ‹_› hn.2
    · rw [List.erase_cons_head]
      exact ih

theorem wf_wakeups {t : Tid} {fin : List Push → Prop} (k : ℕ) (qs : List ℕ) (hstays : Stays t is)
    (hwf : WF t fin is as) :
    Stays t ((List.replicate k (wakeup p qs)).flatten ++ is) ∧
      WF t fin ((List.replicate k (wakeup p qs)).flatten ++ is) as := by
  induction k with
  | zero => exact ⟨hstays, hwf⟩
  | succ k ih =>
    rw [List.replicate_succ, List.flatten_cons, List.append_assoc]
    exact ⟨stays_wakeup qs ih.1, wf_wakeup qs ih.1 ih.2⟩

theorem wf_exit {fin : List Push → Prop} (n k : ℕ) :
    WF (.proc p) fin (exit n p k ++ is) [] := by
  have hend : WF (.proc p) fin ([.acquire (.proc p), .setState .ZOMBIE, .release waitLock, .sched,
      .zombieExit] ++ is) [.lock waitLock] := by
    refine ⟨fun _ _ => id, p, rfl, fun he => (by cases he), List.mem_cons_self, ?_,
      List.mem_cons_of_mem _ List.mem_cons_self, fun _ _ he => (by cases he), p, rfl, ?_, id, trivial⟩
    · exact ⟨fun he => (by cases he), trivial⟩
    · rw [List.erase_cons_tail, List.erase_cons_head]
      rw [beq_iff_eq]
      exact fun he => by cases he
  have hloop := wf_wakeups (p := p) k (List.range n) (fun _ _ => id) hend
  rw [exit, List.cons_append, List.cons_append, List.append_assoc]
  exact hloop

/-- An interrupt arrives: nothing is pushed, and the handler comes first. -/
theorem Ok.interrupt (h : s.Ok) (hintr : (s.cpu c).intr = true) :
    ((s.setCpu c { s.cpu c with intr := false }).setScript (s.on c)
      (.sret :: s.script (s.on c))).Ok := by
  have hl := h.cpu c
  have h0 : s.pushed (s.on c) = [] := by
    by_contra hne
    rw [hl.off hne] at hintr
    cases hintr
  have hstays : Stays (s.on c) (s.script (s.on c)) := by
    intro p hon hn
    rw [hon] at hn h0
    have hmem := (hl.running p hon).2 hn
    rw [h0] at hmem
    exact absurd hmem List.not_mem_nil
  refine h.step_prim (Prim.setIntr h fun he => by cases he) (fun hon => ?_) ⟨hstays, ?_⟩ fun p hon => ?_
  · by_cases hs : s.script (.scheduler c) = []
    · have hwf := hl.wf
      rw [hon] at hwf h0
      rw [hs, h0] at hwf
      exact hwf.symm
    · exact hl.handler hs
  · rw [← h0]
    exact hl.wf
  · rw [← hon]
    exact ⟨⟨fun hn => absurd hn id, fun hn => absurd hn (hstays p hon)⟩, fun hn => absurd hn id⟩

/-- The states that `Changes` relates are not those of a process that runs or is about to. -/
theorem changes_facts {st st' : procstate} (h : Changes st st') :
    st ≠ .RUNNING ∧ st ≠ .RUNNABLE ∧ st' ≠ .RUNNING ∧ (Active st' → st' ≠ .USED → Active st) := by
  revert h
  cases st <;> cases st' <;> simp [Changes, Active]

/-- The state of process `q` is changed under its lock. -/
theorem Ok.change {st : procstate} (h : s.Ok) (hi : s.idle c = true)
    (hmem : .lock (.proc q) ∈ s.pushed (s.on c)) (hc : Changes (s.state q) st = true) :
    Ok { s.setState q st with
      ctx := if st = .USED then Function.update s.ctx q .forkret else s.ctx } := by
  obtain ⟨hrun, hable, hst, hact⟩ := changes_facts hc
  have hne : s.on c ≠ .proc q := by
    intro hon
    obtain ⟨-, hstays, -⟩ := h.idle hi
    refine hrun (((h.cpu c).running q hon).1.mpr fun hn => hstays q hon ?_)
    rw [hon]
    exact hn
  refine h.step_state (h.offCpu hmem hne hrun) hable ?_ (fun p hp => Function.update_of_ne hp _ _)
    (fun ha => ?_) (fun p hp => ?_) ⟨rfl, rfl, rfl, rfl, rfl, rfl⟩
  · show Function.update s.state q st q ≠ _
    rw [Function.update_self]
    exact hst
  · have hself : Function.update s.state q st q = st := Function.update_self _ _ _
    have ha' : Active st := hself ▸ ha
    by_cases hu : st = .USED
    · right
      rw [if_pos hu]
      exact Function.update_self _ _ _
    · left
      rw [if_neg hu]
      exact ⟨hact ha' hu, rfl⟩
  · split_ifs
    · exact Function.update_of_ne hp _ _
    · rfl

/-! ## Runs -/

/-- The invariant with what the compiled-in scheduler keeps in mind. -/
structure Inv (pbs : Bool) (s : Machine) : Prop where
  ok : s.Ok
  track : pbs = false → ∀ c, best (s.pc c) = none

theorem Inv.init (state : ℕ → procstate) : (Machine.init state).Inv pbs := ⟨Ok.init state, fun _ _ => rfl⟩

theorem Good.mono {P Q : Machine → Prop} (h : Good P r) (hPQ : ∀ t, P t → Q t) : Good Q r := by
  cases r with
  | ok t => exact hPQ t h
  | error m => exact h

theorem Inv.of_pc (h : s.Inv pbs) (ht : t.Ok) (hpc : t.pc = s.pc) (hm : Matched s t) :
    t.Inv pbs ∧ Matched s t := ⟨⟨ht, fun hpbs c => by rw [hpc]; exact h.track hpbs c⟩, hm⟩

/-- The thread on CPU `c` runs. -/
theorem Inv.run (h : s.Inv pbs) (hr : s.step n pbs (.run c better) = some r) : Good (fun t => t.Inv pbs ∧ Matched s t) r := by
  simp only [step] at hr
  split at hr
  · next i is hscript =>
    exact Good.mono (h.ok.instr hscript hr) fun t ht => h.of_pc ht.1 ht.2.1 ht.2.2
  · next d hscript hon =>
    obtain rfl := h.ok.own c d hon
    rw [hon] at hscript
    exact Good.mono (h.ok.scheduler hon hscript (fun hpbs => h.track hpbs d) hr) fun t ht =>
      ⟨⟨ht.1, fun hpbs e => ht.2.1 e hpbs (h.track hpbs e)⟩, ht.2.2⟩
  · cases hr

/-- A process in no call calls `yield`, `sleep` or `exit`. -/
theorem Inv.call {js : List Instr} (h : s.Inv pbs) (hi : s.idle c = true) (hon : s.on c = .proc p)
    (hwf : (∀ as, WF (.proc p) (fun _ => True) (s.script (.proc p)) as) →
      Stays (.proc p) (s.script (.proc p)) →
      WF (.proc p) (fun _ => True) js (s.pushed (.proc p)))
    (hstays : ∀ t, Stays t js) :
    (s.setScript (.proc p) js).Inv pbs ∧ Matched s (s.setScript (.proc p) js) := by
  obtain ⟨hidle, hs, -⟩ := h.ok.idle hi
  rw [hon] at hidle hs
  have ht := h.ok.step_call hi (Prim.refl h.ok) (by rw [hon]; exact hwf hidle hs) (hstays _)
  rw [hon] at ht
  exact h.of_pc ht rfl (.of_pushed rfl rfl fun _ _ => id)

/-- **Every step** keeps the invariant or is one of the two panics of a caller. -/
theorem Inv.step {e : Op} (h : s.Inv pbs) (hr : s.step n pbs e = some r) : Good (fun t => t.Inv pbs ∧ Matched s t) r := by
  cases e with
  | run c better => exact h.run hr
  | push_off c =>
    simp only [Machine.step] at hr
    split_ifs at hr with hi
    cases hr
    have hp := Prim.push_off (c := c) (a := .bare) h.ok rfl
    exact h.of_pc (h.ok.step_idle hi hp) rfl hp.matched
  | pop_off c =>
    simp only [Machine.step] at hr
    split_ifs at hr with hi
    cases hr
    obtain ⟨ht, hp⟩ := Prim.pop_off h.ok hi.2
    rw [ht]
    exact h.of_pc (h.ok.step_idle hi.1 hp) rfl hp.matched
  | acquire c l =>
    simp only [Machine.step] at hr
    split_ifs at hr with hi
    cases hr
    cases hs : s.acquire c l with
    | error m => exact .inl (acquire_error hs)
    | ok t =>
      obtain ⟨hwf, hstays, -⟩ := h.ok.idle hi
      have hp := Prim.acquire h.ok hs
      exact h.of_pc (h.ok.step_call hi hp ⟨_, rfl, hstays, hwf _⟩ fun _ _ => id) hp.pc
        hp.matched.setScript
  | release c l =>
    simp only [Machine.step] at hr
    split_ifs at hr with hi
    cases hr
    obtain ⟨ht, hp⟩ := Prim.release h.ok hi.2
    rw [ht]
    exact h.of_pc (h.ok.step_idle hi.1 hp) rfl hp.matched
  | setState c q st =>
    simp only [Machine.step] at hr
    by_cases hi : s.idle c ∧ .lock (.proc q) ∈ s.pushed (s.on c) ∧ Changes (s.state q) st
    · rw [if_pos hi] at hr
      cases hr
      exact h.of_pc (h.ok.change hi.1 hi.2.1 hi.2.2) rfl (.of_pushed rfl rfl fun _ _ => id)
    · rw [if_neg hi] at hr
      cases hr
  | intr_on c =>
    simp only [Machine.step] at hr
    split at hr
    · next p hscript hon =>
      split_ifs at hr with h0
      cases hr
      have hi : s.idle c = true := by
        unfold Machine.idle
        rw [hscript, hon]
      have hp := Prim.setIntr (b := true) h.ok fun _ => h0
      exact h.of_pc (h.ok.step_idle hi hp) rfl hp.matched
    · cases hr
  | intr_off c =>
    simp only [Machine.step] at hr
    split_ifs at hr with hi
    cases hr
    have hp := Prim.setIntr (c := c) (b := false) h.ok fun he => by cases he
    exact h.of_pc (h.ok.step_idle hi hp) rfl hp.matched
  | interrupt c =>
    simp only [Machine.step] at hr
    split_ifs at hr with hi
    cases hr
    have hp := Prim.setIntr (c := c) (b := false) h.ok fun he => by cases he
    exact h.of_pc (h.ok.interrupt hi) rfl hp.matched.setScript
  | yield c =>
    simp only [Machine.step] at hr
    split at hr
    · next p hon =>
      split_ifs at hr with hi
      cases hr
      refine h.call hi.1 hon (fun hwf hstays => ?_) fun _ _ _ => id
      rw [hi.2]
      exact wf_yield hwf hstays
    · cases hr
  | sleep c lk =>
    simp only [Machine.step] at hr
    split at hr
    · next p hon =>
      split_ifs at hr with hi
      cases hr
      refine h.call hi.1 hon (fun hwf hstays => ?_) fun _ _ _ => id
      rw [hi.2]
      exact wf_sleep hwf hstays
    · cases hr
  | exit c k =>
    simp only [Machine.step] at hr
    split at hr
    · next p hon =>
      split_ifs at hr with hi
      cases hr
      refine h.call hi.1 hon (fun _ _ => ?_) fun _ _ _ => id
      rw [hi.2]
      exact wf_exit n k
    · cases hr

/-- **Interrupts are off exactly while locks are held.**  On every CPU `noff` counts the unmatched
calls of `push_off` of the thread that runs there, among them one for each lock it holds; while there
is one, interrupts are off; and a process finds them at its outermost `pop_off` as it has left them,
on whatever CPU (`Matched`).  The panics that remain are those of a caller. -/
theorem intr_off_while_locked {state : ℕ → procstate} {n : ℕ} {pbs : Bool} {s : Machine}
    (h : Runs.Steps (Machine.step n pbs) (fun _ _ => True) (Machine.init state) s) :
    (∀ c, (s.cpu c).noff = (s.pushed (s.on c)).length ∧
      (∀ l, s.lock l = some c ↔ .lock l ∈ s.pushed (s.on c)) ∧ (locks (s.pushed (s.on c))).Nodup ∧
      (0 < (s.cpu c).noff → (s.cpu c).intr = false)) ∧
    ∀ e, (∀ t, s.step n pbs e = some (.ok t) → Matched s t) ∧
      ∀ m, s.step n pbs e = some (.error m) → m = "acquire" ∨ m = "zombie exit" := by
  have hinv : s.Inv pbs := h.invariant (I := Inv pbs) (.init state) fun s e t hs _ he => (hs.step he).1
  refine ⟨fun c => ?_, fun e => ⟨fun t he => (hinv.step he).2, fun m he => hinv.step he⟩⟩
  have hl := hinv.ok.cpu c
  refine ⟨hl.noff, fun l => ?_, hinv.ok.agrees.nodup c, fun hpos => hl.off fun h0 => ?_⟩
  · rw [hinv.ok.agrees.iff, mem_locks]
  · have hnoff := hl.noff
    rw [h0] at hnoff
    exact absurd hnoff (Nat.ne_of_gt hpos)

/-- Process 0 gives up CPU 0 and goes on on CPU 1. -/
theorem intr_off_while_locked_run : ∃ s,
    Runs.Steps (Machine.step 1 false) (fun _ _ => True)
      (Machine.init fun p => if p = 0 then .RUNNABLE else .UNUSED) s ∧
    (s.on 1 = .proc 0 ∧ (s.cpu 1).noff = 0 ∧ (s.cpu 1).intr = true) ∧ (s.pushed (.proc 0)).length = 0 := by
  obtain ⟨s, hs, hon, hnoff, hintr⟩ := Runs.Steps.of_any (P := fun _ _ => True)
    (Q := fun s : Machine => s.on 1 = .proc 0 ∧ (s.cpu 1).noff = 0 ∧ (s.cpu 1).intr = true)
    (List.replicate 5 (.run 0 false) ++ [.yield 0] ++ List.replicate 5 (.run 0 false) ++
      List.replicate 5 (.run 1 false))
    (by decide +kernel : (Runs.exec (Machine.step 1 false) (fun _ _ => True)
      (Machine.init fun p => if p = 0 then .RUNNABLE else .UNUSED) _).any _ = true)
  have hcount := ((intr_off_while_locked hs).1 1).1
  rw [hon, hnoff] at hcount
  exact ⟨s, hs, ⟨hon, hnoff, hintr⟩, hcount.symm⟩

end Machine

end Xv6.Intr
