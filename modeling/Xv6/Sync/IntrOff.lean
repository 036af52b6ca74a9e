import Xv6.Kernel.Intr
import Xv6.Lib.Runs
import Xv6.Lib.SpinLock

/-!
# IntrOff — interrupts are off exactly while locks are held

`Local s c` relates the counters of CPU `c` to the thread on it: `noff` is the number of its unmatched
calls of `push_off`, `intena` what its outermost one has found, and the rest of its calls (`WF`) ends
every `sched` with one lock.  A switch hands all of this over (`sched_ok`, `switchTo_ok`); everything
else happens on one CPU and leaves the others alone (`Ok.step_on`).
-/

namespace Xv6.Intr

/-! ## Locks among the unmatched calls -/

def Push.held : Push → Option Lk
  | .lock l => some l
  | _ => none

/-- The locks that a thread holds. -/
def locks (as : List Push) : List Lk := as.filterMap Push.held

section Locks

variable {as : List Push} {l : Lk}

@[simp] theorem locks_bare : locks (.bare :: as) = locks as := rfl

@[simp] theorem locks_spin : locks (.spin l :: as) = locks as := rfl

@[simp] theorem locks_lock : locks (.lock l :: as) = l :: locks as := rfl

theorem mem_locks : l ∈ locks as ↔ .lock l ∈ as := by
  rw [locks, List.mem_filterMap]
  constructor
  · rintro ⟨a, ha, hal⟩
    cases a with
    | lock l' => cases hal; exact ha
    | bare => cases hal
    | spin l' => cases hal
  · exact fun h => ⟨.lock l, h, rfl⟩

theorem locks_erase_lock (h : .lock l ∈ as) : (locks as).Perm (l :: locks (as.erase (.lock l))) :=
  (List.perm_cons_erase h).filterMap Push.held

theorem locks_erase_bare (h : .bare ∈ as) : (locks as).Perm (locks (as.erase .bare)) :=
  (List.perm_cons_erase h).filterMap Push.held

end Locks

/-! ## What the threads still have to do -/

/-- The state of process `p` has changed, and `sched` is what comes next but for releasing a lock. -/
def Leaving (p : ℕ) : List Instr → Prop
  | .sched :: _ => True
  | .release l :: is => l ≠ .proc p ∧ Leaving p is
  | _ => False

/-- Thread `t` is not about to leave the CPU. -/
def Stays (t : Tid) (is : List Instr) : Prop := ∀ p, t = .proc p → ¬ Leaving p is

/-- From the unmatched calls `as`, the instructions of thread `t` release what they hold, change the
state of a process under its lock, call `sched` with the lock of the process alone, and end with
calls that satisfy `fin`. -/
def WF (t : Tid) (fin : List Push → Prop) : List Instr → List Push → Prop
  | [], as => fin as
  | .acquire l :: is, as => Stays t is ∧ WF t fin is (.lock l :: as)
  | .take l :: is, as => ∃ bs, as = .spin l :: bs ∧ Stays t is ∧ WF t fin is (.lock l :: bs)
  | .release l :: is, as =>
    .lock l ∈ as ∧ (∀ p, t = .proc p → l = .proc p → ¬ Leaving p is) ∧
      WF t fin is (as.erase (.lock l))
  | .setState st :: is, as =>
    ∃ p, t = .proc p ∧ st ≠ .RUNNING ∧ .lock (.proc p) ∈ as ∧ Leaving p is ∧ WF t fin is as
  | .wake q :: is, as => .lock (.proc q) ∈ as ∧ Stays t is ∧ WF t fin is as
  | .sched :: is, as =>
    ∃ p, t = .proc p ∧ as = [.lock (.proc p)] ∧ ¬ Leaving p is ∧ WF t fin is as
  | .zombieExit :: _, _ => True
  | .sret :: is, _ => Stays t is ∧ WF t fin is []

def highestLock : Option ℕ → List Push
  | none => []
  | some h => [.lock (.proc h)]

/-- What a scheduler has pushed. -/
def held : SchedPc → List Push
  | .top => []
  | .scan _ highest => highestLock highest
  | .spin i highest => .spin (.proc i) :: highestLock highest
  | .look i highest => .lock (.proc i) :: highestLock highest
  | .back p _ => [.lock (.proc p)]

/-- The process with the highest priority so far. -/
def best : SchedPc → Option ℕ
  | .scan _ highest | .spin _ highest | .look _ highest => highest
  | _ => none

def IsBack : SchedPc → Prop
  | .back _ _ => True
  | _ => False

/-- Behind `swtch` the scheduler goes on without locks. -/
def Resumes : SchedPc → Prop
  | .back _ next => held next = [] ∧ best next = none ∧ ¬ IsBack next ∧ Resumes next
  | _ => True

/-- How the calls of a thread end. -/
def Ends (pc : ℕ → SchedPc) : Tid → List Push → Prop
  | .proc _, _ => True
  | .scheduler c, as => as = held (pc c)

def Active (st : procstate) : Prop := st = .USED ∨ st = .SLEEPING ∨ st = .RUNNABLE

namespace Machine

/-- Process `p` runs on no CPU. -/
def OffCpu (s : Machine) (p : ℕ) : Prop := ∀ c, s.on c ≠ .proc p

/-- A process that waits to be run. -/
def Parked (s : Machine) (p : ℕ) : Prop :=
  s.ctx p = .forkret ∨ s.ctx p = .sched (s.old (.proc p)) ∧
    s.pushed (.proc p) = [.lock (.proc p)] ∧ ¬ Leaving p (s.script (.proc p)) ∧
    WF (.proc p) (fun _ => True) (s.script (.proc p)) [.lock (.proc p)]

/-- CPU `c` and the thread on it. -/
structure Local (s : Machine) (c : ℕ) : Prop where
  noff : (s.cpu c).noff = (s.pushed (s.on c)).length
  off : s.pushed (s.on c) ≠ [] → (s.cpu c).intr = false
  intena : s.pushed (s.on c) ≠ [] → (s.on c = .scheduler c → ¬ IsBack (s.pc c)) →
    (s.cpu c).intena = s.old (s.on c)
  wf : WF (s.on c) (Ends s.pc (s.on c)) (s.script (s.on c)) (s.pushed (s.on c))
  running : ∀ p, s.on c = .proc p → (s.state p = .RUNNING ↔ ¬ Leaving p (s.script (.proc p))) ∧
    (Leaving p (s.script (.proc p)) → .lock (.proc p) ∈ s.pushed (.proc p))
  waiting : ∀ p, s.on c = .proc p → (∃ next, s.pc c = .back p next) ∧
    s.pushed (.scheduler c) = [.lock (.proc p)] ∧ s.script (.scheduler c) = []
  best : ∀ h, s.on c = .scheduler c → best (s.pc c) = some h → s.state h = .RUNNABLE
  handler : s.script (.scheduler c) ≠ [] → held (s.pc c) = []
  resumes : Resumes (s.pc c)

/-- **The invariant.** -/
structure Ok (s : Machine) : Prop where
  agrees : SpinLock.Agrees s.lock fun c => locks (s.pushed (s.on c))
  own : ∀ c d, s.on c = .scheduler d → d = c
  once : ∀ c d p, s.on c = .proc p → s.on d = .proc p → c = d
  cpu : ∀ c, s.Local c
  parked : ∀ p, s.OffCpu p → Active (s.state p) → s.Parked p

variable {s t u : Machine} {c d p q : ℕ} {l : Lk} {a : Push} {is : List Instr} {as : List Push}

theorem Ok.init (state : ℕ → procstate) : (init state).Ok := by
  refine ⟨⟨fun l c => ?_, fun c => List.nodup_nil⟩, fun c d hc => ?_, fun c d p hc => ?_,
    fun c => ?_, fun p _ _ => .inl rfl⟩
  · exact ⟨fun h => (by cases h), fun h => absurd h List.not_mem_nil⟩
  · cases hc
    rfl
  · cases hc
  · exact ⟨rfl, fun h => absurd rfl h, fun h => absurd rfl h, rfl, fun p hp => (by cases hp),
      fun p hp => (by cases hp), fun h _ hb => (by cases hb), fun h => absurd rfl h, trivial⟩

/-- Threads on different CPUs are different. -/
theorem Ok.on_ne (h : s.Ok) (hd : d ≠ c) : s.on d ≠ s.on c := by
  intro he
  cases hc : s.on c with
  | proc p => exact hd (h.once d c p (he.trans hc) hc)
  | scheduler e =>
    have h1 := h.own c e hc
    have h2 := h.own d e (he.trans hc)
    exact hd (h2.symm.trans h1)

/-- A scheduler holds the lock of the best process so far. -/
theorem Local.best_mem (h : s.Local c) (hon : s.on c = .scheduler c)
    (hb : Intr.best (s.pc c) = some q) :
    .lock (.proc q) ∈ s.pushed (.scheduler c) := by
  have hmem : .lock (.proc q) ∈ held (s.pc c) := by
    cases hpc : s.pc c with
    | scan i highest =>
      rw [hpc] at hb
      obtain rfl : highest = some q := hb
      exact List.mem_cons_self
    | spin i highest =>
      rw [hpc] at hb
      obtain rfl : highest = some q := hb
      exact List.mem_cons_of_mem _ List.mem_cons_self
    | look i highest =>
      rw [hpc] at hb
      obtain rfl : highest = some q := hb
      exact List.mem_cons_of_mem _ List.mem_cons_self
    | top => rw [hpc] at hb; cases hb
    | back p next => rw [hpc] at hb; cases hb
  have hscript : s.script (.scheduler c) = [] := by
    by_contra hne
    rw [h.handler hne] at hmem
    exact absurd hmem List.not_mem_nil
  have hwf := h.wf
  rw [hon, hscript] at hwf
  rw [show s.pushed (.scheduler c) = held (s.pc c) from hwf]
  exact hmem

/-! ## Steps of one thread -/

/-- Only CPU `c` and the thread on it have done something. -/
structure Frame (c : ℕ) (s t : Machine) : Prop where
  cpu : ∀ d, d ≠ c → t.cpu d = s.cpu d
  on : t.on c = s.on c
  pc : ∀ d, d ≠ c → t.pc d = s.pc d
  pcProc : ∀ p, s.on c = .proc p → t.pc c = s.pc c
  pushed : ∀ u, u ≠ s.on c → t.pushed u = s.pushed u
  script : ∀ u, u ≠ s.on c → t.script u = s.script u
  old : ∀ u, u ≠ s.on c → t.old u = s.old u

/-- What a thread can do to the states of processes: change its own under its lock, or that of a
process that does not run. -/
structure Changed (c : ℕ) (s t : Machine) : Prop where
  state : ∀ q, t.state q = s.state q ∨
    s.on c = .proc q ∧ .lock (.proc q) ∈ s.pushed (.proc q) ∨ s.OffCpu q ∧ s.state q ≠ .RUNNABLE
  parked : ∀ q, s.OffCpu q → Active (t.state q) →
    Active (s.state q) ∧ t.ctx q = s.ctx q ∨ t.ctx q = .forkret

theorem Changed.of_eq (hs : t.state = s.state) (hc : t.ctx = s.ctx) : Changed c s t :=
  ⟨fun q => .inl (by rw [hs]), fun q _ hq => .inl (by rw [hs] at hq; exact ⟨hq, by rw [hc]⟩)⟩

theorem Frame.on_eq (h : Frame c s t) (d : ℕ) : t.on d = s.on d := by
  by_cases hd : d = c
  · rw [hd, h.on]
  · simp only [Machine.on, h.cpu d hd]

/-- The other CPUs. -/
theorem Ok.local_of_ne (h : s.Ok) (hf : Frame c s t) (hc : Changed c s t) (hd : d ≠ c) :
    t.Local d := by
  have hl := h.cpu d
  have hon := hf.on_eq d
  have hne := h.on_ne hd
  have hsched : .scheduler d ≠ s.on c := fun he => hd (h.own c d he.symm)
  have hpushed := hf.pushed _ hne
  have hscript := hf.script _ hne
  refine ⟨?_, ?_, ?_, ?_, fun p hp => ?_, fun p hp => ?_, fun q hq hb => ?_, ?_, ?_⟩
  · rw [hf.cpu d hd, hon, hpushed]
    exact hl.noff
  · rw [hf.cpu d hd, hon, hpushed]
    exact hl.off
  · rw [hf.cpu d hd, hon, hpushed, hf.pc d hd, hf.old _ hne]
    exact hl.intena
  · rw [hon, hpushed, hscript]
    have hends : Ends t.pc (s.on d) = Ends s.pc (s.on d) := by
      cases hd' : s.on d with
      | proc p => rfl
      | scheduler e =>
        funext as
        simp only [Ends, h.own d e hd', hf.pc d hd]
    rw [hends]
    exact hl.wf
  · rw [hon] at hp
    rw [hp] at hne hpushed hscript
    rw [hscript, hpushed]
    rcases hc.state p with hst | ⟨hcp, -⟩ | ⟨hoff, -⟩
    · rw [hst]
      exact hl.running p hp
    · exact absurd (h.once d c p hp hcp) hd
    · exact absurd hp (hoff d)
  · rw [hon] at hp
    rw [hf.pc d hd, hf.pushed _ hsched, hf.script _ hsched]
    exact hl.waiting p hp
  · rw [hon] at hq
    rw [hf.pc d hd] at hb
    rcases hc.state q with hst | ⟨hcq, hmem⟩ | ⟨-, hst⟩
    · rw [hst]
      exact hl.best q hq hb
    · have hmem' := hl.best_mem hq hb
      refine absurd (h.agrees.exclusive (l := .proc q) (c := d) ?_ ?_) hd
      · show _ ∈ locks (s.pushed (s.on d))
        rw [hq]
        exact mem_locks.mpr hmem'
      · show _ ∈ locks (s.pushed (s.on c))
        rw [hcq]
        exact mem_locks.mpr hmem
    · exact absurd (hl.best q hq hb) hst
  · rw [hf.script _ hsched, hf.pc d hd]
    exact hl.handler
  · rw [hf.pc d hd]
    exact hl.resumes

/-- **A step of one thread** keeps the invariant if it keeps it on its CPU. -/
theorem Ok.step_on (h : s.Ok) (hf : Frame c s t) (hc : Changed c s t)
    (hag : SpinLock.Agrees t.lock fun c => locks (t.pushed (t.on c))) (hl : t.Local c) : t.Ok := by
  refine ⟨hag, fun d e hd => ?_, fun d e p hd he => ?_, fun d => ?_, fun p hoff hact => ?_⟩
  · rw [hf.on_eq d] at hd
    exact h.own d e hd
  · rw [hf.on_eq d] at hd
    rw [hf.on_eq e] at he
    exact h.once d e p hd he
  · by_cases hd : d = c
    · rw [hd]
      exact hl
    · exact h.local_of_ne hf hc hd
  · have hoff' : s.OffCpu p := fun d hd => hoff d (by rw [hf.on_eq d, hd])
    have hne : .proc p ≠ s.on c := (hoff' c).symm
    rcases hc.parked p hoff' hact with ⟨hact', hctx⟩ | hctx
    · unfold Parked
      rw [hctx, hf.pushed _ hne, hf.script _ hne, hf.old _ hne]
      exact h.parked p hoff' hact'
    · exact .inl hctx

/-! ## Counting -/

/-- The counters of CPU `c`. -/
structure Counts (s : Machine) (c : ℕ) : Prop where
  noff : (s.cpu c).noff = (s.pushed (s.on c)).length
  off : s.pushed (s.on c) ≠ [] → (s.cpu c).intr = false
  intena : s.pushed (s.on c) ≠ [] → (s.on c = .scheduler c → ¬ IsBack (s.pc c)) →
    (s.cpu c).intena = s.old (s.on c)

theorem Local.counts (h : s.Local c) : s.Counts c := ⟨h.noff, h.off, h.intena⟩

section PushOff

@[simp] theorem on_push_off : (s.push_off c a).on d = s.on d := by
  by_cases hd : d = c
  · subst hd
    simp [on, push_off, setCpu, setPushed]
  · simp [on, push_off, setCpu, setPushed, Function.update_of_ne hd]

@[simp] theorem pushed_push_off : (s.push_off c a).pushed (s.on c) = a :: s.pushed (s.on c) := by
  simp [push_off, setPushed, on]

theorem Frame.push_off (a : Push) : Frame c s (s.push_off c a) := by
  refine ⟨fun d hd => ?_, on_push_off, fun d _ => rfl, fun p _ => rfl, fun u hu => ?_,
    fun u _ => rfl, fun u hu => ?_⟩
  · exact Function.update_of_ne hd _ _
  · exact Function.update_of_ne hu _ _
  · unfold Machine.push_off
    dsimp only
    split_ifs
    · exact Function.update_of_ne hu _ _
    · rfl

/-- **`push_off`** counts, and notes the interrupt bit if it is the outermost. -/
theorem Counts.push_off (h : s.Counts c) (a : Push) : (s.push_off c a).Counts c := by
  have hcpu : (s.push_off c a).cpu c = { s.cpu c with
      intr := false, intena := if (s.cpu c).noff = 0 then (s.cpu c).intr else (s.cpu c).intena,
      noff := (s.cpu c).noff + 1 } := Function.update_self _ _ _
  refine ⟨?_, fun _ => ?_, fun _ hb => ?_⟩
  · rw [hcpu, on_push_off, pushed_push_off, h.noff]
    rfl
  · rw [hcpu]
  · rw [on_push_off] at hb ⊢
    rw [hcpu]
    by_cases h0 : s.pushed (s.on c) = []
    · have hnoff : (s.cpu c).noff = 0 := by rw [h.noff, h0]; rfl
      have hold : (s.push_off c a).old (s.on c) = (s.cpu c).intr := by
        show (if s.pushed (s.on c) = [] then Function.update s.old (s.on c) (s.cpu c).intr
          else s.old) (s.on c) = _
        rw [if_pos h0, Function.update_self]
      simp only [hnoff, if_true, hold]
    · have hnoff : (s.cpu c).noff ≠ 0 := by
        rw [h.noff]
        exact fun hl => h0 (List.length_eq_zero_iff.mp hl)
      have hold : (s.push_off c a).old (s.on c) = s.old (s.on c) := by
        show (if s.pushed (s.on c) = [] then Function.update s.old (s.on c) (s.cpu c).intr
          else s.old) (s.on c) = _
        rw [if_neg h0]
      simp only [hnoff, if_false, hold]
      exact h.intena h0 hb

end PushOff

section PopOff

/-- The state behind `pop_off`. -/
def popped (c : ℕ) (a : Push) (s : Machine) : Machine :=
  let k := s.cpu c
  (s.setCpu c { k with noff := k.noff - 1,
                       intr := if k.noff - 1 = 0 ∧ k.intena then true else k.intr }).setPushed k.on
    ((s.pushed k.on).erase a)

@[simp] theorem on_popped : (s.popped c a).on d = s.on d := by
  by_cases hd : d = c
  · subst hd
    simp [on, popped, setCpu, setPushed]
  · simp [on, popped, setCpu, setPushed, Function.update_of_ne hd]

@[simp] theorem pushed_popped : (s.popped c a).pushed (s.on c) = (s.pushed (s.on c)).erase a := by
  simp [popped, setPushed, on, setCpu]

theorem Frame.popped (a : Push) : Frame c s (s.popped c a) :=
  ⟨fun _ hd => Function.update_of_ne hd _ _, on_popped, fun _ _ => rfl, fun _ _ => rfl,
    fun _ hu => Function.update_of_ne hu _ _, fun _ _ => rfl, fun _ _ => rfl⟩

/-- **No panic in `pop_off`** when the thread has pushed. -/
theorem pop_off_eq (h : s.Counts c) (ha : a ∈ s.pushed (s.on c)) :
    s.pop_off c a = .ok (s.popped c a) := by
  have hne : s.pushed (s.on c) ≠ [] := List.ne_nil_of_mem ha
  have hnoff := h.noff
  have hpos : 0 < (s.pushed (s.on c)).length := List.length_pos_of_mem ha
  unfold pop_off
  dsimp only
  rw [if_neg (by rw [h.off hne]; exact Bool.false_ne_true), if_neg (by omega)]
  rfl

/-- **`pop_off`** counts down. -/
theorem Counts.popped (h : s.Counts c) (ha : a ∈ s.pushed (s.on c)) : (s.popped c a).Counts c := by
  have hcpu : (s.popped c a).cpu c = { s.cpu c with
      noff := (s.cpu c).noff - 1,
      intr := if (s.cpu c).noff - 1 = 0 ∧ (s.cpu c).intena then true else (s.cpu c).intr } :=
    Function.update_self _ _ _
  have hlen := List.length_erase_of_mem ha
  have hne : s.pushed (s.on c) ≠ [] := List.ne_nil_of_mem ha
  refine ⟨?_, fun h0 => ?_, fun _ hb => ?_⟩
  · rw [hcpu, on_popped, pushed_popped, hlen, ← h.noff]
  · rw [on_popped, pushed_popped] at h0
    have hpos : (s.cpu c).noff - 1 ≠ 0 := by
      rw [h.noff, ← hlen]
      exact fun hl => h0 (List.length_eq_zero_iff.mp hl)
    rw [hcpu]
    simp only [hpos, false_and, if_false]
    exact h.off hne
  · rw [on_popped] at hb ⊢
    rw [hcpu]
    exact h.intena hne hb

/-- **The outermost `pop_off`** restores the interrupt bit. -/
theorem intr_popped (h : s.Counts c) (ha : a ∈ s.pushed (s.on c))
    (h0 : (s.pushed (s.on c)).erase a = []) : ((s.popped c a).cpu c).intr = (s.cpu c).intena := by
  have hcpu : (s.popped c a).cpu c = { s.cpu c with
      noff := (s.cpu c).noff - 1,
      intr := if (s.cpu c).noff - 1 = 0 ∧ (s.cpu c).intena then true else (s.cpu c).intr } :=
    Function.update_self _ _ _
  have hlen := List.length_erase_of_mem ha
  have hzero : (s.cpu c).noff - 1 = 0 := by rw [h.noff, ← hlen, h0]; rfl
  rw [hcpu]
  simp only [hzero, true_and, h.off (List.ne_nil_of_mem ha)]
  cases (s.cpu c).intena <;> rfl

end PopOff

/-! ## Locks -/

/-- The threads on other CPUs hold what they held. -/
theorem Ok.locks_of_ne (h : s.Ok) (hf : Frame c s t) (hd : d ≠ c) :
    locks (t.pushed (t.on d)) = locks (s.pushed (s.on d)) := by
  rw [hf.on_eq d, hf.pushed _ (h.on_ne hd)]

/-- The locks change hands as the pushed calls tell. -/
theorem Ok.agrees_of_perm (h : s.Ok) (hf : Frame c s t) (hlock : t.lock = s.lock)
    (hp : (locks (t.pushed (s.on c))).Perm (locks (s.pushed (s.on c)))) :
    SpinLock.Agrees t.lock fun c => locks (t.pushed (t.on c)) := by
  rw [hlock]
  refine h.agrees.perm fun d => ?_
  by_cases hd : d = c
  · rw [hd, hf.on]
    exact hp
  · rw [h.locks_of_ne hf hd]

theorem Ok.agrees_take (h : s.Ok) (hf : Frame c s t) (hfree : s.lock l = none)
    (hlock : t.lock = Function.update s.lock l (some c))
    (hp : (locks (t.pushed (s.on c))).Perm (l :: locks (s.pushed (s.on c)))) :
    SpinLock.Agrees t.lock fun c => locks (t.pushed (t.on c)) := by
  rw [hlock]
  refine h.agrees.acquire hfree ?_ fun d hd => ?_
  · rw [hf.on]
    exact hp
  · rw [h.locks_of_ne hf hd]

theorem Ok.agrees_release (h : s.Ok) (hf : Frame c s t)
    (hlock : t.lock = Function.update s.lock l none)
    (hp : (locks (s.pushed (s.on c))).Perm (l :: locks (t.pushed (s.on c)))) :
    SpinLock.Agrees t.lock fun c => locks (t.pushed (t.on c)) := by
  rw [hlock]
  refine h.agrees.release (c := c) ?_ fun d hd => ?_
  · rw [hf.on]
    exact hp
  · rw [h.locks_of_ne hf hd]

/-- A lock that the thread has pushed is held by its CPU. -/
theorem Ok.holding (h : s.Ok) (hl : .lock l ∈ s.pushed (s.on c)) : s.holding c l :=
  (h.agrees.iff l c).mpr (mem_locks.mpr hl)

/-! ## The thread that runs -/

/-- The control of CPU `c`: what its thread still has to do. -/
structure Control (s : Machine) (c : ℕ) : Prop where
  wf : WF (s.on c) (Ends s.pc (s.on c)) (s.script (s.on c)) (s.pushed (s.on c))
  running : ∀ p, s.on c = .proc p → (s.state p = .RUNNING ↔ ¬ Leaving p (s.script (.proc p))) ∧
    (Leaving p (s.script (.proc p)) → .lock (.proc p) ∈ s.pushed (.proc p))
  handler : s.on c = .scheduler c → s.script (.scheduler c) ≠ [] → held (s.pc c) = []

/-- **A step of a thread's code**, which leaves the place in the scheduler alone. -/
theorem Ok.step_thread (h : s.Ok) (hf : Frame c s t) (hc : Changed c s t) (hpc : t.pc = s.pc)
    (hag : SpinLock.Agrees t.lock fun c => locks (t.pushed (t.on c))) (hcount : t.Counts c)
    (hctl : t.Control c) : t.Ok := by
  have hl := h.cpu c
  refine h.step_on hf hc hag ⟨hcount.noff, hcount.off, hcount.intena, hctl.wf, hctl.running,
    fun p hp => ?_, fun q hq hb => ?_, fun hne => ?_, by rw [hpc]; exact hl.resumes⟩
  · rw [hf.on] at hp
    have hne : .scheduler c ≠ s.on c := by
      rw [hp]
      exact fun he => by cases he
    rw [hpc, hf.pushed _ hne, hf.script _ hne]
    exact hl.waiting p hp
  · rw [hf.on] at hq
    rw [hpc] at hb
    rcases hc.state q with hst | ⟨hcq, -⟩ | ⟨-, hst⟩
    · rw [hst]
      exact hl.best q hq hb
    · rw [hq] at hcq
      cases hcq
    · exact absurd (hl.best q hq hb) hst
  · cases hon : s.on c with
    | proc p =>
      have hsched : .scheduler c ≠ s.on c := by
        rw [hon]
        exact fun he => by cases he
      rw [hf.script _ hsched] at hne
      rw [hpc]
      exact hl.handler hne
    | scheduler e =>
      obtain rfl := h.own c e hon
      exact hctl.handler (by rw [hf.on, hon]) hne

/-! ## Matching -/

/-- The calls of `push_off` of a process keep what their outermost one has found, wherever the process
goes on: it is noted (`notes`), kept (`keeps`) and restored (`restores`).  The outermost call of a
process that begins in `forkret` is that of the scheduler (`starts`). -/
structure Matched (s t : Machine) : Prop where
  notes : ∀ c p, s.on c = .proc p → s.pushed (.proc p) = [] → t.pushed (.proc p) ≠ [] →
    t.old (.proc p) = (s.cpu c).intr
  keeps : ∀ p, s.pushed (.proc p) ≠ [] →
    t.old (.proc p) = s.old (.proc p) ∨ s.OffCpu p ∧ s.ctx p = .forkret
  restores : ∀ p, s.pushed (.proc p) ≠ [] → t.pushed (.proc p) = [] →
    ∃ c, s.on c = .proc p ∧ t.on c = .proc p ∧ (t.cpu c).intr = s.old (.proc p)
  starts : ∀ c p, s.on c = .scheduler c → t.on c = .proc p → s.ctx p = .forkret →
    t.old (.proc p) = s.old (.scheduler c)

theorem Matched.setScript {v : Tid} (h : Matched s t) : Matched s (t.setScript v is) :=
  ⟨h.notes, h.keeps, h.restores, h.starts⟩

theorem Matched.setPc {pc : SchedPc} (h : Matched s t) : Matched s (t.setPc d pc) :=
  ⟨h.notes, h.keeps, h.restores, h.starts⟩

/-- Nothing is pushed or popped, and every thread stays where it is or goes to its scheduler. -/
theorem Matched.of_pushed (hpushed : t.pushed = s.pushed) (hold : t.old = s.old)
    (hon : ∀ d p, t.on d = .proc p → s.on d = .proc p) : Matched s t := by
  refine ⟨fun _ p _ h0 hne => ?_, fun p _ => .inl (by rw [hold]), fun p hne h0 => ?_,
    fun d p hd hp => ?_⟩
  · rw [hpushed] at hne
    exact absurd h0 hne
  · rw [hpushed] at h0
    exact absurd h0 hne
  · rw [hon d p hp] at hd
    cases hd

/-- One thread pushes or pops. -/
theorem Matched.of_frame (h : s.Ok) (hf : Frame c s t)
    (hold : t.old (s.on c) =
      if s.pushed (s.on c) = [] ∧ t.pushed (s.on c) ≠ [] then (s.cpu c).intr else s.old (s.on c))
    (hr : ∀ p, s.on c = .proc p → s.pushed (.proc p) ≠ [] → t.pushed (.proc p) = [] →
      (t.cpu c).intr = s.old (.proc p)) : Matched s t := by
  refine ⟨fun d p hd h0 hne => ?_, fun p hne => .inl ?_, fun p hne h0 => ?_, fun d p hd hp => ?_⟩
  · by_cases hdc : d = c
    · subst hdc
      rw [hd, if_pos ⟨h0, hne⟩] at hold
      exact hold
    · rw [hf.pushed _ (hd ▸ h.on_ne hdc)] at hne
      exact absurd h0 hne
  · by_cases hp : .proc p = s.on c
    · rw [hp] at hne ⊢
      rw [hold, if_neg fun he => hne he.1]
    · exact hf.old _ hp
  · by_cases hp : .proc p = s.on c
    · exact ⟨c, hp.symm, by rw [hf.on, hp], hr p hp.symm hne h0⟩
    · rw [hf.pushed _ hp] at h0
      exact absurd h0 hne
  · rw [hf.on_eq, hd] at hp
    cases hp

/-- The outermost `pop_off` of a process finds what its `push_off` has noted. -/
theorem Matched.popped (h : s.Ok) (hf : Frame c s (t.popped c a)) (hcpu : t.cpu = s.cpu)
    (hpushed : t.pushed = s.pushed) (hold : t.old = s.old) (ha : a ∈ s.pushed (s.on c)) :
    Matched s (t.popped c a) := by
  have hne : s.pushed (s.on c) ≠ [] := List.ne_nil_of_mem ha
  have hl := h.cpu c
  have hon : t.on c = s.on c := by simp only [Machine.on, hcpu]
  refine .of_frame h hf ?_ fun p hp _ h0 => ?_
  · rw [if_neg fun he => hne he.1, ← hold]
    rfl
  · have hc : t.Counts c := by
      refine ⟨?_, fun hn => ?_, fun hn hb => ?_⟩
      · rw [hcpu, hon, hpushed]
        exact hl.noff
      · rw [hon, hpushed] at hn
        rw [hcpu]
        exact hl.off hn
      · rw [hcpu, hon, hold]
        exact hl.intena hne fun he => by rw [hp] at he; cases he
    have ha' : a ∈ t.pushed (t.on c) := by
      rw [hon, hpushed]
      exact ha
    rw [intr_popped hc ha' ?_, hcpu, ← hp]
    · exact hl.intena hne fun he => by rw [hp] at he; cases he
    · rw [← hp, ← hon, pushed_popped] at h0
      exact h0

/-! ## The primitives -/

/-- The thread on CPU `c` has changed its calls of `push_off` to `as`, and nothing else. -/
structure Prim (c : ℕ) (s t : Machine) (as : List Push) : Prop where
  frame : Frame c s t
  state : t.state = s.state
  ctx : t.ctx = s.ctx
  pc : t.pc = s.pc
  script : t.script = s.script
  pushed : t.pushed (s.on c) = as
  counts : t.Counts c
  agrees : SpinLock.Agrees t.lock fun c => locks (t.pushed (t.on c))
  matched : Matched s t

theorem Prim.refl (h : s.Ok) : Prim c s s (s.pushed (s.on c)) :=
  ⟨⟨fun _ _ => rfl, rfl, fun _ _ => rfl, fun _ _ => rfl, fun _ _ => rfl, fun _ _ => rfl,
    fun _ _ => rfl⟩, rfl, rfl, rfl, rfl, rfl, (h.cpu c).counts, h.agrees,
    .of_pushed rfl rfl fun _ _ => id⟩

theorem Prim.push_off (h : s.Ok) (ha : a.held = none) :
    Prim c s (s.push_off c a) (a :: s.pushed (s.on c)) := by
  refine ⟨Frame.push_off a, rfl, rfl, rfl, rfl, pushed_push_off, (h.cpu c).counts.push_off a, ?_,
    .of_frame h (Frame.push_off a) ?_ fun p hp _ h0 => ?_⟩
  · refine h.agrees_of_perm (Frame.push_off a) rfl ?_
    rw [pushed_push_off, locks, List.filterMap_cons_none ha]
    exact List.Perm.refl _
  · rw [pushed_push_off]
    show (if s.pushed (s.on c) = [] then Function.update s.old (s.on c) (s.cpu c).intr
      else s.old) (s.on c) = _
    by_cases h0 : s.pushed (s.on c) = []
    · rw [if_pos h0, if_pos ⟨h0, List.cons_ne_nil _ _⟩, Function.update_self]
    · rw [if_neg h0, if_neg fun he => h0 he.1]
  · rw [← hp, pushed_push_off] at h0
    cases h0

theorem Prim.acquire (h : s.Ok) (hs : s.acquire c l = .ok t) :
    Prim c s t (.spin l :: s.pushed (s.on c)) := by
  unfold Machine.acquire at hs
  dsimp only at hs
  split_ifs at hs
  cases hs
  exact Prim.push_off h rfl

theorem Prim.take (h : s.Ok) (hs : s.take c l = some t) (hp : s.pushed (s.on c) = .spin l :: as) :
    Prim c s t (.lock l :: as) := by
  unfold Machine.take at hs
  split_ifs at hs with hfree
  cases hs
  have hpushed : ((s.setLock l (some c)).setPushed (s.on c)
      (.lock l :: (s.pushed (s.on c)).tail)).pushed (s.on c) = .lock l :: as := by
    rw [hp]
    exact Function.update_self _ _ _
  have hframe : Frame c s ((s.setLock l (some c)).setPushed (s.on c)
      (.lock l :: (s.pushed (s.on c)).tail)) :=
    ⟨fun _ _ => rfl, rfl, fun _ _ => rfl, fun _ _ => rfl,
      fun _ hu => Function.update_of_ne hu _ _, fun _ _ => rfl, fun _ _ => rfl⟩
  have hc := (h.cpu c).counts
  have hne : s.pushed (s.on c) ≠ [] := by
    rw [hp]
    exact List.cons_ne_nil _ _
  refine ⟨hframe, rfl, rfl, rfl, rfl, hpushed, ⟨?_, fun _ => hc.off hne, fun _ hb => hc.intena hne hb⟩,
    h.agrees_take hframe hfree rfl ?_, .of_frame h hframe ?_ fun p hon _ h0 => ?_⟩
  · refine hc.noff.trans ?_
    show _ = ((Machine.setPushed _ _ _).pushed (s.on c)).length
    rw [hpushed, hp]
    rfl
  · rw [hpushed, hp]
    exact List.Perm.refl _
  · rw [if_neg fun he => hne he.1]
    rfl
  · rw [← hon, hpushed] at h0
    cases h0

theorem Prim.pop_off (h : s.Ok) (ha : .bare ∈ s.pushed (s.on c)) :
    s.pop_off c .bare = .ok (s.popped c .bare) ∧
      Prim c s (s.popped c .bare) ((s.pushed (s.on c)).erase .bare) := by
  have hc := (h.cpu c).counts
  refine ⟨pop_off_eq hc ha, Frame.popped .bare, rfl, rfl, rfl, rfl, pushed_popped, hc.popped ha, ?_,
    .popped h (Frame.popped .bare) rfl rfl rfl ha⟩
  refine h.agrees_of_perm (Frame.popped .bare) rfl ?_
  rw [pushed_popped]
  exact (locks_erase_bare ha).symm

/-- The state behind `release`. -/
def released (c : ℕ) (l : Lk) (s : Machine) : Machine := (s.setLock l none).popped c (.lock l)

theorem Prim.release (h : s.Ok) (hl : .lock l ∈ s.pushed (s.on c)) :
    s.release c l = .ok (s.released c l) ∧
      Prim c s (s.released c l) ((s.pushed (s.on c)).erase (.lock l)) := by
  have hc : (s.setLock l none).Counts c := ⟨(h.cpu c).noff, (h.cpu c).off, (h.cpu c).intena⟩
  have hframe : Frame c s (s.released c l) :=
    ⟨fun _ hd => Function.update_of_ne hd _ _, on_popped, fun _ _ => rfl, fun _ _ => rfl,
      fun _ hu => Function.update_of_ne hu _ _, fun _ _ => rfl, fun _ _ => rfl⟩
  have hpushed : (s.released c l).pushed (s.on c) = (s.pushed (s.on c)).erase (.lock l) :=
    pushed_popped
  refine ⟨?_, hframe, rfl, rfl, rfl, rfl, hpushed, hc.popped hl, h.agrees_release hframe rfl ?_,
    .popped h hframe rfl rfl rfl hl⟩
  · unfold Machine.release
    rw [if_pos (h.holding hl)]
    exact pop_off_eq hc hl
  · rw [hpushed]
    exact locks_erase_lock hl

/-- **A primitive in a thread's code**, after which the thread still has `is` to do. -/
theorem Ok.step_prim (h : s.Ok) (hp : Prim c s t as)
    (hhand : s.on c = .scheduler c → held (s.pc c) = [])
    (hwf : WF (s.on c) (Ends s.pc (s.on c)) is as)
    (hleave : ∀ p, s.on c = .proc p → (Leaving p is ↔ Leaving p (s.script (.proc p))) ∧
      (Leaving p is → .lock (.proc p) ∈ as)) : (t.setScript (s.on c) is).Ok := by
  have hf : Frame c s (t.setScript (s.on c) is) :=
    ⟨hp.frame.cpu, hp.frame.on, hp.frame.pc, hp.frame.pcProc, hp.frame.pushed,
      fun u hu => (Function.update_of_ne hu _ _).trans (hp.frame.script u hu), hp.frame.old⟩
  have hscript : (t.setScript (s.on c) is).script (s.on c) = is := Function.update_self _ _ _
  have hpushed : (t.setScript (s.on c) is).pushed (s.on c) = as := hp.pushed
  have hpc : (t.setScript (s.on c) is).pc = s.pc := hp.pc
  refine h.step_thread hf (.of_eq hp.state hp.ctx) hpc hp.agrees
    ⟨hp.counts.noff, hp.counts.off, hp.counts.intena⟩ ⟨?_, fun p hon => ?_, fun hon _ => ?_⟩
  · rw [hf.on, hpc, hscript, hpushed]
    exact hwf
  · rw [hf.on] at hon
    obtain ⟨h1, h2⟩ := hleave p hon
    obtain ⟨hrun, -⟩ := (h.cpu c).running p hon
    rw [hon] at hscript hpushed
    have hstate : (t.setScript (.proc p) is).state p = s.state p := congrFun hp.state p
    rw [hon, hscript, hpushed, hstate, h1]
    exact ⟨hrun, fun hl => h2 (h1.mpr hl)⟩
  · rw [hf.on] at hon
    rw [hpc]
    exact hhand hon

/-- **A primitive of the scheduler**, which goes on at `pc`. -/
theorem Ok.step_sched {pc : SchedPc} (h : s.Ok) (hon : s.on c = .scheduler c)
    (hscript : s.script (.scheduler c) = []) (hp : Prim c s t (held pc))
    (hbest : ∀ q, best pc = some q → s.state q = .RUNNABLE) (hres : Resumes pc)
    (hback : held pc ≠ [] → ¬ IsBack (s.pc c)) : (t.setPc c pc).Ok := by
  have hf : Frame c s (t.setPc c pc) := by
    refine ⟨hp.frame.cpu, hp.frame.on, fun d hd => ?_, fun p hp' => ?_, hp.frame.pushed,
      hp.frame.script, hp.frame.old⟩
    · exact (Function.update_of_ne hd _ _).trans (hp.frame.pc d hd)
    · rw [hon] at hp'
      cases hp'
  have hpushed : (t.setPc c pc).pushed (.scheduler c) = held pc := hon ▸ hp.pushed
  have hscript' : (t.setPc c pc).script (.scheduler c) = [] :=
    (congrFun hp.script _).trans hscript
  have hpc : (t.setPc c pc).pc c = pc := Function.update_self _ _ _
  have hon' : (t.setPc c pc).on c = .scheduler c := hf.on.trans hon
  refine h.step_on hf (.of_eq hp.state hp.ctx) hp.agrees
    ⟨hp.counts.noff, hp.counts.off, fun hne _ => ?_, ?_, fun p hp' => ?_, fun p hp' => ?_,
      fun q _ hb => ?_, fun hne => absurd hscript' hne, by rw [hpc]; exact hres⟩
  · rw [hon', hpushed] at hne
    refine hp.counts.intena ?_ fun _ => ?_
    · rw [hp.frame.on, hp.pushed]
      exact hne
    · rw [hp.pc]
      exact hback hne
  · rw [hon', hscript', hpushed]
    show held pc = held ((t.setPc c pc).pc c)
    rw [hpc]
  · rw [hon'] at hp'
    cases hp'
  · rw [hon'] at hp'
    cases hp'
  · rw [hpc] at hb
    exact (congrFun hp.state q).trans (hbest q hb)

/-! ## The switches -/

theorem ends_proc (pc : ℕ → SchedPc) (p : ℕ) : Ends pc (.proc p) = fun _ => True := rfl

/-- CPU `c` has switched between its scheduler and process `p`. -/
structure Switched (c p : ℕ) (s t : Machine) : Prop where
  cpu : ∀ d, d ≠ c → t.cpu d = s.cpu d
  pc : ∀ d, d ≠ c → t.pc d = s.pc d
  pushed : ∀ u, u ≠ .proc p → t.pushed u = s.pushed u
  script : ∀ u, u ≠ .proc p → t.script u = s.script u
  old : ∀ u, u ≠ .proc p → t.old u = s.old u
  state : ∀ q, q ≠ p → t.state q = s.state q
  ctx : ∀ q, q ≠ p → t.ctx q = s.ctx q
  lock : t.lock = s.lock
  only : ∀ d, d ≠ c → s.on d ≠ .proc p
  from_on : s.on c = .scheduler c ∨ s.on c = .proc p
  to_on : t.on c = .scheduler c ∨ t.on c = .proc p
  hands : locks (t.pushed (t.on c)) = locks (s.pushed (s.on c))
  best : ∀ d, d ≠ c → s.on d = .scheduler d → best (s.pc d) ≠ some p

/-- **A switch** concerns one CPU and one process. -/
theorem Ok.switch (h : s.Ok) (hw : Switched c p s t) (hl : t.Local c)
    (hp : t.OffCpu p → Active (t.state p) → t.Parked p) : t.Ok := by
  have hons : ∀ d, d ≠ c → t.on d = s.on d := fun d hd => by simp only [Machine.on, hw.cpu d hd]
  have hsched : ∀ d, Tid.scheduler d ≠ .proc p := fun d he => by cases he
  refine ⟨?_, fun d e hd => ?_, fun d e q hd he => ?_, fun d => ?_, fun q hq hact => ?_⟩
  · rw [hw.lock]
    refine h.agrees.perm fun d => ?_
    by_cases hdc : d = c
    · rw [hdc, hw.hands]
    · rw [hons d hdc, hw.pushed _ (hw.only d hdc)]
  · by_cases hdc : d = c
    · rw [hdc] at hd ⊢
      rcases hw.to_on with hc | hc <;> rw [hc] at hd <;> cases hd
      rfl
    · rw [hons d hdc] at hd
      exact h.own d e hd
  · by_cases hdc : d = c
    · by_cases hec : e = c
      · rw [hdc, hec]
      · rw [hons e hec] at he
        rw [hdc] at hd
        rcases hw.to_on with hc | hc <;> rw [hc] at hd <;> cases hd
        exact absurd he (hw.only e hec)
    · rw [hons d hdc] at hd
      by_cases hec : e = c
      · rw [hec] at he
        rcases hw.to_on with hc | hc <;> rw [hc] at he <;> cases he
        exact absurd hd (hw.only d hdc)
      · rw [hons e hec] at he
        exact h.once d e q hd he
  · by_cases hdc : d = c
    · rw [hdc]
      exact hl
    have hd := h.cpu d
    have hne := hw.only d hdc
    refine ⟨?_, ?_, ?_, ?_, fun q hq => ?_, fun q hq => ?_, fun q hq hb => ?_, ?_, ?_⟩
    · rw [hw.cpu d hdc, hons d hdc, hw.pushed _ hne]
      exact hd.noff
    · rw [hw.cpu d hdc, hons d hdc, hw.pushed _ hne]
      exact hd.off
    · rw [hw.cpu d hdc, hons d hdc, hw.pushed _ hne, hw.old _ hne, hw.pc d hdc]
      exact hd.intena
    · rw [hons d hdc, hw.script _ hne, hw.pushed _ hne]
      have hends : Ends t.pc (s.on d) = Ends s.pc (s.on d) := by
        cases hd' : s.on d with
        | proc q => rfl
        | scheduler e =>
          funext as
          simp only [Ends, h.own d e hd', hw.pc d hdc]
      rw [hends]
      exact hd.wf
    · rw [hons d hdc] at hq
      have hqp : q ≠ p := fun he => hne (by rw [hq, he])
      rw [hw.state q hqp, hw.script _ (hq ▸ hne), hw.pushed _ (hq ▸ hne)]
      exact hd.running q hq
    · rw [hons d hdc] at hq
      rw [hw.pc d hdc, hw.pushed _ (hsched d), hw.script _ (hsched d)]
      exact hd.waiting q hq
    · rw [hons d hdc] at hq
      rw [hw.pc d hdc] at hb
      have hqp : q ≠ p := fun he => hw.best d hdc hq (by rw [hb, he])
      rw [hw.state q hqp]
      exact hd.best q hq hb
    · rw [hw.script _ (hsched d), hw.pc d hdc]
      exact hd.handler
    · rw [hw.pc d hdc]
      exact hd.resumes
  · by_cases hqp : q = p
    · subst hqp
      exact hp hq hact
    · have hneq : Tid.proc q ≠ .proc p := fun he => by cases he; exact hqp rfl
      have hoffq : s.OffCpu q := by
        intro d hd
        by_cases hdc : d = c
        · rw [hdc] at hd
          rcases hw.from_on with hc | hc <;> rw [hc] at hd <;> cases hd
          exact hqp rfl
        · exact hq d (by rw [hons d hdc, hd])
      rw [hw.state q hqp] at hact
      unfold Parked
      rw [hw.ctx q hqp, hw.old _ hneq, hw.pushed _ hneq, hw.script _ hneq]
      exact h.parked q hoffq hact

/-- Two CPUs do not have the same lock. -/
theorem Ok.eq_of_lock (h : s.Ok) (hc : .lock l ∈ s.pushed (s.on c))
    (hd : .lock l ∈ s.pushed (s.on d)) : c = d :=
  h.agrees.exclusive (l := l) (mem_locks.mpr hc) (mem_locks.mpr hd)

/-- A CPU that has the lock of a process is the only one whose scheduler can have chosen it. -/
theorem Ok.best_ne (h : s.Ok) (hlock : .lock (.proc p) ∈ s.pushed (s.on c)) (hd : d ≠ c)
    (hon : s.on d = .scheduler d) : best (s.pc d) ≠ some p := by
  intro hb
  refine hd (h.eq_of_lock (l := .proc p) ?_ hlock)
  rw [hon]
  exact (h.cpu d).best_mem hon hb

/-- **`sched`** called with the lock of the process alone: no panic, and the scheduler goes on with
this lock. -/
theorem Ok.sched (h : s.Ok) (hon : s.on c = .proc p) (hscript : s.script (.proc p) = .sched :: is) :
    ∃ t, s.sched c p is = .ok t ∧ t.Ok := by
  have hl := h.cpu c
  have hwf := hl.wf
  rw [hon, hscript] at hwf
  obtain ⟨p', hp', hpushed, hstays, hwf⟩ := hwf
  cases hp'
  have hmem : .lock (.proc p) ∈ s.pushed (s.on c) := by
    rw [hon, hpushed]
    exact List.mem_cons_self
  have hnoff := hl.noff
  rw [hon, hpushed] at hnoff
  have hoff : (s.cpu c).intr = false := hl.off (List.ne_nil_of_mem hmem)
  have hold : (s.cpu c).intena = s.old (.proc p) := by
    rw [← hon]
    refine hl.intena (List.ne_nil_of_mem hmem) fun he => ?_
    rw [hon] at he
    cases he
  have hstate : s.state p ≠ .RUNNING := by
    rw [Ne, (hl.running p hon).1, hscript]
    exact fun hn => hn trivial
  obtain ⟨⟨next, hpc⟩, hwait, hempty⟩ := hl.waiting p hon
  unfold Machine.sched
  dsimp only
  rw [if_neg (not_not.mpr (h.holding hmem)), if_neg (by rw [hnoff]; exact not_not.mpr rfl),
    if_neg hstate, if_neg (by rw [hoff]; exact Bool.false_ne_true)]
  refine ⟨_, rfl, ?_⟩
  generalize ht : Machine.setScript _ _ _ = t
  have hcpu : t.cpu c = { s.cpu c with on := .scheduler c } := by
    rw [← ht]
    exact Function.update_self _ _ _
  have hself : t.script (.proc p) = is ∧ t.ctx p = .sched (s.cpu c).intena := by
    rw [← ht]
    exact ⟨Function.update_self _ _ _, Function.update_self _ _ _⟩
  have hsame : t.pushed = s.pushed ∧ t.old = s.old ∧ t.pc = s.pc := by
    rw [← ht]
    exact ⟨rfl, rfl, rfl⟩
  obtain ⟨hpushed', hold', hpc'⟩ := hsame
  have hon' : t.on c = .scheduler c := by rw [Machine.on, hcpu]
  have hw : Switched c p s t := by
    refine ⟨fun d hd => ?_, fun _ _ => ?_, fun _ _ => ?_, fun u hu => ?_, fun _ _ => ?_,
      fun _ _ => ?_, fun q hq => ?_, ?_, fun d hd he => hd (h.once d c p he hon), .inr hon,
      .inl hon', ?_, fun d hd hd' => h.best_ne hmem hd hd'⟩
    · rw [← ht]
      exact Function.update_of_ne hd _ _
    · rw [hpc']
    · rw [hpushed']
    · rw [← ht]
      exact Function.update_of_ne hu _ _
    · rw [hold']
    · rw [← ht]
      rfl
    · rw [← ht]
      exact Function.update_of_ne hq _ _
    · rw [← ht]
      rfl
    · rw [hpushed', hon', hon, hwait, hpushed]
  have hsc : t.script (.scheduler c) = [] := (hw.script _ fun he => by cases he).trans hempty
  refine h.switch hw ⟨?_, fun _ => ?_, fun _ hb => ?_, ?_, fun q hq => ?_, fun q hq => ?_,
    fun q _ hb => ?_, fun hne => absurd hsc hne, by rw [hpc']; exact hl.resumes⟩ fun _ _ => .inr ⟨?_, ?_, ?_, ?_⟩
  · rw [hcpu, hon', hpushed', hwait]
    exact hnoff
  · rw [hcpu]
    exact hoff
  · exact absurd (by rw [hpc', hpc]; trivial) (hb hon')
  · rw [hon', hsc, hpushed', hwait]
    show _ = held (t.pc c)
    rw [hpc', hpc]
    rfl
  · rw [hon'] at hq
    cases hq
  · rw [hon'] at hq
    cases hq
  · rw [hpc', hpc] at hb
    cases hb
  · rw [hself.2, hold', hold]
  · rw [hpushed', hpushed]
  · rw [hself.1]
    exact hstays
  · rw [hself.1, ← hpushed]
    exact hwf

/-- What `switchTo` has handed to a parked process. -/
theorem switchTo_parked {next : SchedPc} (hp : s.Parked p)
    (hold : (s.cpu c).intena = s.old (.scheduler c)) :
    ((s.switchTo c p next).cpu c).intena = (s.switchTo c p next).old (.proc p) ∧
    (s.switchTo c p next).pushed (.proc p) = [.lock (.proc p)] ∧
    ¬ Leaving p ((s.switchTo c p next).script (.proc p)) ∧
    WF (.proc p) (fun _ => True) ((s.switchTo c p next).script (.proc p)) [.lock (.proc p)] := by
  rcases hp with hctx | ⟨hctx, hpushed, hstays, hwf⟩
  · have hscript : (s.switchTo c p next).script (.proc p) = [.release (.proc p)] := by
      simp [switchTo, setState, setPc, setScript, setPushed, setCpu, hctx]
    refine ⟨?_, ?_, ?_, ?_⟩
    · simp [switchTo, setState, setPc, setScript, setPushed, setCpu, hctx, hold]
    · simp [switchTo, setState, setPc, setScript, setPushed, setCpu, hctx]
    · rw [hscript]
      exact fun hn => hn.1 rfl
    · rw [hscript]
      exact ⟨List.mem_cons_self, fun _ _ _ hn => hn, trivial⟩
  · have hsame : (s.switchTo c p next).script = s.script ∧ (s.switchTo c p next).pushed = s.pushed := by
      simp [switchTo, setState, setPc, setCpu, hctx]
    rw [hsame.1, hsame.2]
    exact ⟨by simp [switchTo, setState, setPc, setCpu, hctx], hpushed, hstays, hwf⟩

/-- The rest of what `switchTo` does. -/
theorem switchTo_frame (next : SchedPc) :
    (∀ d, d ≠ c → (s.switchTo c p next).cpu d = s.cpu d) ∧
    (s.switchTo c p next).pc = Function.update s.pc c (.back p next) ∧
    (s.switchTo c p next).state = Function.update s.state p .RUNNING ∧
    (s.switchTo c p next).ctx = s.ctx ∧ (s.switchTo c p next).lock = s.lock ∧
    ((s.switchTo c p next).cpu c).on = .proc p ∧
    ((s.switchTo c p next).cpu c).noff = (s.cpu c).noff ∧
    ((s.switchTo c p next).cpu c).intr = (s.cpu c).intr ∧
    ∀ u, u ≠ .proc p → (s.switchTo c p next).pushed u = s.pushed u ∧
      (s.switchTo c p next).script u = s.script u ∧ (s.switchTo c p next).old u = s.old u := by
  cases hctx : s.ctx p with
  | forkret =>
    simp only [switchTo, setState, setPc, setScript, setPushed, setCpu, hctx, Function.update_self,
      true_and]
    refine ⟨fun d hd => Function.update_of_ne hd _ _, fun u hu => ⟨?_, ?_, ?_⟩⟩ <;>
      exact Function.update_of_ne hu _ _
  | sched i =>
    simp only [switchTo, setState, setPc, setCpu, hctx, Function.update_self, and_self, and_true,
      implies_true]
    exact fun d hd => Function.update_of_ne hd _ _

/-- A process whose lock CPU `c` has does not run on another CPU, unless its state says so. -/
theorem Ok.offCpu (h : s.Ok) (hmem : .lock (.proc p) ∈ s.pushed (s.on c)) (hne : s.on c ≠ .proc p)
    (hst : s.state p ≠ .RUNNING) : s.OffCpu p := by
  intro d hd
  obtain ⟨hrun, hlock⟩ := (h.cpu d).running p hd
  have hleave : Leaving p (s.script (.proc p)) := not_not.mp fun hn => hst (hrun.mpr hn)
  have hcd : c = d := h.eq_of_lock hmem (by rw [hd]; exact hlock hleave)
  exact hne (by rw [hcd, hd])

theorem sched_matched (hon : s.on c = .proc p) (h : s.sched c p is = .ok t) : Matched s t := by
  unfold Machine.sched at h
  dsimp only at h
  split_ifs at h
  cases h
  refine .of_pushed rfl rfl fun d q hd => ?_
  by_cases hdc : d = c
  · subst hdc
    simp [Machine.on, setScript, setCpu] at hd
  · simp only [Machine.on, setScript, setCpu, Function.update_of_ne hdc] at hd
    exact hd

/-- A process that the scheduler switches to has its calls of `push_off`, or that of the scheduler. -/
theorem switchTo_matched {next : SchedPc} (hoff : s.OffCpu p) : Matched s (s.switchTo c p next) := by
  have hproc : ∀ q, q ≠ p → Tid.proc q ≠ .proc p := fun q hq he => hq (by cases he; rfl)
  obtain ⟨hcpu, -, -, -, -, honp, -, -, hrest⟩ := switchTo_frame (s := s) (c := c) (p := p) next
  refine ⟨fun d q hd h0 hne => ?_, fun q hq => ?_, fun q hq h0 => ?_, fun d q hd hq hctx => ?_⟩
  · have hqp : q ≠ p := fun he => hoff d (he ▸ hd)
    rw [(hrest _ (hproc q hqp)).1] at hne
    exact absurd h0 hne
  · by_cases hqp : q = p
    · subst hqp
      cases hctx : s.ctx q with
      | forkret => exact .inr ⟨hoff, rfl⟩
      | sched i =>
        left
        simp [switchTo, setState, Machine.setPc, setCpu, hctx]
    · exact .inl (hrest _ (hproc q hqp)).2.2
  · by_cases hqp : q = p
    · subst hqp
      cases hctx : s.ctx q with
      | forkret =>
        simp [switchTo, setState, Machine.setPc, Machine.setScript, setPushed, setCpu, hctx] at h0
      | sched i =>
        simp only [switchTo, setState, Machine.setPc, setCpu, hctx] at h0
        exact absurd h0 hq
    · rw [(hrest _ (hproc q hqp)).1] at h0
      exact absurd h0 hq
  · by_cases hdc : d = c
    · subst hdc
      rw [Machine.on, honp] at hq
      cases hq
      simp [switchTo, setState, Machine.setPc, Machine.setScript, setPushed, setCpu, hctx]
    · rw [Machine.on, hcpu d hdc] at hq
      rw [Machine.on, hq] at hd
      cases hd

/-- **`swtch` in the scheduler**: process `p` goes on with the lock that the scheduler has. -/
theorem Ok.switchTo {next : SchedPc} (h : s.Ok) (hon : s.on c = .scheduler c)
    (hscript : s.script (.scheduler c) = [])
    (hpushed : s.pushed (.scheduler c) = [.lock (.proc p)]) (hst : s.state p = .RUNNABLE)
    (hpc : ¬ IsBack (s.pc c)) (hnext : Resumes (.back p next)) :
    (s.switchTo c p next).Ok ∧ Matched s (s.switchTo c p next) := by
  have hl := h.cpu c
  have hmem : .lock (.proc p) ∈ s.pushed (s.on c) := by
    rw [hon, hpushed]
    exact List.mem_cons_self
  have hne : s.pushed (s.on c) ≠ [] := List.ne_nil_of_mem hmem
  have hoff : s.OffCpu p := h.offCpu hmem (by rw [hon]; exact fun he => by cases he)
    (by rw [hst]; exact fun he => by cases he)
  refine ⟨?_, switchTo_matched hoff⟩
  have hold : (s.cpu c).intena = s.old (.scheduler c) := by
    rw [← hon]
    exact hl.intena hne fun _ => hpc
  have hnoff := hl.noff
  rw [hon, hpushed] at hnoff
  obtain ⟨hintena, hpushed', hstays, hwf⟩ :=
    switchTo_parked (c := c) (h.parked p hoff (.inr (.inr hst))) hold
  obtain ⟨hcpu, hpc', hstate, hctx, hlock, hon', hnoff', hintr', hrest⟩ :=
    switchTo_frame (s := s) (c := c) (p := p) next
  generalize s.switchTo c p next = t at *
  have honp : t.on c = .proc p := hon'
  have hsched : Tid.scheduler c ≠ .proc p := fun he => by cases he
  have hw : Switched c p s t := by
    refine ⟨hcpu, fun d hd => ?_, fun u hu => (hrest u hu).1, fun u hu => (hrest u hu).2.1,
      fun u hu => (hrest u hu).2.2, fun q hq => ?_, fun _ _ => by rw [hctx], hlock,
      fun d _ => hoff d, .inl hon, .inr honp, ?_, fun d hd hd' => h.best_ne hmem hd hd'⟩
    · rw [hpc']
      exact Function.update_of_ne hd _ _
    · rw [hstate]
      exact Function.update_of_ne hq _ _
    · rw [honp, hpushed', hon, hpushed]
  refine h.switch hw ⟨?_, fun _ => ?_, fun _ _ => ?_, ?_, fun q hq => ?_, fun q hq => ?_,
    fun q hq _ => ?_, fun hne => ?_, ?_⟩ fun hp => absurd honp (hp c)
  · rw [hnoff', hnoff, honp, hpushed']
  · rw [hintr']
    exact hl.off hne
  · rw [honp]
    exact hintena
  · rw [honp, hpushed', ends_proc]
    exact hwf
  · rw [honp] at hq
    cases hq
    rw [hstate, Function.update_self]
    exact ⟨⟨fun _ => hstays, fun _ => rfl⟩, fun hn => absurd hn hstays⟩
  · rw [honp] at hq
    cases hq
    rw [hpc', Function.update_self, (hrest _ hsched).1, (hrest _ hsched).2.1]
    exact ⟨⟨next, rfl⟩, hpushed, hscript⟩
  · rw [honp] at hq
    cases hq
  · rw [(hrest _ hsched).2.1] at hne
    exact absurd hscript hne
  · rw [hpc', Function.update_self]
    exact hnext

end Machine

end Xv6.Intr
