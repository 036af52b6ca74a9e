import Xv6.Kernel.Clock
import Xv6.Lib.Runs

/-!
# RunTime — running time against lifetime

A tick is counted for a process that `update_time` finds `RUNNING`.  A process created after
`ticks++` and before `update_time` has come to its slot may get that tick though it did not live
through it; then its waiting time wraps around.

* `rtime_le`: in every run in which this does not happen, `rtime` stays within the lifetime.
* `young_zombie`: a run in which it happens.
-/

namespace Xv6

/-- `update_time` does not find a running process that was created since `ticks++`. -/
def Aged (s : ClockSys) : ClockOp → Prop
  | .tick => s.ticks + 1 < 2 ^ 32
  | .update_time => ∀ i : Fin NPROC, s.scan = some i.val → (s.proc i).state = .RUNNING →
      (s.proc i).ctime ≠ s.ticks
  | _ => True

instance (s : ClockSys) : (l : ClockOp) → Decidable (Aged s l)
  | .tick => inferInstanceAs (Decidable (s.ticks + 1 < 2 ^ 32))
  | .update_time => inferInstanceAs (Decidable (∀ i : Fin NPROC, s.scan = some i.val →
      (s.proc i).state = .RUNNING → (s.proc i).ctime ≠ s.ticks))
  | .allocproc _ | .fork _ | .schedule _ | .yield _ | .sleep _ | .wakeup _ | .exit _
  | .freeproc _ => inferInstanceAs (Decidable True)

/-- What the times of a slot satisfy; `due` says that the current tick may still be counted. -/
structure TimesOk (ticks : ℕ) (due : Prop) (p : Times) : Prop where
  ctime_le : p.ctime ≤ ticks
  live : p.state ≠ .ZOMBIE → p.state ≠ .UNUSED → p.rtime + p.ctime ≤ ticks
  due : due → p.state ≠ .ZOMBIE → p.state ≠ .UNUSED → p.ctime ≠ ticks → p.rtime + p.ctime < ticks
  zombie : p.state = .ZOMBIE → p.rtime + p.ctime ≤ p.etime ∧ p.etime ≤ ticks

/-- `update_time` has not come to slot `i` yet. -/
def Due (s : ClockSys) (i : Fin NPROC) : Prop := ∃ j, s.scan = some j ∧ j ≤ i.val

/-- The times of all slots. -/
structure ClockOk (s : ClockSys) : Prop where
  lt : s.ticks < 2 ^ 32
  proc : ∀ i, TimesOk s.ticks (Due s i) (s.proc i)

section

variable {s t : ClockSys} {i : Fin NPROC} {p : Times} {f : List procstate} {ticks : ℕ} {due : Prop}

theorem ClockOk.boot : ClockOk ClockSys.boot := by
  refine ⟨by decide, fun i => ⟨le_rfl, fun _ h => absurd rfl h, fun _ _ h => absurd rfl h, ?_⟩⟩
  intro h
  cases h

/-- A change of one slot. -/
theorem ClockOk.set (h : ClockOk s) (hp : TimesOk s.ticks (Due s i) p) : ClockOk (s.set i p) := by
  refine ⟨h.lt, fun j => ?_⟩
  show TimesOk s.ticks (Due s j) (Function.update s.proc i p j)
  by_cases hj : j = i
  · subst hj
    rw [Function.update_self]
    exact hp
  · rw [Function.update_of_ne hj]
    exact h.proc j

/-- Changes of state between creation and exit. -/
theorem TimesOk.live_state {q : Times} (h : TimesOk ticks due p) (hp : p.state ≠ .ZOMBIE)
    (hp' : p.state ≠ .UNUSED) (hr : q.rtime = p.rtime) (hc : q.ctime = p.ctime)
    (hq : q.state ≠ .ZOMBIE) : TimesOk ticks due q := by
  refine ⟨hc ▸ h.ctime_le, fun _ _ => ?_, fun hd _ _ => ?_, fun hz => absurd hz hq⟩
  · rw [hr, hc]
    exact h.live hp hp'
  · rw [hr, hc]
    exact h.due hd hp hp'

theorem ClockOk.move (h : ClockOk s) (hl : s.move i f p = some (.ok t))
    (hp : (s.proc i).state ∈ f → TimesOk s.ticks (Due s i) p) : ClockOk t := by
  unfold ClockSys.move at hl
  split_ifs at hl with hf
  cases hl
  exact h.set (hp hf)

/-- A process that has not exited goes from one state to another. -/
theorem ClockOk.changeState {a : procstate} (h : ClockOk s) (hl : s.move i [a] p = some (.ok t))
    (ha : a ≠ .ZOMBIE) (ha' : a ≠ .UNUSED) (hr : p.rtime = (s.proc i).rtime)
    (hc : p.ctime = (s.proc i).ctime) (hp : p.state ≠ .ZOMBIE) : ClockOk t := by
  refine h.move hl fun hf => ?_
  rw [List.mem_singleton] at hf
  exact (h.proc i).live_state (hf ▸ ha) (hf ▸ ha') hr hc hp

/-- `ticks++`: the tick is due for everyone. -/
theorem TimesOk.tick (h : TimesOk ticks due p) {due' : Prop} : TimesOk (ticks + 1) due' p := by
  refine ⟨le_trans h.ctime_le (Nat.le_succ _), fun h1 h2 => le_trans (h.live h1 h2) (Nat.le_succ _),
    fun _ h1 h2 _ => Nat.lt_succ_of_le (h.live h1 h2), fun hz => ?_⟩
  exact ⟨(h.zombie hz).1, le_trans (h.zombie hz).2 (Nat.le_succ _)⟩

/-- One round of `update_time`. -/
theorem TimesOk.update (h : TimesOk ticks due p) (hd : due) (hlt : ticks < 2 ^ 32)
    (haged : p.state = .RUNNING → p.ctime ≠ ticks) : TimesOk ticks False p.update := by
  have hinc : p.state = .RUNNING → Times.inc p.rtime = p.rtime + 1 := by
    intro hr
    have := h.live (by rw [hr]; decide) (by rw [hr]; decide)
    unfold Times.inc
    exact Nat.mod_eq_of_lt (by have := h.due hd (by rw [hr]; decide) (by rw [hr]; decide) (haged hr); omega)
  unfold Times.update
  split
  · rename_i hr
    refine ⟨h.ctime_le, fun _ _ => ?_, fun hf => hf.elim, fun hz => ?_⟩
    · have := h.due hd (by rw [hr]; decide) (by rw [hr]; decide) (haged hr)
      simp only [hinc hr]
      omega
    · simp only [hr] at hz
      cases hz
  all_goals exact ⟨h.ctime_le, h.live, fun hf => hf.elim, h.zombie⟩

theorem clockStep_ok {l : ClockOp} (h : ClockOk s) (ha : Aged s l)
    (hl : clockStep s l = some (.ok t)) : ClockOk t := by
  cases l with
  | tick =>
    simp only [clockStep] at hl
    split at hl
    · cases hl
      have hlt : s.ticks + 1 < 2 ^ 32 := ha
      have hinc : Times.inc s.ticks = s.ticks + 1 := Nat.mod_eq_of_lt hlt
      refine ⟨by simp only [hinc]; exact hlt, fun i => ?_⟩
      simp only [hinc]
      exact (h.proc i).tick
    · cases hl
  | update_time =>
    simp only [clockStep] at hl
    split at hl
    · cases hl
    · rename_i j hscan
      split_ifs at hl with hj
      · cases hl
        refine ⟨h.lt, fun i => ?_⟩
        show TimesOk s.ticks _ (Function.update s.proc ⟨j, hj⟩ _ i)
        by_cases hi : i = ⟨j, hj⟩
        · subst hi
          rw [Function.update_self]
          have hdue : Due s ⟨j, hj⟩ := ⟨j, hscan, le_rfl⟩
          have := (h.proc ⟨j, hj⟩).update hdue h.lt (ha ⟨j, hj⟩ hscan)
          refine ⟨this.ctime_le, this.live, fun hd => ?_, this.zombie⟩
          obtain ⟨k, hk, hle⟩ := hd
          cases hk
          exact absurd hle (Nat.not_succ_le_self j)
        · rw [Function.update_of_ne hi]
          have := h.proc i
          refine ⟨this.ctime_le, this.live, fun hd => this.due ?_, this.zombie⟩
          obtain ⟨k, hk, hle⟩ := hd
          cases hk
          exact ⟨j, hscan, by omega⟩
      · cases hl
        refine ⟨h.lt, fun i => ?_⟩
        have := h.proc i
        refine ⟨this.ctime_le, this.live, fun hd => ?_, this.zombie⟩
        obtain ⟨k, hk, -⟩ := hd
        cases hk
  | allocproc i =>
    refine h.move hl fun _ => ⟨le_rfl, fun _ _ => by simp, fun _ _ _ hne => absurd rfl hne, ?_⟩
    intro hz
    cases hz
  | fork i => exact h.changeState hl (by decide) (by decide) rfl rfl (fun hz => by cases hz)
  | schedule i => exact h.changeState hl (by decide) (by decide) rfl rfl (fun hz => by cases hz)
  | yield i => exact h.changeState hl (by decide) (by decide) rfl rfl (fun hz => by cases hz)
  | sleep i => exact h.changeState hl (by decide) (by decide) rfl rfl (fun hz => by cases hz)
  | wakeup i => exact h.changeState hl (by decide) (by decide) rfl rfl (fun hz => by cases hz)
  | exit i =>
    refine h.move hl fun hf => ?_
    rw [List.mem_singleton] at hf
    refine ⟨(h.proc i).ctime_le, fun hz => absurd rfl hz, fun _ hz => absurd rfl hz, fun _ => ?_⟩
    exact ⟨(h.proc i).live (by rw [hf]; decide) (by rw [hf]; decide), le_rfl⟩
  | freeproc i =>
    refine h.move hl fun _ => ⟨(h.proc i).ctime_le, fun _ hu => absurd rfl hu,
      fun _ _ hu => absurd rfl hu, fun hz => ?_⟩
    cases hz

/-- **In every run in which no process is charged with a tick that began before it was created**,
the waiting time that `waitx` computes does not wrap around. -/
theorem rtime_le (h : Runs.Steps clockStep Aged ClockSys.boot s) (hz : (s.proc i).state = .ZOMBIE) :
    (s.proc i).rtime + (s.proc i).ctime ≤ (s.proc i).etime ∧
      (s.proc i).waited + (s.proc i).rtime + (s.proc i).ctime = (s.proc i).etime := by
  have hok : ClockOk s := h.invariant ClockOk.boot fun _ _ _ hi hP hl => clockStep_ok hi hP hl
  obtain ⟨h1, h2⟩ := (hok.proc i).zombie hz
  have hlt := hok.lt
  refine ⟨h1, ?_⟩
  unfold Times.waited
  omega

/-- A process that runs through one tick and exits. -/
theorem rtime_le_oneTick : ∃ s, Runs.Steps clockStep Aged ClockSys.boot s ∧
    (s.proc 0).rtime = 1 ∧ (s.proc 0).rtime + (s.proc 0).ctime ≤ (s.proc 0).etime := by
  have h : ((Runs.exec clockStep Aged ClockSys.boot [.allocproc 0, .fork 0, .schedule 0, .tick,
      .update_time, .exit 0]).map fun s =>
        decide ((s.proc 0).state = .ZOMBIE) && decide ((s.proc 0).rtime = 1)) = some true := by decide
  obtain ⟨s, hs, hb⟩ := Option.map_eq_some_iff.mp h
  simp only [Bool.and_eq_true, decide_eq_true_eq] at hb
  exact ⟨s, Runs.Steps.of_exec hs, hb.2, (rtime_le (Runs.Steps.of_exec hs) hb.1).1⟩

/-! ## A process that is too young -/

/-- Process 0 runs when a tick begins; process 1 is created, runs and is charged, and exits. -/
def youngZombie : List ClockOp :=
  [.allocproc 0, .fork 0, .schedule 0, .tick, .allocproc 1, .fork 1, .schedule 1, .update_time,
    .update_time, .exit 1]

/-- **A waiting time of four billion**: ticks are below `2 ^ 32`, and `rtime` exceeds the lifetime. -/
theorem young_zombie : ¬ ∀ s i, Runs.Steps clockStep (fun s _ => s.ticks + 1 < 2 ^ 32) ClockSys.boot s →
    (s.proc i).state = .ZOMBIE → (s.proc i).rtime + (s.proc i).ctime ≤ (s.proc i).etime := by
  intro hclaim
  have h : ((Runs.exec clockStep (fun s _ => s.ticks + 1 < 2 ^ 32) ClockSys.boot youngZombie).map
      fun s => decide ((s.proc 1).state = .ZOMBIE) && decide ((s.proc 1).rtime = 1) &&
        decide ((s.proc 1).ctime = 1) && decide ((s.proc 1).etime = 1)) = some true := by decide
  obtain ⟨s, hs, hb⟩ := Option.map_eq_some_iff.mp h
  simp only [Bool.and_eq_true, decide_eq_true_eq] at hb
  obtain ⟨⟨⟨h1, h2⟩, h3⟩, h4⟩ := hb
  have := hclaim s 1 (Runs.Steps.of_exec hs) h1
  omega

end

end Xv6
