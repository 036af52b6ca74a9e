import Xv6.Proc.Table

/-!
# CleanSlot — what a free slot of the process table holds

`exit` clears the open files and the current directory, `freeproc` the other fields.  `kill` looks a
pid up without looking at the state, and a free slot has pid 0: `kill(0)` marks the first free slot
as killed.

* `clean_slots`: in every run in which this does not happen, free slots are clean.
* `kill_unused`: a run in which it happens.
-/

namespace Xv6

/-- Nothing of an earlier process is left in the slot. -/
structure CleanSlot (p : Proc) : Prop where
  pid : p.pid = 0
  killed : p.killed = false
  chan : p.chan = none
  xstate : p.xstate = 0
  sz : p.sz = 0
  parent : p.parent = none
  pagetable : p.pagetable = 0
  trapframe : p.trapframe = 0
  cwd : p.cwd = none
  ofile : p.ofile = fun _ => none

/-- `kill` does not find its pid in a slot that is `UNUSED`. -/
def KillsUsed (S : Sys) : Event → Prop
  | .call _ (.kill pid) => ∀ j ∈ findProc fun j => (S.proc j).pid = int32 pid,
      (S.proc j).state ≠ .UNUSED
  | _ => True

instance (S : Sys) : (e : Event) → Decidable (KillsUsed S e)
  | .call _ (.kill pid) => inferInstanceAs (Decidable (∀ j ∈ findProc fun j =>
      (S.proc j).pid = int32 pid, (S.proc j).state ≠ .UNUSED))
  | .call _ .fork | .call _ (.exit _) | .call _ (.wait _) | .call _ (.waitx ..)
  | .call _ (.set_priority ..) | .call _ (.sbrk _) | .call _ (.exec ..) | .call _ (.copyout ..)
  | .call _ (.store ..) | .call _ (.sleep _) | .call _ .yield | .call _ (.setFile ..)
  | .call _ (.chdir _) | .call _ (.setFrame ..) | .userinit | .run _ | .wakeup _ | .clockintr _
  | .kalloc | .write .. | .kfree _ => inferInstanceAs (Decidable True)

/-- A free slot is clean, and one that is about to be freed has no files. -/
structure SlotOk (p : Proc) : Prop where
  unused : p.state = .UNUSED → CleanSlot p
  zombie : p.state = .ZOMBIE → p.ofile = (fun _ => none) ∧ p.cwd = none

def SlotsOk (S : Sys) : Prop := ∀ i, SlotOk (S.proc i)

section

variable {p : Proc} {i : Fin NPROC} {S T : Sys}

theorem SlotOk.live (h : p.state ≠ .UNUSED) (h' : p.state ≠ .ZOMBIE) : SlotOk p :=
  ⟨fun hu => absurd hu h, fun hz => absurd hz h'⟩

theorem SlotOk.zero : SlotOk Proc.zero :=
  ⟨fun _ => ⟨rfl, rfl, rfl, rfl, rfl, rfl, rfl, rfl, rfl, rfl⟩, fun h => by cases h⟩

/-- `freeproc` on a process without files. -/
theorem SlotOk.free (hf : p.ofile = fun _ => none) (hc : p.cwd = none) : SlotOk p.free :=
  ⟨fun _ => ⟨rfl, rfl, rfl, rfl, rfl, rfl, rfl, rfl, hc, hf⟩, fun h => by cases h⟩

theorem SlotsOk.set (h : SlotsOk S) (hp : SlotOk p) : SlotsOk (S.set i p) := Sys.set_forall h hp

theorem SlotsOk.wakeup {me : Option (Fin NPROC)} {chan : Option Chan} (h : SlotsOk S) :
    SlotsOk (wakeup me chan S) := by
  intro j
  unfold Xv6.wakeup
  dsimp only
  split_ifs
  · exact SlotOk.live (by simp) (by simp)
  · exact h j

theorem SlotsOk.clockintr {me : Option (Fin NPROC)} (h : SlotsOk S) : SlotsOk (clockintr me S) := by
  refine SlotsOk.wakeup fun j => ?_
  have hs : ((S.proc j).toTimes.update).state = (S.proc j).state := by
    unfold Times.update
    split <;> rfl
  by_cases hu : (S.proc j).state = .UNUSED
  · have he : (S.proc j).toTimes.update = (S.proc j).toTimes := by
      unfold Times.update
      rw [hu]
    simp only [he, hu, if_true]
    exact h j
  · simp only [hs, hu, if_false]
    refine ⟨fun hu' => absurd (hs ▸ hu') hu, fun hz => (h j).zombie (hs ▸ hz)⟩

theorem SlotsOk.reparent (h : SlotsOk S) : SlotsOk (reparent i S) := by
  have h' : SlotsOk { S with proc := fun j =>
      if (S.proc j).parent = some i then { S.proc j with parent := S.initproc } else S.proc j } := by
    intro j
    dsimp only
    split_ifs with hj
    · refine ⟨fun hu => ?_, fun hz => (h j).zombie hz⟩
      rw [((h j).unused hu).parent] at hj
      cases hj
    · exact h j
  unfold Xv6.reparent
  dsimp only
  split_ifs
  · exact h'.wakeup
  · exact h'

/-- A change of the files or of the state of a running process. -/
theorem SlotsOk.running {p : Proc} (h : SlotsOk S) (hp : p.state ≠ .UNUSED) (hp' : p.state ≠ .ZOMBIE) :
    SlotsOk (S.set i p) := h.set (SlotOk.live hp hp')

theorem SlotsOk.kill {pid : ℤ} (h : SlotsOk S) (hk : ∀ j ∈ findProc fun j => (S.proc j).pid = pid,
    (S.proc j).state ≠ .UNUSED) : SlotsOk (kill pid S).2 := by
  unfold Xv6.kill
  split
  · rename_i j hj
    have hu := hk j hj
    refine h.set ⟨fun hu' => ?_, fun hz => ?_⟩
    · dsimp only at hu'
      split_ifs at hu'
      exact absurd hu' hu
    · dsimp only at hz
      split_ifs at hz
      exact (h j).zombie hz
  · exact h

theorem SlotsOk.set_priority {pid priority : ℤ} (h : SlotsOk S) :
    SlotsOk (sys_set_priority i pid priority S).2 := by
  have hsp : ∀ j, SlotsOk (S.set j { S.proc j with sp := priority.toNat }) := fun j =>
    h.set ⟨fun hu => by
      obtain ⟨h1, h2, h3, h4, h5, h6, h7, h8, h9, h10⟩ := (h j).unused hu
      exact ⟨h1, h2, h3, h4, h5, h6, h7, h8, h9, h10⟩, fun hz => (h j).zombie hz⟩
  unfold sys_set_priority
  split_ifs with h1
  · exact h
  · cases findProc fun j => (S.proc j).pid = pid with
    | some j =>
      dsimp only
      split_ifs
      · exact (hsp j).running (by simp) (by simp)
      · exact hsp j
    | none =>
      dsimp only
      split_ifs
      · exact SlotsOk.running (S := { S with past := _ }) h (by simp) (by simp)
      · exact h

theorem SlotsOk.exit {status : ℤ} (h : SlotsOk S) (hi : (S.proc i).state = .RUNNING)
    (ht : exit i status S = .ok T) : SlotsOk T := by
  unfold Xv6.exit at ht
  split_ifs at ht
  cases ht
  have h₁ : SlotsOk (S.set i { S.proc i with ofile := fun _ => none, cwd := none }) :=
    h.set (SlotOk.live (by simp [hi]) (by simp [hi]))
  refine SlotsOk.set h₁.reparent.wakeup ⟨fun hu => absurd hu (by simp), fun _ => ?_⟩
  rw [wakeup_proc, reparent_proc, Sys.set_self]
  exact ⟨rfl, rfl⟩

/-- What is expected of `kill`: it changes processes in use only, and fails if none has the pid. -/
def KillOk (S : Sys) (pid : ℤ) : Prop :=
  (∀ j, (kill pid S).2.proc j ≠ S.proc j → (S.proc j).state ≠ .UNUSED) ∧
    ((∀ j, (S.proc j).state ≠ .UNUSED → (S.proc j).pid ≠ pid) → (kill pid S).1 = -1)

/-- Among clean slots `kill` goes wrong exactly when it finds its pid in a free one. -/
theorem SlotsOk.killOk_iff {pid : ℤ} (h : SlotsOk S) :
    (∀ j ∈ findProc fun j => (S.proc j).pid = pid, (S.proc j).state ≠ .UNUSED) ↔ KillOk S pid := by
  unfold KillOk Xv6.kill
  cases hf : findProc fun j => (S.proc j).pid = pid with
  | none => simp
  | some j =>
    have hpid : (S.proc j).pid = pid := by simpa using findProc_some hf
    simp only [Option.mem_some_iff, forall_eq']
    constructor
    · intro hu
      refine ⟨fun k hk => ?_, fun hnone => absurd hpid (hnone j hu)⟩
      by_cases hkj : k = j
      · exact hkj ▸ hu
      · exact absurd (Sys.set_ne hkj) hk
    · rintro ⟨hchg, -⟩ hu
      refine hchg j (fun he => ?_) hu
      have hk := congrArg Proc.killed he
      rw [Sys.set_self, ((h j).unused hu).killed] at hk
      cases hk

end

section

variable [Image] {S T : Sys} {i j : Fin NPROC} {o : Option (Fin NPROC)}

theorem SlotsOk.freeproc (h : SlotsOk S) (hf : (S.proc i).ofile = fun _ => none)
    (hc : (S.proc i).cwd = none) (ht : freeproc i S = .ok T) : SlotsOk T := by
  obtain ⟨s, s', -, -, rfl⟩ := freeproc_ok ht
  exact SlotsOk.set (S := { S with phys := s' }) h (SlotOk.free hf hc)

/-- `freeproc` of the slot that `allocproc` has taken. -/
theorem SlotsOk.giveUp {p : Proc} (h : SlotsOk S) (ht : Xv6.freeproc i (S.set i p) = .ok T)
    (hp : p.state = .USED) (hf : p.ofile = fun _ => none) (hc : p.cwd = none) : SlotsOk T := by
  refine SlotsOk.freeproc (h.set ?_) ?_ ?_ ht
  · exact SlotOk.live (by rw [hp]; decide) (by rw [hp]; decide)
  · rw [Sys.set_self, hf]
  · rw [Sys.set_self, hc]

/-- A process that `allocproc` returns is in use, not killed and without files. -/
theorem SlotsOk.allocproc (h : SlotsOk S) (ht : Allocproc S T o) : SlotsOk T ∧
    ∀ j, o = some j → (T.proc j).state = .USED ∧ (T.proc j).killed = false ∧
      ((T.proc j).ofile = fun _ => none) ∧ (T.proc j).cwd = none := by
  cases ht with
  | full hT =>
    subst hT
    exact ⟨h, fun j hj => by cases hj⟩
  | noFrame i s hi hk hf =>
    have hc := (h i).unused hi
    exact ⟨SlotsOk.giveUp (S := { S with phys := s, nextpid := _ }) h hf rfl hc.ofile hc.cwd,
      fun j hj => by cases hj⟩
  | noTable i trapframe s s' hi hk hp hf =>
    have hc := (h i).unused hi
    exact ⟨SlotsOk.giveUp (S := { S with phys := s', nextpid := _ }) h hf rfl hc.ofile hc.cwd,
      fun j hj => by cases hj⟩
  | done i trapframe pagetable s s' hi hk hp h0 hT =>
    have hc := (h i).unused hi
    subst hT
    refine ⟨SlotsOk.set (S := { S with phys := s', nextpid := _ }) h
      (SlotOk.live (by simp [Proc.fresh, Sys.named]) (by simp [Proc.fresh, Sys.named])), ?_⟩
    intro j hj
    cases hj
    rw [Sys.set_self]
    exact ⟨rfl, hc.killed, hc.ofile, hc.cwd⟩

theorem SlotsOk.userinit (h : SlotsOk S) (ht : userinit S = .ok T) : SlotsOk T := by
  obtain ⟨S', i, mem, s, r, s', ha, -, -, rfl⟩ := userinit_ok ht
  refine SlotsOk.set (S := { S' with phys := _, initproc := _, held := _ }) (h.allocproc (allocproc_ok ha)).1 ?_
  exact SlotOk.live (by simp) (by simp)

theorem SlotsOk.fork (h : SlotsOk S) (ht : Fork i S T) : SlotsOk T := by
  cases ht with
  | noProc ha => exact (h.allocproc (allocproc_ok ha)).1
  | failed j S' r s ha hu hr hf =>
    obtain ⟨h', hj⟩ := h.allocproc (allocproc_ok ha)
    obtain ⟨-, -, hfile, hcwd⟩ := hj j rfl
    exact SlotsOk.freeproc (S := { S' with phys := s }) h' hfile hcwd hf
  | done j S' r s ha hu hr hT =>
    subst hT
    refine SlotsOk.set (S := { S' with phys := _ }) (h.allocproc (allocproc_ok ha)).1 ?_
    exact SlotOk.live (by simp) (by simp)

theorem SlotsOk.waitRound {addr : ℕ} {r : ℤ} (h : SlotsOk S) (ht : WaitRound i addr S (some (r, T))) :
    SlotsOk T := by
  cases ht with
  | bad j r s hj h0 hr hc => exact h
  | reaped j r s T hj hc hf =>
    have hz : (S.proc j).state = .ZOMBIE := by
      have := findProc_some hj
      simp only [decide_eq_true_eq] at this
      exact this.2
    obtain ⟨hfile, hcwd⟩ := (h j).zombie hz
    exact SlotsOk.freeproc (S := { S with phys := s }) h hfile hcwd hf
  | none hz => exact h

theorem SlotsOk.exec {argv : List (List UInt8)} {r : ℤ} (h : SlotsOk S) (hi : (S.proc i).state = .RUNNING)
    (ht : Exec i argv S T r) : SlotsOk T := by
  cases ht with
  | noFile hT => exact hT ▸ h
  | failed ip pagetable sz s s' hb hf hT => exact hT ▸ h
  | done ip sp pagetable sz entry name s s' hb hf hT =>
    subst hT
    exact SlotsOk.running (S := { S with phys := s' }) h (by simp [hi]) (by simp [hi])

theorem SlotsOk.call {c : Call} (h : SlotsOk S) (hi : (S.proc i).state = .RUNNING)
    (hk : KillsUsed S (.call i c)) (ht : S.call i c = .ok T) : SlotsOk T := by
  cases c with
  | fork =>
    obtain ⟨⟨r, T⟩, ht, rfl⟩ := map_ok ht
    exact h.fork (fork_ok ht)
  | exit status => exact h.exit hi ht
  | wait addr =>
    obtain ⟨x, hx, rfl⟩ := map_ok ht
    have hx := waitRound_ok hx
    cases x with
    | none => exact h.running (by simp) (by simp)
    | some x => exact h.waitRound hx
  | waitx addr addr1 addr2 wtime rtime =>
    obtain ⟨x, hx, rfl⟩ := map_ok ht
    rcases sys_waitx_ok hx with ⟨rfl, -⟩ | ⟨r, S', r₁, s, hw, -, -, ⟨-, rfl⟩ | ⟨-, r₂, s', -, rfl⟩⟩
    · exact h.running (by simp) (by simp)
    · exact SlotsOk.waitRound (T := S') h hw
    · exact SlotsOk.waitRound (T := S') h hw
  | kill pid =>
    cases ht
    exact h.kill hk
  | set_priority pid priority =>
    cases ht
    exact h.set_priority
  | sbrk n =>
    obtain ⟨⟨r, T⟩, ht, rfl⟩ := map_ok ht
    cases growproc_ok ht with
    | none hn hT => exact hT ▸ h
    | failed s hn hu hT => exact hT ▸ h
    | grown sz s hn hu h0 hT =>
      subst hT
      exact SlotsOk.running (S := { S with phys := s }) h (by simp [hi]) (by simp [hi])
    | shrunk sz s hn hu hT =>
      subst hT
      exact SlotsOk.running (S := { S with phys := s }) h (by simp [hi]) (by simp [hi])
  | exec upath uargv namei =>
    obtain ⟨⟨r, T⟩, ht, rfl⟩ := map_ok ht
    obtain ⟨-, rfl⟩ | ⟨ok, argv, s, S', s', -, ⟨-, rfl⟩ | he, -, rfl⟩ := sys_exec_ok ht
    · exact h
    · exact h
    · exact SlotsOk.exec (S := { S with phys := s }) (T := S') h hi he
  | copyout dstva bytes =>
    obtain ⟨x, -, rfl⟩ := map_ok ht
    exact h
  | store va b =>
    obtain ⟨x, -, rfl⟩ := map_ok ht
    exact h
  | sleep chan =>
    cases ht
    exact h.running (by simp) (by simp)
  | yield =>
    cases ht
    exact h.running (by simp) (by simp)
  | setFile fd f =>
    cases ht
    exact h.running (by simp [hi]) (by simp [hi])
  | chdir ip =>
    cases ht
    exact h.running (by simp [hi]) (by simp [hi])
  | setFrame off b =>
    cases ht
    exact h

theorem SlotsOk.step {e : Event} (h : SlotsOk S) (hk : KillsUsed S e) (ht : S.step e = some (.ok T)) :
    SlotsOk T := by
  cases e with
  | userinit =>
    simp only [Sys.step] at ht
    split_ifs at ht
    exact h.userinit (Option.some.inj ht)
  | run i =>
    simp only [Sys.step] at ht
    split_ifs at ht
    cases ht
    exact h.running (by simp) (by simp)
  | wakeup chan =>
    cases ht
    exact h.wakeup
  | clockintr me =>
    cases ht
    exact h.clockintr
  | kalloc =>
    simp only [Sys.step] at ht
    split at ht
    all_goals
      cases ht
      exact h
  | write pa off b =>
    simp only [Sys.step] at ht
    split_ifs at ht
    cases ht
    exact h
  | kfree pa =>
    simp only [Sys.step] at ht
    split_ifs at ht
    obtain ⟨s, -, rfl⟩ := map_ok (Option.some.inj ht)
    exact h
  | call i c =>
    simp only [Sys.step] at ht
    split_ifs at ht with hi
    exact h.call hi hk (Option.some.inj ht)

/-- **Free slots are clean**, `allocproc` returns a process that is not killed, and `kill` acts as it
should, in every run in which `kill` never finds its pid in a free slot. -/
theorem clean_slots (phys : Phys) (hS : Runs.Steps Sys.step KillsUsed (Sys.boot phys) S) :
    (∀ i, (S.proc i).state = .UNUSED → CleanSlot (S.proc i)) ∧
    (∀ j T, allocproc S = .ok (some j, T) → (T.proc j).killed = false) ∧
    ∀ i pid, KillsUsed S (.call i (.kill pid)) ↔ KillOk S (int32 pid) := by
  have h : SlotsOk S := hS.invariant (fun _ => SlotOk.zero) fun _ _ _ h hk ht => h.step hk ht
  refine ⟨fun i hi => (h i).unused hi, fun j T ht => ?_, fun i pid => h.killOk_iff⟩
  exact ((h.allocproc (allocproc_ok ht)).2 j rfl).2.1

end

/-! ## `kill(0)` -/

/-- The first process kills the process with pid 2, its child. -/
theorem clean_slots_kill : ∃ S,
    @Runs.Steps _ _ _ (@Sys.step smallImage) KillsUsed (Sys.boot smallPhys) S ∧
      (S.proc 1).killed = true ∧ ∀ i, (S.proc i).state = .UNUSED → CleanSlot (S.proc i) := by
  let _ := smallImage
  obtain ⟨S, hS, hk⟩ := Runs.Steps.of_any (P := KillsUsed)
    (Q := fun S : Sys => (S.proc 1).killed = true)
    [.userinit, .run 0, .call 0 .fork, .call 0 (.kill 2)]
    (by decide +kernel : (Runs.exec Sys.step KillsUsed (Sys.boot smallPhys) _).any _ = true)
  exact ⟨S, hS, hk, (clean_slots smallPhys hS).1⟩

/-- The first process calls `kill(0)`, which returns 0; the slot it has marked is the next that
`allocproc` takes. -/
theorem kill_unused : ∃ S,
    @Runs.Steps _ _ _ (@Sys.step smallImage) (fun _ _ => True) (Sys.boot smallPhys) S ∧
      (∀ j, (S.proc j).state ≠ .UNUSED → (S.proc j).pid ≠ 0) ∧ (kill 0 S).1 = 0 ∧
      @Sys.step smallImage S (.call 0 (.kill 0)) = some (.ok (kill 0 S).2) ∧
      ((kill 0 S).2.proc 1).state = .UNUSED ∧ ((kill 0 S).2.proc 1).killed = true ∧
      ∃ T, @allocproc smallImage (kill 0 S).2 = .ok (some 1, T) ∧ (T.proc 1).killed = true := by
  let _ := smallImage
  obtain ⟨S, hS, hpid, hrun, hret, hu, hk, ha⟩ := Runs.Steps.of_any
    (P := fun _ _ => True)
    (Q := fun S : Sys => (∀ j, (S.proc j).state ≠ .UNUSED → (S.proc j).pid ≠ 0) ∧
      (S.proc 0).state = .RUNNING ∧ (kill 0 S).1 = 0 ∧ ((kill 0 S).2.proc 1).state = .UNUSED ∧
      ((kill 0 S).2.proc 1).killed = true ∧
      Runs.okWith (fun y => y.1 == some 1 && (y.2.proc 1).killed) (allocproc (kill 0 S).2) = true)
    [.userinit, .run 0]
    (by decide +kernel :
      (Runs.exec Sys.step (fun _ _ => True) (Sys.boot smallPhys) _).any _ = true)
  refine ⟨S, hS, hpid, hret, if_pos hrun, hu, hk, ?_⟩
  obtain ⟨y, hy, hp⟩ := Runs.okWith_iff.mp ha
  rw [Bool.and_eq_true, beq_iff_eq] at hp
  refine ⟨y.2, ?_, hp.2⟩
  rw [hy, ← hp.1]

end Xv6
