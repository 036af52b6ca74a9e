import Xv6.Sync.Stack

/-!
# Effect — what the effects do to an entry of the process table

* `apply_core`: an entry is changed under its lock, `parent` apart.
* `apply_trans`: the transitions of `p->state`.
* `apply_cond`, `apply_chan`, `apply_parent`: what changes the other fields.
* `Frame.Tells`, `step_tells`: what a frame tells of the states of processes.
-/

namespace Xv6

/-- The fields of an entry that its lock protects. -/
def Entry.core (e : Entry) : procstate × Option Chan × Bool × ℤ × ℤ × ℕ :=
  (e.state, e.chan, e.killed, e.xstate, e.pid, e.life)

theorem Entry.core_eq {a b : Entry} (h : a.core = b.core) : a.state = b.state ∧ a.chan = b.chan ∧
    a.killed = b.killed ∧ a.xstate = b.xstate ∧ a.pid = b.pid ∧ a.life = b.life := by
  unfold Entry.core at h
  simpa only [Prod.mk.injEq] using h

@[simp] theorem Data.set_proc_self (d : Data) (i : Fin NPROC) (e : Entry) : (d.set i e).proc i = e :=
  Function.update_self ..

theorem Data.set_proc_of_ne {d : Data} {i j : Fin NPROC} {e : Entry} (h : i ≠ j) :
    (d.set j e).proc i = d.proc i := Function.update_of_ne h _ _

/-- The state in which an effect finds its process. -/
def Eff.Pre (d : Data) : Eff → Prop
  | .run i => (d.proc i).state = .RUNNABLE
  | .yield i | .sleep i _ | .exit i _ => (d.proc i).state = .RUNNING
  | .alloc i => (d.proc i).state = .UNUSED
  | .start j | .free j => (d.proc j).state = .USED
  | .reap _ j => (d.proc j).state = .ZOMBIE
  | _ => True

/-- The transitions of the state of process `i`. -/
inductive Eff.Trans (i : Fin NPROC) : Eff → procstate → procstate → Prop
  | stay (e : Eff) (a : procstate) : Trans i e a a
  | run : Trans i (.run i) .RUNNABLE .RUNNING
  | yield : Trans i (.yield i) .RUNNING .RUNNABLE
  | sleep (x : Chan) : Trans i (.sleep i x) .RUNNING .SLEEPING
  | wakeup (x : Option Chan) : Trans i (.wakeup i x) .SLEEPING .RUNNABLE
  | kill : Trans i (.kill i) .SLEEPING .RUNNABLE
  | alloc : Trans i (.alloc i) .UNUSED .USED
  | start : Trans i (.start i) .USED .RUNNABLE
  | free : Trans i (.free i) .USED .UNUSED
  | exit (status : ℤ) : Trans i (.exit i status) .RUNNING .ZOMBIE
  | reap (p : Fin NPROC) : Trans i (.reap p i) .ZOMBIE .UNUSED

section

variable {e : Eff} {d : Data} {i j : Fin NPROC} {a b : Entry} {x : Chan}

/-- The process that an effect is about. -/
def Eff.target : Eff → Option (Fin NPROC)
  | .run i | .yield i | .sleep i _ | .woken i | .wakeup i _ | .kill i | .setkilled i | .alloc i
  | .start i | .free i | .exit i _ | .reap _ i | .adopt _ i | .orphan i => some i
  | _ => none

/-- An effect leaves the other entries alone; `clockintr` sets priorities. -/
theorem apply_proc_of_ne (h : e.target ≠ some i) :
    (e.apply d).proc i = d.proc i ∨ ∃ dp, e = .rate dp ∧
      (e.apply d).proc i = { d.proc i with dp := ((e.apply d).proc i).dp } := by
  cases e with
  | rate dp =>
    refine Or.inr ⟨dp, rfl, ?_⟩
    simp only [Eff.apply]
    split_ifs <;> rfl
  | wakeup j x =>
    left
    simp only [Eff.apply]
    split_ifs
    · exact Data.set_proc_of_ne fun hij => h (hij ▸ rfl)
    · rfl
  | run j | yield j | sleep j x | woken j | kill j | setkilled j | alloc j | start j | free j
  | exit j status | reap p j | adopt p j | orphan j =>
    left
    exact Data.set_proc_of_ne fun hij => h (hij ▸ rfl)
  | _ => exact Or.inl rfl

/-- **An entry changes under its lock**, its parent and its priority apart. -/
theorem apply_core (h : .proc i ∉ e.guards) : ((e.apply d).proc i).core = (d.proc i).core := by
  by_cases ht : e.target = some i
  · cases e with
    | adopt p j | orphan j =>
      cases ht
      simp [Eff.apply, Entry.core]
    | run j | yield j | sleep j x | woken j | wakeup j x | kill j | setkilled j | alloc j | start j
    | free j | exit j status | reap p j =>
      cases ht
      exact absurd (List.mem_cons_self ..) h
    | _ => cases ht
  · obtain he | ⟨dp, -, he⟩ := apply_proc_of_ne (d := d) ht
    · rw [he]
    · rw [he]
      rfl

/-- **The transitions of states.** -/
theorem apply_trans (h : e.Pre d) (i : Fin NPROC) :
    e.Trans i (d.proc i).state ((e.apply d).proc i).state := by
  by_cases ht : e.target = some i
  · cases e with
    | run j =>
      cases ht
      rw [show (d.proc i).state = _ from h]
      simpa [Eff.apply] using Eff.Trans.run
    | yield j =>
      cases ht
      rw [show (d.proc i).state = _ from h]
      simpa [Eff.apply] using Eff.Trans.yield
    | sleep j x =>
      cases ht
      rw [show (d.proc i).state = _ from h]
      simpa [Eff.apply] using Eff.Trans.sleep x
    | exit j status =>
      cases ht
      rw [show (d.proc i).state = _ from h]
      simpa [Eff.apply] using Eff.Trans.exit status
    | alloc j =>
      cases ht
      rw [show (d.proc i).state = _ from h]
      simpa [Eff.apply] using Eff.Trans.alloc
    | start j =>
      cases ht
      rw [show (d.proc i).state = _ from h]
      simpa [Eff.apply] using Eff.Trans.start
    | free j =>
      cases ht
      rw [show (d.proc i).state = _ from h]
      simpa [Eff.apply, Entry.free] using Eff.Trans.free
    | reap p j =>
      cases ht
      rw [show (d.proc i).state = _ from h]
      simpa [Eff.apply, Entry.free] using Eff.Trans.reap p
    | wakeup j x =>
      cases ht
      simp only [Eff.apply]
      split_ifs with hx
      · rw [hx.1]
        simpa using Eff.Trans.wakeup x
      · exact Eff.Trans.stay ..
    | kill j =>
      cases ht
      by_cases hx : (d.proc i).state = .SLEEPING
      · rw [hx]
        simpa [Eff.apply, hx] using Eff.Trans.kill
      · have : ((Eff.apply d (.kill i)).proc i).state = (d.proc i).state := by simp [Eff.apply, hx]
        rw [this]
        exact Eff.Trans.stay ..
    | woken j | setkilled j | adopt p j | orphan j =>
      cases ht
      simpa [Eff.apply] using Eff.Trans.stay ..
    | _ => cases ht
  · obtain he | ⟨dp, -, he⟩ := apply_proc_of_ne (d := d) ht
    · rw [he]
      exact Eff.Trans.stay ..
    · rw [he]
      exact Eff.Trans.stay ..

/-- What changes the condition of a channel. -/
theorem apply_cond : (e.apply d).cond x i = d.cond x i ∨
    ∃ v, e = .cond x v ∧ (e.apply d).cond x i = v i := by
  cases e with
  | cond y v =>
    by_cases hxy : x = y
    · subst hxy
      exact Or.inr ⟨v, rfl, by simp [Eff.apply]⟩
    · exact Or.inl (by simp [Eff.apply, Function.update_of_ne hxy])
  | wakeup i y =>
    simp only [Eff.apply]
    split_ifs
    all_goals exact Or.inl rfl
  | _ => exact Or.inl rfl

/-- What changes the channel of a process. -/
theorem apply_chan : ((e.apply d).proc i).chan = (d.proc i).chan ∨ (∃ x, e = .sleep i x) ∨
    e = .woken i ∨ e = .free i ∨ ∃ q, e = .reap q i := by
  by_cases ht : e.target = some i
  · cases e with
    | sleep j x =>
      cases ht
      exact Or.inr (Or.inl ⟨x, rfl⟩)
    | woken j =>
      cases ht
      exact Or.inr (Or.inr (Or.inl rfl))
    | free j =>
      cases ht
      exact Or.inr (Or.inr (Or.inr (Or.inl rfl)))
    | reap q j =>
      cases ht
      exact Or.inr (Or.inr (Or.inr (Or.inr ⟨q, rfl⟩)))
    | wakeup j x =>
      cases ht
      left
      simp only [Eff.apply]
      split_ifs
      · simp
      · rfl
    | run j | yield j | kill j | setkilled j | alloc j | start j | exit j status | adopt q j
    | orphan j =>
      cases ht
      exact Or.inl (by simp [Eff.apply])
    | _ => cases ht
  · left
    obtain he | ⟨dp, -, he⟩ := apply_proc_of_ne (d := d) ht
    · rw [he]
    · rw [he]

/-- What changes the parent of a process. -/
theorem apply_parent : ((e.apply d).proc i).parent = (d.proc i).parent ∨
    (∃ p, e = .adopt p i ∧ ((e.apply d).proc i).parent = some p) ∨
    e = .orphan i ∧ ((e.apply d).proc i).parent = some initproc ∨
    (e = .free i ∨ ∃ q, e = .reap q i) ∧ ((e.apply d).proc i).parent = none := by
  by_cases ht : e.target = some i
  · cases e with
    | adopt p j =>
      cases ht
      exact Or.inr (Or.inl ⟨p, rfl, by simp [Eff.apply]⟩)
    | orphan j =>
      cases ht
      exact Or.inr (Or.inr (Or.inl ⟨rfl, by simp [Eff.apply]⟩))
    | free j =>
      cases ht
      exact Or.inr (Or.inr (Or.inr ⟨Or.inl rfl, by simp [Eff.apply, Entry.free]⟩))
    | reap q j =>
      cases ht
      exact Or.inr (Or.inr (Or.inr ⟨Or.inr ⟨q, rfl⟩, by simp [Eff.apply, Entry.free]⟩))
    | wakeup j x =>
      cases ht
      left
      simp only [Eff.apply]
      split_ifs
      · simp
      · rfl
    | run j | yield j | sleep j x | woken j | kill j | setkilled j | alloc j | start j
    | exit j status =>
      cases ht
      exact Or.inl (by simp [Eff.apply])
    | _ => cases ht
  · left
    obtain he | ⟨dp, -, he⟩ := apply_proc_of_ne (d := d) ht
    · rw [he]
    · rw [he]

end

/-! ## What frames tell -/

/-- The state in which a thread leaves the CPU. -/
def Back.state : Back → procstate
  | .forked | .yielded => .RUNNABLE
  | .slept _ => .SLEEPING
  | .exited => .ZOMBIE

namespace Frame

/-- The slot that a `fork` in progress has taken. -/
def child : Frame → Option (Fin NPROC)
  | allocpid _ np | allocContext _ np | fork _ np | forkParent _ np | forkRun _ np => some np
  | _ => none

/-- The state has changed, and the thread is about to leave the CPU. -/
def leaving : Frame → Bool
  | swtch .. | exitRel _ => true
  | _ => false

/-- What a frame tells of the states of processes. -/
def Tells (d : Data) : Frame → Prop
  | swtch p b => (d.proc p).state = b.state
  | exitRel p => (d.proc p).state = .ZOMBIE
  | allocpid _ np => (d.proc np).state = .UNUSED
  | allocContext _ np | fork _ np | forkParent _ np | forkRun _ np => (d.proc np).state = .USED
  | scheduler _ highest _ | look _ highest _ => ∀ h, highest = some h → (d.proc h).state = .RUNNABLE
  | _ => True

end Frame

section

variable {me : Option (Fin NPROC)} {noff : ℕ} {d : Data} {f : Frame} {ch : Choice} {op : Op}
  {e : Eff} {gs : List Frame}

theorem code_tells (hs : f.code me d ch = some (op, e, gs)) (hf : f.Tells d) :
    gs.Forall (Frame.Tells (e.apply d)) := by
  cases f with
  | user p =>
    simp only [Frame.code, Frame.call] at hs
    repeat' split at hs
    all_goals cases hs
    all_goals first | exact trivial | exact ⟨trivial, trivial⟩
  | crit k h todo =>
    simp only [Frame.code, Frame.section_] at hs
    repeat' split at hs
    all_goals cases hs
    all_goals first | exact trivial | exact ⟨trivial, trivial⟩
  | look i highest m =>
    have hself : (d.proc i).state = .RUNNABLE →
        ∀ m', (Frame.scheduler (i.val + 1) (some i) m').Tells d := by
      intro hi m' j hj
      cases hj
      exact hi
    simp only [Frame.code] at hs
    repeat' split at hs
    all_goals cases hs
    all_goals first
      | exact hself ‹_› _
      | exact hf
  | dispatched h =>
    cases hs
    exact fun h' hh => by cases hh
  | yield p | sleeping p x lk | exitLock p status | allocpid p np | forkParent p np =>
    cases hs
    simp_all [Frame.Tells, Eff.apply, Back.state]
  | _ =>
    simp only [Frame.code] at hs
    repeat' split at hs
    all_goals cases hs
    all_goals first
      | exact trivial
      | exact hf
      | exact ⟨trivial, trivial⟩
      | exact ⟨trivial, hf⟩
      | assumption

/-- What the frames of a step tell is true after it. -/
theorem step_tells (hs : f.step me noff d ch = some (op, e, gs)) (hf : f.Tells d) :
    ∀ g ∈ gs, g.Tells (e.apply d) := by
  rw [← List.forall_iff_forall_mem]
  obtain ⟨-, rfl, rfl, k, -, rfl⟩ | ⟨-, rfl, rfl, p, -, rfl⟩ | hs := step_cases hs
  · exact ⟨trivial, hf⟩
  · exact ⟨trivial, hf⟩
  · exact code_tells hs hf

/-- The frames of a step are about the slot that `f` is about, or about a new one. -/
theorem code_child (hs : f.code me d ch = some (op, e, gs)) :
    gs.Forall fun g => ∀ i, g.child = some i →
      f.child = some i ∨ op = .acquire (.proc i) ∧ (d.proc i).state = .UNUSED := by
  cases f with
  | user p =>
    simp only [Frame.code, Frame.call] at hs
    repeat' split at hs
    all_goals cases hs
    all_goals simp [Frame.child]
  | crit k h todo =>
    simp only [Frame.code, Frame.section_] at hs
    repeat' split at hs
    all_goals cases hs
    all_goals simp [Frame.child]
  | _ =>
    simp only [Frame.code] at hs
    repeat' split at hs
    all_goals cases hs
    all_goals simp_all [Frame.child]

theorem step_child (hs : f.step me noff d ch = some (op, e, gs)) {g : Frame} (hg : g ∈ gs)
    {i : Fin NPROC} (hi : g.child = some i) :
    f.child = some i ∨ op = .acquire (.proc i) ∧ (d.proc i).state = .UNUSED := by
  obtain ⟨-, rfl, rfl, k, -, rfl⟩ | ⟨-, rfl, rfl, p, -, rfl⟩ | hs := step_cases hs
  · rcases List.mem_cons.mp hg with rfl | hg
    · cases hi
    · rw [List.mem_singleton.mp hg] at hi
      exact Or.inl hi
  · rcases List.mem_cons.mp hg with rfl | hg
    · cases hi
    · rw [List.mem_singleton.mp hg] at hi
      exact Or.inl hi
  · exact (List.forall_iff_forall_mem.mp (code_child hs)) g hg i hi

/-- What a frame tells depends on the processes whose locks it holds, and on the child. -/
theorem Frame.Tells.congr {d' : Data} (h : f.Tells d)
    (hl : ∀ i, Lock.proc i ∈ f.held → (∀ p b, f ≠ .back p b) → (∀ p, f ≠ .dispatched p) →
      (d'.proc i).state = (d.proc i).state)
    (hc : ∀ i, f.child = some i → (d.proc i).state = .USED → (d'.proc i).state = .USED) :
    f.Tells d' := by
  cases f with
  | swtch p b | exitRel p | allocpid p np =>
    exact (hl _ (by simp [Frame.held]) (by simp) (by simp)).trans h
  | allocContext p np | fork p np | forkParent p np | forkRun p np => exact hc np rfl h
  | scheduler j highest m | look j highest m =>
    intro i hi
    exact (hl i (by simp [Frame.held, hi]) (by simp) (by simp)).trans (h i hi)
  | _ => trivial

theorem Frame.depth_child {i : Fin NPROC} (h : f.child = some i) : f.depth = 1 := by
  cases f with
  | allocpid | allocContext | fork | forkParent | forkRun => rfl
  | _ => cases h

end

end Xv6
