import Mathlib.Data.List.Perm.Basic
import Xv6.Kernel.Sched

/-!
# Stack — what a step of a thread does to its stack

Facts about `Frame.step` alone, whatever the state of the machine.

* `step_locks`: the operation of a step is the change of the locks that its frames hold.
* `step_guards`: what an effect writes is protected by locks that are held at that time.
* `step_nest`: which frames may stand above which.
-/

namespace Xv6

/-! ## Locks of frames -/

namespace Frame

/-- The locks that a frame holds. -/
def held : Frame → List Lock
  | unlock l => [l]
  | swtch p _ | back p _ => [.proc p]
  | sleep _ _ lk => [lk]
  | sleeping p _ lk => [.proc p, lk]
  | crit k _ _ | test _ k _ | tested _ k _ => [.spin k]
  | testing p k _ _ => [.proc p, .spin k]
  | waitScan .. | waitTest _ | reparent .. | exitLock .. => [.wait_lock]
  | waitLook _ _ pp => [.proc pp, .wait_lock]
  | waitTested p _ => [.proc p, .wait_lock]
  | exitRel p => [.wait_lock, .proc p]
  | allocpid _ np | allocContext _ np | fork _ np => [.proc np]
  | iputRef .. | iputSleep .. => [.itable]
  | iputLocked _ n => [.spin (.inode n), .itable]
  | scheduler _ highest _ => highest.toList.map .proc
  | look i highest _ => .proc i :: highest.toList.map .proc
  | dispatched h => [.proc h]
  | _ => []

end Frame

/-- The locks that a stack holds. -/
def locks (stk : List Frame) : List Lock := stk.flatMap Frame.held

@[simp] theorem locks_nil : locks [] = [] := rfl

@[simp] theorem locks_cons (f : Frame) (fs : List Frame) : locks (f :: fs) = f.held ++ locks fs := rfl

@[simp] theorem locks_append (fs gs : List Frame) : locks (fs ++ gs) = locks fs ++ locks gs :=
  List.flatMap_append

theorem mem_locks {f : Frame} {stk : List Frame} {l : Lock} (hf : f ∈ stk) (hl : l ∈ f.held) :
    l ∈ locks stk := List.mem_flatMap.mpr ⟨f, hf, hl⟩

/-- The locks before and after an operation. -/
def Op.Moves : Op → List Lock → List Lock → Prop
  | .tau, a, b | .context _, a, b => b.Perm a
  | .acquire l, a, b => b.Perm (l :: a)
  | .release l, a, b => a.Perm (l :: b)
  | .resume i, a, b | .sched i, a, b => a = [.proc i] ∧ b = [.proc i]
  | .panic _, _, _ => True

/-- The locks that protect what an effect writes. -/
def Eff.guards : Eff → List Lock
  | .run i | .yield i | .sleep i _ | .woken i | .wakeup i _ | .kill i | .setkilled i | .alloc i => [.proc i]
  | .start j | .free j => [.proc j]
  | .adopt _ _ | .orphan _ => [.wait_lock]
  | .exit i _ => [.proc i, .wait_lock]
  | .reap _ j => [.proc j, .wait_lock]
  | .cond (.of k _) _ => [.spin k]
  | .tick | .rate _ => [.spin .tickslock]
  | _ => []

/-! ## Shape of stacks -/

/-- The order in which locks of different kinds are taken. -/
def Lock.level : Lock → ℕ
  | .wait_lock | .spin _ => 0
  | .proc _ => 1
  | .itable => 2
  | .leaf _ => 3

namespace Frame

/-- The locks held below a frame are of a smaller level. -/
def base : Frame → ℕ
  | unlock _ => 4
  | leaf _ => 3
  | idup => 2
  | wakeup .. | update_time _ => 1
  | _ => 0

/-- Frames of depth 0 stand at the bottom, those of depth 1 on `user`, the others on any. -/
def depth : Frame → ℕ
  | user _ | exit .. | reparent .. | exitLock .. | exitRel _ | scheduler .. | look .. | dispatched _ => 0
  | unlock _ | leaf _ | yield _ | swtch .. | back .. | sleep .. | sleeping .. | wakeup ..
  | update_time _ | enter _ true | crit _ true _ | idup => 2
  | _ => 1

/-- `f` may stand above `g`. -/
def Over (f g : Frame) : Prop :=
  (f.depth ≤ 1 → g.depth < f.depth) ∧ ∀ l ∈ g.held, l.level < f.base

instance (f g : Frame) : Decidable (f.Over g) := inferInstanceAs (Decidable (_ ∧ _))

/-- `f` is a frame of process `t`, or of a scheduler. -/
def Of (t : Option (Fin NPROC)) : Frame → Prop
  | user p | yield p | swtch p _ | back p _ | setkilled p | killed p | regain p _ _ | test p _ _
  | testing p _ _ _ | tested p _ _ | wait p _ | waitScan p _ _ _ | waitLook p _ _ | waitTest p
  | waitTested p _ | exitRel p | allocproc p _ | allocpid p _ | allocContext p _ | fork p _
  | forkParent p _ | forkRun p _ | iget p _ | iput p _ | iputRef p _ | iputSleep p _
  | iputLocked p _ => t = some p
  | exit p _ | reparent p _ _ | exitLock p _ => t = some p ∧ p ≠ initproc
  | sleep p x lk | sleeping p x lk =>
    t = some p ∧ (lk = .wait_lock ∧ x = .proc p ∨ ∃ k n, lk = .spin k ∧ x = .of k n)
  | enter k h | crit k h _ => (h = true → k.handler = true) ∧ (h = false → t ≠ none)
  | scheduler j highest _ => t = none ∧ ∀ i, highest = some i → i.val < j
  | look i highest _ => t = none ∧ ∀ j, highest = some j → j.val < i.val
  | dispatched _ => t = none
  | _ => True

end Frame

/-! ## What a step can do -/

/-- Where an effect comes from. -/
def Eff.From (me : Option (Fin NPROC)) (d : Data) (f : Frame) (op : Op) (gs : List Frame) : Eff → Prop
  | .nop => True
  | .run i => op = .resume i ∧ gs = [.dispatched i] ∧ ∃ j m, f = .scheduler j (some i) m
  | .yield i => f = .yield i ∧ op = .acquire (.proc i) ∧ gs = [.swtch i .yielded]
  | .sleep i x => ∃ lk, f = .sleeping i x lk ∧ op = .release lk ∧ gs = [.swtch i (.slept x)]
  | .woken i => ∃ x, f = .back i (.slept x) ∧ op = .release (.proc i) ∧ gs = []
  | .wakeup i x => ∃ j, f = .wakeup x j ∧ slot j = some i ∧ me ≠ some i ∧
      op = .acquire (.proc i) ∧ gs = [.unlock (.proc i), .wakeup x (j + 1)]
  | .kill i => ∃ pid j, f = .kill pid j ∧ slot j = some i ∧ (d.proc i).pid = pid ∧
      op = .acquire (.proc i) ∧ gs = [.unlock (.proc i)]
  | .setkilled i => f = .setkilled i ∧ op = .acquire (.proc i) ∧ gs = [.unlock (.proc i)]
  | .alloc i => ∃ p, f = .allocpid p i ∧ op = .acquire (.leaf .pid_lock) ∧
      gs = [.unlock (.leaf .pid_lock), .allocContext p i]
  | .inherit i j => f = .fork i j ∧ op = .release (.proc j) ∧ gs = [.forkParent i j]
  | .adopt i j => f = .forkParent i j ∧ op = .acquire .wait_lock ∧
      gs = [.unlock .wait_lock, .forkRun i j]
  | .start j => ∃ p, f = .forkRun p j ∧ op = .acquire (.proc j) ∧ gs = [.unlock (.proc j)]
  | .free j => ∃ p, f = .fork p j ∧ op = .release (.proc j) ∧ gs = []
  | .orphan j => ∃ p status n, f = .reparent p status n ∧ slot n = some j ∧
      (d.proc j).parent = some p ∧ op = .tau ∧
      gs = [.wakeup (some (.proc initproc)) 0, .reparent p status (n + 1)]
  | .exit i status => f = .exitLock i status ∧ op = .acquire (.proc i) ∧ gs = [.exitRel i]
  | .reap i j => ∃ x, f = .waitLook i x j ∧ (d.proc j).state = .ZOMBIE ∧ op = .release (.proc j) ∧
      gs = [.unlock .wait_lock]
  | .cond x v => ∃ k n h todo, x = .of k n ∧ f = .crit k h todo ∧ op = .tau ∧
      (gs = [.crit k h (n :: todo)] ∨
        gs = [.crit k h todo] ∧ ∀ p, v p = true → d.cond x p = true)
  | .tick | .rate _ => ∃ h todo, f = .crit .tickslock h todo ∧ op = .tau ∧ gs = [f]
  | .use i n b => b = true ∧ f = .iget i n ∧ op = .acquire .itable ∧ gs = [.unlock .itable] ∨
      b = false ∧ f = .user i ∧ op = .tau ∧ gs = [.user i] ∨
      b = false ∧ f = .iputRef i n ∧ op = .release .itable ∧ gs = []

/-- Where an operation on threads comes from. -/
def Op.From (f : Frame) (e : Eff) (gs : List Frame) : Op → Prop
  | .resume i => e = .run i
  | .sched p => e = .nop ∧ ∃ b, f = .swtch p b ∧ gs = [.back p b]
  | .context i => e = .nop ∧ ∃ p, f = .allocContext p i ∧ gs = [.fork p i]
  | _ => True

theorem slot_eq_some {j : ℕ} {i : Fin NPROC} : slot j = some i ↔ i.val = j := by
  unfold slot
  constructor
  · intro h
    split_ifs at h with hj
    cases h
    rfl
  · intro h
    subst h
    rw [dif_pos i.isLt]

theorem slot_eq_none {j : ℕ} : slot j = none ↔ NPROC ≤ j := by
  unfold slot
  split_ifs with hj
  · simp [hj]
  · simpa using hj

section

variable {me : Option (Fin NPROC)} {noff : ℕ} {d : Data} {f : Frame} {ch : Choice} {op : Op}
  {e : Eff} {gs : List Frame} {p i : Fin NPROC} {k : Spin} {h : Bool} {todo : List ℕ}

/-- A step is an interrupt, or what the code of the innermost call says. -/
theorem step_cases (hs : f.step me noff d ch = some (op, e, gs)) :
    (noff = 0 ∧ op = .tau ∧ e = .nop ∧ ∃ k, k.handler = true ∧ gs = [.enter k true, f]) ∨
    (noff = 0 ∧ op = .tau ∧ e = .nop ∧ ∃ p, me = some p ∧ gs = [.yield p, f]) ∨
    f.code me d ch = some (op, e, gs) := by
  unfold Frame.step at hs
  split at hs
  · split_ifs at hs with hk
    cases hs
    exact Or.inl ⟨hk.1, rfl, rfl, _, hk.2.2, rfl⟩
  · split at hs
    · cases hs
    · split_ifs at hs with hk
      cases hs
      exact Or.inr (Or.inl ⟨hk.1, rfl, rfl, _, rfl, rfl⟩)
  · exact Or.inr (Or.inr hs)

/-! ### Locks -/

theorem call_locks (hs : Frame.call p d ch = some (op, e, gs)) : op.Moves [] (locks gs) := by
  unfold Frame.call at hs
  repeat' split at hs
  all_goals cases hs
  all_goals simp [Op.Moves, Frame.held]

theorem section_locks (hs : Frame.section_ me d k h todo ch = some (op, e, gs)) :
    op.Moves [.spin k] (locks gs) := by
  unfold Frame.section_ at hs
  repeat' split at hs
  all_goals cases hs
  all_goals simp [Op.Moves, Frame.held]

theorem code_locks (hs : f.code me d ch = some (op, e, gs)) : op.Moves f.held (locks gs) := by
  cases f with
  | user p => exact call_locks hs
  | crit k h todo => exact section_locks hs
  | _ =>
    simp only [Frame.code] at hs
    repeat' split at hs
    all_goals cases hs
    all_goals simp [Op.Moves, Frame.held, List.Perm.swap]

/-- **The operation of a step** is the change of the locks of its frames. -/
theorem step_locks (hs : f.step me noff d ch = some (op, e, gs)) : op.Moves f.held (locks gs) := by
  obtain ⟨-, rfl, rfl, k, -, rfl⟩ | ⟨-, rfl, rfl, p, -, rfl⟩ | hs := step_cases hs
  · simp [Op.Moves, Frame.held]
  · simp [Op.Moves, Frame.held]
  · exact code_locks hs

theorem call_guards (hs : Frame.call p d ch = some (op, e, gs)) : e.guards = [] := by
  unfold Frame.call at hs
  repeat' split at hs
  all_goals cases hs
  all_goals rfl

theorem section_guards (hs : Frame.section_ me d k h todo ch = some (op, e, gs)) :
    ∀ l ∈ e.guards, l = .spin k := by
  unfold Frame.section_ at hs
  repeat' split at hs
  all_goals cases hs
  all_goals simp_all [Eff.guards]

theorem code_guards (hs : f.code me d ch = some (op, e, gs)) :
    ∀ l ∈ e.guards, l ∈ f.held ∨ op = .acquire l := by
  cases f with
  | user p =>
    rw [call_guards hs]
    exact fun l hl => absurd hl List.not_mem_nil
  | crit k h todo =>
    intro l hl
    rw [section_guards hs l hl]
    exact Or.inl (List.mem_singleton.mpr rfl)
  | _ =>
    simp only [Frame.code] at hs
    repeat' split at hs
    all_goals cases hs
    all_goals simp [Eff.guards, Frame.held]

/-- **What an effect writes** is protected by locks that are held at that time. -/
theorem step_guards (hs : f.step me noff d ch = some (op, e, gs)) :
    ∀ l ∈ e.guards, l ∈ f.held ∨ op = .acquire l := by
  obtain ⟨-, rfl, rfl, -⟩ | ⟨-, rfl, rfl, -⟩ | hs := step_cases hs
  · exact fun l hl => absurd hl List.not_mem_nil
  · exact fun l hl => absurd hl List.not_mem_nil
  · exact code_guards hs

/-! ### Origins -/

theorem code_eff (hs : f.code me d ch = some (op, e, gs)) : e.From me d f op gs ∧ op.From f e gs := by
  cases f with
  | user p =>
    simp only [Frame.code, Frame.call] at hs
    repeat' split at hs
    all_goals cases hs
    all_goals simp [Eff.From, Op.From]
  | crit k h todo =>
    simp only [Frame.code, Frame.section_] at hs
    repeat' split at hs
    all_goals cases hs
    all_goals simp_all [Eff.From, Op.From]
  | _ =>
    simp only [Frame.code] at hs
    repeat' split at hs
    all_goals cases hs
    all_goals simp_all [Eff.From, Op.From]

/-- Every effect and every operation on threads has one origin. -/
theorem step_from (hs : f.step me noff d ch = some (op, e, gs)) :
    e.From me d f op gs ∧ op.From f e gs := by
  obtain ⟨-, rfl, rfl, -⟩ | ⟨-, rfl, rfl, -⟩ | hs := step_cases hs
  · exact ⟨trivial, trivial⟩
  · exact ⟨trivial, trivial⟩
  · exact code_eff hs

/-! ### Shape -/

theorem thread_crit (hf : me = some p) (todo : List ℕ) : (Frame.crit k false todo).Of me := by
  refine ⟨fun hb => (by cases hb), fun _ hn => ?_⟩
  rw [hf] at hn
  cases hn

theorem call_of (hs : Frame.call p d ch = some (op, e, gs)) (hf : me = some p) :
    gs.Forall (Frame.Of me) := by
  have hcrit : ∀ k, (Frame.enter k false).Of me := fun k => thread_crit hf []
  unfold Frame.call at hs
  repeat' split at hs
  all_goals cases hs
  all_goals first
    | exact hf
    | exact trivial
    | exact ⟨hf, ‹_›⟩
    | exact ⟨hf, hf⟩
    | exact ⟨trivial, hf⟩
    | exact ⟨hcrit _, hf⟩

theorem section_of (hs : Frame.section_ me d k h todo ch = some (op, e, gs))
    (hf : (Frame.crit k h todo).Of me) : gs.Forall (Frame.Of me) := by
  unfold Frame.section_ at hs
  repeat' split at hs
  all_goals cases hs
  all_goals first
    | exact hf
    | exact rfl
    | exact trivial
    | exact ⟨trivial, hf⟩
    | exact ⟨⟨rfl, Or.inr ⟨_, _, rfl, rfl⟩⟩, rfl⟩

theorem code_of (hs : f.code me d ch = some (op, e, gs)) (hf : f.Of me) :
    gs.Forall (Frame.Of me) := by
  cases f with
  | user p => exact call_of hs hf
  | crit k h todo => exact section_of hs hf
  | scheduler j highest m =>
    obtain ⟨hme, hlt⟩ := hf
    simp only [Frame.code] at hs
    split at hs
    · rename_i i hi
      cases hs
      rw [slot_eq_some] at hi
      exact ⟨hme, fun h' hh => hi ▸ hlt h' hh⟩
    · split at hs
      · cases hs
        exact ⟨hme, fun h' hh => by cases hh⟩
      · cases hs
        exact hme
  | look i highest m =>
    obtain ⟨hme, hlt⟩ := hf
    have hnext : (Frame.scheduler (i.val + 1) highest m).Of me :=
      ⟨hme, fun j hj => Nat.lt_succ_of_lt (hlt j hj)⟩
    have hself : ∀ m', (Frame.scheduler (i.val + 1) (some i) m').Of me := by
      refine fun m' => ⟨hme, fun j hj => ?_⟩
      cases hj
      exact Nat.lt_succ_self _
    simp only [Frame.code] at hs
    repeat' split at hs
    all_goals cases hs
    all_goals first
      | exact hself _
      | exact hnext
  | dispatched h' =>
    cases hs
    exact ⟨hf, fun j hj => by cases hj⟩
  | _ =>
    simp only [Frame.code] at hs
    repeat' split at hs
    all_goals cases hs
    all_goals first
      | exact trivial
      | exact hf
      | exact hf.1
      | exact ⟨trivial, trivial⟩
      | exact ⟨trivial, hf⟩
      | exact ⟨hf, hf⟩
      | exact thread_crit hf _
      | exact ⟨⟨hf, Or.inr ⟨_, _, rfl, rfl⟩⟩, hf⟩
      | exact ⟨⟨hf, Or.inl ⟨rfl, rfl⟩⟩, hf⟩

/-- The frames of a step belong to the process of the CPU. -/
theorem step_of (hs : f.step me noff d ch = some (op, e, gs)) (hf : f.Of me) : ∀ g ∈ gs, g.Of me := by
  rw [← List.forall_iff_forall_mem]
  obtain ⟨-, rfl, rfl, k, hk, rfl⟩ | ⟨-, rfl, rfl, p, hp, rfl⟩ | hs := step_cases hs
  · exact ⟨⟨fun _ => hk, fun hh => (by cases hh)⟩, hf⟩
  · exact ⟨hp, hf⟩
  · exact code_of hs hf

/-- The new frames may stand where the old one stood, and on one another. -/
def Replaces (f : Frame) (gs : List Frame) : Prop :=
  gs.Pairwise Frame.Over ∧ ∀ g ∈ gs, f.depth ≤ g.depth ∧ f.base ≤ g.base

instance (f : Frame) (gs : List Frame) : Decidable (Replaces f gs) :=
  inferInstanceAs (Decidable (_ ∧ _))

theorem code_nest (hs : f.code me d ch = some (op, e, gs)) : Replaces f gs := by
  cases f with
  | user p =>
    simp only [Frame.code, Frame.call] at hs
    repeat' split at hs
    all_goals cases hs
    all_goals exact of_decide_eq_true rfl
  | crit k h todo =>
    simp only [Frame.code, Frame.section_] at hs
    repeat' split at hs
    all_goals cases hs
    all_goals try cases ‹Bool›
    all_goals exact of_decide_eq_true rfl
  | enter k h =>
    cases hs
    cases h
    all_goals exact of_decide_eq_true rfl
  | _ =>
    simp only [Frame.code] at hs
    repeat' split at hs
    all_goals cases hs
    all_goals exact of_decide_eq_true rfl

/-- **A step keeps the shape of the stack.** -/
theorem step_nest {fs : List Frame} (hs : f.step me noff d ch = some (op, e, gs))
    (hn : (f :: fs).Pairwise Frame.Over) (h0 : noff = 0 → locks (f :: fs) = []) :
    (gs ++ fs).Pairwise Frame.Over := by
  have hpush : ∀ g : Frame, g.depth = 2 → noff = 0 → (g :: f :: fs).Pairwise Frame.Over := by
    intro g hg hz
    refine List.pairwise_cons.mpr ⟨fun f' hf' => ⟨fun hle => by omega, fun l hl => ?_⟩, hn⟩
    have := mem_locks hf' hl
    rw [h0 hz] at this
    cases this
  obtain ⟨hz, rfl, rfl, k, -, rfl⟩ | ⟨hz, rfl, rfl, p, -, rfl⟩ | hs := step_cases hs
  · exact hpush _ rfl hz
  · exact hpush _ rfl hz
  · obtain ⟨hgs, hle⟩ := code_nest hs
    rw [List.pairwise_cons] at hn
    refine List.pairwise_append.mpr ⟨hgs, hn.2, fun g hg f' hf' => ?_⟩
    obtain ⟨hd, hb⟩ := hle g hg
    obtain ⟨hd', hb'⟩ := hn.1 f' hf'
    exact ⟨fun h1 => Nat.lt_of_lt_of_le (hd' (le_trans hd h1)) hd,
      fun l hl => Nat.lt_of_lt_of_le (hb' l hl) hb⟩

end

end Xv6
