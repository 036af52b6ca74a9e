import Xv6.Lib.Runs
import Xv6.Lib.SpinLock
import Xv6.Sync.Effect

/-!
# Turn — one step of the machine

* `Smp.Turn`: a step of a CPU with the frames that it replaced.
* `Smp.step_turn`: every step is one.
* The fields of the state after a `Turn`.
-/

namespace Xv6

variable {C : Type} [DecidableEq C]

/-- The process of a context. -/
def Ctx.self : Ctx C → Option (Fin NPROC)
  | .cpu _ => none
  | .proc p => some p

omit [DecidableEq C] in
theorem Ctx.eq_proc {u : Ctx C} {p : Fin NPROC} (h : u.self = some p) : u = .proc p := by
  cases u with
  | cpu c => cases h
  | proc q =>
    cases h
    rfl

namespace Smp

/-- Step `s` to `t` on CPU `c`: the frame `f` above `fs` is replaced by `gs`. -/
structure Turn (s t : Smp C) (c : C) (f : Frame) (fs : List Frame) (op : Op) (e : Eff)
    (gs : List Frame) : Prop where
  top : s.stack (s.cur c) = f :: fs
  step : ∃ ch, f.step (s.cpuproc c) (s.noff c) s.data ch = some (op, e, gs)
  done : s.perform c e (gs ++ fs) op = some (.ok t)

variable {s t : Smp C} {c c' : C} {f : Frame} {fs : List Frame} {op : Op} {e : Eff}
  {gs stk : List Frame} {u : Ctx C} {p i : Fin NPROC} {l : Lock}

theorem step_turn {ch : Choice} (h : s.step (c, ch) = some (.ok t)) :
    ∃ f fs op e gs, Turn s t c f fs op e gs := by
  unfold Smp.step at h
  split at h
  · cases h
  · rename_i f fs htop
    split at h
    · cases h
    · rename_i op e gs hs
      exact ⟨f, fs, op, e, gs, htop, ⟨ch, hs⟩, h⟩

/-- What an operation does to the machine. -/
def Does (s : Smp C) (c : C) (e : Eff) (stk : List Frame) (t : Smp C) : Op → Prop
  | .tau => t = s.put c e stk
  | .acquire l => s.lock l = none ∧ t = { s.put c e stk with
      lock := Function.update s.lock l (some c), noff := Function.update s.noff c (s.noff c + 1) }
  | .release l => s.lock l = some c ∧ t = { s.put c e stk with
      lock := Function.update s.lock l none, noff := Function.update s.noff c (s.noff c - 1) }
  | .resume i => t = { s.put c e stk with
      cur := Function.update s.cur c (.proc i), cpuproc := Function.update s.cpuproc c (some i) }
  | .sched p => s.lock (.proc p) = some c ∧ s.noff c = 1 ∧ (s.data.proc p).state ≠ .RUNNING ∧
      t = { s.put c e stk with
        cur := Function.update s.cur c (.cpu c), cpuproc := Function.update s.cpuproc c none }
  | .context i => t = { s.put c e stk with
      stack := Function.update (s.put c e stk).stack (.proc i) [.back i .forked, .user i] }
  | .panic _ => False

theorem perform_does (h : s.perform c e stk op = some (.ok t)) : Does s c e stk t op := by
  cases op with
  | acquire l =>
    simp only [Smp.perform] at h
    split at h
    · cases h
      exact ⟨‹_›, rfl⟩
    · split_ifs at h
      cases h
  | release l =>
    simp only [Smp.perform] at h
    split_ifs at h with hl
    · cases h
      exact ⟨hl, rfl⟩
    · cases h
  | sched p =>
    simp only [Smp.perform] at h
    split_ifs at h with h1 h2 h3
    · cases h
    · cases h
    · cases h
    · cases h
      exact ⟨not_not.mp h1, not_not.mp h2, h3, rfl⟩
  | panic msg => cases h
  | _ =>
    cases h
    exact rfl

namespace Turn

variable (h : Turn s t c f fs op e gs)
include h

theorem does : Does s c e (gs ++ fs) t op := perform_does h.done

theorem data : t.data = e.apply s.data := by
  have hd := h.does
  cases op with
  | acquire l | release l =>
    rw [hd.2]
    rfl
  | sched p =>
    rw [hd.2.2.2]
    rfl
  | tau | resume i | context i =>
    rw [show t = _ from hd]
    rfl
  | panic msg => exact hd.elim

/-- Other CPUs stay where they are. -/
theorem others (hc : c' ≠ c) : t.cur c' = s.cur c' ∧ t.cpuproc c' = s.cpuproc c' ∧ t.noff c' = s.noff c' := by
  have hd := h.does
  cases op with
  | acquire l | release l =>
    rw [hd.2]
    exact ⟨rfl, rfl, Function.update_of_ne hc _ _⟩
  | sched p =>
    rw [hd.2.2.2]
    exact ⟨Function.update_of_ne hc _ _, Function.update_of_ne hc _ _, rfl⟩
  | resume i =>
    rw [show t = _ from hd]
    exact ⟨Function.update_of_ne hc _ _, Function.update_of_ne hc _ _, rfl⟩
  | tau | context i =>
    rw [show t = _ from hd]
    exact ⟨rfl, rfl, rfl⟩
  | panic msg => exact hd.elim

/-- The stacks, `context` apart. -/
theorem stack_eq (ho : ∀ i, op ≠ .context i) :
    t.stack = Function.update s.stack (s.cur c) (gs ++ fs) := by
  have hd := h.does
  cases op with
  | acquire l | release l =>
    rw [hd.2]
    rfl
  | sched p =>
    rw [hd.2.2.2]
    rfl
  | tau | resume i =>
    rw [show t = _ from hd]
    rfl
  | context i => exact absurd rfl (ho i)
  | panic msg => exact hd.elim

/-- Where the CPU is after a step that does not switch. -/
theorem cur_eq (h1 : ∀ i, op ≠ .resume i) (h2 : ∀ i, op ≠ .sched i) :
    t.cur c = s.cur c ∧ t.cpuproc c = s.cpuproc c := by
  have hd := h.does
  cases op with
  | acquire l | release l =>
    rw [hd.2]
    exact ⟨rfl, rfl⟩
  | sched p => exact absurd rfl (h2 p)
  | resume i => exact absurd rfl (h1 i)
  | tau | context i =>
    rw [show t = _ from hd]
    exact ⟨rfl, rfl⟩
  | panic msg => exact hd.elim

/-- The stacks after a step. -/
theorem stack_cases (u : Ctx C) :
    u ≠ s.cur c ∧ (∀ i, op = .context i → u ≠ .proc i) ∧ t.stack u = s.stack u ∨
    u = s.cur c ∧ (∀ i, op = .context i → u ≠ .proc i) ∧ t.stack u = gs ++ fs ∨
    ∃ i, op = .context i ∧ u = .proc i ∧ t.stack u = [.back i .forked, .user i] := by
  by_cases ho : ∃ i, op = .context i
  · obtain ⟨i, rfl⟩ := ho
    have hstk : t.stack = Function.update (Function.update s.stack (s.cur c) (gs ++ fs)) (.proc i)
        [.back i .forked, .user i] := by
      rw [show t = _ from h.does]
      rfl
    by_cases hi : u = .proc i
    · refine Or.inr (Or.inr ⟨i, rfl, hi, ?_⟩)
      rw [hstk, hi, Function.update_self]
    · have hne : ∀ i', Op.context i = .context i' → u ≠ .proc i' := by
        intro i' h'
        cases h'
        exact hi
      rw [hstk, Function.update_of_ne hi]
      by_cases hu : u = s.cur c
      · subst hu
        exact Or.inr (Or.inl ⟨rfl, hne, Function.update_self ..⟩)
      · exact Or.inl ⟨hu, hne, Function.update_of_ne hu _ _⟩
  · have hno : ∀ i, op ≠ .context i := fun i hi => ho ⟨i, hi⟩
    rw [h.stack_eq hno]
    by_cases hu : u = s.cur c
    · subst hu
      exact Or.inr (Or.inl ⟨rfl, fun i hi => absurd hi (hno i), Function.update_self ..⟩)
    · exact Or.inl ⟨hu, fun i hi => absurd hi (hno i), Function.update_of_ne hu _ _⟩

theorem mem_stack {f' : Frame} (hf : f' ∈ t.stack u) : u ≠ s.cur c ∧ f' ∈ s.stack u ∨
    u = s.cur c ∧ (f' ∈ gs ∨ f' ∈ fs) ∨
    ∃ i, op = .context i ∧ u = .proc i ∧ (f' = .back i .forked ∨ f' = .user i) := by
  obtain ⟨hu, -, hk⟩ | ⟨hu, -, hk⟩ | ⟨i, ho, hu, hk⟩ := h.stack_cases u
  · rw [hk] at hf
    exact Or.inl ⟨hu, hf⟩
  · rw [hk] at hf
    exact Or.inr (Or.inl ⟨hu, List.mem_append.mp hf⟩)
  · rw [hk] at hf
    refine Or.inr (Or.inr ⟨i, ho, hu, ?_⟩)
    simpa using hf

/-- What is true of every frame after a step: of the new ones by the code, of the old ones because
the step keeps it. -/
theorem frames {A B : Frame → Prop} (hA : ∀ u, ∀ f' ∈ s.stack u, A f')
    (hgs : A f → ∀ g ∈ gs, B g)
    (hkeep : ∀ u, ∀ f' ∈ s.stack u, (u = s.cur c → f' ∈ fs) → A f' → B f')
    (hnew : ∀ i, B (.back i .forked) ∧ B (.user i)) : ∀ u, ∀ f' ∈ t.stack u, B f' := by
  intro u f' hf'
  obtain ⟨hu, hf'⟩ | ⟨rfl, hf' | hf'⟩ | ⟨i, -, rfl, rfl | rfl⟩ := h.mem_stack hf'
  · exact hkeep u f' hf' (fun h => absurd h hu) (hA u f' hf')
  · exact hgs (hA _ f (by rw [h.top]; exact List.mem_cons_self ..)) f' hf'
  · have hmem : f' ∈ s.stack (s.cur c) := by
      rw [h.top]
      exact List.mem_cons_of_mem _ hf'
    exact hkeep _ f' hmem (fun _ => hf') (hA _ f' hmem)
  · exact (hnew i).1
  · exact (hnew i).2

/-- The frames about a new slot, and those that were about it before. -/
theorem child_of {f' : Frame} {i : Fin NPROC} (hf : f' ∈ t.stack u) (hi : f'.child = some i) :
    (∃ g ∈ s.stack u, g.child = some i) ∨ u = s.cur c ∧ op = .acquire (.proc i) ∧
      (s.data.proc i).state = .UNUSED := by
  obtain ⟨-, hf⟩ | ⟨rfl, hf | hf⟩ | ⟨j, -, -, rfl | rfl⟩ := h.mem_stack hf
  · exact Or.inl ⟨f', hf, hi⟩
  · obtain ⟨ch, hstep⟩ := h.step
    obtain hfc | hnew := step_child hstep hf hi
    · exact Or.inl ⟨f, by rw [h.top]; exact List.mem_cons_self .., hfc⟩
    · exact Or.inr ⟨rfl, hnew⟩
  · exact Or.inl ⟨f', by rw [h.top]; exact List.mem_cons_of_mem _ hf, hi⟩
  · cases hi
  · cases hi

theorem resumed {i : Fin NPROC} (ho : op = .resume i) : t.cur c = .proc i ∧ t.cpuproc c = some i := by
  subst ho
  rw [show t = _ from h.does]
  exact ⟨Function.update_self .., Function.update_self ..⟩

theorem left {p : Fin NPROC} (ho : op = .sched p) : t.cur c = .cpu c ∧ t.cpuproc c = none := by
  subst ho
  rw [h.does.2.2.2]
  exact ⟨Function.update_self .., Function.update_self ..⟩

/-- A step resumes a process, leaves one, or stays in its context. -/
theorem switch_cases : (∃ i, op = .resume i) ∨ (∃ p, op = .sched p) ∨
    t.cur c = s.cur c ∧ t.cpuproc c = s.cpuproc c := by
  by_cases h1 : ∃ i, op = .resume i
  · exact Or.inl h1
  · by_cases h2 : ∃ p, op = .sched p
    · exact Or.inr (Or.inl h2)
    · exact Or.inr (Or.inr (h.cur_eq (fun i hi => h1 ⟨i, hi⟩) fun p hp => h2 ⟨p, hp⟩))

/-- A process that runs after a step ran before, or is resumed. -/
theorem cur_before {c1 : C} {p : Fin NPROC} (hp : t.cur c1 = .proc p) :
    s.cur c1 = .proc p ∧ (c1 = c → ∀ q, op ≠ .sched q) ∨ c1 = c ∧ op = .resume p := by
  by_cases hc : c1 = c
  · subst hc
    obtain ⟨i, rfl⟩ | ⟨q, rfl⟩ | ⟨hcur, -⟩ := h.switch_cases
    · rw [(h.resumed rfl).1] at hp
      cases hp
      exact Or.inr ⟨rfl, rfl⟩
    · rw [(h.left rfl).1] at hp
      cases hp
    · refine Or.inl ⟨hcur ▸ hp, fun _ q hq => ?_⟩
      subst hq
      rw [(h.left rfl).1] at hp
      cases hp
  · rw [(h.others hc).1] at hp
    exact Or.inl ⟨hp, fun h' => absurd h' hc⟩

end Turn

end Smp

end Xv6
