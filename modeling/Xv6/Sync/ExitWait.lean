import Xv6.Sync.Wakeup

/-!
# ExitWait — a parent in `wait` does not miss the exit of a child

* `Frame.Scanned`: what `wait` has found out about the children while it holds `wait_lock`.
* `Smp.ExitOk`: `exit` wakes the parent before it becomes a `ZOMBIE`, and `initproc` after it has
  got a child.
* `no_missed_exit`: nobody sleeps in `wait` with a `ZOMBIE` child, a child that `initproc` gets in
  this moment apart.
-/

namespace Xv6

/-- No child of `p` before slot `j` has exited. -/
def Data.NoZombie (d : Data) (p : Fin NPROC) (j : ℕ) : Prop :=
  ∀ i : Fin NPROC, i.val < j → (d.proc i).parent = some p → (d.proc i).state ≠ .ZOMBIE

/-- What `wait` has found out about the children. -/
def Frame.Scanned (d : Data) : Frame → Prop
  | waitScan p _ _ j => d.NoZombie p j
  | waitLook p _ pp => d.NoZombie p pp.val
  | waitTest p | waitTested p _ | sleep p (.proc _) _ | sleeping p (.proc _) _ => d.NoZombie p NPROC
  | _ => True

section

variable {me : Option (Fin NPROC)} {noff : ℕ} {d : Data} {f : Frame} {ch : Choice} {op : Op}
  {e : Eff} {gs : List Frame} {p i : Fin NPROC} {j : ℕ}

/-- The scan of the table goes on. -/
theorem Data.NoZombie.next (h : d.NoZombie p i.val)
    (hi : (d.proc i).parent = some p → (d.proc i).state ≠ .ZOMBIE) : d.NoZombie p (i.val + 1) := by
  intro i' hlt hp
  by_cases hii : i' = i
  · exact hii ▸ hi (hii ▸ hp)
  · have : i'.val ≠ i.val := fun h => hii (Fin.ext h)
    exact h i' (by omega) hp

theorem code_scanned (hs : f.code me d ch = some (op, e, gs)) (hf : f.Scanned d) :
    gs.Forall (Frame.Scanned (e.apply d)) := by
  cases f with
  | user p =>
    simp only [Frame.code, Frame.call] at hs
    repeat' split at hs
    all_goals cases hs
    all_goals first | exact trivial | exact ⟨trivial, trivial⟩
  | crit k h todo =>
    simp only [Frame.code, Frame.section_] at hs
    repeat' split at hs
    all_goals cases hs
    all_goals first | exact trivial | exact ⟨trivial, trivial⟩
  | sleep q x lk =>
    cases hs
    cases x
    all_goals exact hf
  | wait p x =>
    cases hs
    exact fun i hi => absurd hi (Nat.not_lt_zero _)
  | waitScan p x havekids j =>
    simp only [Frame.code] at hs
    split at hs
    · rename_i pp hpp
      rw [slot_eq_some] at hpp
      subst hpp
      split_ifs at hs with hpar
      · cases hs
        exact hf
      · cases hs
        exact Data.NoZombie.next hf fun h => absurd h hpar
    · rename_i hj
      rw [slot_eq_none] at hj
      have hall : d.NoZombie p NPROC := fun i hi => hf i (Nat.lt_of_lt_of_le hi hj)
      repeat' split at hs
      all_goals cases hs
      all_goals first | exact trivial | exact hall | exact ⟨hall, trivial⟩
  | waitLook p x pp =>
    simp only [Frame.code] at hs
    split_ifs at hs with hz
    · repeat' split at hs
      all_goals cases hs
      · exact ⟨trivial, hf⟩
      · exact trivial
      · exact trivial
    · cases hs
      exact Data.NoZombie.next hf fun _ => hz
  | waitTest p =>
    cases hs
    exact hf
  | waitTested p b =>
    cases hs
    cases b
    · exact ⟨hf, trivial⟩
    · exact trivial
  | _ =>
    simp only [Frame.code] at hs
    repeat' split at hs
    all_goals cases hs
    all_goals first | exact trivial | exact ⟨trivial, trivial⟩

theorem step_scanned (hs : f.step me noff d ch = some (op, e, gs)) (hf : f.Scanned d) :
    ∀ g ∈ gs, g.Scanned (e.apply d) := by
  rw [← List.forall_iff_forall_mem]
  obtain ⟨-, rfl, rfl, k, -, rfl⟩ | ⟨-, rfl, rfl, q, -, rfl⟩ | hs := step_cases hs
  · exact ⟨trivial, hf⟩
  · exact ⟨trivial, hf⟩
  · exact code_scanned hs hf

/-- `exit` calls `wakeup` of its parent before it takes its own lock. -/
theorem step_exitLock (hs : f.step me noff d ch = some (op, e, gs)) {status : ℤ}
    (hg : .exitLock p status ∈ gs) : f = .exitLock p status ∨
      e = .nop ∧ .wakeup ((d.proc p).parent.map .proc) 0 ∈ gs := by
  obtain ⟨-, rfl, rfl, k, -, rfl⟩ | ⟨-, rfl, rfl, q, -, rfl⟩ | hs := step_cases hs
  · exact Or.inl (by simpa [eq_comm] using hg)
  · exact Or.inl (by simpa [eq_comm] using hg)
  · right
    cases f with
    | user q =>
      simp only [Frame.code, Frame.call] at hs
      repeat' split at hs
      all_goals cases hs
      all_goals simp at hg
    | crit k h todo =>
      simp only [Frame.code, Frame.section_] at hs
      repeat' split at hs
      all_goals cases hs
      all_goals simp at hg
    | reparent q st j =>
      simp only [Frame.code] at hs
      repeat' split at hs
      all_goals cases hs
      · simp only [List.mem_cons, List.not_mem_nil, or_false, reduceCtorEq, false_or,
          Frame.exitLock.injEq] at hg
        obtain ⟨rfl, -⟩ := hg
        exact ⟨rfl, List.mem_cons_self ..⟩
      · simp at hg
      · simp at hg
    | _ =>
      simp only [Frame.code] at hs
      repeat' split at hs
      all_goals cases hs
      all_goals simp at hg

end

namespace Smp

variable {C : Type} [DecidableEq C] {s t : Smp C} {c : C} {f f' : Frame} {fs : List Frame}
  {op : Op} {e : Eff} {gs : List Frame} {u : Ctx C} {p q i : Fin NPROC} {status : ℤ} {j : ℕ}

section

variable (hs : Ok s) (ht : Turn s t c f fs op e gs)
include hs ht

/-- Nobody gets a child, or a `ZOMBIE` as a child, while `wait_lock` is held elsewhere. -/
theorem Ok.family_stays (hw : .wait_lock ∉ e.guards) (hp : (t.data.proc i).parent = some p) :
    (s.data.proc i).parent = some p ∧
      ((t.data.proc i).state = .ZOMBIE → (s.data.proc i).state = .ZOMBIE) := by
  have htr := hs.trans ht i
  constructor
  · rw [ht.data] at hp
    obtain h | ⟨q, rfl, -⟩ | ⟨rfl, -⟩ | ⟨-, h⟩ := apply_parent (e := e) (d := s.data) (i := i)
    · exact h ▸ hp
    · exact absurd (List.mem_singleton.mpr rfl) hw
    · exact absurd (List.mem_singleton.mpr rfl) hw
    · rw [h] at hp
      cases hp
  · intro hz
    rw [hz] at htr
    generalize (s.data.proc i).state = a at htr
    cases htr with
    | stay => rfl
    | exit st => exact absurd (by simp [Eff.guards]) hw

theorem Ok.noZombie_stays (hw : .wait_lock ∉ e.guards) (h : s.data.NoZombie p j) :
    t.data.NoZombie p j := by
  intro i hi hp hz
  obtain ⟨hp', hz'⟩ := hs.family_stays ht hw hp
  exact h i hi hp' (hz' hz)

theorem Ok.scanned_stays (hf : f' ∈ s.stack u) (hu : u = s.cur c → f' ∈ fs)
    (h : f'.Scanned s.data) : f'.Scanned t.data := by
  have hof := hs.own u f' hf
  have hguard := hs.guard_stays ht (l := .wait_lock) hf hu
  cases f' with
  | waitScan | waitLook | waitTest | waitTested =>
    exact hs.noZombie_stays ht (hguard (by simp [Frame.held]) (by simp) (by simp)) h
  | sleep p x lk | sleeping p x lk =>
    obtain ⟨-, ⟨rfl, rfl⟩ | ⟨k, n, rfl, rfl⟩⟩ := hof
    · exact hs.noZombie_stays ht (hguard (by simp [Frame.held]) (by simp) (by simp)) h
    · trivial
  | _ => trivial

/-- Nobody falls asleep in `wait` while `wait_lock` is held elsewhere. -/
theorem Ok.asleep_stays (hf : f' ∈ s.stack u) (hu : u = s.cur c → f' ∈ fs)
    (hl : .wait_lock ∈ f'.held) (hp : t.data.Asleep p (.proc q)) : s.data.Asleep p (.proc q) := by
  obtain hp | ⟨lk, rfl, -⟩ := hs.asleep_before ht hp
  · exact hp
  · exfalso
    obtain ⟨-, ⟨rfl, -⟩ | ⟨k, n, -, hx⟩⟩ := hs.top_of ht
    · have hf0 : .wait_lock ∈ (Frame.sleeping p (.proc q) .wait_lock).held := by simp [Frame.held]
      by_cases huc : u = s.cur c
      · exact hs.held_once ht hf0 (mem_locks (hu huc) hl)
      · obtain ⟨c', hc'⟩ | ⟨r, b, rfl⟩ | ⟨r, rfl⟩ := hs.holder hf hl
        · refine huc (hc'.symm.trans (congrArg s.cur (hs.agrees.exclusive (l := .wait_lock) ?_ ?_)))
          · show .wait_lock ∈ locks (s.stack (s.cur c'))
            rw [hc']
            exact mem_locks hf hl
          · show .wait_lock ∈ locks (s.stack (s.cur c))
            rw [ht.top]
            exact mem_locks (List.mem_cons_self ..) hf0
        · simp [Frame.held] at hl
        · simp [Frame.held] at hl
    · cases hx

end

/-- `wait` and `exit` on both sides of `wait_lock`: `wakeup` of a sleeping parent is owed until the
child becomes a `ZOMBIE`, and wherever `initproc` has got one. -/
structure ExitOk (s : Smp C) : Prop where
  scanned : ∀ u, ∀ f ∈ s.stack u, f.Scanned s.data
  exiting : ∀ u p q status, .exitLock p status ∈ s.stack u → (s.data.proc p).parent = some q →
    s.data.Asleep q (.proc q) → ∃ f ∈ s.stack u, f.Owes (.proc q) q
  handed : ∀ p i, s.data.Asleep p (.proc p) → (s.data.proc i).parent = some p →
    (s.data.proc i).state = .ZOMBIE →
    ∃ u q status, .reparent q status (i.val + 1) ∈ s.stack u ∧ ∃ f ∈ s.stack u, f.Owes (.proc p) p

omit [DecidableEq C] in
theorem ExitOk.boot : ExitOk (boot : Smp C) := by
  refine ⟨fun u f hf => ?_, fun u p q status hf => ?_, fun p i hp => ?_⟩
  · obtain ⟨-, rfl⟩ | ⟨p, -, ⟨b, rfl⟩ | rfl⟩ := boot_frames hf
    all_goals trivial
  · obtain ⟨-, h⟩ | ⟨p, -, ⟨b, h⟩ | h⟩ := boot_frames hf
    all_goals cases h
  · obtain ⟨h', -⟩ | h' := boot_state (C := C) p
    all_goals
      have := hp.1
      rw [h'] at this
      cases this

section

variable (hx : ExitOk s) (hs : Ok s) (ht : Turn s t c f fs op e gs)
include hx hs ht

theorem ExitOk.scanned_step : ∀ u, ∀ f ∈ t.stack u, f.Scanned t.data := by
  refine ht.frames hx.scanned (fun hf => ?_) (fun u f' hf' hu => hs.scanned_stays ht hf' hu)
    fun i => ⟨trivial, trivial⟩
  obtain ⟨ch, hstep⟩ := ht.step
  rw [ht.data]
  exact step_scanned hstep hf

theorem ExitOk.exiting_stays (hf : .exitLock p status ∈ s.stack u)
    (hu : u = s.cur c → .exitLock p status ∈ fs) (hpar : (t.data.proc p).parent = some q)
    (hq : t.data.Asleep q (.proc q)) : ∃ f ∈ t.stack u, f.Owes (.proc q) q := by
  have hl : .wait_lock ∈ (Frame.exitLock p status).held := by simp [Frame.held]
  have hg := hs.guard_stays ht hf hu hl (by simp) (by simp)
  have hqs := hs.asleep_stays ht hf hu hl hq
  obtain ⟨g, hmem, ho⟩ := hx.exiting u p q status hf (hs.family_stays ht hg hpar).1 hqs
  exact hs.owes_stays ht hmem ho hqs hq

theorem ExitOk.exiting_step (hf : .exitLock p status ∈ t.stack u)
    (hpar : (t.data.proc p).parent = some q) (hq : t.data.Asleep q (.proc q)) :
    ∃ f ∈ t.stack u, f.Owes (.proc q) q := by
  obtain ⟨hu, hf⟩ | ⟨rfl, hf | hf⟩ | ⟨i, -, -, h | h⟩ := ht.mem_stack hf
  · exact hx.exiting_stays hs ht hf (fun h => absurd h hu) hpar hq
  · obtain ⟨ch, hstep⟩ := ht.step
    obtain rfl | ⟨rfl, hw⟩ := step_exitLock hstep hf
    · -- the frame itself is not replaced by one like it
      obtain ⟨hz, -⟩ | ⟨hz, -⟩ | hcode := step_cases hstep
      · have := hs.noff_zero ht hz
        simp [Frame.held] at this
      · have := hs.noff_zero ht hz
        simp [Frame.held] at this
      · cases hcode
        simp at hf
    · rw [ht.data] at hpar
      rw [show (s.data.proc p).parent = some q from hpar] at hw
      refine ⟨.wakeup (some (.proc q)) 0, ?_, rfl, Nat.zero_le _⟩
      rw [hs.stack_own ht]
      exact List.mem_append_left _ hw
  · have hmem : .exitLock p status ∈ s.stack (s.cur c) := by
      rw [ht.top]
      exact List.mem_cons_of_mem _ hf
    exact hx.exiting_stays hs ht hmem (fun _ => hf) hpar hq
  · cases h
  · cases h

theorem ExitOk.handed_step (hp : t.data.Asleep p (.proc p)) (hpar : (t.data.proc i).parent = some p)
    (hz : (t.data.proc i).state = .ZOMBIE) : ∃ u q status,
      .reparent q status (i.val + 1) ∈ t.stack u ∧ ∃ f ∈ t.stack u, f.Owes (.proc p) p := by
  obtain ⟨ch, hstep⟩ := ht.step
  have hfrom := (step_from hstep).1
  have htop : f ∈ s.stack (s.cur c) := by
    rw [ht.top]
    exact List.mem_cons_self ..
  have htr := hs.trans ht i
  rw [hz] at htr
  -- `exit` or `reparent` with no call above it owes nothing
  have hbottom : ∀ g ∈ s.stack (s.cur c), g.Owes (.proc p) p → f.depth = 0 → f.Owes (.proc p) p := by
    intro g hg ho h0
    rw [ht.top, hs.bottom ht h0, List.mem_singleton] at hg
    exact hg ▸ ho
  obtain hps | ⟨lk, rfl, rfl⟩ := hs.asleep_before ht hp
  · rw [ht.data] at hpar
    generalize ha : (s.data.proc i).state = a at htr
    cases htr with
    | exit status =>
      obtain ⟨rfl, -⟩ := hfrom
      have hpar' : (s.data.proc i).parent = some p := by simpa [Eff.apply] using hpar
      obtain ⟨g, hg, ho⟩ := hx.exiting _ i p status htop hpar' hps
      exact (hbottom g hg ho rfl).elim
    | stay =>
      obtain h | ⟨q, rfl, -⟩ | ⟨rfl, h⟩ | ⟨-, h⟩ := apply_parent (e := e) (d := s.data) (i := i)
      · obtain ⟨u, q, status, hr, g, hg, ho⟩ := hx.handed p i hps (h ▸ hpar) ha
        refine ⟨u, q, status, ?_, hs.owes_stays ht hg ho hps hp⟩
        obtain ⟨-, -, hk⟩ | ⟨rfl, -, hk⟩ | ⟨j, ho, rfl, -⟩ := ht.stack_cases u
        · rw [hk]
          exact hr
        · rw [ht.top] at hr
          obtain rfl | hr := List.mem_cons.mp hr
          · exact (hbottom g hg ho rfl).elim
          · rw [hk]
            exact List.mem_append_right _ hr
        · obtain ⟨hst, -⟩ := hs.context ht ho
          obtain ⟨b, hb | hb⟩ := hs.fresh j (Or.inr hst)
          all_goals
            rw [hb] at hr
            simp at hr
      · obtain ⟨rfl, -⟩ := hfrom
        rw [show (s.data.proc i).state = _ from hs.top_tells ht] at ha
        cases ha
      · obtain ⟨q, status, n, rfl, hn, -, -, rfl⟩ := hfrom
        rw [slot_eq_some] at hn
        subst hn
        obtain rfl : initproc = p := Option.some.inj (h ▸ hpar)
        refine ⟨s.cur c, q, status, ?_, .wakeup (some (.proc initproc)) 0, ?_, rfl, Nat.zero_le _⟩
        · rw [hs.stack_own ht]
          exact List.mem_append_left _ (List.mem_cons_of_mem _ (List.mem_singleton.mpr rfl))
        · rw [hs.stack_own ht]
          exact List.mem_cons_self ..
      · rw [h] at hpar
        cases hpar
  · -- it has looked at all children
    have hnz : s.data.NoZombie p NPROC := hx.scanned _ _ htop
    refine absurd hz ?_
    rw [ht.data] at hpar ⊢
    by_cases hip : i = p
    · subst hip
      simp [Eff.apply]
    · simp only [Eff.apply, Data.set_proc_of_ne hip] at hpar ⊢
      exact hnz i i.isLt hpar

theorem ExitOk.turn : ExitOk t where
  scanned := hx.scanned_step hs ht
  exiting _ _ _ _ := hx.exiting_step hs ht
  handed _ _ := hx.handed_step hs ht

end

theorem Reach.exitOk (h : Reach s) : ExitOk s :=
  h.invariant ExitOk.boot ExitOk.turn

/-- CPU `c` runs an `exit` that has just made `initproc` the parent of `i`. -/
def Reparenting (s : Smp C) (c : C) (i : Fin NPROC) : Prop :=
  ∃ q status, s.cur c = .proc q ∧ .reparent q status (i.val + 1) ∈ s.stack (.proc q)

/-- **No exit is missed**: in no reachable state a process sleeps in `wait` or `waitx` while it has a
`ZOMBIE` child and no CPU is in the `exit` of the ancestor that hands the child over. -/
theorem no_missed_exit (hr : Reach s) (p i : Fin NPROC) :
    ¬ (s.data.Asleep p (.proc p) ∧ (s.data.proc i).parent = some p ∧
      (s.data.proc i).state = .ZOMBIE ∧ ∀ c, ¬ Reparenting s c i) := by
  rintro ⟨hp, hpar, hz, hno⟩
  obtain ⟨u, q, status, hq, -⟩ := hr.exitOk.handed p i hp hpar hz
  obtain rfl := Ctx.eq_proc (hr.ok.own u _ hq).1
  obtain ⟨c, hc⟩ | ⟨_, _, h⟩ | ⟨_, h⟩ := hr.ok.holder hq (l := .wait_lock) (by simp [Frame.held])
  · exact hno c ⟨q, status, hc, hq⟩
  · cases h
  · cases h

/-- The first process sleeps in `wait`.  Its child has a `ZOMBIE` child and exits: the `ZOMBIE` is
handed over. -/
theorem no_missed_exit_grandchild : ∃ s : Smp (Fin 2), Reach s ∧
    s.data.Asleep initproc (.proc initproc) ∧
    (s.data.proc 2).parent = some initproc ∧ (s.data.proc 2).state = .ZOMBIE ∧
    ¬ (s.data.Asleep initproc (.proc initproc) ∧ (s.data.proc 2).parent = some initproc ∧
      (s.data.proc 2).state = .ZOMBIE ∧ ∀ c, ¬ Reparenting s c 2) := by
  have hrun : ∃ s : Smp (Fin 2), Reach s ∧ s.data.Asleep initproc (.proc initproc) ∧
      (s.data.proc 2).parent = some initproc ∧ (s.data.proc 2).state = .ZOMBIE :=
    Runs.Steps.of_any (go 0 130 ++ [(0, .fork)] ++ go 0 11 ++ [(0, .wait false)] ++ go 0 203 ++
      [(0, .fork)] ++ go 0 13 ++ go 1 130 ++ [(1, .exit 0)] ++ go 1 198 ++ [(0, .exit 0)] ++ go 0 4)
      (by decide +kernel)
  obtain ⟨s, hr, hp, hpar, hz⟩ := hrun
  exact ⟨s, hr, hp, hpar, hz, no_missed_exit hr initproc 2⟩

end Smp

end Xv6
