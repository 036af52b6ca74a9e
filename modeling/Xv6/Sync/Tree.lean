import Xv6.Sync.Machine

/-!
# Tree — the process tree never dangles, and a child is reaped once

* `Frame.Family`: what `exit`, `wait` and `fork` know of parents and children.
* `Smp.TreeOk`: parents are alive, and only slots in the making have none.
* `Smp.HistoryOk`: the processes of the past, told apart by `life`.
* `process_tree`: what this means for `wait`.
-/

namespace Xv6

/-- The states in which a process may be a parent. -/
def procstate.Alive (a : procstate) : Prop := a = .SLEEPING ∨ a = .RUNNABLE ∨ a = .RUNNING

instance (a : procstate) : Decidable a.Alive := inferInstanceAs (Decidable (_ ∨ _ ∨ _))

/-- What a frame knows of the process tree. -/
def Frame.Family (d : Data) : Frame → Prop
  | reparent p _ j => ∀ i : Fin NPROC, i.val < j → (d.proc i).parent ≠ some p
  | exitLock p _ => ∀ i, (d.proc i).parent ≠ some p
  | waitLook p _ pp => (d.proc pp).parent = some p
  | forkRun _ np => (d.proc np).parent ≠ none
  | _ => True

section

variable {me : Option (Fin NPROC)} {noff : ℕ} {d : Data} {f : Frame} {ch : Choice} {op : Op}
  {e : Eff} {gs : List Frame} {p i : Fin NPROC} {a b : procstate}

/-- A living process stays alive until it exits. -/
theorem Eff.Trans.alive (h : e.Trans i a b) (ha : a.Alive) : b.Alive ∨ ∃ status, e = .exit i status := by
  cases h with
  | stay => exact Or.inl ha
  | exit status => exact Or.inr ⟨status, rfl⟩
  | alloc => exact absurd ha (by decide)
  | start => exact absurd ha (by decide)
  | free => exact absurd ha (by decide)
  | reap q => exact absurd ha (by decide)
  | run | yield | sleep | wakeup | kill => exact Or.inl (by decide)

/-- A process in the tree was in it before, or is started. -/
theorem Eff.Trans.member (h : e.Trans i a b) (hb : b.Alive ∨ b = .ZOMBIE) :
    (a.Alive ∨ a = .ZOMBIE) ∨ e = .start i := by
  cases h with
  | stay => exact Or.inl hb
  | start => exact Or.inr rfl
  | alloc => exact absurd hb (by decide)
  | free => exact absurd hb (by decide)
  | reap q => exact absurd hb (by decide)
  | run | yield | sleep | wakeup | kill | exit => exact Or.inl (by decide)

theorem code_family (hs : f.code me d ch = some (op, e, gs)) (hf : f.Family d) (hof : f.Of me) :
    gs.Forall (Frame.Family (e.apply d)) := by
  cases f with
  | user p =>
    simp only [Frame.code, Frame.call] at hs
    repeat' split at hs
    all_goals cases hs
    all_goals first | exact trivial | exact ⟨trivial, trivial⟩
  | crit k h todo =>
    simp only [Frame.code, Frame.section_] at hs
    repeat' split at hs
    all_goals cases hs
    all_goals first | exact trivial | exact ⟨trivial, trivial⟩
  | exit p status =>
    cases hs
    exact fun i hi => absurd hi (Nat.not_lt_zero _)
  | reparent p status j =>
    simp only [Frame.code] at hs
    split at hs
    · rename_i hj
      rw [slot_eq_none] at hj
      cases hs
      exact ⟨trivial, fun i => hf i (Nat.lt_of_lt_of_le i.isLt hj)⟩
    · rename_i pp hpp
      rw [slot_eq_some] at hpp
      subst hpp
      split_ifs at hs with hpar
      · cases hs
        refine ⟨trivial, fun i hi => ?_⟩
        by_cases hip : i = pp
        · subst hip
          intro h
          simp only [Eff.apply, Data.set_proc_self] at h
          exact hof.2 (Option.some.inj h).symm
        · have : i.val ≠ pp.val := fun h => hip (Fin.ext h)
          simp only [Eff.apply, Data.set_proc_of_ne hip]
          exact hf i (by omega)
      · cases hs
        intro i hi
        by_cases hip : i = pp
        · exact hip ▸ hpar
        · have : i.val ≠ pp.val := fun h => hip (Fin.ext h)
          exact hf i (by omega)
  | waitScan p x havekids j =>
    simp only [Frame.code] at hs
    repeat' split at hs
    all_goals cases hs
    all_goals first | exact trivial | assumption | exact ⟨trivial, trivial⟩
  | forkParent p np =>
    cases hs
    refine ⟨trivial, ?_⟩
    simp [Frame.Family, Eff.apply]
  | _ =>
    simp only [Frame.code] at hs
    repeat' split at hs
    all_goals cases hs
    all_goals first | exact trivial | exact ⟨trivial, trivial⟩ | exact ⟨trivial, hf⟩

theorem step_family (hs : f.step me noff d ch = some (op, e, gs)) (hf : f.Family d) (hof : f.Of me) :
    ∀ g ∈ gs, g.Family (e.apply d) := by
  rw [← List.forall_iff_forall_mem]
  obtain ⟨-, rfl, rfl, k, -, rfl⟩ | ⟨-, rfl, rfl, q, -, rfl⟩ | hs := step_cases hs
  · exact ⟨trivial, hf⟩
  · exact ⟨trivial, hf⟩
  · exact code_family hs hf hof

end

namespace Smp

variable {C : Type} [DecidableEq C] {s t : Smp C} {c : C} {f f' : Frame} {fs : List Frame}
  {op : Op} {e : Eff} {gs : List Frame} {u : Ctx C} {p q i j : Fin NPROC}

/-- The process tree. -/
structure TreeOk (s : Smp C) : Prop where
  init : (s.data.proc initproc).state.Alive
  parent : ∀ i q, (s.data.proc i).parent = some q → (s.data.proc q).state.Alive
  child : ∀ i, i ≠ initproc → (s.data.proc i).state.Alive ∨ (s.data.proc i).state = .ZOMBIE →
    (s.data.proc i).parent ≠ none
  family : ∀ u, ∀ f ∈ s.stack u, f.Family s.data

omit [DecidableEq C] in
theorem TreeOk.boot : TreeOk (boot : Smp C) := by
  refine ⟨Or.inr (Or.inl rfl), fun i q h => ?_, fun i hi h => ?_, fun u f hf => ?_⟩
  · obtain ⟨-, rfl⟩ | h' := boot_state (C := C) i
    · cases h
    · rw [h'] at h
      cases h
  · obtain ⟨-, h'⟩ | h' := boot_state (C := C) i
    · exact absurd h' hi
    · rw [h'] at h
      exact absurd h (by decide)
  · obtain ⟨-, rfl⟩ | ⟨p, -, ⟨b, rfl⟩ | rfl⟩ := boot_frames hf
    all_goals trivial

/-- A process gets no child while it holds `wait_lock`. -/
theorem Turn.parent_stays (ht : Turn s t c f fs op e gs) (hw : .wait_lock ∉ e.guards)
    (h : (s.data.proc i).parent ≠ some p) :
    (t.data.proc i).parent ≠ some p := by
  rw [ht.data]
  obtain h' | ⟨q, rfl, -⟩ | ⟨rfl, -⟩ | ⟨-, h'⟩ := apply_parent (e := e) (d := s.data) (i := i)
  · rw [h']
    exact h
  · exact absurd (List.mem_singleton.mpr rfl) hw
  · exact absurd (List.mem_singleton.mpr rfl) hw
  · rw [h']
    exact fun hn => by cases hn

section

variable (hx : TreeOk s) (hs : Ok s) (ht : Turn s t c f fs op e gs)
include hs ht

/-- The slot that `fork` has given a parent keeps it. -/
theorem Ok.forkRun_stays (hf : .forkRun p i ∈ s.stack u) (hu : u = s.cur c → .forkRun p i ∈ fs)
    (h : (s.data.proc i).parent ≠ none) : (t.data.proc i).parent ≠ none := by
  obtain ⟨ch, hstep⟩ := ht.step
  have hfrom := (step_from hstep).1
  have hused : (s.data.proc i).state = .USED := hs.tells u _ hf
  rw [ht.data]
  obtain h' | ⟨q, rfl, h'⟩ | ⟨rfl, h'⟩ | ⟨rfl | ⟨q, rfl⟩, -⟩ :=
    apply_parent (e := e) (d := s.data) (i := i)
  · rw [h']
    exact h
  · rw [h']
    exact Option.some_ne_none q
  · rw [h']
    exact Option.some_ne_none _
  · obtain ⟨q, rfl, -⟩ := hfrom
    have htop : .fork q i ∈ s.stack (s.cur c) := by
      rw [ht.top]
      exact List.mem_cons_self ..
    have huc := hs.children _ _ _ _ i hf htop rfl rfl
    cases hs.below_shallow ht (Nat.le_refl _) (hu huc)
  · obtain ⟨x, -, hz, -⟩ := hfrom
    rw [hused] at hz
    cases hz

theorem Ok.family_keeps (hf : f' ∈ s.stack u) (hu : u = s.cur c → f' ∈ fs)
    (h : f'.Family s.data) : f'.Family t.data := by
  have hguard := fun l => hs.guard_stays ht (l := l) hf hu
  cases f' with
  | reparent p status j =>
    have hw := hguard .wait_lock (by simp [Frame.held]) (by simp) (by simp)
    exact fun i hi => ht.parent_stays hw (h i hi)
  | exitLock p status =>
    have hw := hguard .wait_lock (by simp [Frame.held]) (by simp) (by simp)
    exact fun i => ht.parent_stays hw (h i)
  | waitLook p x pp =>
    have hw := hguard .wait_lock (by simp [Frame.held]) (by simp) (by simp)
    have hp := hguard (.proc pp) (by simp [Frame.held]) (by simp) (by simp)
    show (t.data.proc pp).parent = some p
    rw [ht.data]
    obtain h' | ⟨q, rfl, -⟩ | ⟨rfl, -⟩ | ⟨rfl | ⟨q, rfl⟩, -⟩ :=
      apply_parent (e := e) (d := s.data) (i := pp)
    · exact h'.trans h
    · exact absurd (List.mem_singleton.mpr rfl) hw
    · exact absurd (List.mem_singleton.mpr rfl) hw
    · exact absurd (List.mem_singleton.mpr rfl) hp
    · exact absurd (List.mem_cons_self ..) hp
  | forkRun p np => exact hs.forkRun_stays ht hf hu h
  | _ => trivial

include hx

theorem TreeOk.family_step : ∀ u, ∀ f ∈ t.stack u, f.Family t.data := by
  refine ht.frames hx.family (fun hf => ?_) (fun u f' hf' hu => hs.family_keeps ht hf' hu)
    fun i => ⟨trivial, trivial⟩
  obtain ⟨ch, hstep⟩ := ht.step
  rw [ht.data]
  exact step_family hstep hf (hs.self_eq c ▸ hs.top_of ht)

/-- The parent of a process is alive, and does not exit before it has no children. -/
theorem TreeOk.alive_stays (hq : (s.data.proc q).state.Alive)
    (hi : q = initproc ∨ (s.data.proc i).parent = some q) : (t.data.proc q).state.Alive := by
  obtain ⟨ch, hstep⟩ := ht.step
  have hfrom := (step_from hstep).1
  obtain h | ⟨status, rfl⟩ := (hs.trans ht q).alive hq
  · exact h
  · obtain ⟨rfl, -⟩ := hfrom
    obtain rfl | hi := hi
    · exact absurd rfl (hs.top_of ht).2
    · have hno : ∀ i, (s.data.proc i).parent ≠ some q :=
        hx.family _ (.exitLock q status) (by rw [ht.top]; exact List.mem_cons_self ..)
      exact absurd hi (hno i)

theorem TreeOk.turn : TreeOk t := by
  obtain ⟨ch, hstep⟩ := ht.step
  have hfrom := (step_from hstep).1
  have htop : f ∈ s.stack (s.cur c) := by
    rw [ht.top]
    exact List.mem_cons_self ..
  have hinit := hx.alive_stays (i := initproc) hs ht hx.init (Or.inl rfl)
  refine ⟨hinit, fun i q hq => ?_, fun i hi hst => ?_, hx.family_step hs ht⟩
  · rw [ht.data] at hq
    obtain h | ⟨p, rfl, h⟩ | ⟨rfl, h⟩ | ⟨-, h⟩ := apply_parent (e := e) (d := s.data) (i := i)
    · rw [h] at hq
      exact hx.alive_stays hs ht (hx.parent i q hq) (Or.inr hq)
    · obtain rfl : p = q := Option.some.inj (h ▸ hq)
      obtain ⟨rfl, -⟩ := hfrom
      have hrun := hs.state_running ht (Ctx.eq_proc (hs.top_of ht)) rfl
      obtain h | ⟨status, h⟩ := (hs.trans ht p).alive (Or.inr (Or.inr hrun))
      · exact h
      · cases h
    · obtain rfl : initproc = q := Option.some.inj (h ▸ hq)
      exact hinit
    · rw [h] at hq
      cases hq
  · have hpar : (s.data.proc i).parent ≠ none := by
      obtain h | rfl := (hs.trans ht i).member hst
      · exact hx.child i hi h
      · obtain ⟨p, rfl, -⟩ := hfrom
        exact hx.family _ _ htop
    rw [ht.data] at hst ⊢
    obtain h | ⟨p, rfl, h⟩ | ⟨rfl, h⟩ | ⟨hfree, -⟩ := apply_parent (e := e) (d := s.data) (i := i)
    · rw [h]
      exact hpar
    · rw [h]
      exact Option.some_ne_none p
    · rw [h]
      exact Option.some_ne_none _
    · exfalso
      obtain rfl | ⟨q, rfl⟩ := hfree
      all_goals
        simp only [Eff.apply, Data.set_proc_self, Entry.free] at hst
        exact absurd hst (by decide)

end

theorem Reach.treeOk (h : Reach s) : TreeOk s :=
  h.invariant TreeOk.boot TreeOk.turn

end Smp

/-! ## History -/

/-- The processes of the past.  `life` tells them apart: a process that exists has not been reaped,
and has exited only if it is a `ZOMBIE`. -/
structure Data.History (d : Data) : Prop where
  born : ∀ i, (d.proc i).state ≠ .UNUSED → (d.proc i).life < d.births
  apart : ∀ i j, (d.proc i).state ≠ .UNUSED → (d.proc j).state ≠ .UNUSED →
    (d.proc i).life = (d.proc j).life → i = j
  past : ∀ x ∈ d.exits, x.life < d.births
  once : (d.exits.map Exited.life).Nodup
  gone : ∀ i, (d.proc i).state ≠ .UNUSED → (d.proc i).state ≠ .ZOMBIE →
    ∀ x ∈ d.exits, x.life ≠ (d.proc i).life
  zombie : ∀ i, (d.proc i).state = .ZOMBIE →
    ⟨(d.proc i).life, (d.proc i).pid, (d.proc i).xstate⟩ ∈ d.exits
  reaped : ∀ r ∈ d.reaps, r.toExited ∈ d.exits ∧ r.parent = some r.by_
  fresh : ∀ i, (d.proc i).state ≠ .UNUSED → ∀ r ∈ d.reaps, r.life ≠ (d.proc i).life
  unique : (d.reaps.map fun r => r.life).Nodup

section

variable {e : Eff} {d d' : Data} {p i j : Fin NPROC} {status : ℤ}

/-- Effects other than `alloc`, `exit` and `reap`. -/
def Eff.Quiet (e : Eff) : Prop :=
  (∀ i, e ≠ .alloc i) ∧ (∀ i status, e ≠ .exit i status) ∧ ∀ i j, e ≠ .reap i j

theorem Eff.Quiet.log (h : e.Quiet) : (e.apply d).exits = d.exits ∧ (e.apply d).reaps = d.reaps ∧
    (e.apply d).births = d.births := by
  cases e with
  | alloc i => exact absurd rfl (h.1 i)
  | exit i status => exact absurd rfl (h.2.1 i status)
  | reap i j => exact absurd rfl (h.2.2 i j)
  | wakeup i x =>
    simp only [Eff.apply]
    split_ifs
    all_goals exact ⟨rfl, rfl, rfl⟩
  | _ => exact ⟨rfl, rfl, rfl⟩

theorem Eff.Quiet.entry (h : e.Quiet) (i : Fin NPROC) :
    ((e.apply d).proc i).life = (d.proc i).life ∧ (((e.apply d).proc i).state = .UNUSED ∨
      ((e.apply d).proc i).pid = (d.proc i).pid ∧ ((e.apply d).proc i).xstate = (d.proc i).xstate) := by
  by_cases ht : e.target = some i
  · cases e with
    | alloc j => exact absurd rfl (h.1 j)
    | exit j status => exact absurd rfl (h.2.1 j status)
    | reap q j => exact absurd rfl (h.2.2 q j)
    | wakeup j x =>
      cases ht
      simp only [Eff.apply]
      split_ifs
      · simp
      · exact ⟨rfl, Or.inr ⟨rfl, rfl⟩⟩
    | free j =>
      cases ht
      simp [Eff.apply, Entry.free]
    | run j | yield j | sleep j x | woken j | kill j | setkilled j | start j | adopt q j | orphan j =>
      cases ht
      simp [Eff.apply]
    | _ => cases ht
  · obtain he | ⟨dp, -, he⟩ := apply_proc_of_ne (d := d) ht
    · rw [he]
      exact ⟨rfl, Or.inr ⟨rfl, rfl⟩⟩
    · rw [he]
      exact ⟨rfl, Or.inr ⟨rfl, rfl⟩⟩

theorem Eff.Quiet.states (h : e.Quiet) (hpre : e.Pre d) (i : Fin NPROC) :
    (((e.apply d).proc i).state ≠ .UNUSED → (d.proc i).state ≠ .UNUSED) ∧
    (((e.apply d).proc i).state = .ZOMBIE ↔ (d.proc i).state = .ZOMBIE) := by
  have htr := apply_trans hpre i
  generalize (d.proc i).state = a at htr
  generalize ((e.apply d).proc i).state = b at htr
  cases htr with
  | alloc => exact absurd rfl (h.1 i)
  | exit status => exact absurd rfl (h.2.1 i status)
  | reap q => exact absurd rfl (h.2.2 q i)
  | stay => exact ⟨id, Iff.rfl⟩
  | _ => exact ⟨by decide, by decide⟩

namespace Data.History

variable (h : d.History)
include h

theorem quiet (hq : e.Quiet) (hpre : e.Pre d) : (e.apply d).History := by
  obtain ⟨hex, hre, hbi⟩ := hq.log (d := d)
  have hlife := fun i => (hq.entry (d := d) i).1
  have hst := fun i => hq.states hpre i
  refine ⟨fun i hi => ?_, fun i j hi hj hij => ?_, ?_, ?_, fun i hi hz => ?_, fun i hz => ?_, ?_,
    fun i hi => ?_, ?_⟩
  · rw [hlife, hbi]
    exact h.born i ((hst i).1 hi)
  · rw [hlife, hlife] at hij
    exact h.apart i j ((hst i).1 hi) ((hst j).1 hj) hij
  · rw [hex, hbi]
    exact h.past
  · rw [hex]
    exact h.once
  · rw [hex, hlife]
    exact h.gone i ((hst i).1 hi) fun h => hz ((hst i).2.mpr h)
  · obtain ⟨-, hu | ⟨hp, hx⟩⟩ := hq.entry (d := d) i
    · rw [hu] at hz
      cases hz
    · rw [hlife, hp, hx, hex]
      exact h.zombie i ((hst i).2.mp hz)
  · rw [hre, hex]
    exact h.reaped
  · rw [hre, hlife]
    exact h.fresh i ((hst i).1 hi)
  · rw [hre]
    exact h.unique

/-- A new process has a number of its own. -/
theorem alloc : (Eff.apply d (.alloc i)).History := by
  have hother : ∀ j, j ≠ i → (Eff.apply d (.alloc i)).proc j = d.proc j :=
    fun j hj => Data.set_proc_of_ne hj
  have hlife : ((Eff.apply d (.alloc i)).proc i).life = d.births := by simp [Eff.apply]
  have hst : ((Eff.apply d (.alloc i)).proc i).state = .USED := by simp [Eff.apply]
  have hborn : ∀ j, j ≠ i → ((Eff.apply d (.alloc i)).proc j).state ≠ .UNUSED →
      ((Eff.apply d (.alloc i)).proc j).life < d.births := by
    intro j hj hu
    rw [hother j hj] at hu ⊢
    exact h.born j hu
  have hreap : ∀ r ∈ d.reaps, r.life < d.births := fun r hr => h.past _ (h.reaped r hr).1
  refine ⟨fun j hj => ?_, fun j k hj hk hjk => ?_, fun x hx => ?_, h.once, fun j hj hz => ?_,
    fun j hz => ?_, h.reaped, fun j hj => ?_, h.unique⟩
  · show _ < d.births + 1
    by_cases hji : j = i
    · rw [hji, hlife]
      exact Nat.lt_succ_self _
    · exact Nat.lt_succ_of_lt (hborn j hji hj)
  · by_cases hji : j = i
    · by_cases hki : k = i
      · exact hji.trans hki.symm
      · have := hborn k hki hk
        rw [← hjk, hji, hlife] at this
        exact absurd this (Nat.lt_irrefl _)
    · by_cases hki : k = i
      · have := hborn j hji hj
        rw [hjk, hki, hlife] at this
        exact absurd this (Nat.lt_irrefl _)
      · rw [hother j hji] at hj hjk
        rw [hother k hki] at hk hjk
        exact h.apart j k hj hk hjk
  · exact Nat.lt_succ_of_lt (h.past x hx)
  · intro x hx
    by_cases hji : j = i
    · rw [hji, hlife]
      exact Nat.ne_of_lt (h.past x hx)
    · rw [hother j hji] at hj hz ⊢
      exact h.gone j hj hz x hx
  · by_cases hji : j = i
    · rw [hji, hst] at hz
      cases hz
    · rw [hother j hji] at hz ⊢
      exact h.zombie j hz
  · intro r hr
    by_cases hji : j = i
    · rw [hji, hlife]
      exact Nat.ne_of_lt (hreap r hr)
    · rw [hother j hji] at hj ⊢
      exact h.fresh j hj r hr

/-- A process exits once. -/
theorem exit (hi : (d.proc i).state = .RUNNING) : (Eff.apply d (.exit i status)).History := by
  have hother : ∀ j, j ≠ i → (Eff.apply d (.exit i status)).proc j = d.proc j :=
    fun j hj => Data.set_proc_of_ne hj
  have hlife : ∀ j, ((Eff.apply d (.exit i status)).proc j).life = (d.proc j).life := by
    intro j
    by_cases hji : j = i
    · subst hji
      simp [Eff.apply]
    · rw [hother j hji]
  have hused : ∀ j, ((Eff.apply d (.exit i status)).proc j).state ≠ .UNUSED →
      (d.proc j).state ≠ .UNUSED := by
    intro j hj
    by_cases hji : j = i
    · rw [hji, hi]
      exact procstate.noConfusion
    · rwa [hother j hji] at hj
  have hi' : (d.proc i).state ≠ .UNUSED ∧ (d.proc i).state ≠ .ZOMBIE := by
    rw [hi]
    exact ⟨procstate.noConfusion, procstate.noConfusion⟩
  refine ⟨fun j hj => ?_, fun j k hj hk hjk => ?_, fun x hx => ?_, ?_, fun j hj hz x hx => ?_,
    fun j hz => ?_, fun r hr => ?_, fun j hj => ?_, h.unique⟩
  · rw [hlife]
    exact h.born j (hused j hj)
  · rw [hlife, hlife] at hjk
    exact h.apart j k (hused j hj) (hused k hk) hjk
  · obtain rfl | hx := List.mem_cons.mp hx
    · exact h.born i hi'.1
    · exact h.past x hx
  · refine List.nodup_cons.mpr ⟨fun hm => ?_, h.once⟩
    obtain ⟨x, hx, he⟩ := List.mem_map.mp hm
    exact h.gone i hi'.1 hi'.2 x hx he
  · have hji : j ≠ i := by
      rintro rfl
      simp [Eff.apply] at hz
    rw [hlife]
    obtain rfl | hx := List.mem_cons.mp hx
    · exact fun he => hji (h.apart i j hi'.1 (hused j hj) he).symm
    · rw [hother j hji] at hj hz
      exact h.gone j hj hz x hx
  · by_cases hji : j = i
    · subst hji
      simp [Eff.apply]
    · rw [hother j hji] at hz ⊢
      exact List.mem_cons_of_mem _ (h.zombie j hz)
  · obtain ⟨h1, h2⟩ := h.reaped r hr
    exact ⟨List.mem_cons_of_mem _ h1, h2⟩
  · rw [hlife]
    exact h.fresh j (hused j hj)

/-- A `ZOMBIE` is reaped once. -/
theorem reap (hj : (d.proc j).state = .ZOMBIE) (hp : (d.proc j).parent = some p) :
    (Eff.apply d (.reap p j)).History := by
  have hother : ∀ i, ((Eff.apply d (.reap p j)).proc i).state ≠ .UNUSED →
      i ≠ j ∧ (Eff.apply d (.reap p j)).proc i = d.proc i := by
    intro i hi
    have hij : i ≠ j := by
      rintro rfl
      simp [Eff.apply, Entry.free] at hi
    exact ⟨hij, Data.set_proc_of_ne hij⟩
  have hused : (d.proc j).state ≠ .UNUSED := by
    rw [hj]
    exact procstate.noConfusion
  refine ⟨fun i hi => ?_, fun i k hi hk hik => ?_, h.past, h.once, fun i hi hz => ?_, fun i hz => ?_,
    fun r hr => ?_, fun i hi r hr => ?_, ?_⟩
  · obtain ⟨-, he⟩ := hother i hi
    rw [he] at hi ⊢
    exact h.born i hi
  · obtain ⟨-, he⟩ := hother i hi
    obtain ⟨-, he'⟩ := hother k hk
    rw [he] at hi hik
    rw [he'] at hk hik
    exact h.apart i k hi hk hik
  · obtain ⟨-, he⟩ := hother i hi
    rw [he] at hi hz ⊢
    exact h.gone i hi hz
  · obtain ⟨-, he⟩ := hother i (by rw [hz]; exact procstate.noConfusion)
    rw [he] at hz ⊢
    exact h.zombie i hz
  · obtain rfl | hr := List.mem_cons.mp hr
    · exact ⟨h.zombie j hj, hp⟩
    · exact h.reaped r hr
  · obtain ⟨hij, he⟩ := hother i hi
    rw [he] at hi ⊢
    obtain rfl | hr := List.mem_cons.mp hr
    · exact fun hl => hij (h.apart j i hused hi hl).symm
    · exact h.fresh i hi r hr
  · refine List.nodup_cons.mpr ⟨fun hm => ?_, h.unique⟩
    obtain ⟨r, hr, he⟩ := List.mem_map.mp hm
    exact h.fresh j hused r hr he

end Data.History

end

namespace Smp

variable {C : Type} [DecidableEq C] {s t : Smp C} {c : C} {f : Frame} {fs : List Frame}
  {op : Op} {e : Eff} {gs : List Frame}

omit [DecidableEq C] in
theorem history_boot : (boot : Smp C).data.History := by
  have hused : ∀ i, ((boot : Smp C).data.proc i).state ≠ .UNUSED → i = initproc := by
    intro i hi
    obtain ⟨-, h⟩ | h := boot_state (C := C) i
    · exact h
    · rw [h] at hi
      exact absurd rfl hi
  refine ⟨fun i hi => ?_, fun i j hi hj _ => (hused i hi).trans (hused j hj).symm, fun x hx => ?_,
    List.nodup_nil, fun i _ _ x hx => ?_, fun i hi => ?_, fun r hr => ?_, fun i _ r hr => ?_,
    List.nodup_nil⟩
  · rw [hused i hi]
    exact Nat.zero_lt_one
  · cases hx
  · cases hx
  · obtain ⟨h, -⟩ | h := boot_state (C := C) i
    all_goals
      rw [h] at hi
      cases hi
  · cases hr
  · cases hr

/-- Every step keeps the history right. -/
theorem TreeOk.history (hx : TreeOk s) (hs : Ok s) (ht : Turn s t c f fs op e gs)
    (h : s.data.History) : t.data.History := by
  obtain ⟨ch, hstep⟩ := ht.step
  have hfrom := (step_from hstep).1
  have hpre := hs.pre ht
  rw [ht.data]
  cases e with
  | alloc i => exact h.alloc
  | exit i status => exact h.exit hpre
  | reap p j =>
    obtain ⟨x, rfl, hz, -⟩ := hfrom
    exact h.reap hz (hx.family _ (.waitLook p x j) (by rw [ht.top]; exact List.mem_cons_self ..))
  | _ => exact h.quiet ⟨by simp, by simp, by simp⟩ hpre

theorem Reach.history (h : Reach s) : s.data.History :=
  (h.invariant (I := fun s => TreeOk s ∧ s.data.History) ⟨TreeOk.boot, history_boot⟩
    fun ⟨hx, hh⟩ hs ht => ⟨hx.turn hs ht, hx.history hs ht hh⟩).2

/-- **The process tree never dangles**: in every reachable state every process but the first that has
been started has a parent that is neither `UNUSED` nor a `ZOMBIE`.  Every `wait` or `waitx` that has
returned a child was called by its parent at that time and returned the `pid` and status of an
exit, and no process exited or was returned twice. -/
theorem process_tree (hr : Reach s) :
    (∀ i, i ≠ initproc → (s.data.proc i).state ∈ [.SLEEPING, .RUNNABLE, .RUNNING, .ZOMBIE] →
      ∃ q, (s.data.proc i).parent = some q ∧ (s.data.proc q).state ≠ .UNUSED ∧
        (s.data.proc q).state ≠ .ZOMBIE) ∧
    (∀ r ∈ s.data.reaps, r.parent = some r.by_ ∧ r.toExited ∈ s.data.exits) ∧
    (s.data.exits.map Exited.life).Nodup ∧ (s.data.reaps.map fun r => r.life).Nodup := by
  have hx := hr.treeOk
  have hh := hr.history
  refine ⟨fun i hi hst => ?_, fun r hr => (hh.reaped r hr).symm, hh.once, hh.unique⟩
  have hmem : (s.data.proc i).state.Alive ∨ (s.data.proc i).state = .ZOMBIE := by
    simpa [procstate.Alive, or_assoc] using hst
  obtain ⟨q, hq⟩ := Option.ne_none_iff_exists'.mp (hx.child i hi hmem)
  refine ⟨q, hq, ?_⟩
  obtain h | h | h := hx.parent i q hq
  all_goals
    rw [h]
    exact ⟨procstate.noConfusion, procstate.noConfusion⟩

/-- The first process forks; the child exits with status 7 and is reaped. -/
theorem process_tree_child : ∃ s : Smp (Fin 2), Reach s ∧
    (s.data.reaps.map fun r => (r.pid, r.status, r.by_)) = [(2, 7, initproc)] ∧
    ∀ r ∈ s.data.reaps, r.parent = some r.by_ ∧ r.toExited ∈ s.data.exits := by
  have hrun : ∃ s : Smp (Fin 2), Reach s ∧
      (s.data.reaps.map fun r => (r.pid, r.status, r.by_)) = [(2, 7, initproc)] :=
    Runs.Steps.of_any (go 0 130 ++ [(0, .fork)] ++ go 0 11 ++ go 1 130 ++ [(1, .exit 7)] ++
      go 1 198 ++ [(0, .wait false)] ++ go 0 5) (by decide +kernel)
  obtain ⟨s, hr, hs⟩ := hrun
  exact ⟨s, hr, hs, (process_tree hr).2.1⟩

end Smp

end Xv6
