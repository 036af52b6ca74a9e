import Xv6.Kernel.System
import Xv6.Lib.Runs

/-!
# Table — what calls do to the process table

One inversion lemma for each function that allocates or frees: from a call that returns, the calls
it has made and the table it leaves behind.
-/

namespace Xv6

section

variable {f : Fin NPROC → Bool} {i j : Fin NPROC} {S T : Sys} {p : Proc}

theorem findProc_some (h : findProc f = some i) : f i = true := List.find?_some h

theorem findProc_none (h : findProc f = none) (i : Fin NPROC) : f i = false := by
  have := List.find?_eq_none.mp h i (List.mem_finRange i)
  simpa using this

@[simp] theorem Sys.set_self : (S.set i p).proc i = p := Function.update_self _ _ _

theorem Sys.set_ne (h : j ≠ i) : (S.set i p).proc j = S.proc j := Function.update_of_ne h _ _

/-- `wakeup` changes states only. -/
theorem wakeup_proc (me : Option (Fin NPROC)) (chan : Option Chan) (S : Sys) (j : Fin NPROC) :
    (wakeup me chan S).proc j =
      { S.proc j with state := ((wakeup me chan S).proc j).state } := by
  unfold wakeup
  dsimp only
  split_ifs <;> rfl

/-- `reparent` changes states and parents only. -/
theorem reparent_proc (i : Fin NPROC) (S : Sys) (j : Fin NPROC) : (reparent i S).proc j =
    { S.proc j with state := ((reparent i S).proc j).state
                    parent := ((reparent i S).proc j).parent } := by
  unfold reparent
  dsimp only
  split_ifs with h
  · rw [wakeup_proc]
    dsimp only
    split_ifs <;> rfl
  · dsimp only
    split_ifs <;> rfl

/-- A property of all slots after an assignment to one. -/
theorem Sys.set_forall {P : Proc → Prop} (h : ∀ j, P (S.proc j)) (hp : P p) (j : Fin NPROC) :
    P ((S.set i p).proc j) := by
  by_cases hj : j = i
  · subst hj
    rwa [Sys.set_self]
  · rw [Sys.set_ne hj]
    exact h j

end

variable [Image] {i j : Fin NPROC} {S T : Sys} {o : Option (Fin NPROC)}

theorem freeproc_ok (h : freeproc i S = .ok T) : ∃ s s',
    (if (S.proc i).trapframe ≠ 0 then kfree (S.proc i).trapframe S.phys else .ok S.phys) = .ok s ∧
    (if (S.proc i).pagetable ≠ 0 then
      proc_freepagetable (S.proc i).pagetable (S.proc i).sz s else .ok s) = .ok s' ∧
    T = { S with phys := s' }.set i (S.proc i).free := by
  unfold freeproc at h
  dsimp only at h
  obtain ⟨s, hs, h⟩ := bind_ok h
  obtain ⟨s', hs', h⟩ := bind_ok h
  cases h
  exact ⟨s, s', hs, hs', rfl⟩

/-- The slot that `allocproc` has found, with a pid. -/
def Sys.named (S : Sys) (i : Fin NPROC) : Proc := { S.proc i with pid := S.nextpid, state := .USED }

/-- What a call of `allocproc` has done. -/
inductive Allocproc (S T : Sys) : Option (Fin NPROC) → Prop where
  | full (hT : T = S) : Allocproc S T none
  | noFrame (i : Fin NPROC) (s : Phys) (hi : (S.proc i).state = .UNUSED)
      (hk : Xv6.kalloc S.phys = (none, s))
      (hf : freeproc i ({ S with phys := s, nextpid := int32 (S.nextpid + 1) }.set i
        { S.named i with trapframe := 0 }) = .ok T) : Allocproc S T none
  | noTable (i : Fin NPROC) (trapframe : ℕ) (s s' : Phys) (hi : (S.proc i).state = .UNUSED)
      (hk : Xv6.kalloc S.phys = (some trapframe, s))
      (hp : proc_pagetable trapframe s = .ok (0, s'))
      (hf : freeproc i ({ S with phys := s', nextpid := int32 (S.nextpid + 1) }.set i
        { S.named i with trapframe := trapframe, pagetable := 0 }) = .ok T) : Allocproc S T none
  | done (i : Fin NPROC) (trapframe pagetable : ℕ) (s s' : Phys)
      (hi : (S.proc i).state = .UNUSED) (hk : Xv6.kalloc S.phys = (some trapframe, s))
      (hp : proc_pagetable trapframe s = .ok (pagetable, s')) (h0 : pagetable ≠ 0)
      (hT : T = { S with phys := s', nextpid := int32 (S.nextpid + 1) }.set i
        ({ S.named i with trapframe := trapframe, pagetable := pagetable }.fresh S.ticks)) :
      Allocproc S T (some i)

theorem allocproc_ok (h : allocproc S = .ok (o, T)) : Allocproc S T o := by
  unfold allocproc at h
  split at h
  · cases h
    exact .full rfl
  · rename_i i hi
    have hU : (S.proc i).state = .UNUSED := by simpa using findProc_some hi
    dsimp only at h
    split at h
    · rename_i s hk
      obtain ⟨T', hf, h⟩ := bind_ok h
      cases h
      exact .noFrame i s hU hk hf
    · rename_i trapframe s hk
      obtain ⟨⟨pagetable, s'⟩, hp, h⟩ := bind_ok h
      simp only at h
      split_ifs at h with h0
      · obtain ⟨T', hf, h⟩ := bind_ok h
        cases h
        subst h0
        exact .noTable i trapframe s s' hU hk hp hf
      · cases h
        refine .done i trapframe pagetable s s' hU hk hp h0 ?_
        unfold Sys.set
        simp only [Function.update_idem, Function.update_self]
        rfl

theorem userinit_ok (h : userinit S = .ok T) : ∃ S' i mem s r s',
    allocproc S = .ok (some i, S') ∧ Xv6.kalloc S'.phys = (some mem, s) ∧
    mappages (S'.proc i).pagetable 0 PGSIZE mem (PTE_W ||| PTE_R ||| PTE_X ||| PTE_U)
      (s.memset mem PGSIZE 0) = .ok (r, s') ∧
    T = { S' with
      phys := ((s'.memmove mem initcode.length (fun k => initcode.getD k 0)).setWord
        ((S'.proc i).trapframe + TF_EPC) 0).setWord ((S'.proc i).trapframe + TF_SP) PGSIZE
      initproc := some i, held := if r < 0 then mem ::ₘ S'.held else S'.held }.set i
        { S'.proc i with sz := PGSIZE, name := initname, cwd := some ROOTINODE,
                         state := .RUNNABLE } := by
  unfold userinit at h
  obtain ⟨⟨o, S'⟩, ha, h⟩ := bind_ok h
  cases o with
  | none => cases h
  | some i =>
    dsimp only at h
    split at h
    · cases h
    · rename_i mem s hk
      obtain ⟨⟨r, s'⟩, hm, h⟩ := bind_ok h
      cases h
      exact ⟨S', i, mem, s, r, s', ha, hk, hm, rfl⟩

/-- What a call of `growproc` has done. -/
inductive Growproc (i : Fin NPROC) (n : ℤ) (S T : Sys) : Prop where
  | none (hn : n = 0) (hT : T = S)
  | failed (s : Phys) (hn : 0 < n) (hu : uvmalloc (S.proc i).pagetable (S.proc i).sz
        (addInt (S.proc i).sz n) PTE_W S.phys = .ok (0, s)) (hT : T = { S with phys := s })
  | grown (sz : ℕ) (s : Phys) (hn : 0 < n) (hu : uvmalloc (S.proc i).pagetable (S.proc i).sz
        (addInt (S.proc i).sz n) PTE_W S.phys = .ok (sz, s)) (h0 : sz ≠ 0)
      (hT : T = { S with phys := s }.set i { S.proc i with sz := sz })
  | shrunk (sz : ℕ) (s : Phys) (hn : n < 0) (hu : uvmdealloc (S.proc i).pagetable (S.proc i).sz
        (addInt (S.proc i).sz n) S.phys = .ok (sz, s))
      (hT : T = { S with phys := s }.set i { S.proc i with sz := sz })

theorem growproc_ok {n r : ℤ} (h : growproc i n S = .ok (r, T)) : Growproc i n S T := by
  unfold growproc at h
  dsimp only at h
  split_ifs at h with h1 h2
  · obtain ⟨⟨sz, s⟩, hu, h⟩ := bind_ok h
    simp only at h
    split_ifs at h with h0
    · cases h
      subst h0
      exact .failed s h1 hu rfl
    · cases h
      exact .grown sz s h1 hu h0 rfl
  · obtain ⟨⟨sz, s⟩, hu, h⟩ := bind_ok h
    cases h
    exact .shrunk sz s h2 hu rfl
  · cases h
    exact .none (by omega) rfl

/-- What a call of `fork` has done; `S'` is the system after `allocproc`. -/
inductive Fork (i : Fin NPROC) (S T : Sys) : Prop where
  | noProc (ha : allocproc S = .ok (none, T))
  | failed (j : Fin NPROC) (S' : Sys) (r : ℤ) (s : Phys) (ha : allocproc S = .ok (some j, S'))
      (hu : uvmcopy (S'.proc i).pagetable (S'.proc j).pagetable (S'.proc i).sz S'.phys = .ok (r, s))
      (hr : r < 0) (hf : freeproc j { S' with phys := s } = .ok T)
  | done (j : Fin NPROC) (S' : Sys) (r : ℤ) (s : Phys) (ha : allocproc S = .ok (some j, S'))
      (hu : uvmcopy (S'.proc i).pagetable (S'.proc j).pagetable (S'.proc i).sz S'.phys = .ok (r, s))
      (hr : ¬ r < 0)
      (hT : T = { S' with phys := (s.memmove (S'.proc j).trapframe TF_SIZE
          (fun k => s.mem ((S'.proc i).trapframe + k))).setWord ((S'.proc j).trapframe + TF_A0) 0 }.set
        j { S'.proc j with sz := (S'.proc i).sz, ofile := (S'.proc i).ofile, cwd := (S'.proc i).cwd,
                           name := (S'.proc i).name, parent := some i, state := .RUNNABLE })

theorem fork_ok {r : ℤ} (h : fork i S = .ok (r, T)) : Fork i S T := by
  unfold fork at h
  obtain ⟨⟨o, S'⟩, ha, h⟩ := bind_ok h
  cases o with
  | none =>
    cases h
    exact .noProc ha
  | some j =>
    dsimp only at h
    obtain ⟨⟨r', s⟩, hu, h⟩ := bind_ok h
    simp only at h
    split_ifs at h with hr
    · obtain ⟨T', hf, h⟩ := bind_ok h
      cases h
      exact .failed j S' r' s ha hu hr hf
    · cases h
      exact .done j S' r' s ha hu hr rfl

omit [Image] in
/-- The waiting and running time that `waitx` reports. -/
def Sys.waitTimes (S : Sys) (i : Fin NPROC) (wtime rtime : ℕ) : ℕ × ℕ :=
  match zombieChild i S with
  | some j => ((S.proc j).waited, (S.proc j).rtime)
  | none => (wtime, rtime)

/-- What a round of `wait` has done; `none`: the caller sleeps. -/
inductive WaitRound (i : Fin NPROC) (addr : ℕ) (S : Sys) : Option (ℤ × Sys) → Prop where
  | bad (j : Fin NPROC) (r : ℤ) (s : Phys) (hj : zombieChild i S = some j) (h0 : addr ≠ 0) (hr : r < 0)
      (hc : copyout (S.proc i).pagetable addr (intBytes (S.proc j).xstate) 4 S.phys = .ok (r, s)) :
      WaitRound i addr S (some (-1, { S with phys := s }))
  | reaped (j : Fin NPROC) (r : ℤ) (s : Phys) (T : Sys) (hj : zombieChild i S = some j)
      (hc : addr ≠ 0 ∧ ¬ r < 0 ∧ copyout (S.proc i).pagetable addr (intBytes (S.proc j).xstate) 4
        S.phys = .ok (r, s) ∨ addr = 0 ∧ s = S.phys)
      (hf : freeproc j { S with phys := s } = .ok T) :
      WaitRound i addr S (some ((S.proc j).pid, T))
  | none (hz : zombieChild i S = none) : WaitRound i addr S (some (-1, S))
  | sleep (hz : zombieChild i S = none) : WaitRound i addr S none

theorem waitRound_ok {addr : ℕ} {x : Option (ℤ × Sys)} (h : waitRound i addr S = .ok x) :
    WaitRound i addr S x := by
  unfold waitRound at h
  split at h
  · rename_i j hj
    dsimp only at h
    obtain ⟨⟨r, s⟩, hc, h⟩ := bind_ok h
    simp only at h
    split_ifs at h hc with hr h0
    · cases h
      exact .bad j r s hj h0 hr hc
    · cases hc
      omega
    · obtain ⟨T, hf, h⟩ := bind_ok h
      cases h
      exact .reaped j r s T hj (Or.inl ⟨by assumption, hr, hc⟩) hf
    · obtain ⟨T, hf, h⟩ := bind_ok h
      cases h
      cases hc
      exact .reaped j 0 S.phys T hj (Or.inr ⟨by omega, rfl⟩) hf
  · rename_i hz
    split at h
    · cases h
      exact .none hz
    · split_ifs at h
      · cases h
        exact .none hz
      · cases h
        exact .sleep hz

/-- `sys_waitx` copies two words out after its round. -/
theorem sys_waitx_ok {addr addr1 addr2 wtime rtime : ℕ} {x : Option (ℤ × Sys)}
    (h : sys_waitx i addr addr1 addr2 wtime rtime S = .ok x) :
    (x = none ∧ WaitRound i addr S none) ∨ ∃ r S' r₁ s, WaitRound i addr S (some (r, S')) ∧
      waitx i addr wtime rtime S = .ok (some ((r, S.waitTimes i wtime rtime), S')) ∧
      copyout (S'.proc i).pagetable addr1 (intBytes (S.waitTimes i wtime rtime).1) 4 S'.phys =
        .ok (r₁, s) ∧
      ((r₁ < 0 ∧ x = some (-1, { S' with phys := s })) ∨ ¬ r₁ < 0 ∧ ∃ r₂ s',
        copyout (S'.proc i).pagetable addr2 (intBytes (S.waitTimes i wtime rtime).2) 4 s =
          .ok (r₂, s') ∧
        x = some (if r₂ < 0 then -1 else r, { S' with phys := s' })) := by
  unfold sys_waitx at h
  obtain ⟨y, hw, h⟩ := bind_ok h
  have hy := hw
  unfold waitx at hy
  dsimp only at hy
  obtain ⟨z, hz, hy⟩ := bind_ok hy
  have hz := waitRound_ok hz
  cases z with
  | none =>
    cases hy
    cases h
    exact Or.inl ⟨rfl, hz⟩
  | some z =>
    obtain ⟨r, S'⟩ := z
    cases hy
    dsimp only at h
    obtain ⟨⟨r₁, s⟩, hc, h⟩ := bind_ok h
    refine Or.inr ⟨r, S', r₁, s, hz, hw, hc, ?_⟩
    simp only at h
    split_ifs at h with hr
    · cases h
      exact Or.inl ⟨hr, rfl⟩
    · obtain ⟨⟨r₂, s'⟩, hc', h⟩ := bind_ok h
      refine Or.inr ⟨hr, r₂, s', hc', ?_⟩
      simp only at h
      split_ifs at h with hr'
      · cases h
        rw [if_pos hr']
      · cases h
        rw [if_neg hr']

/-- What a call of `exec` has done. -/
inductive Exec (i : Fin NPROC) (argv : List (List UInt8)) (S T : Sys) : ℤ → Prop where
  | noFile (hT : T = S) : Exec i argv S T (-1)
  | failed (ip : Inode) (pagetable sz : ℕ) (s s' : Phys)
      (hb : buildImage (S.proc i).trapframe ip argv S.phys = .ok (none, pagetable, sz, s))
      (hf : (if pagetable ≠ 0 then proc_freepagetable pagetable sz s else .ok s) = .ok s')
      (hT : T = { S with phys := s' }) : Exec i argv S T (-1)
  | done (ip : Inode) (sp pagetable sz entry : ℕ) (name : List UInt8) (s s' : Phys)
      (hb : buildImage (S.proc i).trapframe ip argv S.phys = .ok (some sp, pagetable, sz, s))
      (hf : proc_freepagetable (S.proc i).pagetable (S.proc i).sz
        (((s.setWord ((S.proc i).trapframe + TF_A1) sp).setWord ((S.proc i).trapframe + TF_EPC)
          entry).setWord ((S.proc i).trapframe + TF_SP) sp) = .ok s')
      (hT : T = { S with phys := s' }.set i
        { S.proc i with name := name, pagetable := pagetable, sz := sz }) :
      Exec i argv S T argv.length

theorem exec_ok {path : List UInt8} {argv : List (List UInt8)} {namei : List UInt8 → Option Inode}
    {r : ℤ} (h : exec i path argv namei S = .ok (r, T)) : Exec i argv S T r := by
  unfold exec at h
  split at h
  · cases h
    exact .noFile rfl
  · rename_i ip _
    dsimp only at h
    obtain ⟨⟨o, pagetable, sz, s⟩, hb, h⟩ := bind_ok h
    cases o with
    | none =>
      dsimp only at h
      obtain ⟨s', hf, h⟩ := bind_ok h
      cases h
      exact .failed ip pagetable sz s s' hb hf rfl
    | some sp =>
      dsimp only at h
      obtain ⟨s', hf, h⟩ := bind_ok h
      cases h
      exact .done ip sp pagetable sz _ _ s s' hb hf rfl

/-- `sys_exec` takes pages for the arguments and gives them back. -/
theorem sys_exec_ok {upath uargv : ℕ} {namei : List UInt8 → Option Inode} {r : ℤ}
    (h : sys_exec i upath uargv namei S = .ok (r, T)) : (r = -1 ∧ T = S) ∨ ∃ ok argv s S' s',
      fetchArgs (S.proc i) uargv MAXARG 0 S.phys = (ok, argv, s) ∧
      ((r = -1 ∧ S' = { S with phys := s }) ∨ Exec i (argv.map Prod.snd) { S with phys := s } S' r) ∧
      freePages (argv.map Prod.fst) S'.phys = .ok s' ∧ T = { S' with phys := s' } := by
  unfold sys_exec at h
  split at h
  · cases h
    exact Or.inl ⟨rfl, rfl⟩
  · cases hf : fetchArgs (S.proc i) uargv MAXARG 0 S.phys with
    | mk ok x =>
      obtain ⟨argv, s⟩ := x
      rw [hf] at h
      dsimp only at h
      obtain ⟨⟨r', S'⟩, he, h⟩ := bind_ok h
      obtain ⟨s', hp, h⟩ := bind_ok h
      cases h
      refine Or.inr ⟨ok, argv, s, S', s', rfl, ?_, hp, rfl⟩
      split_ifs at he
      · exact Or.inr (exec_ok he)
      · cases he
        exact Or.inl ⟨rfl, rfl⟩

end Xv6
