import Xv6.Kernel.Trap
import Xv6.Proc.NoLeak

/-!
# StoreFault — how `usertrap` ends after a store page fault

`FaultReady S i T lf K X`: the page table of process `i` has the tables `T` and the entries `lf`, and
the allocator accounts for it, for its trapframe and for whatever else there is.  `Served` and
`Refused` are the ways in which a store page fault is to end.
-/

namespace Xv6

section

variable [Image] {S S' : Sys} {i : Fin NPROC} {T K X L : Multiset ℕ} {lf lf' : ℕ → Pte}
  {s s' : Phys} {r va sepc stval off x : ℕ}

/-- The page table of process `i` and the allocator before a fault. -/
structure FaultReady (S : Sys) (i : Fin NPROC) (T : Multiset ℕ) (lf : ℕ → Pte) (K X : Multiset ℕ) :
    Prop where
  tree : Tree S.phys.mem (S.proc i).pagetable T lf
  owns : Owns S.phys (T + K) (leafRefs UPAGES lf + X)
  top : TopClosed lf
  frame : (S.proc i).trapframe ∈ K

/-- The memory of a live process is as it has to be before a fault. -/
theorem MemOk.faultReady (h : MemOk L S) (hi : S.Live i) :
    ∃ T K X, FaultReady S i T (S.map i) K X := by
  have hS := (h.open hi).space
  refine ⟨_, _, _, hS.tree, hS.owns, hS.user.top, ?_⟩
  simp

/-- A store to the trapframe touches no table and no user page. -/
theorem FaultReady.setFrame (h : FaultReady S i T lf K X) (off x : ℕ) (hoff : off + 8 ≤ 4096) :
    FaultReady (S.setFrame i off x) i T lf K X ∧
      Keeps S.phys.mem (S.setFrame i off x).phys.mem (T + (leafRefs UPAGES lf + X)) := by
  have hfr : (S.proc i).trapframe ∈ T + K := Multiset.mem_add.mpr (Or.inr h.frame)
  have hok := h.owns.ok_left hfr
  have hk : Keeps S.phys.mem (S.setFrame i off x).phys.mem (T + (leafRefs UPAGES lf + X)) := by
    intro q hq
    show PageEq S.phys.mem (S.phys.mem.store ((S.proc i).trapframe + off) 8 x) q
    unfold ByteStore.store
    rcases Multiset.mem_add.mp hq with hq | hq
    · have hne : q ≠ (S.proc i).trapframe := by
        rintro rfl
        exact Multiset.disjoint_left.mp (Multiset.nodup_add.mp h.owns.nodup).2.2 hq h.frame
      exact pageEq_blit hok.1 (h.owns.ok_left (Multiset.mem_add.mpr (Or.inl hq))).1 hne hoff
    · exact pageEq_blit hok.1 (h.owns.ok_right hq).1 (h.owns.ne hfr hq) hoff
  exact ⟨⟨h.tree.congr hk.left, h.owns.memmove _ _ _, h.top, h.frame⟩, hk⟩

/-- `usertrapret` enters the user program where the trapframe says. -/
theorem FaultReady.usertrapret (h : FaultReady S i T lf K X) (k : KernelRegs) :
    ∃ S', usertrapret k i S =
        (.usertrapret (S.phys.mem.load ((S.proc i).trapframe + TF_EPC) 8), S') ∧
      FaultReady S' i T lf K X ∧ S'.proc = S.proc ∧
      Keeps S.phys.mem S'.phys.mem (T + (leafRefs UPAGES lf + X)) := by
  obtain ⟨h₁, k₁⟩ := h.setFrame TF_KERNEL_SATP k.satp (by decide)
  obtain ⟨h₂, k₂⟩ := h₁.setFrame TF_KERNEL_SP (k.kstack + PGSIZE) (by decide)
  obtain ⟨h₃, k₃⟩ := h₂.setFrame TF_KERNEL_TRAP k.usertrap (by decide)
  obtain ⟨h₄, k₄⟩ := h₃.setFrame TF_KERNEL_HARTID k.tp (by decide)
  refine ⟨_, ?_, h₄, rfl, ((k₁.trans k₂).trans k₃).trans k₄⟩
  unfold Xv6.usertrapret
  refine Prod.ext (congrArg TrapExit.usertrapret ?_) rfl
  -- the four words lie on both sides of `epc`
  refine (ByteStore.load_store_out (Or.inl ?_)).trans ((ByteStore.load_store_out (Or.inr ?_)).trans
    ((ByteStore.load_store_out (Or.inr ?_)).trans (ByteStore.load_store_out (Or.inr ?_))))
  all_goals
    simp only [Sys.setFrame, TF_EPC, TF_KERNEL_SATP, TF_KERNEL_SP, TF_KERNEL_TRAP, TF_KERNEL_HARTID]
    omega

/-- The page of `stval` is writable and has its contents, and the store at `sepc` is retried. -/
def Served (i : Fin NPROC) (lf : ℕ → Pte) (sepc stval : ℕ) (S : Sys)
    (o : Except Panic (TrapExit × Sys)) : Prop :=
  ∃ S' T' lf', o = .ok (.usertrapret sepc, S') ∧ Tree S'.phys.mem (S'.proc i).pagetable T' lf' ∧
    ((lf' (stval / 4096)).has PTE_V = true ∧ (lf' (stval / 4096)).has PTE_U = true ∧
      (lf' (stval / 4096)).has PTE_W = true ∧ (lf' (stval / 4096)).has PTE_COW = false) ∧
    (∀ n < 4096, S'.phys.mem (PTE2PA (lf' (stval / 4096)) + n) =
      S.phys.mem (PTE2PA (lf (stval / 4096)) + n)) ∧
    ∀ v ≠ stval / 4096, lf' v = lf v

/-- There is no page of the address, or no copy-on-write page, or no memory for a copy. -/
def Refused (lf : ℕ → Pte) (stval : ℕ) (S : Sys) : Prop :=
  MAXVA ≤ PGROUNDDOWN stval ∨ ¬ CowEntry (lf (stval / 4096)) ∨ S.phys.freelist = []

/-- The process is in `exit(-1)`. -/
def Stopped (o : Except Panic (TrapExit × Sys)) : Prop := ∃ S', o = .ok (.exit (-1), S')

/-- A page fault that `cow_page_fault` has served. -/
theorem FaultReady.served (h : FaultReady S i T lf K X) (k : KernelRegs) (hsepc : sepc < 2 ^ 64)
    (hf : cow_page_fault (S.proc i).pagetable (PGROUNDDOWN stval) (S.setFrame i TF_EPC sepc).phys =
      .ok (0, s')) (hk : (S.proc i).killed = false) :
    Served i lf sepc stval S
      (.ok (usertrapEnd k i 0 { S.setFrame i TF_EPC sepc with phys := s' })) := by
  obtain ⟨h₁, k₁⟩ := h.setFrame TF_EPC sepc (by decide)
  have hdiv : PGROUNDDOWN stval / 4096 = stval / 4096 := Nat.mul_div_left _ (by decide)
  rcases cow_page_fault_spec h₁.tree h₁.owns h₁.top hf with ⟨h0, -⟩ | ⟨-, hv, hU, hV, hC, p, lf', hlf,
    hok, hp, hT', hO', hrefs, hkeep, hcopy⟩
  · cases h0
  rw [hdiv] at *
  set S₂ : Sys := { S.setFrame i TF_EPC sepc with phys := s' } with hS₂
  have hlfv : lf' (stval / 4096) = uncowed (lf (stval / 4096)) p := by rw [hlf, Function.update_self]
  have hother : ∀ v ≠ stval / 4096, lf' v = lf v := fun v hne => by
    rw [hlf, Function.update_of_ne hne]
  have htop' : TopClosed lf' := by
    intro v hUv hvV
    rw [hother v (by omega)]
    exact h.top v hUv hvV
  have h₂ : FaultReady S₂ i T lf' K X := ⟨hT', hO', htop', h.frame⟩
  obtain ⟨S₃, hret, h₃, hproc, k₃⟩ := h₂.usertrapret k
  -- the saved `epc` has survived the copy
  have hepc : S₂.phys.mem.load ((S₂.proc i).trapframe + TF_EPC) 8 = sepc := by
    have hload : S₂.phys.mem.load ((S.proc i).trapframe + TF_EPC) 8 =
        (S.setFrame i TF_EPC sepc).phys.mem.load ((S.proc i).trapframe + TF_EPC) 8 :=
      ByteStore.load_congr fun n hn => by
        rw [add_assoc]
        exact hkeep _ (Multiset.mem_add.mpr (Or.inl h.frame)) _ (by simp only [TF_EPC]; omega)
    refine hload.trans (ByteStore.load_store.trans (Nat.mod_eq_of_lt ?_))
    omega
  refine ⟨S₃, T, lf', ?_, h₃.tree, ⟨?_, ?_, ?_, ?_⟩, fun n hn => ?_, hother⟩
  · have hkill : ¬ (S₂.proc i).killed = true := by
      show ¬ (S.proc i).killed = true
      rw [hk]
      decide
    unfold usertrapEnd
    rw [if_neg hkill, if_neg (by decide), hret, hepc]
  · rw [hlfv, uncowed_has (by decide) (by decide) (by decide)]
    exact hV
  · rw [hlfv, uncowed_has (by decide) (by decide) (by decide)]
    exact hU
  · rw [hlfv, uncowed_W]
  · rw [hlfv, uncowed_COW]
  · have hpage : PTE2PA (lf' (stval / 4096)) = p := by rw [hlfv, PTE2PA_uncowed hok]
    have hpF : p ∈ T + (leafRefs UPAGES lf' + X) := by
      rw [hrefs, Multiset.cons_add, Multiset.add_cons]
      exact Multiset.mem_cons_self _ _
    have hold : PTE2PA (lf (stval / 4096)) ∈ T + (leafRefs UPAGES lf + X) :=
      Multiset.mem_add.mpr (Or.inr (Multiset.mem_add.mpr (Or.inl (mem_leafRefs.mpr ⟨_, hv, hV, rfl⟩))))
    rw [hpage, k₃ p hpF n hn]
    exact (hcopy n hn).trans (k₁ _ hold n hn)

variable (k : KernelRegs) (syscall : Sys → Except Panic Sys) (devintr : Sys → ℕ × Sys)

/-- **All ways in which `usertrap` ends** after a store page fault. -/
theorem FaultReady.usertrap_cases (h : FaultReady S i T lf K X) (hsepc : sepc < 2 ^ 64)
    (stval : ℕ) :
    (MAXVA ≤ PGROUNDDOWN stval ∧ Stopped (usertrap k i syscall devintr 15 sepc stval S)) ∨
    ((CowEntry (lf (stval / 4096)) ∧ S.phys.freelist ≠ []) ∧
      (((S.proc i).killed = true ∧ Stopped (usertrap k i syscall devintr 15 sepc stval S)) ∨
        Served i lf sepc stval S (usertrap k i syscall devintr 15 sepc stval S))) ∨
    (¬ (MAXVA ≤ PGROUNDDOWN stval ∨ (CowEntry (lf (stval / 4096)) ∧ S.phys.freelist ≠ [])) ∧
      ∃ S', usertrap k i syscall devintr 15 sepc stval S = .ok (.returned, S')) := by
  have hdiv : PGROUNDDOWN stval / 4096 = stval / 4096 := Nat.mul_div_left _ (by decide)
  have hu : usertrap k i syscall devintr 15 sepc stval S =
      if MAXVA ≤ PGROUNDDOWN stval then
        .ok (.exit (-1), (S.setFrame i TF_EPC sepc).set i { S.proc i with killed := true })
      else (cow_page_fault (S.proc i).pagetable (PGROUNDDOWN stval)
        (S.setFrame i TF_EPC sepc).phys).bind fun x =>
          if x.1 ≠ 0 then .ok (.returned, { S.setFrame i TF_EPC sepc with phys := x.2 })
          else .ok (usertrapEnd k i 0 { S.setFrame i TF_EPC sepc with phys := x.2 }) := rfl
  by_cases hva : MAXVA ≤ PGROUNDDOWN stval
  · left
    rw [hu, if_pos hva]
    exact ⟨hva, _, rfl⟩
  · right
    obtain ⟨h₁, -⟩ := h.setFrame TF_EPC sepc (by decide)
    obtain ⟨res, s', hf, hres⟩ := cow_page_fault_total (PGROUNDDOWN stval) h₁.tree h₁.owns h₁.top
    rw [hdiv] at hres
    have hf' : cow_page_fault (S.proc i).pagetable (PGROUNDDOWN stval)
      (S.setFrame i TF_EPC sepc).phys = .ok (res, s') := hf
    rw [hu, if_neg hva, hf']
    by_cases h0 : res = 0
    · left
      subst h0
      obtain ⟨-, hc⟩ := hres.mp rfl
      refine ⟨hc, ?_⟩
      cases hk : (S.proc i).killed with
      | true =>
        left
        refine ⟨rfl, { S.setFrame i TF_EPC sepc with phys := s' }, ?_⟩
        simp [Except.bind, usertrapEnd, Sys.setFrame, hk]
      | false =>
        right
        exact h.served k hsepc hf' hk
    · right
      refine ⟨fun hc => h0 (hres.mpr ⟨not_le.mp hva, hc.resolve_left hva⟩),
        { S.setFrame i TF_EPC sepc with phys := s' }, ?_⟩
      simp only [Except.bind, ne_eq, h0, not_false_eq_true, if_true]

/-- **Store page faults end as they should** exactly if the address is out of range, or its page is
copy-on-write and there is memory for the copy.  Else `usertrap` returns to its caller. -/
theorem store_fault_iff (h : FaultReady S i T lf K X) (hsepc : sepc < 2 ^ 64) (stval : ℕ) :
    (Served i lf sepc stval S (usertrap k i syscall devintr 15 sepc stval S) ∨
      ((Refused lf stval S ∨ (S.proc i).killed = true) ∧
        Stopped (usertrap k i syscall devintr 15 sepc stval S))) ↔
      MAXVA ≤ PGROUNDDOWN stval ∨ (CowEntry (lf (stval / 4096)) ∧ S.phys.freelist ≠ []) := by
  rcases h.usertrap_cases k syscall devintr hsepc stval with ⟨hva, he⟩ | ⟨hc, hs⟩ | ⟨hn, S', hr⟩
  · exact ⟨fun _ => Or.inl hva, fun _ => Or.inr ⟨Or.inl (Or.inl hva), he⟩⟩
  · refine ⟨fun _ => Or.inr hc, fun _ => ?_⟩
    rcases hs with ⟨hk, he⟩ | hs
    · exact Or.inr ⟨Or.inr hk, he⟩
    · exact Or.inl hs
  · refine ⟨fun hp => ?_, fun hc => absurd hc hn⟩
    exfalso
    rcases hp with ⟨S'', T', lf', he, -⟩ | ⟨-, S'', he⟩
    · rw [hr] at he
      cases he
    · rw [hr] at he
      cases he

end

/-! ## A small machine -/

/-- After its `fork` the first process stores to its page, which it shares with the child. -/
theorem store_fault_cow : ∃ S T K X,
    @Runs.Steps _ _ _ (@Sys.step smallImage) (@Fits smallImage) (Sys.boot smallPhys) S ∧
      CowEntry (S.map 0 0) ∧ PTE2PA (S.map 1 0) = PTE2PA (S.map 0 0) ∧
      @FaultReady smallImage S 0 T (S.map 0) K X ∧
      Served 0 (S.map 0) 8 0 S
        (@usertrap ⟨0, 0, 0, 0⟩ 0 smallImage Except.ok (fun S => (0, S)) 15 8 0 S) := by
  let _ := smallImage
  obtain ⟨S, hS, hl, hk, hU, hV, hC, hpa, hfree⟩ := Runs.Steps.of_any
    (P := fun S e => forkReturns S e = true)
    (Q := fun S : Sys => (S.proc 0).state ≠ .UNUSED ∧ (S.proc 0).killed = false ∧
      (S.map 0 0).has PTE_U = true ∧ (S.map 0 0).has PTE_V = true ∧ (S.map 0 0).has PTE_COW = true ∧
      PTE2PA (S.map 1 0) = PTE2PA (S.map 0 0) ∧ S.phys.freelist ≠ [])
    [.userinit, .run 0, .call 0 .fork]
    (by decide +kernel : (Runs.exec Sys.step (fun S e => forkReturns S e = true) (Sys.boot smallPhys)
      _).any _ = true)
  have hF := hS.mono fun _ _ => forkReturns_fits
  have hcow : CowEntry (S.map 0 0) := ⟨hU, hV, hC⟩
  obtain ⟨T, K, X, h⟩ := ((MemOk.of_kinit small_kinit).run hF).faultReady hl
  have hsepc : 8 < 2 ^ 64 := by decide
  rcases (store_fault_iff _ _ _ h hsepc 0).mpr (Or.inr ⟨hcow, hfree⟩) with hs | ⟨hr | hr, -⟩
  · exact ⟨S, T, K, X, hF, hcow, hpa, h, hs⟩
  · rcases hr with hva | hno | he
    · exact absurd hva (by decide)
    · exact absurd hcow hno
    · exact absurd he hfree
  · rw [hk] at hr
    cases hr

/-- The first process stores to the page behind its memory, which is not mapped. -/
theorem store_fault_returns : ∃ S,
    @Runs.Steps _ _ _ (@Sys.step smallImage) (fun _ _ => True) (Sys.boot smallPhys) S ∧
      (S.proc 0).state = .RUNNING ∧ (S.proc 0).sz = 4096 ∧
      (∃ S', @usertrap ⟨0, 0, 0, 0⟩ 0 smallImage Except.ok (fun S => (0, S)) 15 8 4096 S =
        .ok (.returned, S')) ∧
      ¬ (Served 0 (S.map 0) 8 4096 S
          (@usertrap ⟨0, 0, 0, 0⟩ 0 smallImage Except.ok (fun S => (0, S)) 15 8 4096 S) ∨
        Stopped (@usertrap ⟨0, 0, 0, 0⟩ 0 smallImage Except.ok (fun S => (0, S)) 15 8 4096 S)) := by
  let _ := smallImage
  obtain ⟨S, hS, hrun, hsz, hret⟩ := Runs.Steps.of_any (P := fun _ _ => True)
    (Q := fun S : Sys => (S.proc 0).state = .RUNNING ∧ (S.proc 0).sz = 4096 ∧
      Runs.okWith (fun y => y.1 == .returned)
        (usertrap ⟨0, 0, 0, 0⟩ 0 Except.ok (fun S => (0, S)) 15 8 4096 S) = true)
    [.userinit, .run 0]
    (by decide +kernel : (Runs.exec Sys.step (fun _ _ => True) (Sys.boot smallPhys) _).any _ = true)
  obtain ⟨S', hS'⟩ : ∃ S', usertrap ⟨0, 0, 0, 0⟩ 0 Except.ok (fun S => (0, S)) 15 8 4096 S =
      .ok (.returned, S') := by
    obtain ⟨y, hy, hr⟩ := Runs.okWith_iff.mp hret
    refine ⟨y.2, ?_⟩
    rw [hy, ← beq_iff_eq.mp hr]
  refine ⟨S, hS, hrun, hsz, ⟨S', hS'⟩, ?_⟩
  rw [hS']
  rintro (⟨S'', T', lf', he, -⟩ | ⟨S'', he⟩)
  · cases he
  · cases he

end Xv6
