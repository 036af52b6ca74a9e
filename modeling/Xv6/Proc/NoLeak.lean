import Xv6.Proc.Events
import Xv6.Proc.ForkLeak

/-!
# NoLeak — no page is lost over a run

* `in_use_not_free`: no page in use is free, and no page that a process can write is seen by another one.
* `exact_counts`: as long as no `fork` fails in `uvmcopy`, the counters are exact after every event, and
  what is not free has a reference.
-/

namespace Xv6

/-- The memory after `kinit`. -/
theorem MemOk.of_kinit [Image] {mem : ByteStore} {s : Phys} (hs : kinit mem = .ok s) : MemOk 0 (Sys.boot s) := by
  obtain ⟨s', hs', hA⟩ := kinit_spec mem
  rw [hs] at hs'
  cases hs'
  exact MemOk.boot hA

/-- As long as no count is taken for nothing there is room for a `fork`. -/
theorem MemOk.roomy [Image] {S T : Sys} {e : Event} (h : MemOk 0 S) (ht : S.step e = some (.ok T)) :
    Roomy S e := by
  cases e with
  | call i c =>
    cases c with
    | fork =>
      simp only [Sys.step] at ht
      split_ifs at ht with hi
      refine h.copyRoom fun hu => ?_
      rw [hi] at hu
      cases hu
    | _ => exact trivial
  | _ => exact trivial

theorem MemOk.run [Image] {S T : Sys} (h : MemOk 0 S) (hT : Runs.Steps Sys.step Fits S T) : MemOk 0 T := by
  refine hT.invariant h fun S e T h hf ht => ?_
  obtain ⟨⟨L, h', hL⟩, -⟩ := h.step (h.roomy ht) ht
  rwa [hL hf] at h'

/-- In a run whose calls of `fork` all fit no counter overflows. -/
theorem MemOk.roomy_run [Image] {S T : Sys} {P : Sys → Event → Prop} (h : MemOk 0 S)
    (hT : Runs.Steps Sys.step (fun S e => Fits S e ∧ P S e) S T) :
    Runs.Steps Sys.step (fun S e => Roomy S e ∧ P S e) S T := by
  suffices h : MemOk 0 T ∧ Runs.Steps Sys.step (fun S e => Roomy S e ∧ P S e) S T from h.2
  refine hT.invariant (I := fun T => MemOk 0 T ∧
    Runs.Steps Sys.step (fun S e => Roomy S e ∧ P S e) S T) ⟨h, .refl _⟩ ?_
  rintro T e U ⟨h, hrun⟩ ⟨hf, hP⟩ ht
  have hr := h.roomy ht
  obtain ⟨⟨L, h', hL⟩, -⟩ := h.step hr ht
  exact ⟨hL hf ▸ h', hrun.snoc ⟨hr, hP⟩ ht⟩

/-- **No page in use is free**: in every run in which no counter overflows, also after failed calls, no
page is on the free list twice, none there has a reference, the counters of the free pages are 0, and the
counter of every other page is at least the number of its references and at least 1.  A page of a page table
or trapframe has no other reference, and neither has a page that a process can write without a fault. -/
theorem in_use_not_free [Image] {mem : ByteStore} {s : Phys} {S : Sys} (hs : kinit mem = .ok s)
    (hS : Runs.Steps Sys.step Roomy (Sys.boot s) S) :
    S.phys.freelist.Nodup ∧ (∀ p ∈ S.refs, p ∉ S.phys.freelist) ∧
    (∀ p ∈ S.phys.freelist, S.phys.pte_count (p / PGSIZE) = 0) ∧
    (∀ p, okPage p → p ∉ S.phys.freelist → 1 ≤ S.phys.pte_count (p / PGSIZE) ∧
      (S.refs.count p : ℤ) ≤ S.phys.pte_count (p / PGSIZE)) ∧
    (∀ p ∈ tabs S.phys.mem S.roots + (S.held + S.frames), S.refs.count p = 1) ∧
    ∀ i, S.Live i → ∀ v < UPAGES, (S.map i v).has PTE_V = true → (S.map i v).has PTE_W = true →
      S.refs.count (PTE2PA (S.map i v)) = 1 := by
  obtain ⟨L, h⟩ : ∃ L, MemOk L S := by
    refine hS.invariant (I := fun S => ∃ L, MemOk L S) ⟨0, .of_kinit hs⟩ ?_
    rintro S e T ⟨L, h⟩ hr ht
    obtain ⟨⟨L', h', -⟩, -⟩ := h.step hr ht
    exact ⟨L', h'⟩
  have hA := h.alloc
  have hO := h.heap.owns
  refine ⟨hA.nodup, fun p hp => hA.not_mem_free (Multiset.mem_add.mpr (Or.inl hp)),
    fun p hp => hA.count_free hp, fun p hp hf => ?_, fun p hp => ?_, fun i hi v hv hV hW => ?_⟩
  · have hR : p ∈ S.refs + L := by
      by_contra hR
      exact hf ((hA.free_iff p).mpr ⟨hp, hR⟩)
    have hpos := Multiset.one_le_count_iff_mem.mpr hR
    rw [show S.phys.pte_count (p / PGSIZE) = (S.refs + L).count p from hA.count_ok hp]
    rw [Multiset.count_add] at hpos ⊢
    exact ⟨by omega, by omega⟩
  · unfold Sys.refs
    rw [Multiset.count_add, Multiset.count_eq_one_of_mem hO.nodup hp, Multiset.count_eq_zero.mpr fun hu =>
      Multiset.disjoint_left.mp hO.disj hp (Multiset.mem_add.mpr (Or.inl hu))]
  · have hr : (S.proc i).pagetable ∈ S.roots := Sys.mem_roots ((h.slot i).table hi)
    have hE := h.heap.user _ hr v (lt_trans hv (by decide))
    have hone : (urefs S.phys.mem S.roots + L).count (PTE2PA (S.map i v)) = 1 :=
      hE.excl hv hV (hE.plain hv hV hW)
    have hu : PTE2PA (S.map i v) ∈ urefs S.phys.mem S.roots :=
      Multiset.mem_of_le (leafRefs_le hr) (mem_leafRefs.mpr ⟨v, hv, hV, rfl⟩)
    have hpos := Multiset.one_le_count_iff_mem.mpr hu
    unfold Sys.refs
    rw [Multiset.count_add, Multiset.count_eq_zero.mpr fun ht =>
      Multiset.disjoint_left.mp hO.disj ht (Multiset.mem_add.mpr (Or.inl hu))]
    rw [Multiset.count_add] at hone
    omega

/-- **No page is lost**: in every run without a `fork` that fails in `uvmcopy`, the counters are exact, the
free list has the pages without references, each of them once, and the number of free pages and of
different pages with references stays the same. -/
theorem exact_counts [Image] {mem : ByteStore} {s : Phys} {S : Sys} (hs : kinit mem = .ok s)
    (hS : Runs.Steps Sys.step Fits (Sys.boot s) S) :
    S.phys.freelist.Nodup ∧ (∀ p, p ∈ S.phys.freelist ↔ okPage p ∧ p ∉ S.refs) ∧
    (∀ p, okPage p → S.phys.pte_count (p / PGSIZE) = S.refs.count p) ∧
    ∀ T, Runs.Steps Sys.step Fits S T →
      T.phys.freelist.length + T.refs.dedup.card = S.phys.freelist.length + S.refs.dedup.card := by
  have h := (MemOk.of_kinit hs).run hS
  have hA := h.alloc
  rw [add_zero] at hA
  refine ⟨hA.nodup, hA.free_iff, fun p hp => hA.count_ok hp, fun T hT => ?_⟩
  have hA' := (h.run hT).alloc
  rw [add_zero] at hA'
  exact RefCount.Counted.conserved hA hA'

/-! ## On a small machine -/

/-- A call of `fork` returns a pid. -/
def forkReturns [Image] (S : Sys) : Event → Bool
  | .call i .fork => Runs.okWith (fun y => decide (y.1 ≠ -1)) (fork i S)
  | _ => true

theorem forkReturns_fits [Image] {S : Sys} {e : Event} (h : forkReturns S e = true) : Fits S e := by
  cases e with
  | call i c =>
    cases c with
    | fork =>
      obtain ⟨⟨r, T⟩, hT, hr⟩ := Runs.okWith_iff.mp h
      exact fun hf => of_decide_eq_true hr (fork_fails hT (Or.inl hf))
    | _ => exact trivial
  | _ => exact trivial

theorem small_kinit : @kinit smallImage (fun _ => 0) = .ok smallPhys := by
  obtain ⟨s, hs, -⟩ := @kinit_spec smallImage fun _ => 0
  unfold smallPhys
  rw [hs]

/-- The first process forks; both share pages whose counters are 2. -/
theorem small_fork : ∃ S, @Runs.Steps _ _ _ (@Sys.step smallImage) (@Fits smallImage)
      (Sys.boot smallPhys) S ∧ (S.proc 1).state = .RUNNABLE := by
  let _ := smallImage
  obtain ⟨S, hS, hk⟩ := Runs.Steps.of_any (P := fun S e => forkReturns S e = true)
    (Q := fun S : Sys => (S.proc 1).state = .RUNNABLE) [.userinit, .run 0, .call 0 .fork]
    (by decide +kernel : (Runs.exec Sys.step (fun S e => forkReturns S e = true) (Sys.boot smallPhys)
      _).any _ = true)
  exact ⟨S, hS.mono fun _ _ => forkReturns_fits, hk⟩

theorem in_use_not_free_fork : ∃ S, @Runs.Steps _ _ _ (@Sys.step smallImage) Roomy
      (Sys.boot smallPhys) S ∧ (S.proc 1).state = .RUNNABLE ∧ S.phys.freelist.Nodup := by
  let _ := smallImage
  obtain ⟨S, hS, hk⟩ := small_fork
  have hr : Runs.Steps Sys.step Roomy (Sys.boot smallPhys) S :=
    ((MemOk.of_kinit small_kinit).roomy_run (P := fun _ _ => True)
      (hS.mono fun _ _ h => ⟨h, trivial⟩)).mono fun _ _ h => h.1
  exact ⟨S, hr, hk, (in_use_not_free small_kinit hr).1⟩

theorem exact_counts_fork : ∃ S, @Runs.Steps _ _ _ (@Sys.step smallImage) (@Fits smallImage)
      (Sys.boot smallPhys) S ∧ (S.proc 1).state = .RUNNABLE ∧
      (∀ p, p ∈ S.phys.freelist ↔ @okPage smallImage p ∧ p ∉ S.refs) := by
  let _ := smallImage
  obtain ⟨S, hS, hk⟩ := small_fork
  exact ⟨S, hS, hk, (exact_counts small_kinit hS).2.1⟩

end Xv6
