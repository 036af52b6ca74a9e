import Xv6.Mem.Transfer
import Xv6.Proc.Calls

/-!
# ForkLeak — what a `fork` that fails in `uvmcopy` leaves behind

`uvmcopy` counts a new reference to a page before it maps the page for the child.  When there is no
memory for the child's table it unmaps what the child has got so far, but the count of the page at
hand stays.
-/

namespace Xv6

section

variable [Image] {S S' T : Sys} {i j : Fin NPROC} {L K R : Multiset ℕ} {s s' : Phys} {old new sz : ℕ}
  {res r : ℤ}

/-- **`uvmcopy` fails** at page `k` of the parent: the tables and the references of the parent and
all others are as before, and there is one count more. -/
theorem Heap.uvmcopy_failed (h : Heap s (old ::ₘ new ::ₘ R) K L) (hsz : sz ≤ TRAPFRAME)
    (hlim : ∀ p ∈ leafRefs UPAGES (leaf s.mem old), (urefs s.mem (old ::ₘ new ::ₘ R) + L).count p +
      (rangeRefs (leaf s.mem old) 0 (pages sz)).count p < intLim)
    (hc : Xv6.uvmcopy old new sz s = .ok (res, s')) (hres : res < 0) :
    ∃ k < pages sz, (leaf s.mem old k).has PTE_V = true ∧
      Keeps s.mem s'.mem (leafRefs UPAGES (leaf s.mem old)) ∧
      (∀ v < VPAGES, leaf s'.mem old v =
        mapPages cowed (leaf s.mem old) (leaf s.mem old) 0 (k + 1) v) ∧
      tabs s'.mem (old ::ₘ R) = tabs s.mem (old ::ₘ R) ∧
      urefs s'.mem (old ::ₘ R) = urefs s.mem (old ::ₘ R) ∧
      Alloc s' (tabs s'.mem (old ::ₘ new ::ₘ R) + K +
        (urefs s'.mem (old ::ₘ new ::ₘ R) + PTE2PA (leaf s.mem old k) ::ₘ L)) := by
  have hlim' : ∀ p ∈ leafRefs UPAGES (leaf s.mem old), (leafRefs UPAGES (leaf s.mem old) +
      leafRefs UPAGES (leaf s.mem new) + (urefs s.mem R + L)).count p +
        (rangeRefs (leaf s.mem old) 0 (pages sz)).count p < intLim := by
    intro p hp
    have := hlim p hp
    rwa [urefs_cons, urefs_cons, ← add_assoc, add_assoc] at this
  obtain ⟨hk, T₂', lf₂', hT₂', ⟨hres', -⟩ | ⟨-, hsame, k, hkn, hV, hT₁', hO'⟩⟩ :=
    uvmcopy_spec ⟨rfl, fun _ _ => rfl⟩ ⟨rfl, fun _ _ => rfl⟩ h.owns₂ hsz hlim' hc
  · omega
  · have htabs : Keeps s.mem s'.mem (tabs s.mem R) := hk.left.left
    obtain ⟨hp₁, hp₂⟩ := Heap.pair htabs hT₁' hT₂'
    rw [leafRefs_cowed] at hp₂
    have hleaf : leafRefs UPAGES (leaf s'.mem old) = leafRefs UPAGES (leaf s.mem old) := by
      refine (leafRefs_congr fun v hv => ?_).trans (leafRefs_cowed (a := 0) (k := k + 1))
      rw [hT₁'.leaf v (lt_trans hv (by decide))]
    refine ⟨k, hkn, hV, hk.right.left.left, hT₁'.leaf, ?_, ?_, ?_⟩
    · rw [tabs_cons, tabs_cons, htabs.tabs_eq, show tables s'.mem old = _ from hT₁'.tables]
    · rw [urefs_cons, urefs_cons, htabs.urefs_eq, hleaf]
    · refine cast ?_ hO'.alloc
      rw [hp₁, hp₂]
      congr 1
      simp only [Multiset.add_cons]
      congr 1
      abel

/-- All references of the system, counts taken for nothing apart. -/
def Sys.refs (S : Sys) : Multiset ℕ :=
  tabs S.phys.mem S.roots + (S.held + S.frames) + urefs S.phys.mem S.roots

theorem MemOk.alloc (h : MemOk L S) : Alloc S.phys (S.refs + L) := by
  unfold Sys.refs
  rw [add_assoc]
  exact h.heap.owns.alloc

omit [Image] in
theorem SameBytes.trans {U : Sys} (h : SameBytes S T i) (h' : SameBytes T U i)
    (hV : ∀ v < UPAGES, (S.map i v).has PTE_V = true → (T.map i v).has PTE_V = true) :
    SameBytes S U i :=
  fun a ha hS => (h' a ha (hV _ ha hS)).trans (h a ha hS)

/-- A slot that `allocproc` has filled and `freeproc` has freed again. -/
theorem Made.freed (hm : Made S S' j) (h : MemOk L S)
    (hT : T.proc = Function.update S'.proc j (S'.proc j).free) (k : Fin NPROC) :
    (T.proc k).pagetable = (S.proc k).pagetable ∧ (T.proc k).trapframe = (S.proc k).trapframe ∧
      (¬ S.Live k → ¬ T.Live k) := by
  by_cases hk : k = j
  · obtain ⟨hpt, htf, -⟩ := (h.slot j).unused (not_not.mp hm.dead)
    unfold Sys.Live
    rw [hk, hT, Function.update_self, hpt, htf]
    exact ⟨rfl, rfl, fun _ hl => hl rfl⟩
  · unfold Sys.Live
    rw [hT, Function.update_of_ne hk, hm.other k hk]
    exact ⟨rfl, rfl, id⟩

/-- What `freeproc` leaves of the references, where the tables of the others are as they were before
`allocproc`. -/
theorem Made.refs_freed (hm : Made S S' j) (h : MemOk L S)
    (hT : T.proc = Function.update S'.proc j (S'.proc j).free) (hh : T.held = S.held)
    (htabs : tabs T.phys.mem S.roots = tabs S'.phys.mem S.roots)
    (hurefs : urefs T.phys.mem S.roots = urefs S'.phys.mem S.roots) : T.refs = S.refs := by
  unfold Sys.refs
  rw [Sys.roots_congr fun k => (hm.freed h hT k).1, Sys.frames_congr fun k => (hm.freed h hT k).2.1, hh,
    htabs, hurefs, hm.keeps.tabs_eq, hm.keeps.urefs_eq]

/-- The way of a `fork` that fails in `uvmcopy`. -/
theorem MemOk.fork_failed (h : MemOk L S) (hi : S.Live i) (hroom : S.CopyRoom i)
    (ha : Xv6.allocproc S = .ok (some j, S'))
    (hu : Xv6.uvmcopy (S'.proc i).pagetable (S'.proc j).pagetable (S'.proc i).sz S'.phys = .ok (r, s))
    (hr : r < 0) (hf : Xv6.freeproc j { S' with phys := s } = .ok T) :
    ∃ v < pages (S.proc i).sz, (S.map i v).has PTE_V = true ∧ T.refs = S.refs ∧
      MemOk (PTE2PA (S.map i v) ::ₘ L) T ∧ SameBytes S T i ∧ ∀ k, ¬ S.Live k → ¬ T.Live k := by
  obtain ⟨h₁, -, hmade⟩ := h.allocproc (allocproc_ok ha)
  have hm := hmade j rfl
  have hij : i ≠ j := fun he => hm.dead (he ▸ hi)
  have hi' : S'.Live i := (hm.kept i hij).live.mpr hi
  have hroom' := hm.copyRoom h h₁ hi hij hroom
  have hheld : S'.held = S.held := by
    cases allocproc_ok ha with
    | done _ _ _ _ _ _ _ _ _ hT => rw [hT]; rfl
  -- `uvmcopy`
  have hroots := h₁.open₂ hij hi' hm.live
  have hh := h₁.heap
  rw [hroots] at hh
  obtain ⟨v, hv, hV, hkl, hold, htabs, hurefs, hA⟩ := hh.uvmcopy_failed ((h₁.slot i).shape hi').le
    (fun p hp => by
      rw [← hroots]
      exact h₁.room hi' hroom' hp) hu hr
  obtain ⟨-, p, h₂, -⟩ | ⟨h0, -⟩ := h₁.uvmcopy hij hi' hm.live hm.sz hroom' hu
  swap
  · omega
  set S₂ : Sys := { S' with phys := s } with hS₂
  -- the two accounts of the counters agree
  have hp : p = PTE2PA (S'.map i v) := by
    have hA₂ := h₂.heap.owns.alloc
    rw [show S₂.roots = S'.roots from rfl, hroots] at hA₂
    have heq := RefCount.Counted.refs_unique hA₂ hA
    rw [Multiset.add_cons, Multiset.add_cons, Multiset.add_cons, Multiset.add_cons] at heq
    exact (Multiset.cons_inj_left _).mp heq
  obtain ⟨-, -, hbytes⟩ := h₁.parent (T := S₂) (n := v + 1) hi' rfl hkl hold
  -- `freeproc`
  obtain ⟨h₃, -, hkept⟩ := h₂.freeproc hm.live hf
  obtain ⟨hproc, hheld', -, hk₃⟩ := h₂.heap.freeproc (fun _ => ((h₂.slot j).shape hm.live).le) hf
  have hB : S₂.rootsBut j = S.roots := hm.rootsBut_eq h
  have hB₂ : S.roots = (S'.proc i).pagetable ::ₘ S'.rootsBut₂ i j := by
    rw [← hm.rootsBut_eq h, Sys.rootsBut_split₂ hij, pageRef_of_ne ((h₁.slot i).table hi'),
      Multiset.singleton_add]
  rw [hB] at hk₃
  rw [← hB₂] at htabs hurefs
  have hmap := hm.map_eq h hi hij
  have hrefs : T.refs = S.refs := hm.refs_freed h hproc (hheld'.trans hheld)
    (hk₃.left.left.tabs_eq.trans htabs) (hk₃.left.left.urefs_eq.trans hurefs)
  have hbyte₁ := (hm.kept i hij).byte hi
  have hbyte₃ := (hkept i hij).byte (show S₂.Live i from hi')
  refine ⟨v, ?_, ?_, hrefs, ?_, (hbyte₁.trans hbytes ?_).trans hbyte₃ ?_,
    fun k => (hm.freed h hproc k).2.2⟩
  · rwa [hm.other i hij] at hv
  · rw [← hmap]
    exact hV
  · rw [← hmap, ← hp]
    exact h₃
  · rw [hmap]
    exact fun _ _ hV => hV
  · intro w hw hV
    rw [show S₂.map i w = _ from hold w (lt_trans hw (by decide)), mapPages]
    split_ifs
    · rw [cowed_V, show leaf S'.phys.mem (S'.proc i).pagetable = _ from hmap]
      exact hV
    · rw [show leaf S'.phys.mem (S'.proc i).pagetable = _ from hmap]
      exact hV

/-- What a failed call of `fork` is to leave behind: nothing. -/
structure ForkUndone (i : Fin NPROC) (S T : Sys) : Prop where
  counts : ∀ p, okPage p → T.phys.pte_count (p / PGSIZE) = S.phys.pte_count (p / PGSIZE)
  free : ∀ p, p ∈ T.phys.freelist ↔ p ∈ S.phys.freelist
  slot : ∀ j, ¬ S.Live j → ¬ T.Live j
  memory : SameBytes S T i

/-- The same but for one count, that of page `p`. -/
structure ForkLeaked (i : Fin NPROC) (p : ℕ) (S T : Sys) : Prop where
  used : okPage p ∧ p ∉ S.phys.freelist
  leaked : T.phys.pte_count (p / PGSIZE) = S.phys.pte_count (p / PGSIZE) + 1
  counts : ∀ q, okPage q → q ≠ p → T.phys.pte_count (q / PGSIZE) = S.phys.pte_count (q / PGSIZE)
  free : ∀ p, p ∈ T.phys.freelist ↔ p ∈ S.phys.freelist
  slot : ∀ j, ¬ S.Live j → ¬ T.Live j
  memory : SameBytes S T i

theorem ForkLeaked.not_undone {p : ℕ} (h : ForkLeaked i p S T) : ¬ ForkUndone i S T := by
  intro hu
  have h1 := h.leaked
  rw [hu.counts p h.used.1] at h1
  omega

/-- The counters and the free list of two states whose references differ in one count. -/
theorem Alloc.leaked {A : Multiset ℕ} {p : ℕ} (h : Alloc s A) (h' : Alloc s' (p ::ₘ A)) (hp : p ∈ A) :
    s'.pte_count (p / 4096) = s.pte_count (p / 4096) + 1 ∧
      (∀ q, okPage q → q ≠ p → s'.pte_count (q / 4096) = s.pte_count (q / 4096)) ∧
      ∀ q, q ∈ s'.freelist ↔ q ∈ s.freelist := by
  refine ⟨?_, fun q hq hne => ?_, fun q => ?_⟩
  · rw [h'.count_eq (Multiset.mem_cons_self p A), h.count_eq hp, Multiset.count_cons_self]
    push_cast
    rfl
  · rw [h'.count_ok hq, h.count_ok hq, Multiset.count_cons_of_ne hne]
  · rw [h'.free_iff q, h.free_iff q, Multiset.mem_cons]
    constructor
    · rintro ⟨h1, h2⟩
      exact ⟨h1, fun hq => h2 (Or.inr hq)⟩
    · rintro ⟨h1, h2⟩
      refine ⟨h1, ?_⟩
      rintro (rfl | hq)
      · exact h2 hp
      · exact h2 hq

/-- A `fork` that fails in `uvmcopy` has left one count behind, of a page of the parent. -/
theorem MemOk.fork_leaked (h : MemOk L S) (hi : S.Live i) (hroom : S.CopyRoom i)
    (hfails : S.CopyFails i) (hf : Xv6.fork i S = .ok (r, T)) :
    ∃ v < pages (S.proc i).sz, (S.map i v).has PTE_V = true ∧
      ForkLeaked i (PTE2PA (S.map i v)) S T := by
  obtain ⟨j, S', r', s, ha, hu, hr⟩ := hfails
  -- only one way of `fork` begins like this
  have hfree : Xv6.freeproc j { S' with phys := s } = .ok T := by
    cases fork_ok hf with
    | noProc ha' =>
      rw [ha] at ha'
      cases ha'
    | failed j' S'' r'' s' ha' hu' hr' hf' =>
      rw [ha] at ha'
      cases ha'
      rw [hu] at hu'
      cases hu'
      exact hf'
    | done j' S'' r'' s' ha' hu' hr' hT =>
      rw [ha] at ha'
      cases ha'
      rw [hu] at hu'
      cases hu'
      exact absurd hr hr'
  obtain ⟨v, hv, hV, hrefs, hT, hbytes, hslot⟩ := h.fork_failed hi hroom ha hu hr hfree
  have hvU : v < UPAGES := lt_of_lt_of_le hv (pages_le ((h.slot i).shape hi).le)
  have hp : PTE2PA (S.map i v) ∈ S.refs + L :=
    Multiset.mem_add.mpr (Or.inl (Multiset.mem_add.mpr (Or.inr (h.mem_urefs hi hvU hV))))
  have hA' : Alloc T.phys (PTE2PA (S.map i v) ::ₘ (S.refs + L)) := by
    have := hT.alloc
    rwa [hrefs, Multiset.add_cons] at this
  obtain ⟨h1, h2, h3⟩ := h.alloc.leaked hA' hp
  exact ⟨v, hv, hV, ⟨h.alloc.ok hp, fun hf => ((h.alloc.free_iff _).mp hf).2 hp⟩, h1, h2, h3, hslot,
    hbytes⟩

/-- **A `fork` that fails in `uvmcopy` always leaks**: the page whose mapping failed has one count
too many.  All else is as before. -/
theorem fork_leaks_count (h : MemOk L S) (hi : S.Live i) (hroom : S.CopyRoom i)
    (hfails : S.CopyFails i) (hf : fork i S = .ok (r, T)) :
    ¬ ForkUndone i S T ∧ ∃ v < pages (S.proc i).sz, (S.map i v).has PTE_V = true ∧
      ForkLeaked i (PTE2PA (S.map i v)) S T := by
  obtain ⟨v, hv, hV, hleak⟩ := h.fork_leaked hi hroom hfails hf
  exact ⟨hleak.not_undone, v, hv, hV, hleak⟩

end

/-! ## A machine with eleven pages -/

/-- Seven pages for a process of one page, four for the page table and the trapframe of a child. -/
@[reducible] def tinyImage : Image :=
  { kend := PHYSTOP - 11 * PGSIZE, trampoline := KERNBASE, base_le := by decide, kend_le := by decide,
    trampoline_lt := by decide }

/-- Its memory after `kinit`. -/
def tinyPhys : Phys :=
  match @kinit tinyImage fun _ => 0 with
  | .ok s => s
  | .error _ => { mem := fun _ => 0, freelist := [], pte_count := fun _ => 0 }

theorem tinyPhys_alloc : @Alloc tinyImage tinyPhys 0 := by
  obtain ⟨s, hs, hA⟩ := @kinit_spec tinyImage fun _ => 0
  have he : tinyPhys = s := by
    unfold tinyPhys
    rw [hs]
  rwa [he]

/-- The process that `allocproc` has made gets a page, and then `fork` fails in `uvmcopy`. -/
def failsToFork [Image] : Except Panic (Option (Fin NPROC) × Sys) → Bool
  | .ok (some i, S₁) => match growproc i 4096 S₁ with
    | .ok (_, S₂) => match allocproc S₂, fork i S₂ with
      | .ok (some j, S'), .ok (r, _) =>
        match uvmcopy (S'.proc i).pagetable (S'.proc j).pagetable (S'.proc i).sz S'.phys with
        | .ok (r', _) => decide (r = -1 ∧ r' < 0)
        | _ => false
      | _, _ => false
    | _ => false
  | _ => false

theorem failsToFork_spec [Image] {x : Except Panic (Option (Fin NPROC) × Sys)}
    (hx : failsToFork x = true) : ∃ i S₁ r S₂ T, x = .ok (some i, S₁) ∧
      growproc i 4096 S₁ = .ok (r, S₂) ∧ S₂.CopyFails i ∧ fork i S₂ = .ok (-1, T) := by
  unfold failsToFork at hx
  split at hx
  · rename_i i S₁
    split at hx
    · rename_i r S₂ hg
      split at hx
      · rename_i j S' r' T ha hf
        split at hx
        · rename_i r'' s hu
          obtain ⟨rfl, hr⟩ := of_decide_eq_true hx
          exact ⟨i, S₁, r, S₂, T, rfl, hg, ⟨j, S', r'', s, ha, hu, hr⟩, hf⟩
        · cases hx
      · cases hx
    · cases hx
  · cases hx

theorem tiny_failsToFork :
    @failsToFork tinyImage (@allocproc tinyImage (Sys.boot tinyPhys)) = true := by
  decide +kernel

theorem Growproc.live {n : ℤ} {S T : Sys} {i : Fin NPROC} [Image] (h : Growproc i n S T)
    (hi : S.Live i) : T.Live i := by
  cases h with
  | none hn hT => rwa [hT]
  | failed s hn hu hT => rwa [hT]
  | grown sz s hn hu h0 hT =>
    unfold Sys.Live
    rwa [hT, Sys.set_self]
  | shrunk sz s hn hu hT =>
    unfold Sys.Live
    rwa [hT, Sys.set_self]

/-- A process of one page on the small machine, and a `fork` of it that fails. -/
theorem tiny_fork : ∃ i S₁ r S T, @allocproc tinyImage (Sys.boot tinyPhys) = .ok (some i, S₁) ∧
    @growproc tinyImage i 4096 S₁ = .ok (r, S) ∧ @MemOk tinyImage 0 S ∧ S.Live i ∧
    @Sys.CopyFails tinyImage S i ∧ @fork tinyImage i S = .ok (-1, T) := by
  obtain ⟨i, S₁, r, S, T, ha, hg, hfails, hf⟩ := @failsToFork_spec tinyImage _ tiny_failsToFork
  let _ := tinyImage
  obtain ⟨h₁, -, hm⟩ := (MemOk.boot tinyPhys_alloc).allocproc (allocproc_ok ha)
  have hl := (hm i rfl).live
  exact ⟨i, S₁, r, S, T, ha, hg, (h₁.growproc hl (growproc_ok hg)).1, (growproc_ok hg).live hl, hfails,
    hf⟩

/-- Where no count has been taken for nothing there is room in the counters. -/
theorem fork_leaks_tiny : ∃ i S T, @MemOk tinyImage 0 S ∧ @fork tinyImage i S = .ok (-1, T) ∧
    (¬ @ForkUndone tinyImage i S T ∧ ∃ v < pages (S.proc i).sz, (S.map i v).has PTE_V = true ∧
      @ForkLeaked tinyImage i (PTE2PA (S.map i v)) S T) := by
  let _ := tinyImage
  obtain ⟨i, -, -, S, T, -, -, h, hl, hfails, hf⟩ := tiny_fork
  exact ⟨i, S, T, h, hf, fork_leaks_count h hl (h.copyRoom hl) hfails hf⟩

/-- The page of the process is counted once more than before. -/
theorem fork_leaks_page : ∃ i S₁ r S T,
    @allocproc tinyImage (Sys.boot tinyPhys) = .ok (some i, S₁) ∧
    @growproc tinyImage i 4096 S₁ = .ok (r, S) ∧ @Sys.CopyFails tinyImage S i ∧
    @fork tinyImage i S = .ok (-1, T) ∧ (∃ p, @okPage tinyImage p ∧
      T.phys.pte_count (p / PGSIZE) = S.phys.pte_count (p / PGSIZE) + 1) ∧
    ¬ @ForkUndone tinyImage i S T := by
  let _ := tinyImage
  obtain ⟨i, S₁, r, S, T, ha, hg, h, hl, hfails, hf⟩ := tiny_fork
  obtain ⟨v, -, -, hleak⟩ := h.fork_leaked hl (h.copyRoom hl) hfails hf
  exact ⟨i, S₁, r, S, T, ha, hg, hfails, hf, ⟨_, hleak.used.1, hleak.leaked⟩, hleak.not_undone⟩

end Xv6
