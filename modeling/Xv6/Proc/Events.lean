import Xv6.Proc.Calls

/-!
# Events — the memory of all processes over a run

Every event keeps `MemOk`.  `Roomy`: a `fork` finds room in the counters; `Fits`: it does not fail in
`uvmcopy`.  `Event.upds` is what an event that succeeds means for memory that is not shared.
-/

namespace Xv6

section

variable {S T : Sys} {i j : Fin NPROC} {p : Proc}

/-- An assignment to other fields of a slot. -/
theorem SameSlot.set (h : SameSlot (S.proc i) p) (j : Fin NPROC) : SameSlot (S.proc j) ((S.set i p).proc j) := by
  by_cases hj : j = i
  · subst hj
    rwa [Sys.set_self]
  · rw [Sys.set_ne hj]
    exact SameSlot.refl _

/-- An assignment to the state and to other fields of a process. -/
theorem SameSlot.assign (hi : S.Live i) (hp : p.state ≠ .UNUSED)
    (h : p.pagetable = (S.proc i).pagetable ∧ p.trapframe = (S.proc i).trapframe ∧ p.sz = (S.proc i).sz)
    (j : Fin NPROC) : SameSlot (S.proc j) ((S.set i p).proc j) :=
  SameSlot.set ⟨iff_of_false hp hi, h.1, h.2.1, h.2.2⟩ j

theorem SameSlot.wakeup (me : Option (Fin NPROC)) (chan : Option Chan) (S : Sys) (j : Fin NPROC) :
    SameSlot (S.proc j) ((wakeup me chan S).proc j) := by
  unfold Xv6.wakeup
  dsimp only
  split_ifs with h
  · exact ⟨by rw [h.2.1]; exact iff_of_false nofun nofun, rfl, rfl, rfl⟩
  · exact SameSlot.refl _

theorem SameSlot.clockintr (me : Option (Fin NPROC)) (S : Sys) (j : Fin NPROC) :
    SameSlot (S.proc j) ((clockintr me S).proc j) := by
  refine SameSlot.trans ?_ (SameSlot.wakeup _ _ _ j)
  have hs : ((S.proc j).toTimes.update).state = (S.proc j).state := by
    unfold Times.update
    split <;> rfl
  dsimp only
  split_ifs
  · exact ⟨by rw [hs], rfl, rfl, rfl⟩
  · exact ⟨by rw [← hs]; rfl, rfl, rfl, rfl⟩

theorem SameSlot.reparent (i : Fin NPROC) (S : Sys) (j : Fin NPROC) :
    SameSlot (S.proc j) ((reparent i S).proc j) := by
  set T : Sys := { S with proc := fun j =>
    if (S.proc j).parent = some i then { S.proc j with parent := S.initproc } else S.proc j } with hT
  have h : SameSlot (S.proc j) (T.proc j) := by
    rw [hT]
    dsimp only
    split_ifs
    · exact ⟨Iff.rfl, rfl, rfl, rfl⟩
    · exact SameSlot.refl _
  have he : Xv6.reparent i S = if (findProc fun j => (S.proc j).parent = some i).isSome then
      Xv6.wakeup (some i) (S.initproc.map .proc) T else T := rfl
  rw [he]
  split_ifs
  · exact h.trans (SameSlot.wakeup _ _ T j)
  · exact h

theorem SameSlot.exit {status : ℤ} (hi : S.Live i) (ht : exit i status S = .ok T) (j : Fin NPROC) :
    SameSlot (S.proc j) (T.proc j) := by
  unfold Xv6.exit at ht
  split_ifs at ht
  cases ht
  have h₁ : ∀ j, SameSlot (S.proc j) ((S.set i { S.proc i with ofile := fun _ => none, cwd := none }).proc j) :=
    SameSlot.set ⟨Iff.rfl, rfl, rfl, rfl⟩
  generalize S.set i { S.proc i with ofile := fun _ => none, cwd := none } = U at h₁
  have h₂ : ∀ j, SameSlot (S.proc j) ((Xv6.reparent i U).proc j) := fun j =>
    (h₁ j).trans (SameSlot.reparent i U j)
  generalize Xv6.reparent i U = V at h₂
  have h₃ : ∀ j, SameSlot (S.proc j) ((Xv6.wakeup (some i) ((V.proc i).parent.map .proc) V).proc j) :=
    fun j => (h₂ j).trans (SameSlot.wakeup _ _ V j)
  generalize Xv6.wakeup (some i) ((V.proc i).parent.map .proc) V = W at h₃
  refine (h₃ j).trans (SameSlot.assign (fun hu => hi ((h₃ i).live.mp hu)) (by simp) ?_ j)
  exact ⟨rfl, rfl, rfl⟩

theorem exit_frame {status : ℤ} (ht : exit i status S = .ok T) : T.phys = S.phys ∧ T.held = S.held := by
  have hr : ∀ U : Sys, (Xv6.reparent i U).phys = U.phys ∧ (Xv6.reparent i U).held = U.held := by
    intro U
    unfold Xv6.reparent
    dsimp only
    split_ifs
    · exact ⟨rfl, rfl⟩
    · exact ⟨rfl, rfl⟩
  unfold Xv6.exit at ht
  split_ifs at ht
  cases ht
  exact hr _

theorem SameSlot.kill (pid : ℤ) (S : Sys) (j : Fin NPROC) : SameSlot (S.proc j) ((kill pid S).2.proc j) := by
  unfold Xv6.kill
  split
  · rename_i k _
    have h : SameSlot (S.proc k) { S.proc k with
        killed := true, state := if (S.proc k).state = .SLEEPING then .RUNNABLE else (S.proc k).state } := by
      refine ⟨?_, rfl, rfl, rfl⟩
      dsimp only
      split_ifs with h
      · simp [h]
      · exact Iff.rfl
    exact h.set j
  · exact SameSlot.refl _

theorem SameSlot.yield (hi : S.Live i) (j : Fin NPROC) : SameSlot (S.proc j) ((yield i S).proc j) := by
  unfold Xv6.yield
  refine SameSlot.assign hi (by simp) ?_ j
  exact ⟨rfl, rfl, rfl⟩

theorem set_priority_same {pid priority r : ℤ} (hi : S.Live i) (h : sys_set_priority i pid priority S = (r, T)) :
    T.phys = S.phys ∧ T.held = S.held ∧ ∀ j, SameSlot (S.proc j) (T.proc j) := by
  unfold sys_set_priority at h
  split_ifs at h
  · cases h
    exact ⟨rfl, rfl, fun j => SameSlot.refl _⟩
  · cases hf : findProc fun j => (S.proc j).pid = pid with
    | some k =>
      rw [hf] at h
      dsimp only at h
      have hU : ∀ j, SameSlot (S.proc j) ((S.set k { S.proc k with sp := priority.toNat }).proc j) := by
        have hk : SameSlot (S.proc k) { S.proc k with sp := priority.toNat } := ⟨Iff.rfl, rfl, rfl, rfl⟩
        exact hk.set
      generalize int32 _ = x at h
      split_ifs at h
      · cases h
        exact ⟨rfl, rfl, fun j => (hU j).trans (SameSlot.yield (fun hu => hi ((hU i).live.mp hu)) j)⟩
      · cases h
        exact ⟨rfl, rfl, hU⟩
    | none =>
      rw [hf] at h
      dsimp only at h
      generalize int32 _ = x at h
      split_ifs at h
      · cases h
        exact ⟨rfl, rfl, SameSlot.yield (S := { S with past := _ }) hi⟩
      · cases h
        exact ⟨rfl, rfl, fun j => SameSlot.refl _⟩

end

variable [Image] {S T : Sys} {i j : Fin NPROC} {L L' K : Multiset ℕ}

/-! ## `userinit` -/

theorem freeproc_held (h : freeproc i S = .ok T) : T.held = S.held := by
  obtain ⟨s, s', -, -, rfl⟩ := freeproc_ok h
  rfl

theorem allocproc_held {o : Option (Fin NPROC)} (h : Allocproc S T o) : T.held = S.held := by
  cases h with
  | full hT => rw [hT]
  | noFrame i s hi hk hf => exact (freeproc_held hf).trans rfl
  | noTable i trapframe s s' hi hk hp hf => exact (freeproc_held hf).trans rfl
  | done i trapframe pagetable s s' hi hk hp h0 hT => rw [hT]; rfl

/-- The image of a process that has just been made: it has no pages. -/
theorem MemOk.emptyImage (h : MemOk L S) (hi : S.Live i) (hsz : (S.proc i).sz = 0) :
    Built S.phys S.phys (S.proc i).pagetable 0 (S.rootsBut i)
      (S.held + ((S.proc i).trapframe ::ₘ S.framesBut i)) L := by
  have hshape := (h.slot i).shape hi
  rw [hsz] at hshape
  exact ⟨h.open hi, Keeps.refl _ _, hshape, fun v hv => absurd hv (by simp [pages]), fun v hv hV =>
    absurd (hshape.user v hv hV) (by simp [pages])⟩

/-- `uvmfirst` does what `uvmalloc` does, if it maps its page. -/
theorem uvmfirst_uvmalloc {pagetable mem : ℕ} {r : ℤ} {s s₁ s₂ : Phys} (hk : Xv6.kalloc s = (some mem, s₁))
    (hm : mappages pagetable 0 PGSIZE mem (PTE_W ||| PTE_R ||| PTE_X ||| PTE_U) (s₁.memset mem PGSIZE 0) =
      .ok (r, s₂)) (hr : r = 0) : uvmalloc pagetable 0 PGSIZE (PTE_W ||| PTE_X) s = .ok (PGSIZE, s₂) := by
  have hperm : (PTE_W ||| PTE_R ||| PTE_X ||| PTE_U) = (PTE_R ||| PTE_U ||| (PTE_W ||| PTE_X)) := by decide
  rw [hperm] at hm
  unfold uvmalloc
  rw [if_neg (by decide)]
  dsimp only
  rw [show PGROUNDUP 0 = 0 from rfl, show (PGSIZE - 0 + PGSIZE - 1) / PGSIZE = 0 + 1 from rfl, allocLoop, hk]
  dsimp only
  rw [hm]
  dsimp only
  rw [if_neg (not_not.mpr hr)]
  rfl

omit [Image] in
/-- A larger size. -/
theorem Shape.mono {lf : ℕ → Pte} {sz newsz : ℕ} (h : Shape lf sz) (hle : sz ≤ newsz) (hle' : newsz ≤ TRAPFRAME) :
    Shape lf newsz :=
  ⟨hle', fun v hv hV => lt_of_lt_of_le (h.user v hv hV) (Nat.div_le_div_right (by omega)), h.frame,
    h.trampoline, h.top⟩

/-- **`uvmfirst`**: the first page of an image, or a page that nobody frees. -/
theorem Built.uvmfirst {s s₁ s₂ : Phys} {R : Multiset ℕ} {pagetable mem n : ℕ} {r : ℤ} (src : ℕ → UInt8)
    (h : Built s s pagetable 0 R K L) (hk : Xv6.kalloc s = (some mem, s₁))
    (hm : mappages pagetable 0 PGSIZE mem (PTE_W ||| PTE_R ||| PTE_X ||| PTE_U) (s₁.memset mem PGSIZE 0) =
      .ok (r, s₂)) (hn : n ≤ 4096) :
    (r = 0 ∧ Built s (s₂.memmove mem n src) pagetable PGSIZE R K L) ∨
      (r = -1 ∧ Heap (s₂.memmove mem n src) (pagetable ::ₘ R) (mem ::ₘ K) L ∧
        Keeps s.mem (s₂.memmove mem n src).mem (foot s.mem R K L) ∧
        ∀ v < VPAGES, leaf (s₂.memmove mem n src).mem pagetable v = leaf s.mem pagetable v) := by
  obtain ⟨hno, -⟩ | ⟨p, hp, hok, -, h₁, hk₁⟩ := h.heap.kalloc hk
  · cases hno
  cases hp
  obtain ⟨h₂, hk₂⟩ : Heap (s₁.memset mem PGSIZE 0) (pagetable ::ₘ R) (mem ::ₘ K) L ∧
      Keeps s₁.mem (s₁.memset mem PGSIZE 0).mem (foot s₁.mem (pagetable ::ₘ R) K L) :=
    h₁.memmove_page (le_refl 4096)
  have hk₂ := hk₁.foot_trans hk₂
  have hleaf₂ : leaf (s₁.memset mem PGSIZE 0).mem pagetable = leaf s.mem pagetable := Heap.tabs_mem hk₂
  obtain ⟨-, T', lf', hT', hO', hk₃, hcases⟩ := mappages_spec h₂.space.tree h₂.space.owns (by decide) (by decide) hm
  rcases hcases with ⟨hr, rfl, -⟩ | ⟨hr, -, hlf⟩
  · -- the table has no room for the page
    have hk₃' : Keeps (s₁.memset mem PGSIZE 0).mem s₂.mem (foot (s₁.memset mem PGSIZE 0).mem R (mem ::ₘ K) L) :=
      hk₃.foot
    have h₃ : Heap s₂ (pagetable ::ₘ R) (mem ::ₘ K) L :=
      h₂.put_own hk₃'.left.left ⟨hT', hO', h₂.space.user⟩ fun _ _ hn => hn
    obtain ⟨h₄, hk₄⟩ : Heap (s₂.memmove mem n src) (pagetable ::ₘ R) (mem ::ₘ K) L ∧
        Keeps s₂.mem (s₂.memmove mem n src).mem (foot s₂.mem (pagetable ::ₘ R) K L) := h₃.memmove_page hn
    refine Or.inr ⟨hr, h₄, (hk₂.foot_tail.foot_trans (hk₃'.foot_mono (Multiset.le_cons_self _ _))).foot_trans
      hk₄.foot_tail, fun v hv => ?_⟩
    rw [Heap.tabs_mem hk₄, hT'.leaf v hv, hleaf₂]
  · -- the page is mapped, and the program is written to it
    refine Or.inl ⟨hr, ?_⟩
    obtain ⟨h0, -⟩ | ⟨-, hB⟩ := h.uvmalloc (by decide) (uvmfirst_uvmalloc hk hm hr)
    · exact absurd h0 (by decide)
    have he : leaf s₂.mem pagetable 0 = PA2PTE mem ||| (PTE_W ||| PTE_R ||| PTE_X ||| PTE_U) ||| PTE_V := by
      rw [hT'.leaf 0 (by decide), hlf]
      exact Function.update_self _ _ _
    have hV : (leaf s₂.mem pagetable 0).has PTE_V = true := hB.full 0 (by decide)
    have hU : (leaf s₂.mem pagetable 0).has PTE_U = true := by
      rw [he, has_or_of_disjoint (by decide), has_PA2PTE (by decide)]
      decide
    have hpa : PTE2PA (leaf s₂.mem pagetable 0) = mem := by
      rw [he, BitVec.or_assoc]
      exact PTE2PA_map (by decide) hok.1 hok.lt
    have hw : walkaddr pagetable 0 s₂ = PTE2PA (leaf s₂.mem pagetable (0 / 4096)) := by
      refine walkaddr_eq hB.heap.space.tree (by decide) ?_ ?_
      · rw [Nat.zero_div, hV]
      · rw [Nat.zero_div, hU]
    rw [Nat.zero_div, hpa] at hw
    have hwrite : Built s (s₂.memmove (walkaddr pagetable 0 s₂) n src) pagetable PGSIZE R K L :=
      hB.write (by rw [hw]; exact hok.pos.ne') hn
    rwa [hw] at hwrite

/-- The registers of the first process are set, and its slot is filled. -/
theorem MemOk.firstProc {s : Phys} {p : Proc} {H : Multiset ℕ} (h : MemOk L S) (hi : S.Live i)
    (hheap : Heap s ((S.proc i).pagetable ::ₘ S.rootsBut i) (H + ((S.proc i).trapframe ::ₘ S.framesBut i)) L)
    (hk : Keeps S.phys.mem s.mem (foot S.phys.mem (S.rootsBut i) 0 L))
    (hsh : Shape (leaf s.mem (S.proc i).pagetable) p.sz) (hI : Inj (leaf s.mem (S.proc i).pagetable))
    (hp : p.pagetable = (S.proc i).pagetable ∧ p.trapframe = (S.proc i).trapframe ∧ p.state ≠ .UNUSED)
    (hT : T.proc = Function.update S.proc i p) (hH : T.held = H)
    (hphys : T.phys = (s.setWord ((S.proc i).trapframe + TF_EPC) 0).setWord
      ((S.proc i).trapframe + TF_SP) PGSIZE) :
    MemOk L T ∧ T.Live i ∧ T.map i = leaf s.mem (S.proc i).pagetable ∧ ∀ j ≠ i, Kept S T j := by
  have htf : (S.proc i).trapframe ∈ H + ((S.proc i).trapframe ::ₘ S.framesBut i) :=
    Multiset.mem_add.mpr (Or.inr (Multiset.mem_cons_self _ _))
  obtain ⟨h₁, hk₁⟩ := @Heap.setWord _ _ _ _ _ _ TF_EPC 0 hheap htf (by decide)
  obtain ⟨h₂, hk₂⟩ := @Heap.setWord _ _ _ _ _ _ TF_SP PGSIZE h₁ htf (by decide)
  rw [← hphys] at h₂ hk₂
  have hk₂ := hk₁.foot_trans hk₂
  have hleaf : leaf T.phys.mem (S.proc i).pagetable = leaf s.mem (S.proc i).pagetable := Heap.tabs_mem hk₂
  have hself : T.proc i = p := by rw [hT, Function.update_self]
  have hslot : SlotMem T.phys.mem p := by
    refine ⟨fun hu => absurd hu hp.2.2, fun _ => ?_, fun _ => ?_, fun _ => ?_, fun _ => ?_⟩
    · rw [hp.1]
      exact (h.slot i).table hi
    · rw [hp.2.1]
      exact (h.slot i).frame hi
    · rwa [hp.1, hleaf]
    · rwa [hp.1, hleaf]
  obtain ⟨h₃, h₄⟩ : MemOk L T ∧ ∀ j ≠ i, Kept S T j := by
    refine h.put hT ?_ (hk.foot_trans hk₂.foot_tail) hslot
    rw [hp.1, hp.2.1, hH, pageRef_of_ne ((h.slot i).table hi), pageRef_of_ne ((h.slot i).frame hi),
      Multiset.singleton_add, Multiset.singleton_add]
    exact h₂
  refine ⟨h₃, ?_, ?_, h₄⟩
  · unfold Sys.Live
    rw [hself]
    exact hp.2.2
  · unfold Sys.map
    rw [hself, hp.1, hleaf]

/-- **`userinit`**: the first process has its page, unless `uvmfirst` loses it. -/
theorem MemOk.userinit (h : MemOk L S) (hu : Xv6.userinit S = .ok T) : MemOk L T ∧
    ((∃ i, T.initproc = some i ∧ Effect S T [.load i (T.byte i)]) ∨ T.held ≠ S.held) := by
  obtain ⟨S', i, mem, s, r, s', ha, hk, hm, hT⟩ := userinit_ok hu
  obtain ⟨h₁, -, hmade⟩ := h.allocproc (allocproc_ok ha)
  have hi := hmade i rfl
  have hB := h₁.emptyImage hi.live hi.sz
  have hS : S'.held = S.held := allocproc_held (allocproc_ok ha)
  let q : Proc := { S'.proc i with
    sz := PGSIZE, name := initname, cwd := some ROOTINODE, state := .RUNNABLE }
  have hq : q.pagetable = (S'.proc i).pagetable ∧ q.trapframe = (S'.proc i).trapframe ∧ q.state ≠ .UNUSED :=
    ⟨rfl, rfl, fun hu => by cases hu⟩
  have hproc : T.proc = Function.update S'.proc i q := by rw [hT]; rfl
  have hphys : T.phys = ((s'.memmove mem initcode.length fun k => initcode.getD k 0).setWord
      ((S'.proc i).trapframe + TF_EPC) 0).setWord ((S'.proc i).trapframe + TF_SP) PGSIZE := by rw [hT]; rfl
  rcases hB.uvmfirst (fun k => initcode.getD k 0) hk hm (show initcode.length ≤ 4096 by decide) with
    ⟨rfl, hB'⟩ | ⟨rfl, hheap, hkeep, hleaf⟩
  · have hheld : T.held = S'.held := by rw [hT]; rfl
    obtain ⟨h₂, hl, hmap, hother⟩ := h₁.firstProc hi.live hB'.heap (hB'.keeps.foot_mono (Multiset.zero_le _))
      hB'.shape (hB'.plain.inj hB'.heap.space.user) hq hproc hheld hphys
    refine ⟨h₂, Or.inl ⟨i, by rw [hT]; rfl, Effect.trans (.made hi) (.loaded ⟨hl, ?_, ?_, hother⟩)⟩⟩
    · rw [hmap, hproc, Function.update_self]
      exact hB'.full
    · rw [hmap]
      exact hB'.plain
  · have hheld : T.held = mem ::ₘ S'.held := by
      rw [hT]
      rfl
    have hshape : Shape (leaf (s'.memmove mem initcode.length fun k => initcode.getD k 0).mem
        (S'.proc i).pagetable) PGSIZE := by
      refine Shape.mono (hB.shape.congr fun v hv => ?_) (Nat.zero_le _) (by decide)
      rw [hleaf v hv]
    have hinj : Inj (leaf (s'.memmove mem initcode.length fun k => initcode.getD k 0).mem
        (S'.proc i).pagetable) := by
      refine ((h₁.slot i).inj hi.live).congr fun v hv hV => ?_
      rw [hleaf v (lt_trans hv (by decide))] at hV ⊢
      exact ⟨hV, rfl⟩
    have hheap' : Heap (s'.memmove mem initcode.length fun k => initcode.getD k 0)
        ((S'.proc i).pagetable ::ₘ S'.rootsBut i)
        (mem ::ₘ S'.held + ((S'.proc i).trapframe ::ₘ S'.framesBut i)) L := by
      rw [Multiset.cons_add]
      exact hheap
    obtain ⟨h₂, -⟩ := h₁.firstProc hi.live hheap' (hkeep.foot_mono (Multiset.zero_le _)) hshape hinj
      hq hproc hheld hphys
    refine ⟨h₂, Or.inr fun he => ?_⟩
    rw [hheld, hS] at he
    have hcard := congrArg Multiset.card he
    rw [Multiset.card_cons] at hcard
    omega

/-! ## What events mean -/

/-- A `fork` finds room in the counters. -/
def Roomy (S : Sys) : Event → Prop
  | .call i .fork => S.CopyRoom i
  | _ => True

/-- No `fork` fails in `uvmcopy`. -/
def Fits (S : Sys) : Event → Prop
  | .call i .fork => ¬ S.CopyFails i
  | _ => True

/-- The event does what it is for: no page is missing, and no address is bad. -/
def Sys.Succeeds (S : Sys) : Event → Prop
  | .userinit => ∀ T, Xv6.userinit S = .ok T → T.held = S.held
  | .call i .fork => ∀ T, Xv6.fork i S ≠ .ok (-1, T)
  | .call i (.wait addr) => ∀ T, Xv6.wait i addr S ≠ .ok (some (-1, T))
  | .call i (.waitx addr addr1 addr2 wtime rtime) =>
    ∀ T, sys_waitx i addr addr1 addr2 wtime rtime S ≠ .ok (some (-1, T))
  | .call i (.sbrk n) => ∀ T, Xv6.growproc i (int32 n) S ≠ .ok (-1, T)
  | .call i (.copyout dstva bytes) => ∀ s, Xv6.copyout (S.proc i).pagetable dstva
      (fun k => bytes.getD k 0) bytes.length S.phys ≠ .ok (-1, s)
  | .call i (.store va b) => ∀ s, Xv6.userStore (S.proc i).pagetable va b S.phys ≠ .ok (false, s)
  | _ => True

/-- The updates of an event that succeeds; the image of a new program is what `exec` has built. -/
def Event.upds (S T : Sys) : Event → List Upd
  | .userinit => T.initproc.elim [] fun i => [.load i (T.byte i)]
  | .call i .fork => (findProc fun j => (S.proc j).state = .UNUSED).elim [] fun j => [.copy i j]
  | .call i (.wait addr) => S.waitUpds i addr
  | .call i (.waitx addr addr1 addr2 wtime rtime) =>
    match sys_waitx i addr addr1 addr2 wtime rtime S with
    | .ok none => []
    | _ => S.waitxUpds i addr addr1 addr2 wtime rtime
  | .call i (.sbrk n) => if 0 < int32 n then [.zero i (pages (S.proc i).sz)] else []
  | .call i (.exec upath uargv namei) =>
    match sys_exec i upath uargv namei S with
    | .ok (r, _) => if r = -1 then [] else [.load i (T.byte i)]
    | .error _ => []
  | .call i (.copyout dstva bytes) => [.write i dstva bytes.length fun k => bytes.getD k 0]
  | .call i (.store va b) => [.write i va 1 fun _ => b]
  | _ => []

/-- The first process gets its page. -/
def Boots (S : Sys) : Event → Prop
  | .userinit => ∀ T, Xv6.userinit S = .ok T → T.held = S.held
  | _ => True

/-- What is kept, and what has happened: all that the event is for, or a part of it. -/
def Handled (L : Multiset ℕ) (S T : Sys) (e : Event) : Prop :=
  (∃ L', MemOk L' T ∧ (Fits S e → L' = L)) ∧ (Boots S e →
    ∃ us, Effect S T us ∧ Partly us (e.upds S T) ∧ (S.Succeeds e → us = e.upds S T))

theorem Handled.all {e : Event} {us : List Upd} (h : MemOk L T) (hk : Effect S T us)
    (he : e.upds S T = us) : Handled L S T e :=
  ⟨⟨L, h, fun _ => rfl⟩, fun _ => ⟨us, hk, by rw [he]; exact .refl us, fun _ => he.symm⟩⟩

theorem Handled.fails {e : Event} (h : MemOk L T) (hk : Effect S T []) (hf : ¬ S.Succeeds e) :
    Handled L S T e :=
  ⟨⟨L, h, fun _ => rfl⟩, fun _ => ⟨[], hk, .none _, fun hs => absurd hs hf⟩⟩

theorem Handled.kept {e : Event} (h : MemOk L T) (hk : ∀ j, Kept S T j) (he : e.upds S T = []) :
    Handled L S T e :=
  Handled.all h (.kept hk) he

theorem Handled.quiet {e : Event} (h : MemOk L S) (hs : T.phys = S.phys) (hh : T.held = S.held)
    (hp : ∀ j, SameSlot (S.proc j) (T.proc j)) (he : e.upds S T = []) : Handled L S T e :=
  Handled.kept (h.quiet hs hh hp).1 (h.quiet hs hh hp).2 he

theorem allocproc_find {j : Fin NPROC} (h : allocproc S = .ok (some j, T)) :
    findProc (fun j => (S.proc j).state = .UNUSED) = some j := by
  unfold allocproc at h
  split at h
  · cases h
  · rename_i k hk
    dsimp only at h
    rw [hk]
    split at h
    · obtain ⟨T', -, h⟩ := bind_ok h
      cases h
    · obtain ⟨⟨pagetable, s'⟩, -, h⟩ := bind_ok h
      simp only at h
      split_ifs at h
      · obtain ⟨T', -, h⟩ := bind_ok h
        cases h
      · cases h
        rfl

theorem copyout_result {pagetable dstva len : ℕ} {bytes : ℕ → UInt8} {s s' : Phys} {r : ℤ}
    (h : copyout pagetable dstva bytes len s = .ok (r, s')) : r = 0 ∨ r = -1 := by
  unfold copyout at h
  split at h
  · cases h
  · cases h
    split_ifs
    · exact Or.inl rfl
    · exact Or.inr rfl

/-- What a `fork` returns that makes no child. -/
theorem fork_fails {r : ℤ} (h : fork i S = .ok (r, T))
    (hf : S.CopyFails i ∨ allocproc S = .ok (none, T)) : r = -1 := by
  unfold fork at h
  rcases hf with ⟨j, S', r', s, ha, hu, hr⟩ | ha
  · rw [ha] at h
    obtain ⟨⟨r₁, s₁⟩, hu₁, h⟩ := bind_ok (x := uvmcopy (S'.proc i).pagetable (S'.proc j).pagetable
      (S'.proc i).sz S'.phys) h
    rw [hu] at hu₁
    cases hu₁
    dsimp only at h
    rw [if_pos hr] at h
    obtain ⟨T', -, h⟩ := bind_ok h
    cases h
    rfl
  · rw [ha] at h
    cases h
    rfl

/-! ## Every event keeps the memory in order -/

theorem MemOk.call {c : Call} (h : MemOk L S) (hi : (S.proc i).state = .RUNNING)
    (hr : Roomy S (.call i c)) (ht : S.call i c = .ok T) : Handled L S T (.call i c) := by
  have hl : S.Live i := by
    unfold Sys.Live
    rw [hi]
    exact fun hu => by cases hu
  cases c with
  | fork =>
    obtain ⟨⟨r, T'⟩, ht, rfl⟩ := map_ok ht
    obtain ⟨hM, hcase⟩ := h.fork hl hr (fork_ok ht)
    refine ⟨hM, fun _ => ?_⟩
    rcases hcase with ⟨he, hf⟩ | ⟨j, S', ha, he⟩
    · have hr' := fork_fails ht hf
      subst hr'
      exact ⟨[], he, .none _, fun hs => absurd ht (hs T)⟩
    · have hu : (Event.call i .fork).upds S T = [.copy i j] := by
        simp only [Event.upds, allocproc_find ha, Option.elim_some]
      exact ⟨_, he, by rw [hu]; exact .refl _, fun _ => hu.symm⟩
  | exit status => exact Handled.quiet h (exit_frame ht).1 (exit_frame ht).2 (SameSlot.exit hl ht) rfl
  | wait addr =>
    obtain ⟨x, hx, rfl⟩ := map_ok ht
    have hx' := waitRound_ok hx
    cases x with
    | none =>
      have hz : zombieChild i S = none := by
        cases hx' with
        | sleep hz => exact hz
      refine Handled.quiet h rfl rfl (SameSlot.assign hl (by simp) ⟨rfl, rfl, rfl⟩) ?_
      simp [Event.upds, Sys.waitUpds, hz]
    | some x =>
      obtain ⟨r, T'⟩ := x
      obtain ⟨h1, -, us, h2, hp, hus⟩ := h.waitRound hi hx'
      refine ⟨⟨L, h1, fun _ => rfl⟩, fun _ => ⟨us, h2, hp, fun hs => hus ?_⟩⟩
      rintro rfl
      exact hs T' hx
  | waitx addr addr1 addr2 wtime rtime =>
    obtain ⟨x, hx, rfl⟩ := map_ok ht
    cases x with
    | none =>
      refine Handled.quiet h rfl rfl (SameSlot.assign hl (by simp) ⟨rfl, rfl, rfl⟩) ?_
      simp only [Event.upds, hx]
    | some x =>
      obtain ⟨r, T'⟩ := x
      obtain ⟨h1, us, h2, hp, hus⟩ := h.waitx hi hx
      have hu : (Event.call i (.waitx addr addr1 addr2 wtime rtime)).upds S T' =
          S.waitxUpds i addr addr1 addr2 wtime rtime := by
        simp only [Event.upds, hx]
      refine ⟨⟨L, h1, fun _ => rfl⟩, fun _ => ⟨us, h2, hu ▸ hp, fun hs => hu ▸ hus ?_⟩⟩
      rintro rfl
      exact hs T' hx
  | kill pid =>
    cases ht
    refine Handled.quiet h ?_ ?_ (SameSlot.kill _ S) rfl
    all_goals
      unfold Xv6.kill
      split <;> rfl
  | set_priority pid priority =>
    cases ht
    obtain ⟨h1, h2, h3⟩ := set_priority_same (r := (sys_set_priority i (int32 pid) (int32 priority) S).1) hl rfl
    exact Handled.quiet h h1 h2 h3 rfl
  | sbrk n =>
    obtain ⟨⟨r, T'⟩, hg, rfl⟩ := map_ok ht
    obtain ⟨h1, h2⟩ := h.growproc hl (growproc_ok hg)
    rcases h2 with ⟨hn, h2⟩ | ⟨hn, h2⟩ | ⟨-, h2, T'', hT''⟩
    · exact Handled.all h1 h2 (by simp only [Event.upds, if_neg (not_lt.mpr hn)])
    · exact Handled.all h1 h2 (by simp only [Event.upds, if_pos hn])
    · exact Handled.fails h1 h2 fun hs => hs T'' hT''
  | exec upath uargv namei =>
    obtain ⟨⟨r, T'⟩, he, rfl⟩ := map_ok ht
    obtain ⟨h1, -, h2⟩ := h.sys_exec hl he
    rcases h2 with ⟨hr, h2⟩ | ⟨hr, h2⟩
    · exact Handled.all h1 h2 (by simp only [Event.upds, he, if_pos hr])
    · exact Handled.all h1 h2 (by simp only [Event.upds, he, if_neg hr])
  | copyout dstva bytes =>
    obtain ⟨⟨r, s⟩, hc, rfl⟩ := map_ok ht
    obtain ⟨h1, n, hle, hn, h2⟩ := h.copyout hl hc
    refine ⟨⟨L, h1, fun _ => rfl⟩, fun _ => ⟨_, h2, .write hle, fun hs => ?_⟩⟩
    obtain rfl | rfl := copyout_result hc
    · rw [hn rfl]
      rfl
    · exact absurd hc (hs s)
  | store va b =>
    obtain ⟨⟨ok, s⟩, hc, rfl⟩ := map_ok ht
    obtain ⟨h1, h2⟩ := h.userStore hl hc
    obtain ⟨rfl, h2⟩ | ⟨-, h2⟩ := h2
    · exact Handled.fails h1 h2 fun hs => hs s hc
    · exact Handled.all h1 h2 rfl
  | sleep chan =>
    cases ht
    exact Handled.quiet h rfl rfl (SameSlot.assign hl (by simp) ⟨rfl, rfl, rfl⟩) rfl
  | yield =>
    cases ht
    exact Handled.quiet h rfl rfl (SameSlot.yield hl) rfl
  | setFile fd f =>
    cases ht
    exact Handled.quiet h rfl rfl (SameSlot.assign hl hl ⟨rfl, rfl, rfl⟩) rfl
  | chdir ip =>
    cases ht
    exact Handled.quiet h rfl rfl (SameSlot.assign hl hl ⟨rfl, rfl, rfl⟩) rfl
  | setFrame off b =>
    cases ht
    have htf : (S.proc i).trapframe ∈ S.held + S.frames :=
      Multiset.mem_add.mpr (Or.inr (Sys.mem_frames ((h.slot i).frame hl)))
    have hoff : off % PGSIZE + 1 ≤ 4096 := Nat.mod_lt _ (by decide)
    obtain ⟨h1, h2⟩ := @Heap.memmove_mem _ _ _ _ _ _ _ _ (fun _ => b) h.heap htf hoff
    let T : Sys := { S with phys := S.phys.memmove ((S.proc i).trapframe + off % PGSIZE) 1 fun _ => b }
    obtain ⟨h3, h4⟩ : MemOk L T ∧ ∀ j, Kept S T j := h.same (fun j => SameSlot.refl _) h1 h2
    exact Handled.kept h3 h4 rfl

/-- **Every event keeps the memory in order**, and does what its updates say or a part of that. -/
theorem MemOk.step {e : Event} (h : MemOk L S) (hr : Roomy S e) (ht : S.step e = some (.ok T)) :
    Handled L S T e := by
  cases e with
  | userinit =>
    simp only [Sys.step] at ht
    split_ifs at ht
    have ht := Option.some.inj ht
    obtain ⟨h1, h2⟩ := h.userinit ht
    rcases h2 with ⟨i, hi, h2⟩ | hn
    · exact Handled.all h1 h2 (by simp only [Event.upds, hi, Option.elim_some])
    · exact ⟨⟨L, h1, fun _ => rfl⟩, fun hs => absurd (hs T ht) hn⟩
  | run i =>
    simp only [Sys.step] at ht
    split_ifs at ht with hi
    cases ht
    have hl : S.Live i := by
      unfold Sys.Live
      rw [hi]
      exact fun hu => by cases hu
    exact Handled.quiet h rfl rfl (SameSlot.assign hl (by simp) ⟨rfl, rfl, rfl⟩) rfl
  | wakeup chan =>
    cases ht
    exact Handled.quiet h rfl rfl (SameSlot.wakeup _ _ S) rfl
  | clockintr me =>
    cases ht
    exact Handled.quiet h rfl rfl (SameSlot.clockintr _ S) rfl
  | kalloc =>
    simp only [Sys.step] at ht
    cases hk : Xv6.kalloc S.phys with
    | mk o s =>
      rw [hk] at ht
      rcases h.heap.kalloc hk with ⟨rfl, rfl, -⟩ | ⟨p, rfl, -, -, h1, h2⟩
      · cases ht
        exact Handled.quiet h rfl rfl (fun j => SameSlot.refl _) rfl
      · cases ht
        let T : Sys := { S with phys := s, held := p ::ₘ S.held }
        obtain ⟨h3, h4⟩ : MemOk L T ∧ ∀ j, Kept S T j := by
          refine h.same (fun j => SameSlot.refl _) ?_ h2
          rw [show T.held = p ::ₘ S.held from rfl, Multiset.cons_add]
          exact h1
        exact Handled.kept h3 h4 rfl
  | write pa off b =>
    simp only [Sys.step] at ht
    split_ifs at ht with hpa
    cases ht
    have hoff : off % PGSIZE + 1 ≤ 4096 := Nat.mod_lt _ (by decide)
    obtain ⟨h1, h2⟩ := @Heap.memmove_mem _ _ _ _ _ _ _ _ (fun _ => b) h.heap
      (Multiset.mem_add.mpr (Or.inl hpa)) hoff
    let T : Sys := { S with phys := S.phys.memmove (pa + off % PGSIZE) 1 fun _ => b }
    obtain ⟨h3, h4⟩ : MemOk L T ∧ ∀ j, Kept S T j := h.same (fun j => SameSlot.refl _) h1 h2
    exact Handled.kept h3 h4 rfl
  | kfree pa =>
    simp only [Sys.step] at ht
    split_ifs at ht with hpa
    obtain ⟨s, hk, rfl⟩ := map_ok (Option.some.inj ht)
    obtain ⟨H, hH⟩ := Multiset.exists_cons_of_mem hpa
    have hh := h.heap
    rw [hH, Multiset.cons_add] at hh
    obtain ⟨h1, h2⟩ := hh.kfree hk
    let T : Sys := { S with phys := s, held := S.held.erase pa }
    obtain ⟨h3, h4⟩ : MemOk L T ∧ ∀ j, Kept S T j := by
      refine h.same (fun j => SameSlot.refl _) ?_ h2
      rw [show T.held = H by show S.held.erase pa = H; rw [hH, Multiset.erase_cons_head]]
      exact h1
    exact Handled.kept h3 h4 rfl
  | call i c =>
    simp only [Sys.step] at ht
    split_ifs at ht with hi
    exact h.call hi hr (Option.some.inj ht)

end Xv6
