import Mathlib.Algebra.BigOperators.Group.Finset.Basic
import Xv6.Mem.Image
import Xv6.Proc.Table

/-!
# Memory — the memory of all processes

`MemOk L S`: the allocator accounts exactly for the page tables, trapframes and user pages of all
processes, for the pages of other owners, and for the counts `L` that failed calls of `uvmcopy` have
taken; and every page table has its shape.

`Effect S T us` says what a step does to the memory of every process; the updates `us` are what it
means for memory that is never shared.  A call changes the memory of one process, which is taken out
(`MemOk.open`) and put back (`MemOk.put`); all others keep theirs (`Kept`).
-/

namespace Xv6

/-- The page at `a`, unless the pointer is null. -/
def pageRef (a : ℕ) : Multiset ℕ := if a = 0 then 0 else {a}

namespace Sys

variable (S : Sys) (i : Fin NPROC)

/-- The slot is in use. -/
def Live : Prop := (S.proc i).state ≠ .UNUSED

/-- The entries of a process's page table. -/
abbrev map : ℕ → Pte := leaf S.phys.mem (S.proc i).pagetable

/-- The byte of process `i` at `va`. -/
abbrev byte (va : ℕ) : UInt8 := userByte S.phys.mem (S.map i) va

/-- All page tables. -/
def roots : Multiset ℕ := ∑ j, pageRef (S.proc j).pagetable

/-- All trapframes. -/
def frames : Multiset ℕ := ∑ j, pageRef (S.proc j).trapframe

/-- The page tables of the other processes. -/
def rootsBut : Multiset ℕ := ∑ j ∈ Finset.univ.erase i, pageRef (S.proc j).pagetable

/-- The trapframes of the other processes. -/
def framesBut : Multiset ℕ := ∑ j ∈ Finset.univ.erase i, pageRef (S.proc j).trapframe

end Sys

/-- No page is mapped twice. -/
def Inj (lf : ℕ → Pte) : Prop := ∀ v < UPAGES, ∀ w < UPAGES, (lf v).has PTE_V = true →
  (lf w).has PTE_V = true → PTE2PA (lf v) = PTE2PA (lf w) → v = w

/-- A slot in use has a trapframe and a page table of its shape; a free slot has none. -/
structure SlotMem (m : ByteStore) (p : Proc) : Prop where
  unused : p.state = .UNUSED → p.pagetable = 0 ∧ p.trapframe = 0 ∧ p.sz = 0
  table : p.state ≠ .UNUSED → p.pagetable ≠ 0
  frame : p.state ≠ .UNUSED → p.trapframe ≠ 0
  shape : p.state ≠ .UNUSED → Shape (leaf m p.pagetable) p.sz
  inj : p.state ≠ .UNUSED → Inj (leaf m p.pagetable)

/-- The bytes of all mapped pages are the same. -/
def SameBytes (S T : Sys) (i : Fin NPROC) : Prop := ∀ a, a / 4096 < UPAGES →
  (S.map i (a / 4096)).has PTE_V = true → T.byte i a = S.byte i a

/-- Process `j` keeps its memory. -/
structure Kept (S T : Sys) (j : Fin NPROC) : Prop where
  live : T.Live j ↔ S.Live j
  sz : S.Live j → (T.proc j).sz = (S.proc j).sz
  map : S.Live j → SameMaps (S.map j) (T.map j)
  byte : S.Live j → SameBytes S T j

/-- Process `i` has the size `sz` and the entries `lf`. -/
structure Became (T : Sys) (i : Fin NPROC) (lf : ℕ → Pte) (sz : ℕ) : Prop where
  live : T.Live i
  map : ∀ v < VPAGES, T.map i v = lf v
  sz : (T.proc i).sz = sz

section

variable {S T U : Sys} {i j : Fin NPROC} {a : ℕ} {p : Proc} {lf lf' : ℕ → Pte} {F X : Multiset ℕ}
  {m : ByteStore}

theorem pageRef_of_ne (h : a ≠ 0) : pageRef a = {a} := if_neg h

theorem pageRef_zero : pageRef 0 = 0 := if_pos rfl

theorem mem_pageRef : a ∈ pageRef a ↔ a ≠ 0 := by
  unfold pageRef
  split_ifs with h
  · simp [h]
  · simp [h]

theorem Sys.roots_split (S : Sys) (i : Fin NPROC) :
    S.roots = pageRef (S.proc i).pagetable + S.rootsBut i :=
  (Finset.add_sum_erase _ (fun j => pageRef (S.proc j).pagetable) (Finset.mem_univ i)).symm

theorem Sys.frames_split (S : Sys) (i : Fin NPROC) :
    S.frames = pageRef (S.proc i).trapframe + S.framesBut i :=
  (Finset.add_sum_erase _ (fun j => pageRef (S.proc j).trapframe) (Finset.mem_univ i)).symm

theorem Sys.rootsBut_update (h : T.proc = Function.update S.proc i p) :
    T.rootsBut i = S.rootsBut i :=
  Finset.sum_congr rfl fun j hj => by
    rw [h, Function.update_of_ne (Finset.ne_of_mem_erase hj)]

theorem Sys.framesBut_update (h : T.proc = Function.update S.proc i p) :
    T.framesBut i = S.framesBut i :=
  Finset.sum_congr rfl fun j hj => by
    rw [h, Function.update_of_ne (Finset.ne_of_mem_erase hj)]

/-- The page table of another process. -/
theorem Sys.mem_rootsBut (hj : j ≠ i) (h : (S.proc j).pagetable ≠ 0) :
    (S.proc j).pagetable ∈ S.rootsBut i := by
  refine Multiset.mem_of_le (Finset.single_le_sum (f := fun j => pageRef (S.proc j).pagetable)
    (fun _ _ => Multiset.zero_le _) (Finset.mem_erase.mpr ⟨hj, Finset.mem_univ j⟩)) ?_
  exact mem_pageRef.mpr h

theorem Sys.mem_roots (h : (S.proc i).pagetable ≠ 0) : (S.proc i).pagetable ∈ S.roots := by
  rw [S.roots_split i]
  exact Multiset.mem_add.mpr (Or.inl (mem_pageRef.mpr h))

theorem Sys.roots_congr (h : ∀ j, (T.proc j).pagetable = (S.proc j).pagetable) :
    T.roots = S.roots :=
  Finset.sum_congr rfl fun j _ => by rw [h j]

theorem Sys.frames_congr (h : ∀ j, (T.proc j).trapframe = (S.proc j).trapframe) :
    T.frames = S.frames :=
  Finset.sum_congr rfl fun j _ => by rw [h j]

theorem Sys.mem_frames (h : (S.proc i).trapframe ≠ 0) : (S.proc i).trapframe ∈ S.frames := by
  rw [S.frames_split i]
  exact Multiset.mem_add.mpr (Or.inl (mem_pageRef.mpr h))

theorem Kept.refl (S : Sys) (j : Fin NPROC) : Kept S S j :=
  ⟨Iff.rfl, fun _ => rfl, fun _ => SameMaps.refl _, fun _ _ _ _ => rfl⟩

theorem Kept.trans (h : Kept S T j) (h' : Kept T U j) : Kept S U j := by
  refine ⟨h'.live.trans h.live, fun hl => ?_, fun hl => ?_, fun hl a ha hV => ?_⟩
  · exact (h'.sz (h.live.mpr hl)).trans (h.sz hl)
  · exact (h.map hl).trans (h'.map (h.live.mpr hl))
  · have hV' := ((h.map hl) _ (lt_trans ha (by decide))).1.trans hV
    exact (h'.byte (h.live.mpr hl) a ha hV').trans (h.byte hl a ha hV)

/-- A free slot that stays free. -/
theorem Kept.dead (h : ¬ S.Live j) (h' : ¬ T.Live j) : Kept S T j :=
  ⟨⟨fun hl => absurd hl h', fun hl => absurd hl h⟩, fun hl => absurd hl h, fun hl => absurd hl h,
    fun hl => absurd hl h⟩

/-- A page mapped without `PTE_COW` is mapped once. -/
theorem UserOk.inj (h : UserOk lf (leafRefs UPAGES lf + X))
    (hc : ∀ v < UPAGES, ∀ w < UPAGES, (lf v).has PTE_V = true → (lf w).has PTE_V = true →
      (lf v).has PTE_COW = true → (lf w).has PTE_COW = true → PTE2PA (lf v) = PTE2PA (lf w) → v = w) :
    Inj lf := by
  intro v hv w hw hV hW he
  by_contra hne
  cases hC : (lf v).has PTE_COW with
  | false => exact h.ne hv hV hC hw hW (Ne.symm hne) he.symm
  | true =>
    cases hC' : (lf w).has PTE_COW with
    | false => exact h.ne hw hW hC' hv hV hne he
    | true => exact hne (hc v hv w hw hV hW hC hC' he)

theorem Inj.congr (h : Inj lf) (hV : ∀ v < UPAGES, (lf' v).has PTE_V = true →
    (lf v).has PTE_V = true ∧ PTE2PA (lf' v) = PTE2PA (lf v)) : Inj lf' := by
  intro v hv w hw h1 h2 he
  obtain ⟨h3, h4⟩ := hV v hv h1
  obtain ⟨h5, h6⟩ := hV w hw h2
  exact h v hv w hw h3 h5 (h4.symm.trans (he.trans h6))

theorem Plain.inj (h : Plain lf) (hu : UserOk lf (leafRefs UPAGES lf + X)) : Inj lf := by
  refine hu.inj fun v hv w hw hV _ hC => ?_
  rw [h v hv hV] at hC
  cases hC

/-- Fresh pages and pages that have got their own copy are mapped once. -/
theorem Inj.step (h : Inj lf) (hu : UserOk lf' (leafRefs UPAGES lf' + X))
    (hc : ∀ v < UPAGES, (lf' v).has PTE_V = true → (lf' v).has PTE_COW = true → lf' v = lf v) :
    Inj lf' := by
  refine hu.inj fun v hv w hw hV hW hC hC' he => ?_
  have hev := hc v hv hV hC
  have hew := hc w hw hW hC'
  rw [hev] at hV he
  rw [hew] at hW he
  exact h v hv w hw hV hW he

theorem SlotMem.free (p : Proc) : SlotMem m p.free :=
  ⟨fun _ => ⟨rfl, rfl, rfl⟩, fun h => absurd rfl h, fun h => absurd rfl h, fun h => absurd rfl h,
    fun h => absurd rfl h⟩

end

variable [Image] {S T : Sys} {i j : Fin NPROC} {L L' K K' : Multiset ℕ} {p : Proc} {s s' : Phys}

/-- The memory of all processes is in order. -/
structure MemOk (L : Multiset ℕ) (S : Sys) : Prop where
  heap : Heap S.phys S.roots (S.held + S.frames) L
  slot : ∀ i, SlotMem S.phys.mem (S.proc i)

/-- The memory of process `i`, taken out. -/
theorem MemOk.open (h : MemOk L S) (hi : S.Live i) :
    Heap S.phys ((S.proc i).pagetable ::ₘ S.rootsBut i)
      (S.held + ((S.proc i).trapframe ::ₘ S.framesBut i)) L := by
  have hh := h.heap
  rw [S.roots_split i, S.frames_split i, pageRef_of_ne ((h.slot i).table hi),
    pageRef_of_ne ((h.slot i).frame hi), Multiset.singleton_add, Multiset.singleton_add] at hh
  exact hh

omit [Image] in
/-- A slot stays in order where its page table is as before. -/
theorem SlotMem.keeps {m m' : ByteStore} {R : Multiset ℕ} (h : SlotMem m p)
    (hk : Keeps m m' (tabs m R)) (hr : p.pagetable ≠ 0 → p.pagetable ∈ R) : SlotMem m' p := by
  have hleaf : p.state ≠ .UNUSED → leaf m' p.pagetable = leaf m p.pagetable := fun hl =>
    hk.leaf_eq (hr (h.table hl))
  refine ⟨h.unused, h.table, h.frame, fun hl => ?_, fun hl => ?_⟩
  · rw [hleaf hl]
    exact h.shape hl
  · rw [hleaf hl]
    exact h.inj hl

/-- What of a slot is about its memory. -/
structure SameSlot (p p' : Proc) : Prop where
  live : p'.state = .UNUSED ↔ p.state = .UNUSED
  pagetable : p'.pagetable = p.pagetable
  trapframe : p'.trapframe = p.trapframe
  sz : p'.sz = p.sz

omit [Image] in
theorem SameSlot.refl (p : Proc) : SameSlot p p := ⟨Iff.rfl, rfl, rfl, rfl⟩

omit [Image] in
theorem SameSlot.trans {p p' p'' : Proc} (h : SameSlot p p') (h' : SameSlot p' p'') :
    SameSlot p p'' :=
  ⟨h'.live.trans h.live, h'.pagetable.trans h.pagetable, h'.trapframe.trans h.trapframe,
    h'.sz.trans h.sz⟩

omit [Image] in
theorem SlotMem.same {m : ByteStore} {p p' : Proc} (h : SlotMem m p) (hs : SameSlot p p') :
    SlotMem m p' := by
  have hl : p'.state ≠ .UNUSED → p.state ≠ .UNUSED := fun hn hu => hn (hs.live.mpr hu)
  refine ⟨fun hu => ?_, fun hn => ?_, fun hn => ?_, fun hn => ?_, fun hn => ?_⟩
  · rw [hs.pagetable, hs.trapframe, hs.sz]
    exact h.unused (hs.live.mp hu)
  · rw [hs.pagetable]
    exact h.table (hl hn)
  · rw [hs.trapframe]
    exact h.frame (hl hn)
  · rw [hs.pagetable, hs.sz]
    exact h.shape (hl hn)
  · rw [hs.pagetable]
    exact h.inj (hl hn)

/-- Another process keeps its memory where its page table and pages are as before. -/
theorem MemOk.kept {R : Multiset ℕ} (h : MemOk L S) (hp : SameSlot (S.proc j) (T.proc j))
    (hr : (S.proc j).pagetable ≠ 0 → (S.proc j).pagetable ∈ R)
    (hk : Keeps S.phys.mem T.phys.mem (foot S.phys.mem R K L')) : Kept S T j := by
  have hmap : S.Live j → T.map j = S.map j := by
    intro hs
    unfold Sys.map
    rw [hp.pagetable]
    exact hk.left.left.leaf_eq (hr ((h.slot j).table hs))
  refine ⟨not_congr hp.live, fun _ => hp.sz, fun hs => ?_, fun hs a ha hV => ?_⟩
  · rw [hmap hs]
    exact SameMaps.refl _
  · have := hk.left.left.userByte_eq hk.right.left (hr ((h.slot j).table hs)) ha hV
    unfold Sys.byte Sys.map
    rw [hp.pagetable]
    exact this

/-- **No process changes its memory**: only other fields of the slots and other owners' pages
change. -/
theorem MemOk.same (h : MemOk L S) (hp : ∀ j, SameSlot (S.proc j) (T.proc j))
    (hh : Heap T.phys S.roots (T.held + S.frames) L')
    (hk : Keeps S.phys.mem T.phys.mem (foot S.phys.mem S.roots K L)) :
    MemOk L' T ∧ ∀ j, Kept S T j := by
  refine ⟨⟨?_, fun j => ?_⟩, fun j => h.kept (hp j) Sys.mem_roots hk⟩
  · rw [Sys.roots_congr fun j => (hp j).pagetable, Sys.frames_congr fun j => (hp j).trapframe]
    exact hh
  · exact ((h.slot j).keeps hk.left.left Sys.mem_roots).same (hp j)

/-- Only fields that have nothing to do with memory change. -/
theorem MemOk.quiet (h : MemOk L S) (hs : T.phys = S.phys) (hh : T.held = S.held)
    (hp : ∀ j, SameSlot (S.proc j) (T.proc j)) : MemOk L T ∧ ∀ j, Kept S T j := by
  refine h.same (K := 0) hp ?_ ?_
  · rw [hs, hh]
    exact h.heap
  · rw [hs]
    exact Keeps.refl _ _

/-- **One process changes**: its memory is put back. -/
theorem MemOk.put (h : MemOk L S) (hT : T.proc = Function.update S.proc i p)
    (hh : Heap T.phys (pageRef p.pagetable + S.rootsBut i)
      (T.held + (pageRef p.trapframe + S.framesBut i)) L')
    (hk : Keeps S.phys.mem T.phys.mem (foot S.phys.mem (S.rootsBut i) K L))
    (hp : SlotMem T.phys.mem p) : MemOk L' T ∧ ∀ j ≠ i, Kept S T j := by
  have hself : T.proc i = p := by rw [hT, Function.update_self]
  have hother : ∀ j ≠ i, T.proc j = S.proc j := fun j hj => by rw [hT, Function.update_of_ne hj]
  refine ⟨⟨?_, fun j => ?_⟩, fun j hj => ?_⟩
  · rw [T.roots_split i, T.frames_split i, hself, Sys.rootsBut_update hT, Sys.framesBut_update hT]
    exact hh
  · by_cases hj : j = i
    · subst hj
      rwa [hself]
    · rw [hother j hj]
      exact (h.slot j).keeps hk.left.left (Sys.mem_rootsBut hj)
  · refine h.kept ?_ (Sys.mem_rootsBut hj) hk
    rw [hother j hj]
    exact SameSlot.refl _

/-! ## `freeproc` and `allocproc` -/

omit [Image] in
theorem Keeps.foot_tail {m m' : ByteStore} {r : ℕ} {R : Multiset ℕ}
    (h : Keeps m m' (Xv6.foot m (r ::ₘ R) K L)) : Keeps m m' (Xv6.foot m R K L) := by
  refine h.mono fun q hq => ?_
  simp only [tabs_cons, urefs_cons, Multiset.mem_add] at hq ⊢
  tauto

omit [Image] in
/-- The page table of slot `i`, if it has one, at the head. -/
theorem Keeps.foot_rootsBut {m m' : ByteStore} (h : Keeps m m' (Xv6.foot m S.roots K L)) :
    Keeps m m' (Xv6.foot m (S.rootsBut i) K L) := by
  rw [S.roots_split i] at h
  unfold pageRef at h
  split_ifs at h
  · rwa [zero_add] at h
  · rw [Multiset.singleton_add] at h
    exact h.foot_tail

/-- **`freeproc`** gives back all pages of a slot, whichever of them it has. -/
theorem Heap.freeproc (h : Heap S.phys S.roots (S.held + S.frames) L)
    (hsz : (S.proc i).pagetable ≠ 0 → (S.proc i).sz ≤ TRAPFRAME) (hf : freeproc i S = .ok T) :
    T.proc = Function.update S.proc i (S.proc i).free ∧ T.held = S.held ∧
      Heap T.phys (S.rootsBut i) (S.held + S.framesBut i) L ∧
      Keeps S.phys.mem T.phys.mem (foot S.phys.mem (S.rootsBut i) (S.held + S.framesBut i) L) := by
  obtain ⟨s, s', hs, hs', rfl⟩ := freeproc_ok hf
  refine ⟨rfl, rfl, ?_⟩
  rw [S.frames_split i, add_left_comm] at h
  -- the trapframe
  obtain ⟨h₁, hk₁⟩ : Heap s S.roots (S.held + S.framesBut i) L ∧
      Keeps S.phys.mem s.mem (foot S.phys.mem S.roots (S.held + S.framesBut i) L) := by
    split_ifs at hs with h0
    · rw [pageRef_of_ne h0, Multiset.singleton_add] at h
      exact h.kfree hs
    · cases hs
      rw [not_not.mp h0, pageRef_zero, zero_add] at h
      exact ⟨h, Keeps.refl _ _⟩
  have hk₁ : Keeps S.phys.mem s.mem (foot S.phys.mem (S.rootsBut i) (S.held + S.framesBut i) L) :=
    hk₁.foot_rootsBut
  -- the page table
  rw [S.roots_split i] at h₁
  split_ifs at hs' with h0
  · rw [pageRef_of_ne h0, Multiset.singleton_add] at h₁
    obtain ⟨h₂, hk₂⟩ := h₁.proc_freepagetable (hsz h0) hs'
    exact ⟨h₂, hk₁.foot_trans hk₂⟩
  · cases hs'
    rw [not_not.mp h0, pageRef_zero, zero_add] at h₁
    exact ⟨h₁, hk₁⟩

theorem MemOk.freeproc (h : MemOk L S) (hi : S.Live i) (hf : Xv6.freeproc i S = .ok T) :
    MemOk L T ∧ ¬ T.Live i ∧ ∀ j ≠ i, Kept S T j := by
  obtain ⟨hp, hh, h₁, hk⟩ := h.heap.freeproc (fun _ => ((h.slot i).shape hi).le) hf
  have hput : MemOk L T ∧ ∀ j ≠ i, Kept S T j := by
    refine h.put hp ?_ hk (SlotMem.free _)
    rw [hh, show (S.proc i).free.pagetable = 0 from rfl, show (S.proc i).free.trapframe = 0 from rfl,
      pageRef_zero, zero_add, zero_add]
    exact h₁
  refine ⟨hput.1, fun hl => hl ?_, hput.2⟩
  rw [hp, Function.update_self]
  rfl

/-- The trapframe and the page table of a process are free afterwards. -/
theorem MemOk.freeproc_room (h : MemOk L S) (hi : S.Live i) (hf : Xv6.freeproc i S = .ok T) :
    4 ≤ T.phys.freelist.length := by
  obtain ⟨-, -, h₁, hk⟩ := h.heap.freeproc (fun _ => ((h.slot i).shape hi).le) hf
  have ho := (h.open hi).owns
  have hsplit : tabs S.phys.mem ((S.proc i).pagetable ::ₘ S.rootsBut i) +
      (S.held + ((S.proc i).trapframe ::ₘ S.framesBut i)) =
      ((S.proc i).trapframe ::ₘ tables S.phys.mem (S.proc i).pagetable) +
        (tabs S.phys.mem (S.rootsBut i) + (S.held + S.framesBut i)) := by
    rw [tabs_cons, Multiset.add_cons, Multiset.add_cons, Multiset.cons_add, add_assoc]
  rw [hsplit] at ho
  have ho' := ho.split
  have hcard : 4 ≤ ((S.proc i).trapframe ::ₘ tables S.phys.mem (S.proc i).pagetable).card := by
    have := three_le_tables ((h.slot i).shape hi).frame
    rw [Multiset.card_cons]
    omega
  refine hcard.trans (h₁.owns.alloc.card_le_free ho'.nodup fun p hp => ⟨ho'.ok_left hp, fun hR => ?_⟩)
  rw [hk.left.left.tabs_eq, hk.left.left.urefs_eq] at hR
  refine ho'.ne hp ?_ rfl
  simp only [urefs_cons, Multiset.mem_add] at hR ⊢
  tauto

/-- Process `i` has just got its page table: it has no memory yet. -/
structure Made (S T : Sys) (i : Fin NPROC) : Prop where
  dead : ¬ S.Live i
  live : T.Live i
  sz : (T.proc i).sz = 0
  other : ∀ j ≠ i, T.proc j = S.proc j
  keeps : Keeps S.phys.mem T.phys.mem (tabs S.phys.mem S.roots)
  kept : ∀ j ≠ i, Kept S T j

/-- The other processes keep their page tables. -/
theorem Made.map_eq (hm : Made S T j) (h : MemOk L S) (hi : S.Live i) (hij : i ≠ j) :
    T.map i = S.map i := by
  unfold Sys.map
  rw [hm.other i hij]
  exact hm.keeps.leaf_eq (Sys.mem_roots ((h.slot i).table hi))

/-- Without the new page table, the page tables are those there were. -/
theorem Made.rootsBut_eq (hm : Made S T j) (h : MemOk L S) : T.rootsBut j = S.roots := by
  rw [S.roots_split j, ((h.slot j).unused (not_not.mp hm.dead)).1, pageRef_zero, zero_add]
  exact Finset.sum_congr rfl fun k hk => by rw [hm.other k (Finset.ne_of_mem_erase hk)]

/-- A slot that `allocproc` has filled, or has freed again. -/
theorem MemOk.fill {tf pt : ℕ} (h : MemOk L S) (hi : ¬ S.Live i)
    (hT : T.proc = Function.update S.proc i p) (hh : T.held = S.held) (hpt : p.pagetable = pt)
    (htf : p.trapframe = tf)
    (hheap : Heap T.phys (pageRef pt + S.roots) (pageRef tf + (S.held + S.frames)) L)
    (hk : Keeps S.phys.mem T.phys.mem (foot S.phys.mem S.roots (S.held + S.frames) L))
    (hp : SlotMem T.phys.mem p) : MemOk L T ∧ ∀ j ≠ i, Kept S T j := by
  obtain ⟨hpt₀, htf₀, -⟩ := (h.slot i).unused (not_not.mp hi)
  have hR : S.roots = S.rootsBut i := by rw [S.roots_split i, hpt₀, pageRef_zero, zero_add]
  have hF : S.frames = S.framesBut i := by rw [S.frames_split i, htf₀, pageRef_zero, zero_add]
  refine h.put hT ?_ hk.foot_rootsBut hp
  rw [hpt, htf, hh, add_left_comm, ← hR, ← hF]
  exact hheap

/-- `freeproc` on a slot that `allocproc` could not fill. -/
theorem MemOk.unfill {S₁ : Sys} {q : Proc} (h : MemOk L S) (hi : ¬ S.Live i)
    (hf : Xv6.freeproc i S₁ = .ok T) (hS₁ : S₁.proc = Function.update S.proc i q) (hpt : q.pagetable = 0) (hh : S₁.held = S.held)
    (hheap : Heap S₁.phys S.roots (pageRef q.trapframe + (S.held + S.frames)) L)
    (hk : Keeps S.phys.mem S₁.phys.mem (foot S.phys.mem S.roots (S.held + S.frames) L)) :
    MemOk L T ∧ ∀ j, Kept S T j := by
  obtain ⟨hpt₀, htf₀, -⟩ := (h.slot i).unused (not_not.mp hi)
  have hself : S₁.proc i = q := by rw [hS₁, Function.update_self]
  have hR : S.roots = S.rootsBut i := by rw [S.roots_split i, hpt₀, pageRef_zero, zero_add]
  have hF : S.frames = S.framesBut i := by rw [S.frames_split i, htf₀, pageRef_zero, zero_add]
  have hroots : S₁.roots = S.roots := by
    rw [S₁.roots_split i, hself, hpt, pageRef_zero, zero_add, Sys.rootsBut_update hS₁, ← hR]
  have hframes : S₁.frames = pageRef q.trapframe + S.frames := by
    rw [S₁.frames_split i, hself, Sys.framesBut_update hS₁, ← hF]
  have hheap₁ : Heap S₁.phys S₁.roots (S₁.held + S₁.frames) L := by
    rw [hroots, hframes, hh, add_left_comm]
    exact hheap
  obtain ⟨hp, hh', hheap', hk'⟩ := hheap₁.freeproc (fun h0 => absurd (hself ▸ hpt) h0) hf
  have hT : T.proc = Function.update S.proc i q.free := by
    rw [hp, hself, hS₁, Function.update_idem]
  rw [Sys.rootsBut_update hS₁, Sys.framesBut_update hS₁, ← hR, ← hF, hh] at hheap' hk'
  have hput := @MemOk.fill _ S T i L q.free 0 0 h hi hT (hh'.trans hh) rfl rfl
    (by rw [pageRef_zero, zero_add, zero_add]; exact hheap') (hk.foot_trans hk') (SlotMem.free _)
  refine ⟨hput.1, fun j => ?_⟩
  by_cases hj : j = i
  · subst hj
    refine Kept.dead hi fun hl => hl ?_
    rw [hT, Function.update_self]
    rfl
  · exact hput.2 j hj

theorem MemOk.allocproc {o : Option (Fin NPROC)} (h : MemOk L S) (ha : Allocproc S T o) :
    MemOk L T ∧ (o = none → ∀ j, Kept S T j) ∧ ∀ i, o = some i → Made S T i := by
  cases ha with
  | full hT =>
    subst hT
    exact ⟨h, fun _ j => Kept.refl _ j, fun _ hi => by cases hi⟩
  | noFrame i s hi hk hf =>
    obtain ⟨-, rfl, -⟩ | ⟨p, hp, -⟩ := h.heap.kalloc hk
    · obtain ⟨h1, h2⟩ := h.unfill (not_not.mpr hi) hf rfl ((h.slot i).unused hi).1 rfl
        (by rw [pageRef_zero, zero_add]; exact h.heap) (Keeps.refl _ _)
      exact ⟨h1, fun _ => h2, fun _ hi => by cases hi⟩
    · cases hp
  | noTable i trapframe s s' hi hk hp hf =>
    obtain ⟨hn, -⟩ | ⟨p, hp', hok, -, h₁, hk₁⟩ := h.heap.kalloc hk
    · cases hn
    · cases hp'
      obtain ⟨hk₂, ⟨-, h₂⟩ | ⟨h0, -⟩⟩ := h₁.proc_pagetable hp
      · obtain ⟨h1, h2⟩ := h.unfill (not_not.mpr hi) hf rfl rfl rfl
          (by rw [pageRef_of_ne hok.pos.ne', Multiset.singleton_add]; exact h₂)
          (hk₁.foot_trans (hk₂.foot_mono (Multiset.le_cons_self _ _)))
        exact ⟨h1, fun _ => h2, fun _ hi => by cases hi⟩
      · exact absurd rfl h0
  | done i trapframe pagetable s s' hi hk hp h0 hT =>
    obtain ⟨hn, -⟩ | ⟨p, hp', hok, -, h₁, hk₁⟩ := h.heap.kalloc hk
    · cases hn
    · cases hp'
      obtain ⟨hk₂, ⟨h0', -⟩ | ⟨-, h₂, hsh⟩⟩ := h₁.proc_pagetable hp
      · exact absurd h0' h0
      · have hsz : (S.proc i).sz = 0 := ((h.slot i).unused hi).2.2
        have hproc : T.proc = Function.update S.proc i ({ S.named i with
            trapframe := trapframe, pagetable := pagetable }.fresh S.ticks) := by rw [hT]; rfl
        have hphys : T.phys = s' := by rw [hT]; rfl
        have hplain : Plain (leaf s'.mem pagetable) := fun v hv hV =>
          absurd (hsh.user v hv hV) (by simp [pages])
        have hslot : SlotMem T.phys.mem ({ S.named i with
            trapframe := trapframe, pagetable := pagetable }.fresh S.ticks) := by
          rw [hphys]
          refine ⟨fun hu => (by cases hu), fun _ => h0, fun _ => hok.pos.ne', fun _ => ?_,
            fun _ => hplain.inj h₂.space.user⟩
          show Shape (leaf s'.mem pagetable) (S.proc i).sz
          rw [hsz]
          exact hsh
        obtain ⟨h1, h2⟩ : MemOk L T ∧ ∀ j ≠ i, Kept S T j := by
          refine h.fill (not_not.mpr hi) hproc (by rw [hT]; rfl) rfl rfl ?_ ?_ hslot
          · rw [hphys]
            show Heap s' (pageRef pagetable + S.roots) (pageRef trapframe + (S.held + S.frames)) L
            rw [pageRef_of_ne hok.pos.ne', pageRef_of_ne h0, Multiset.singleton_add,
              Multiset.singleton_add]
            exact h₂
          · rw [hphys]
            exact hk₁.foot_trans (hk₂.foot_mono (Multiset.le_cons_self _ _))
        refine ⟨h1, fun hn => (by cases hn), fun k hk => ?_⟩
        cases hk
        refine ⟨not_not.mpr hi, ?_, ?_, fun j hj => ?_, ?_, h2⟩
        · unfold Sys.Live
          rw [hproc, Function.update_self]
          exact fun hu => by cases hu
        · rw [hproc, Function.update_self]
          exact hsz
        · rw [hproc, Function.update_of_ne hj]
        · rw [hphys]
          exact (hk₁.foot_trans (hk₂.foot_mono (Multiset.le_cons_self _ _))).left.left

/-- No process has memory after boot. -/
theorem MemOk.boot (hs : Alloc s 0) : MemOk 0 (Sys.boot s) := by
  have hroots : (Sys.boot s).roots = 0 := Finset.sum_eq_zero fun j _ => pageRef_zero
  have hframes : (Sys.boot s).frames = 0 := Finset.sum_eq_zero fun j _ => pageRef_zero
  refine ⟨⟨?_, ?_⟩, fun i => ⟨fun _ => ⟨rfl, rfl, rfl⟩, ?_, ?_, ?_, ?_⟩⟩
  · rw [hroots, hframes]
    exact ⟨hs, Multiset.nodup_zero, Multiset.disjoint_left.mpr fun _ h => absurd h (Multiset.notMem_zero _)⟩
  · rw [hroots]
    intro r hr
    exact absurd hr (Multiset.notMem_zero r)
  all_goals exact fun h => absurd rfl h

end Xv6
