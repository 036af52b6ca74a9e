import Xv6.Proc.Updates

/-!
# Calls — the calls that make and replace whole memories

`fork`, `exec`, `wait` and `userinit` keep `MemOk`.  `fork` needs room in the counters of the pages
that it shares (`CopyRoom`); a call that fails adds a page to the counts `L` taken for nothing.
-/

namespace Xv6

/-- No page of process `i` has reached the largest count. -/
def Sys.CopyRoom (S : Sys) (i : Fin NPROC) : Prop := ∀ v < pages (S.proc i).sz,
  (S.map i v).has PTE_V = true → S.phys.pte_count (PTE2PA (S.map i v) / PGSIZE) < 2147483647

/-- The page tables without those of `i` and `j`. -/
def Sys.rootsBut₂ (S : Sys) (i j : Fin NPROC) : Multiset ℕ :=
  ∑ k ∈ (Finset.univ.erase j).erase i, pageRef (S.proc k).pagetable

section

variable {S T : Sys} {i j k : Fin NPROC} {lf : ℕ → Pte} {a n : ℕ}

theorem Sys.rootsBut_split₂ (hij : i ≠ j) :
    S.rootsBut j = pageRef (S.proc i).pagetable + S.rootsBut₂ i j := by
  have hi : i ∈ Finset.univ.erase j := Finset.mem_erase.mpr ⟨hij, Finset.mem_univ i⟩
  exact (Finset.add_sum_erase _ (fun k => pageRef (S.proc k).pagetable) hi).symm

theorem Sys.roots_split₂ (hij : i ≠ j) : S.roots =
    pageRef (S.proc i).pagetable + (pageRef (S.proc j).pagetable + S.rootsBut₂ i j) := by
  rw [S.roots_split j, Sys.rootsBut_split₂ hij, add_left_comm]

theorem Sys.mem_rootsBut₂ (hki : k ≠ i) (hkj : k ≠ j) (h : (S.proc k).pagetable ≠ 0) :
    (S.proc k).pagetable ∈ S.rootsBut₂ i j := by
  refine Multiset.mem_of_le (Finset.single_le_sum (f := fun j => pageRef (S.proc j).pagetable)
    (fun _ _ => Multiset.zero_le _) ?_) (mem_pageRef.mpr h)
  exact Finset.mem_erase.mpr ⟨hki, Finset.mem_erase.mpr ⟨hkj, Finset.mem_univ k⟩⟩

theorem Inj.nodup (h : Inj lf) (hn : a + n ≤ UPAGES) : (rangeRefs lf a n).Nodup := by
  induction n generalizing a with
  | zero => exact Multiset.nodup_zero
  | succ n ih =>
    rw [rangeRefs]
    cases hV : (lf a).has PTE_V with
    | false =>
      rw [pageOf_of_not hV, zero_add]
      exact ih (by omega)
    | true =>
      rw [pageOf_of_has hV, Multiset.singleton_add]
      refine Multiset.nodup_cons.mpr ⟨fun hm => ?_, ih (by omega)⟩
      obtain ⟨v, h1, h2, hvV, he⟩ := mem_rangeRefs.mp hm
      have := h v (by omega) a (by omega) hvV hV he
      omega

end

variable [Image] {S T : Sys} {i j : Fin NPROC} {L L' K R : Multiset ℕ} {s : Phys} {n : ℕ}

/-! ## Counters -/

/-- The counter of a user page is the number of its references. -/
theorem MemOk.count {p : ℕ} (h : MemOk L S) (hp : p ∈ urefs S.phys.mem S.roots + L) :
    S.phys.pte_count (p / 4096) = (urefs S.phys.mem S.roots + L).count p := by
  have hO := h.heap.owns
  have hT : p ∉ tabs S.phys.mem S.roots + (S.held + S.frames) := fun hT => hO.ne hT hp rfl
  rw [hO.alloc.count_eq (Multiset.mem_add.mpr (Or.inr hp)), Multiset.count_add,
    Multiset.count_eq_zero.mpr hT, zero_add]

theorem MemOk.mem_urefs {v : ℕ} (h : MemOk L S) (hi : S.Live i) (hv : v < UPAGES)
    (hV : (S.map i v).has PTE_V = true) : PTE2PA (S.map i v) ∈ urefs S.phys.mem S.roots := by
  have hr : (S.proc i).pagetable ∈ S.roots := Sys.mem_roots ((h.slot i).table hi)
  exact Multiset.mem_of_le (leafRefs_le hr) (mem_leafRefs.mpr ⟨v, hv, hV, rfl⟩)

/-- With room, all counters stay below the limit. -/
theorem MemOk.room (h : MemOk L S) (hi : S.Live i) (hroom : S.CopyRoom i) {p : ℕ}
    (hp : p ∈ leafRefs UPAGES (S.map i)) : (urefs S.phys.mem S.roots + L).count p +
      (rangeRefs (S.map i) 0 (pages (S.proc i).sz)).count p < intLim := by
  obtain ⟨v, hv, hV, rfl⟩ := mem_leafRefs.mp hp
  have hshape := (h.slot i).shape hi
  have hle := pages_le hshape.le
  have hcnt := h.count (Multiset.mem_add.mpr (Or.inl (h.mem_urefs hi hv hV)))
  have hlim := hroom v (hshape.user v hv hV) hV
  have hone : (rangeRefs (S.map i) 0 (pages (S.proc i).sz)).count (PTE2PA (S.map i v)) ≤ 1 :=
    Multiset.nodup_iff_count_le_one.mp (((h.slot i).inj hi).nodup (by omega)) _
  rw [show PTE2PA (S.map i v) / PGSIZE = PTE2PA (S.map i v) / 4096 from rfl, hcnt] at hlim
  show _ < 2147483648
  omega

/-- As long as no count is taken for nothing there is room. -/
theorem MemOk.copyRoom (h : MemOk 0 S) (hi : S.Live i) : S.CopyRoom i := by
  intro v hv hV
  have hshape := (h.slot i).shape hi
  have hvU := lt_of_lt_of_le hv (pages_le hshape.le)
  have hm : PTE2PA (S.map i v) ∈ urefs S.phys.mem S.roots + 0 :=
    Multiset.mem_add.mpr (Or.inl (h.mem_urefs hi hvU hV))
  have hlt := h.heap.owns.alloc.lt_lim (PTE2PA (S.map i v))
  have hO := h.heap.owns
  have hcard := card_urefs_le (Multiset.nodup_add.mp hO.nodup).1
  have hpages := card_pages_le (Multiset.nodup_add.mp hO.nodup).1 fun p hp =>
    hO.ok_left (Multiset.mem_add.mpr (Or.inl hp))
  have hle := Multiset.count_le_card (PTE2PA (S.map i v)) (urefs S.phys.mem S.roots)
  rw [show PTE2PA (S.map i v) / PGSIZE = PTE2PA (S.map i v) / 4096 from rfl, h.count hm, add_zero]
  omega

omit [Image] in
/-- A process without memory has no mapped page below `TRAPFRAME`. -/
theorem SlotMem.empty {m : ByteStore} {p : Proc} {v : ℕ} (h : SlotMem m p) (hl : p.state ≠ .UNUSED)
    (hsz : p.sz = 0) (hv : v < UPAGES) : (leaf m p.pagetable v).has PTE_V = false := by
  by_contra hV
  have := (h.shape hl).user v hv (by simpa using hV)
  rw [hsz] at this
  simp [pages] at this

/-- `allocproc` leaves the counters of user pages alone. -/
theorem Made.copyRoom (h : MemOk L S) (h' : MemOk L T) (hm : Made S T j) (hi : S.Live i)
    (hij : i ≠ j) (hroom : S.CopyRoom i) : T.CopyRoom i := by
  have hmap := hm.map_eq h hi hij
  have hroots : T.roots = (T.proc j).pagetable ::ₘ S.roots := by
    rw [T.roots_split j, pageRef_of_ne ((h'.slot j).table hm.live), Multiset.singleton_add,
      hm.rootsBut_eq h]
  -- the new page table maps no user page
  have hempty : leafRefs UPAGES (T.map j) = 0 :=
    leafRefs_eq_zero fun v hv => (h'.slot j).empty hm.live hm.sz hv
  have hrefs : urefs T.phys.mem T.roots = urefs S.phys.mem S.roots := by
    rw [hroots, urefs_cons, hempty, zero_add, hm.keeps.urefs_eq]
  intro v hv hV
  rw [hmap] at hV ⊢
  rw [hm.other i hij] at hv
  have hvU := lt_of_lt_of_le hv (pages_le ((h.slot i).shape hi).le)
  have hmem : PTE2PA (S.map i v) ∈ urefs S.phys.mem S.roots + L :=
    Multiset.mem_add.mpr (Or.inl (h.mem_urefs hi hvU hV))
  have := hroom v hv hV
  rw [show PTE2PA (S.map i v) / PGSIZE = PTE2PA (S.map i v) / 4096 from rfl] at this ⊢
  rw [h.count hmem] at this
  rw [h'.count (by rw [hrefs]; exact hmem), hrefs]
  exact this

/-! ## `fork` -/

/-- The memory of two processes, taken out. -/
theorem MemOk.open₂ (h : MemOk L S) (hij : i ≠ j) (hi : S.Live i) (hj : S.Live j) :
    S.roots = (S.proc i).pagetable ::ₘ (S.proc j).pagetable ::ₘ S.rootsBut₂ i j := by
  rw [Sys.roots_split₂ hij, pageRef_of_ne ((h.slot i).table hi), pageRef_of_ne ((h.slot j).table hj),
    Multiset.singleton_add, Multiset.singleton_add]

section

variable {lf lf₁ lf₂ : ℕ → Pte} {k sz : ℕ}

omit [Image] in
/-- The parent's entries. -/
theorem cowed_slot (hs : Shape lf sz) (hi : Inj lf) :
    Shape (mapPages cowed lf lf 0 k) sz ∧ Inj (mapPages cowed lf lf 0 k) := by
  have hV : ∀ v, (mapPages cowed lf lf 0 k v).has PTE_V = (lf v).has PTE_V := by
    intro v
    unfold mapPages
    split_ifs
    · exact cowed_V
    · rfl
  refine ⟨hs.congr fun v _ => hV v, hi.congr fun v _ hv => ⟨(hV v) ▸ hv, ?_⟩⟩
  unfold mapPages
  split_ifs
  · exact PTE2PA_cowed
  · rfl

/-- The child's entries. -/
theorem shared_slot (hs₁ : Shape lf₁ sz) (hi₁ : Inj lf₁) (hs₂ : Shape lf₂ 0)
    (hok : ∀ v < pages sz, okPage (PTE2PA (lf₁ v))) (hV : ∀ v < pages sz, (lf₁ v).has PTE_V = true) :
    Shape (mapPages shared lf₁ lf₂ 0 (pages sz)) sz ∧
      Inj (mapPages shared lf₁ lf₂ 0 (pages sz)) := by
  have hle := pages_le hs₁.le
  have hin : ∀ v < pages sz, mapPages shared lf₁ lf₂ 0 (pages sz) v = shared (lf₁ v) := fun v hv =>
    if_pos ⟨Nat.zero_le _, by omega⟩
  have hout : ∀ v, pages sz ≤ v → mapPages shared lf₁ lf₂ 0 (pages sz) v = lf₂ v := fun v hv =>
    if_neg (by omega)
  have hlt : ∀ v < UPAGES, (mapPages shared lf₁ lf₂ 0 (pages sz) v).has PTE_V = true →
      v < pages sz := by
    intro v hv hvV
    by_contra hge
    rw [hout v (by omega)] at hvV
    have := hs₂.user v hv hvV
    simp [pages] at this
  refine ⟨⟨hs₁.le, hlt, ?_, ?_, fun v h1 h2 => ?_⟩, fun v hv w hw h1 h2 he => ?_⟩
  · rw [hout _ hle]
    exact hs₂.frame
  · rw [hout _ (by omega)]
    exact hs₂.trampoline
  · rw [hout v (by omega)]
    exact hs₂.top v h1 h2
  · have hv' := hlt v hv h1
    have hw' := hlt w hw h2
    rw [hin v hv', hin w hw', PTE2PA_shared (hok v hv').1 (hok v hv').lt,
      PTE2PA_shared (hok w hw').1 (hok w hw').lt] at he
    exact hi₁ v hv w hw (hV v hv') (hV w hw') he

end

theorem MemOk.bystander {k : Fin NPROC} (h : MemOk L S)
    (hk : Keeps S.phys.mem T.phys.mem (foot S.phys.mem (S.rootsBut₂ i j) K L'))
    (hki : k ≠ i) (hkj : k ≠ j) (hproc : T.proc k = S.proc k) :
    SlotMem T.phys.mem (T.proc k) ∧ Kept S T k := by
  have hr := Sys.mem_rootsBut₂ (S := S) hki hkj
  have hsame : SameSlot (S.proc k) (T.proc k) := by
    rw [hproc]
    exact SameSlot.refl _
  exact ⟨((h.slot k).keeps hk.left.left hr).same hsame, h.kept hsame hr hk⟩

/-- The parent after its first `n` pages have been marked. -/
theorem MemOk.parent (h : MemOk L S) (hi : S.Live i) (hproc : T.proc i = S.proc i)
    (hkl : Keeps S.phys.mem T.phys.mem (leafRefs UPAGES (S.map i)))
    (hmap : ∀ v < VPAGES, T.map i v = mapPages cowed (S.map i) (S.map i) 0 n v) :
    SlotMem T.phys.mem (T.proc i) ∧
      Became T i (mapPages cowed (S.map i) (S.map i) 0 n) (S.proc i).sz ∧ SameBytes S T i := by
  have hslot := h.slot i
  obtain ⟨hS, hI⟩ := cowed_slot (k := n) (hslot.shape hi) (hslot.inj hi)
  have hl : T.Live i := by
    unfold Sys.Live
    rwa [hproc]
  refine ⟨⟨fun hu => absurd hu hl, fun _ => ?_, fun _ => ?_, fun _ => ?_, fun _ => ?_⟩,
    ⟨hl, hmap, by rw [hproc]⟩, fun a ha hV => ?_⟩
  · rw [hproc]
    exact hslot.table hi
  · rw [hproc]
    exact hslot.frame hi
  · rw [show (T.proc i).sz = (S.proc i).sz by rw [hproc]]
    exact hS.congr fun v hv => congrArg (Pte.has · PTE_V) (hmap v hv)
  · refine hI.congr fun v hv hV => ?_
    have he := hmap v (lt_trans hv (by decide))
    exact ⟨(congrArg (Pte.has · PTE_V) he).symm.trans hV, congrArg PTE2PA he⟩
  · have hpa : PTE2PA (T.map i (a / 4096)) = PTE2PA (S.map i (a / 4096)) := by
      rw [hmap _ (lt_trans ha (by decide))]
      unfold mapPages
      split_ifs
      · exact PTE2PA_cowed
      · rfl
    unfold Sys.byte userByte
    rw [hpa]
    exact hkl _ (mem_leafRefs.mpr ⟨_, ha, hV, rfl⟩) _ (Nat.mod_lt _ (by decide))

/-- The child after the pages of its parent have been mapped: it reads the same bytes. -/
theorem MemOk.child (h : MemOk L S) (hi : S.Live i) (hj : S.Live j) (hsz : (S.proc j).sz = 0)
    (hproc : T.proc j = { S.proc j with sz := (S.proc i).sz })
    (hvalid : ∀ v < pages (S.proc i).sz, (S.map i v).has PTE_V = true)
    (hkl : Keeps S.phys.mem T.phys.mem (leafRefs UPAGES (S.map i)))
    (hmap : ∀ v < VPAGES, T.map j v =
      mapPages shared (S.map i) (S.map j) 0 (pages (S.proc i).sz) v) :
    SlotMem T.phys.mem (T.proc j) ∧ (∀ v < pages (S.proc i).sz, T.map j v = shared (S.map i v)) ∧
      ∀ a, a / 4096 < pages (S.proc i).sz → T.byte j a = S.byte i a := by
  have hsi := h.slot i
  have hsj := h.slot j
  have hle := pages_le (hsi.shape hi).le
  have hok : ∀ v < pages (S.proc i).sz, okPage (PTE2PA (S.map i v)) := fun v hv =>
    h.heap.owns.ok_right (Multiset.mem_add.mpr (Or.inl
      (h.mem_urefs hi (lt_of_lt_of_le hv hle) (hvalid v hv))))
  have hin : ∀ v < pages (S.proc i).sz, T.map j v = shared (S.map i v) := by
    intro v hv
    rw [hmap v (lt_trans (lt_of_lt_of_le hv hle) (by decide))]
    exact if_pos ⟨Nat.zero_le _, by omega⟩
  have hsh := hsj.shape hj
  rw [hsz] at hsh
  obtain ⟨hS, hI⟩ := shared_slot (hsi.shape hi) (hsi.inj hi) hsh hok hvalid
  have hnew : ∀ v < VPAGES, leaf T.phys.mem (S.proc j).pagetable v =
      mapPages shared (S.map i) (S.map j) 0 (pages (S.proc i).sz) v := by
    intro v hv
    rw [← hmap v hv, Sys.map, hproc]
  refine ⟨?_, hin, fun a ha => ?_⟩
  · rw [hproc]
    refine ⟨fun hu => absurd hu hj, hsj.table, hsj.frame, fun _ => ?_, fun _ => ?_⟩
    · exact hS.congr fun v hv => congrArg (Pte.has · PTE_V) (hnew v hv)
    · refine hI.congr fun v hv hV => ?_
      have he := hnew v (lt_trans hv (by decide))
      exact ⟨(congrArg (Pte.has · PTE_V) he).symm.trans hV, congrArg PTE2PA he⟩
  · unfold Sys.byte userByte
    rw [hin _ ha, PTE2PA_shared (hok _ ha).1 (hok _ ha).lt]
    exact hkl _ (mem_leafRefs.mpr ⟨_, lt_of_lt_of_le ha hle, hvalid _ ha, rfl⟩) _
      (Nat.mod_lt _ (by decide))

/-- **`uvmcopy`** from process `i` to process `j`, which has no memory yet. -/
theorem MemOk.uvmcopy {r : ℤ} (h : MemOk L S) (hij : i ≠ j) (hi : S.Live i) (hj : S.Live j)
    (hsz : (S.proc j).sz = 0) (hroom : S.CopyRoom i)
    (hu : Xv6.uvmcopy (S.proc i).pagetable (S.proc j).pagetable (S.proc i).sz S.phys = .ok (r, s)) :
    (r = -1 ∧ ∃ p, MemOk (p ::ₘ L) { S with phys := s } ∧ Effect S { S with phys := s } []) ∨
      (r = 0 ∧ MemOk L ({ S with phys := s }.set j { S.proc j with sz := (S.proc i).sz }) ∧
        Effect S ({ S with phys := s }.set j { S.proc j with sz := (S.proc i).sz }) [.copy i j]) := by
  have hsi := h.slot i
  have hsj := h.slot j
  have hshape := hsi.shape hi
  have hroots := h.open₂ hij hi hj
  have hh := h.heap
  rw [hroots] at hh
  obtain ⟨hk, hkl, hcopy⟩ := hh.uvmcopy hshape.le (fun p hp => by
    rw [← hroots]
    exact h.room hi hroom hp) hu
  cases hcopy with
  | failed p k hres heap hk' hold lf' hnew hsame =>
    set T : Sys := { S with phys := s } with hT
    obtain ⟨h1, hB, hb⟩ := h.parent (T := T) hi rfl hkl hold
    -- the child still maps nothing
    have hj' : SlotMem T.phys.mem (T.proc j) ∧ Kept S T j := by
      have hmaps : SameMaps (S.map j) (leaf s.mem (S.proc j).pagetable) := by
        intro v hv
        rw [hnew v hv]
        exact hsame.sameMaps v hv
      obtain ⟨hS, hI⟩ := hmaps.slot (hsj.shape hj) (hsj.inj hj)
      refine ⟨⟨fun hu => absurd hu hj, hsj.table, hsj.frame, fun _ => hS, fun _ => hI⟩,
        Iff.rfl, fun _ => rfl, fun _ => hmaps, fun _ a ha hV => ?_⟩
      rw [hsj.empty hj hsz ha] at hV
      cases hV
    have hall : ∀ k, k ≠ i → SlotMem T.phys.mem (T.proc k) ∧ Kept S T k := by
      intro k hki
      by_cases hkj : k = j
      · exact hkj ▸ hj'
      · exact h.bystander hk hki hkj rfl
    refine Or.inl ⟨hres, p, ⟨?_, fun k => ?_⟩, .cowed hi hB hb fun k hki => (hall k hki).2⟩
    · rw [← hroots] at heap
      exact heap
    · by_cases hki : k = i
      · exact hki ▸ h1
      · exact (hall k hki).1
  | done hres heap hold hnew hvalid =>
    set T := { S with phys := s }.set j { S.proc j with sz := (S.proc i).sz } with hT
    have hTk : ∀ k, k ≠ j → T.proc k = S.proc k := fun k hkj => Sys.set_ne hkj
    have hTj : T.proc j = { S.proc j with sz := (S.proc i).sz } := Sys.set_self
    have hmapi : ∀ v < VPAGES, T.map i v =
        mapPages cowed (S.map i) (S.map i) 0 (pages (S.proc i).sz) v := by
      intro v hv
      unfold Sys.map
      rw [hTk i hij]
      exact hold v hv
    have hmapj : ∀ v < VPAGES, T.map j v =
        mapPages shared (S.map i) (S.map j) 0 (pages (S.proc i).sz) v := by
      intro v hv
      unfold Sys.map
      rw [hTj]
      exact hnew v hv
    obtain ⟨h1, hB, hb⟩ := h.parent hi (hTk i hij) hkl hmapi
    obtain ⟨hj', hin, hbj⟩ := h.child hi hj hsz hTj (fun v hv => (hvalid v hv).1) hkl hmapj
    have hslots : ∀ k, (T.proc k).pagetable = (S.proc k).pagetable ∧
        (T.proc k).trapframe = (S.proc k).trapframe := by
      intro k
      by_cases hkj : k = j
      · rw [hkj, hTj]
        exact ⟨rfl, rfl⟩
      · rw [hTk k hkj]
        exact ⟨rfl, rfl⟩
    refine Or.inr ⟨hres, ⟨?_, fun k => ?_⟩, .forked hij hi hj hB hb ?_ (by rw [hTj])
      (fun v hv => ⟨(hvalid v hv).1, hin v hv⟩) hbj
      fun k hki hkj => (h.bystander hk hki hkj (hTk k hkj)).2⟩
    · rw [Sys.roots_congr fun k => (hslots k).1, Sys.frames_congr fun k => (hslots k).2, hroots]
      exact heap
    · by_cases hki : k = i
      · exact hki ▸ h1
      · by_cases hkj : k = j
        · exact hkj ▸ hj'
        · exact (h.bystander hk hki hkj (hTk k hkj)).1
    · unfold Sys.Live
      rw [hTj]
      exact hj

/-- Writing to a page that some owner holds. -/
theorem Heap.memmove_mem {p off : ℕ} {bytes : ℕ → UInt8} (h : Heap s R K L) (hp : p ∈ K)
    (hn : off + n ≤ 4096) : Heap (s.memmove (p + off) n bytes) R K L ∧
      Keeps s.mem (s.memmove (p + off) n bytes).mem (foot s.mem R 0 L) := by
  obtain ⟨K', rfl⟩ := Multiset.exists_cons_of_mem hp
  obtain ⟨h1, h2⟩ := h.memmove hn
  exact ⟨h1, h2.foot_mono (Multiset.zero_le _)⟩

theorem Heap.setWord {p off x : ℕ} (h : Heap s R K L) (hp : p ∈ K) (hn : off + 8 ≤ 4096) :
    Heap (s.setWord (p + off) x) R K L ∧
      Keeps s.mem (s.setWord (p + off) x).mem (foot s.mem R 0 L) := h.memmove_mem hp hn

/-- A call of `uvmcopy` by `fork` fails. -/
def Sys.CopyFails (S : Sys) (i : Fin NPROC) : Prop := ∃ j S' r s,
  allocproc S = .ok (some j, S') ∧ Xv6.uvmcopy (S'.proc i).pagetable (S'.proc j).pagetable
    (S'.proc i).sz S'.phys = .ok (r, s) ∧ r < 0

/-- **`fork`**: the child gets a copy, or nothing happens; then a count may be taken for nothing. -/
theorem MemOk.fork (h : MemOk L S) (hi : S.Live i) (hroom : S.CopyRoom i) (hf : Fork i S T) :
    (∃ L', MemOk L' T ∧ (¬ S.CopyFails i → L' = L)) ∧
      ((Effect S T [] ∧ (S.CopyFails i ∨ Xv6.allocproc S = .ok (none, T))) ∨
        ∃ j S', Xv6.allocproc S = .ok (some j, S') ∧ Effect S T [.copy i j]) := by
  cases hf with
  | noProc ha =>
    obtain ⟨h1, h2, -⟩ := h.allocproc (allocproc_ok ha)
    exact ⟨⟨L, h1, fun _ => rfl⟩, Or.inl ⟨.kept (h2 rfl), Or.inr ha⟩⟩
  | failed j S' r s ha hu hr hfree =>
    obtain ⟨h1, -, h2⟩ := h.allocproc (allocproc_ok ha)
    have hm := h2 j rfl
    have hij : i ≠ j := fun he => hm.dead (he ▸ hi)
    have hi' := (hm.kept i hij).live.mpr hi
    have hroom' := hm.copyRoom h h1 hi hij hroom
    obtain ⟨-, p, h3, h4⟩ | ⟨h0, -⟩ := h1.uvmcopy hij hi' hm.live hm.sz hroom' hu
    · obtain ⟨h5, h6, h7⟩ := h3.freeproc hm.live hfree
      have hfails : S.CopyFails i := ⟨j, S', r, s, ha, hu, hr⟩
      exact ⟨⟨p ::ₘ L, h5, fun hn => absurd hfails hn⟩,
        Or.inl ⟨(Effect.made hm).trans (h4.trans (.freed h6 h7)), Or.inl hfails⟩⟩
    · omega
  | done j S' r s ha hu hr hT =>
    obtain ⟨h1, -, h2⟩ := h.allocproc (allocproc_ok ha)
    have hm := h2 j rfl
    have hij : i ≠ j := fun he => hm.dead (he ▸ hi)
    have hi' := (hm.kept i hij).live.mpr hi
    have hroom' := hm.copyRoom h h1 hi hij hroom
    obtain ⟨h0, -⟩ | ⟨-, h3, h4⟩ := h1.uvmcopy hij hi' hm.live hm.sz hroom' hu
    · omega
    · set U := { S' with phys := s }.set j { S'.proc j with sz := (S'.proc i).sz } with hU
      have hUj : U.proc j = { S'.proc j with sz := (S'.proc i).sz } := Sys.set_self
      -- the trapframe and the other fields of the child
      have htf : (S'.proc j).trapframe ∈ U.held + U.frames := by
        refine Multiset.mem_add.mpr (Or.inr ?_)
        have := Sys.mem_frames (S := U) (i := j) (by
          rw [hUj]
          exact (h1.slot j).frame hm.live)
        rwa [hUj] at this
      obtain ⟨h5, h6⟩ := @Heap.memmove_mem _ _ _ _ _ TF_SIZE _ 0
        (fun k => s.mem ((S'.proc i).trapframe + k)) h3.heap htf (by decide)
      obtain ⟨h7, h8⟩ := @Heap.setWord _ _ _ _ _ _ TF_A0 0 h5 htf (by decide)
      obtain ⟨h9, h10⟩ : MemOk L T ∧ ∀ k, Kept U T k := by
        refine h3.same (K := 0) (fun k => ?_) ?_ ?_
        · by_cases hk : k = j
          · subst hk
            rw [hUj, hT, Sys.set_self]
            exact ⟨⟨fun hu => (by cases hu), fun hu => absurd hu hm.live⟩, rfl, rfl, rfl⟩
          · rw [hT, Sys.set_ne hk, Sys.set_ne hk]
            exact SameSlot.refl _
        · rw [hT]
          exact h7
        · rw [hT]
          exact h6.foot_trans h8
      exact ⟨⟨L, h9, fun _ => rfl⟩,
        Or.inr ⟨j, S', ha, (Effect.made hm).trans (h4.trans_kept h10)⟩⟩

/-! ## `wait` -/

omit [Image] in
/-- What a round of `wait` writes. -/
def Sys.waitUpds (S : Sys) (i : Fin NPROC) (addr : ℕ) : List Upd :=
  match zombieChild i S with
  | some j => if addr = 0 then [] else [.write i addr 4 (intBytes (S.proc j).xstate)]
  | none => []

theorem MemOk.waitRound {addr : ℕ} {r : ℤ} (h : MemOk L S) (hi : (S.proc i).state = .RUNNING)
    (hw : WaitRound i addr S (some (r, T))) : MemOk L T ∧ T.proc i = S.proc i ∧
      ∃ us, Effect S T us ∧ Partly us (S.waitUpds i addr) ∧ (r ≠ -1 → us = S.waitUpds i addr) := by
  have hl : S.Live i := by
    unfold Sys.Live
    rw [hi]
    exact fun hu => by cases hu
  cases hw with
  | bad j r s hj h0 hr hc =>
    obtain ⟨h1, n, hn, -, h2⟩ := h.copyout hl hc
    refine ⟨h1, rfl, _, h2, ?_, fun hn => absurd rfl hn⟩
    unfold Sys.waitUpds
    simp only [hj, if_neg h0]
    exact .write hn
  | none hz =>
    refine ⟨h, rfl, [], .kept fun k => Kept.refl S k, .none _, fun _ => ?_⟩
    unfold Sys.waitUpds
    rw [hz]
  | reaped j r s T hj hc hf =>
    obtain ⟨-, hz⟩ : (S.proc j).parent = some i ∧ (S.proc j).state = .ZOMBIE := by
      simpa using findProc_some hj
    have hlj : S.Live j := by
      unfold Sys.Live
      rw [hz]
      exact fun hu => by cases hu
    have hij : i ≠ j := by
      rintro rfl
      rw [hi] at hz
      cases hz
    -- the status has been written, or there is no need to
    obtain ⟨h1, us, h2, hus⟩ : MemOk L { S with phys := s } ∧ ∃ us, Effect S { S with phys := s } us ∧
        us = S.waitUpds i addr := by
      unfold Sys.waitUpds
      rw [hj]
      rcases hc with ⟨h0, hr, hc⟩ | ⟨h0, rfl⟩
      · obtain ⟨h1, n, hn, hn', h2⟩ := h.copyout hl hc
        have hr0 : r = 0 := by
          unfold Xv6.copyout at hc
          split at hc
          · cases hc
          · cases hc
            split_ifs at hr ⊢
            · rfl
            · exact absurd (by decide) hr
        rw [hn' hr0] at h2
        exact ⟨h1, _, h2, (if_neg h0).symm⟩
      · exact ⟨h, _, .kept fun k => Kept.refl S k, (if_pos h0).symm⟩
    obtain ⟨h3, h4, h5⟩ := h1.freeproc hlj hf
    refine ⟨h3, ?_, us ++ [], h2.trans (.freed h4 h5), ?_, fun _ => by rw [List.append_nil, hus]⟩
    swap
    · rw [List.append_nil, hus]
      exact .refl _
    obtain ⟨_, _, -, -, rfl⟩ := freeproc_ok hf
    exact Sys.set_ne hij

/-- `sys_waitx` writes the times as well. -/
def Sys.waitxUpds (S : Sys) (i : Fin NPROC) (addr addr1 addr2 wtime rtime : ℕ) : List Upd :=
  S.waitUpds i addr ++ ([.write i addr1 4 (intBytes (S.waitTimes i wtime rtime).1)] ++
    [.write i addr2 4 (intBytes (S.waitTimes i wtime rtime).2)])

theorem MemOk.waitx {addr addr1 addr2 wtime rtime : ℕ} {r : ℤ} (h : MemOk L S)
    (hi : (S.proc i).state = .RUNNING)
    (hw : sys_waitx i addr addr1 addr2 wtime rtime S = .ok (some (r, T))) : MemOk L T ∧
      ∃ us, Effect S T us ∧ Partly us (S.waitxUpds i addr addr1 addr2 wtime rtime) ∧
        (r ≠ -1 → us = S.waitxUpds i addr addr1 addr2 wtime rtime) := by
  have hl : ∀ {S' : Sys}, S'.proc i = S.proc i → S'.Live i := by
    intro S' he
    unfold Sys.Live
    rw [he, hi]
    exact fun hu => by cases hu
  have hzero : ∀ {pagetable dstva len : ℕ} {bytes : ℕ → UInt8} {s s' : Phys} {r : ℤ},
      Xv6.copyout pagetable dstva bytes len s = .ok (r, s') → ¬ r < 0 → r = 0 := by
    intro pagetable dstva len bytes s s' r hc hr
    unfold Xv6.copyout at hc
    split at hc
    · cases hc
    · cases hc
      split_ifs at hr ⊢
      · rfl
      · exact absurd (by decide) hr
  obtain ⟨hx, -⟩ | ⟨r', S', r₁, s, hround, -, hc₁, hx⟩ := sys_waitx_ok hw
  · cases hx
  · obtain ⟨h1, hself, us, h2, hp, hus⟩ := h.waitRound hi hround
    obtain ⟨h3, n₁, hle₁, hn₁, h4⟩ := h1.copyout (hl hself) hc₁
    rcases hx with ⟨-, hx⟩ | ⟨hr₁, r₂, s', hc₂, hx⟩
    · cases hx
      refine ⟨h3, us ++ _, h2.trans h4, hp.append ?_, fun hn => absurd rfl hn⟩
      exact .short hle₁ (.none _)
    · obtain ⟨h5, n₂, hle₂, hn₂, h6⟩ := h3.copyout (i := i) (S := { S' with phys := s }) (hl hself) hc₂
      cases hx
      refine ⟨h5, _, h2.trans (h4.trans h6), hp.append (.short hle₁ (.write hle₂)), fun hr => ?_⟩
      split_ifs at hr with hr₂
      · exact absurd rfl hr
      · rw [hus hr, hn₁ (hzero hc₁ hr₁), hn₂ (hzero hc₂ hr₂)]
        rfl

/-! ## `exec` -/

omit [Image] in
theorem Heap.tabs_mem {m m' : ByteStore} {r : ℕ} (h : Keeps m m' (foot m (r ::ₘ R) K L)) :
    leaf m' r = leaf m r := h.left.left.leaf_eq (Multiset.mem_cons_self r R)

omit [Image] in
theorem Loaded.kept_trans {U : Sys} (h : Loaded T U i) (h' : ∀ j, Kept S T j) : Loaded S U i :=
  ⟨h.live, h.full, h.plain, fun j hj => (h' j).trans (h.kept j hj)⟩

theorem Loaded.trans_kept {U : Sys} (h : Loaded S T i) (hT : MemOk L T) (h' : ∀ j, Kept T U j) :
    Loaded S U i := by
  have hmap := (h' i).map h.live
  have hle := ((hT.slot i).shape h.live).le
  refine ⟨(h' i).live.mpr h.live, ?_, fun v hv hV => ?_, fun j hj => (h.kept j hj).trans (h' j)⟩
  · rw [(h' i).sz h.live]
    exact h.full.congr hle fun v hv => (hmap v hv).1
  · obtain ⟨h1, h2⟩ := hmap v (lt_trans hv (by decide))
    rw [h1] at hV
    rw [h2 hV]
    exact h.plain v hv hV

/-- Pages in other hands play no role. -/
theorem Exec.hold {argv : List (List UInt8)} {r : ℤ} (h : Exec i argv S T r) (H : Multiset ℕ) :
    Exec i argv { S with held := H } { T with held := H } r := by
  cases h with
  | noFile hT =>
    subst hT
    exact .noFile rfl
  | failed ip pagetable sz s s' hb hf hT =>
    subst hT
    exact .failed ip pagetable sz s s' hb hf rfl
  | done ip sp pagetable sz entry name s s' hb hf hT =>
    subst hT
    exact .done ip sp pagetable sz entry name s s' hb hf rfl

/-- The registers that `exec` sets. -/
def setRegs (s : Phys) (trapframe sp entry : ℕ) : Phys :=
  ((s.setWord (trapframe + TF_A1) sp).setWord (trapframe + TF_EPC) entry).setWord (trapframe + TF_SP) sp

/-- Setting the registers: both images are there. -/
theorem MemOk.registers {ip : Inode} {argv : List (List UInt8)} {sp pagetable sz : ℕ} (entry : ℕ)
    (h : MemOk L S) (hi : S.Live i)
    (hb : buildImage (S.proc i).trapframe ip argv S.phys = .ok (some sp, pagetable, sz, s)) :
    pagetable ≠ 0 ∧ Built S.phys s pagetable sz S.roots (S.held + S.frames) L ∧
      Heap (setRegs s (S.proc i).trapframe sp entry)
        ((S.proc i).pagetable ::ₘ pagetable ::ₘ S.rootsBut i) (S.held + S.frames) L ∧
      Keeps s.mem (setRegs s (S.proc i).trapframe sp entry).mem
        (foot s.mem ((S.proc i).pagetable ::ₘ pagetable ::ₘ S.rootsBut i) 0 L) := by
  obtain ⟨-, ho, -⟩ | ⟨h0, h1⟩ := h.heap.buildImage hb
  · cases ho
  have htf : (S.proc i).trapframe ∈ S.held + S.frames :=
    Multiset.mem_add.mpr (Or.inr (Sys.mem_frames ((h.slot i).frame hi)))
  have hroots : S.roots = (S.proc i).pagetable ::ₘ S.rootsBut i := by
    rw [S.roots_split i, pageRef_of_ne ((h.slot i).table hi), Multiset.singleton_add]
  obtain ⟨h2, hk2⟩ := @Heap.setWord _ _ _ _ _ _ TF_A1 sp h1.heap htf (by decide)
  obtain ⟨h3, hk3⟩ := @Heap.setWord _ _ _ _ _ _ TF_EPC entry h2 htf (by decide)
  obtain ⟨h4, hk4⟩ := @Heap.setWord _ _ _ _ _ _ TF_SP sp h3 htf (by decide)
  have hk4 := (hk2.foot_trans hk3).foot_trans hk4
  rw [hroots, Multiset.cons_swap] at h4 hk4
  exact ⟨h0, h1, h4, hk4⟩

/-- **The commit of `exec`**: the registers are set and the old image is freed; the new one stays. -/
theorem MemOk.commit {ip : Inode} {argv : List (List UInt8)} {sp pagetable sz entry : ℕ} (h : MemOk L S)
    (hi : S.Live i) (hb : buildImage (S.proc i).trapframe ip argv S.phys = .ok (some sp, pagetable, sz, s))
    (hf : proc_freepagetable (S.proc i).pagetable (S.proc i).sz
      (setRegs s (S.proc i).trapframe sp entry) = .ok s') :
    pagetable ≠ 0 ∧ Built S.phys s pagetable sz S.roots (S.held + S.frames) L ∧
      Heap s' (pagetable ::ₘ S.rootsBut i) (S.held + S.frames) L ∧
      Keeps s.mem s'.mem (foot s.mem (pagetable ::ₘ S.rootsBut i) 0 L) ∧
      PageEq (setRegs s (S.proc i).trapframe sp entry).mem s'.mem (S.proc i).trapframe := by
  obtain ⟨h0, h1, h4, hk4⟩ := h.registers entry hi hb
  have htf : (S.proc i).trapframe ∈ S.held + S.frames :=
    Multiset.mem_add.mpr (Or.inr (Sys.mem_frames ((h.slot i).frame hi)))
  obtain ⟨h5, hk5⟩ := h4.proc_freepagetable ((h.slot i).shape hi).le hf
  exact ⟨h0, h1, h5, hk4.foot_tail.foot_trans (hk5.foot_mono (Multiset.zero_le _)),
    hk5 _ (Multiset.mem_add.mpr (Or.inl (Multiset.mem_add.mpr (Or.inr htf))))⟩

/-- An image that is given up leaves nothing. -/
theorem Heap.giveUp {ip : Inode} {argv : List (List UInt8)} {trapframe pagetable sz : ℕ} {s₀ : Phys}
    (h : Heap s₀ R K L) (hb : Xv6.buildImage trapframe ip argv s₀ = .ok (none, pagetable, sz, s))
    (hf : (if pagetable ≠ 0 then Xv6.proc_freepagetable pagetable sz s else .ok s) = .ok s') :
    Heap s' R K L ∧ Keeps s₀.mem s'.mem (foot s₀.mem R K L) := by
  rcases h.buildImage hb with ⟨rfl, -, h1, hk1⟩ | ⟨h0, h1⟩
  · rw [if_neg (by decide)] at hf
    cases hf
    exact ⟨h1, hk1⟩
  · rw [if_pos h0] at hf
    obtain ⟨h2, hk2⟩ := h1.heap.proc_freepagetable h1.shape.le hf
    exact ⟨h2, h1.keeps.foot_trans hk2⟩

/-- **`exec`** replaces the memory by a new image, or leaves it. -/
theorem MemOk.exec {argv : List (List UInt8)} {r : ℤ} (h : MemOk L S) (hi : S.Live i)
    (he : Exec i argv S T r) : MemOk L T ∧ T.held = S.held ∧
      ((r = -1 ∧ ∀ j, Kept S T j) ∨ (r ≠ -1 ∧ Loaded S T i)) := by
  cases he with
  | noFile hT =>
    subst hT
    exact ⟨h, rfl, Or.inl ⟨rfl, fun j => Kept.refl T j⟩⟩
  | failed ip pagetable sz s s' hb hf hT =>
    obtain ⟨h1, hk1⟩ := h.heap.giveUp hb hf
    subst hT
    obtain ⟨h2, h3⟩ := h.same (T := { S with phys := s' }) (fun j => SameSlot.refl _) h1 hk1
    exact ⟨h2, rfl, Or.inl ⟨rfl, h3⟩⟩
  | done ip sp pagetable sz entry name s s' hb hf hT =>
    obtain ⟨h0, h1, h5, hk, -⟩ := h.commit hi hb hf
    have hslot := h.slot i
    have hleaf : leaf s'.mem pagetable = leaf s.mem pagetable := Heap.tabs_mem hk
    have hbut : Keeps S.phys.mem s'.mem (foot S.phys.mem (S.rootsBut i) 0 L) :=
      (h1.keeps.foot_rootsBut.foot_mono (Multiset.zero_le _)).foot_trans hk.foot_tail
    have hplain : Plain (leaf s'.mem pagetable) := by
      rw [hleaf]
      exact h1.plain
    have hproc : T.proc = Function.update S.proc i { S.proc i with
        name := name, pagetable := pagetable, sz := sz } := by rw [hT]; rfl
    have hphys : T.phys = s' := by rw [hT]; rfl
    have hheld : T.held = S.held := by rw [hT]; rfl
    obtain ⟨h6, h7⟩ : MemOk L T ∧ ∀ j ≠ i, Kept S T j := by
      refine h.put hproc ?_ (by rw [hphys]; exact hbut) ?_
      · rw [hphys, hheld]
        show Heap s' (pageRef pagetable + S.rootsBut i)
          (S.held + (pageRef (S.proc i).trapframe + S.framesBut i)) L
        rw [pageRef_of_ne h0, Multiset.singleton_add, ← S.frames_split i]
        exact h5
      · rw [hphys]
        refine ⟨fun hu => absurd hu hi, fun _ => h0, hslot.frame, fun _ => ?_,
          fun _ => hplain.inj h5.space.user⟩
        show Shape (leaf s'.mem pagetable) sz
        rw [hleaf]
        exact h1.shape
    have hself : T.proc i = { S.proc i with name := name, pagetable := pagetable, sz := sz } := by
      rw [hproc, Function.update_self]
    have hmap : T.map i = leaf s.mem pagetable := by
      unfold Sys.map
      rw [hself, hphys]
      exact hleaf
    refine ⟨h6, hheld, Or.inr ⟨by omega, ?_, ?_, ?_, h7⟩⟩
    · unfold Sys.Live
      rw [hself]
      exact hi
    · rw [hmap, hself]
      exact h1.full
    · rw [hmap]
      exact h1.plain

/-- **`sys_exec`** gives back the pages of the arguments. -/
theorem MemOk.sys_exec {upath uargv : ℕ} {namei : List UInt8 → Option Inode} {r : ℤ}
    (h : MemOk L S) (hi : S.Live i) (he : Xv6.sys_exec i upath uargv namei S = .ok (r, T)) :
    MemOk L T ∧ T.held = S.held ∧
      ((r = -1 ∧ Effect S T []) ∨ (r ≠ -1 ∧ Effect S T [.load i (T.byte i)])) := by
  obtain ⟨hr, rfl⟩ | ⟨ok, argv, s, S', s', hfetch, hexec, hfree, hT⟩ := sys_exec_ok he
  · exact ⟨h, rfl, Or.inl ⟨hr, .kept fun j => Kept.refl T j⟩⟩
  · obtain ⟨h1, hk1⟩ := h.heap.fetchArgs hfetch
    -- the pages of the arguments are in other hands while `exec` runs
    set S₁ : Sys := { S with phys := s, held := argPages argv + S.held } with hS₁
    obtain ⟨h2, h3⟩ : MemOk L S₁ ∧ ∀ j, Kept S S₁ j := by
      refine h.same (fun j => SameSlot.refl _) ?_ hk1
      rw [show S₁.held = argPages argv + S.held from rfl, add_assoc]
      exact h1
    have hexec' : MemOk L { S' with held := argPages argv + S.held } ∧ S'.held = S.held ∧
        ((r = -1 ∧ ∀ j, Kept S₁ { S' with held := argPages argv + S.held } j) ∨
          (r ≠ -1 ∧ Loaded S₁ { S' with held := argPages argv + S.held } i)) := by
      rcases hexec with ⟨hr, rfl⟩ | he
      · exact ⟨h2, rfl, Or.inl ⟨hr, fun j => Kept.refl S₁ j⟩⟩
      · have hheld : S'.held = S.held := by
          cases he with
          | noFile hT => rw [hT]
          | failed ip pagetable sz s s' hb hf hT => rw [hT]
          | done ip sp pagetable sz entry name s s' hb hf hT => rw [hT]; rfl
        obtain ⟨h4, -, h5⟩ := MemOk.exec (S := S₁) h2 hi (he.hold (argPages argv + S.held))
        exact ⟨h4, hheld, h5⟩
    obtain ⟨h4, hheld, h5⟩ := hexec'
    set S₂ : Sys := { S' with held := argPages argv + S.held } with hS₂
    have h6 := h4.heap
    rw [show S₂.held = argPages argv + S.held from rfl, add_assoc] at h6
    obtain ⟨h7, hk7⟩ := h6.freePages hfree
    obtain ⟨h8, h9⟩ : MemOk L T ∧ ∀ j, Kept S₂ T j := by
      refine h4.same (fun j => ?_) ?_ (K := S.held + S₂.frames) ?_
      · rw [hT]
        exact SameSlot.refl _
      · rw [hT]
        show Heap s' S₂.roots (S'.held + S₂.frames) L
        rw [hheld]
        exact h7
      · rw [hT]
        exact hk7
    refine ⟨h8, ?_, ?_⟩
    · rw [hT]
      exact hheld
    · rcases h5 with ⟨hr, h5⟩ | ⟨hr, h5⟩
      · exact Or.inl ⟨hr, .kept fun j => ((h3 j).trans (h5 j)).trans (h9 j)⟩
      · exact Or.inr ⟨hr, .loaded ((h5.kept_trans h3).trans_kept h4 h9)⟩

end Xv6
