import Xv6.Mem.Teardown
import Xv6.Mem.UserAccess

/-!
# Heap — all page tables over one allocator

`Heap s R K L`: the allocator accounts exactly for the page tables rooted at `R`, the user pages
that they map, the pages `K` that other owners hold, and `L`, counts taken for nothing; and all page
tables keep to the rules `UserOk`.

A function that works on the page table `r` is specified by its `Heap (r ::ₘ R)`: the head is opened
(`Heap.space`), changed and put back (`Heap.put`).  What the others see is kept (`Keeps`).
-/

namespace Xv6

/-- The table pages of the page tables `R`. -/
def tabs (m : ByteStore) (R : Multiset ℕ) : Multiset ℕ := (R.map (tables m)).sum

/-- The references to user pages that the page tables `R` make. -/
def urefs (m : ByteStore) (R : Multiset ℕ) : Multiset ℕ :=
  (R.map fun r => leafRefs UPAGES (leaf m r)).sum

section

variable {m m' : ByteStore} {r p : ℕ} {R A A' X : Multiset ℕ}

@[simp] theorem tabs_zero : tabs m 0 = 0 := rfl

@[simp] theorem urefs_zero : urefs m 0 = 0 := rfl

@[simp] theorem tabs_cons : tabs m (r ::ₘ R) = tables m r + tabs m R := by
  simp [tabs]

@[simp] theorem urefs_cons : urefs m (r ::ₘ R) = leafRefs UPAGES (leaf m r) + urefs m R := by
  simp [urefs]

theorem tables_le (hr : r ∈ R) : tables m r ≤ tabs m R := by
  obtain ⟨R', rfl⟩ := Multiset.exists_cons_of_mem hr
  rw [tabs_cons]
  exact Multiset.le_add_right _ _

theorem leafRefs_le (hr : r ∈ R) : leafRefs UPAGES (leaf m r) ≤ urefs m R := by
  obtain ⟨R', rfl⟩ := Multiset.exists_cons_of_mem hr
  rw [urefs_cons]
  exact Multiset.le_add_right _ _

theorem Keeps.tables_eq (h : Keeps m m' (tabs m R)) (hr : r ∈ R) : tables m' r = tables m r :=
  tablesAt_congr fun t ht => h t (Multiset.mem_of_le (tables_le hr) ht)

theorem Keeps.leaf_eq (h : Keeps m m' (tabs m R)) (hr : r ∈ R) : leaf m' r = leaf m r :=
  funext fun _ => leafAt_congr fun t ht => h t (Multiset.mem_of_le (tables_le hr) ht)

theorem Keeps.tabs_eq (h : Keeps m m' (tabs m R)) : tabs m' R = tabs m R := by
  unfold tabs
  rw [Multiset.map_congr rfl fun r hr => h.tables_eq hr]

theorem Keeps.urefs_eq (h : Keeps m m' (tabs m R)) : urefs m' R = urefs m R := by
  unfold urefs
  rw [Multiset.map_congr rfl fun r hr => by rw [h.leaf_eq hr]]

/-- Another page table's user memory is as before. -/
theorem Keeps.userByte_eq (h : Keeps m m' (tabs m R)) (h' : Keeps m m' (urefs m R)) (hr : r ∈ R)
    {a : ℕ} (ha : a / 4096 < UPAGES) (hV : (leaf m r (a / 4096)).has PTE_V = true) :
    userByte m' (leaf m' r) a = userByte m (leaf m r) a := by
  rw [h.leaf_eq hr]
  exact userByte_congr (h' _ (Multiset.mem_of_le (leafRefs_le hr) (mem_leafRefs.mpr ⟨_, ha, hV, rfl⟩)))

theorem count_one (hone : (A + X).count p = 1) (hp : p ∈ X) (h : p ∉ A → p ∉ A') :
    (A' + X).count p = 1 := by
  have hX := Multiset.count_pos.mpr hp
  rw [Multiset.count_add] at hone ⊢
  have hA : A.count p = 0 := by omega
  have hA' := Multiset.count_eq_zero.mpr (h (Multiset.count_eq_zero.mp hA))
  omega

theorem UserOk.congr {lf lf' : ℕ → Pte} {F : Multiset ℕ} (h : UserOk lf F)
    (hl : ∀ v < VPAGES, lf' v = lf v) : UserOk lf' F := by
  intro v hv
  rw [hl v hv]
  exact h v hv

end

variable [Image] {s s' : Phys} {r n va : ℕ} {R K K' L L' F T' : Multiset ℕ} {lf' : ℕ → Pte}
  {perm : Pte}

structure Heap (s : Phys) (R K L : Multiset ℕ) : Prop where
  owns : Owns s (tabs s.mem R + K) (urefs s.mem R + L)
  user : ∀ r ∈ R, UserOk (leaf s.mem r) (urefs s.mem R + L)

/-- Opening the page table at the head. -/
theorem Heap.space (h : Heap s (r ::ₘ R) K L) : Space s r (tables s.mem r) (leaf s.mem r)
    (tabs s.mem R + K) (urefs s.mem R + L) := by
  have ho := h.owns
  have hu := h.user r (Multiset.mem_cons_self r R)
  rw [tabs_cons, urefs_cons, add_assoc, add_assoc] at ho
  rw [urefs_cons, add_assoc] at hu
  exact ⟨⟨rfl, fun _ _ => rfl⟩, ho, hu⟩

omit [Image] in
/-- The other page tables, in a memory where their pages have got no further reference. -/
theorem Heap.others (h : ∀ q ∈ R, UserOk (leaf s.mem q) F) (hk : Keeps s.mem s'.mem (tabs s.mem R))
    (hone : ∀ p ∈ urefs s.mem R, F.count p = 1 → T'.count p = 1) :
    ∀ q ∈ R, UserOk (leaf s'.mem q) T' := by
  intro q hq
  rw [hk.leaf_eq hq]
  intro v hv
  refine (h q hq v hv).mono fun hvU hV hF => hone _ (Multiset.mem_of_le (leafRefs_le hq) ?_) hF
  exact mem_leafRefs.mpr ⟨v, hvU, hV, rfl⟩

/-- **Putting a changed page table back.** -/
theorem Heap.put (h : ∀ q ∈ R, UserOk (leaf s.mem q) F) (hk : Keeps s.mem s'.mem (tabs s.mem R))
    (hS : Space s' r T' lf' (tabs s.mem R + K') (urefs s.mem R + L'))
    (hone : ∀ p ∈ urefs s.mem R, F.count p = 1 →
      (leafRefs UPAGES lf' + (urefs s.mem R + L')).count p = 1) : Heap s' (r ::ₘ R) K' L' := by
  have hrefs : leafRefs UPAGES (leaf s'.mem r) = leafRefs UPAGES lf' :=
    leafRefs_congr fun v hv => by rw [hS.tree.leaf v (lt_trans hv (by decide))]
  refine ⟨?_, fun q hq => ?_⟩
  · rw [tabs_cons, urefs_cons, hrefs, hk.tabs_eq, hk.urefs_eq, add_assoc, add_assoc,
      show tables s'.mem r = T' from hS.tree.tables]
    exact hS.owns
  · rw [urefs_cons, hrefs, hk.urefs_eq, add_assoc]
    rcases Multiset.mem_cons.mp hq with rfl | hq
    · exact hS.user.congr hS.tree.leaf
    · exact Heap.others h hk hone q hq

/-- The same when no page of the others is mapped that was not mapped before. -/
theorem Heap.put_own (h : Heap s (r ::ₘ R) K L) (hk : Keeps s.mem s'.mem (tabs s.mem R))
    (hS : Space s' r T' lf' (tabs s.mem R + K') (urefs s.mem R + L))
    (hown : ∀ p ∈ urefs s.mem R, p ∉ leafRefs UPAGES (leaf s.mem r) → p ∉ leafRefs UPAGES lf') :
    Heap s' (r ::ₘ R) K' L := by
  refine Heap.put (fun q hq => h.user q (Multiset.mem_cons_of_mem hq)) hk hS fun p hp hone => ?_
  rw [urefs_cons, add_assoc] at hone
  exact count_one hone (Multiset.mem_add.mpr (Or.inl hp)) (hown p hp)

/-- A page table that is gone. -/
theorem Heap.drop (h : Heap s (r ::ₘ R) K L) (hk : Keeps s.mem s'.mem (tabs s.mem R))
    (hO : Owns s' (tabs s.mem R + K') (urefs s.mem R + L)) : Heap s' R K' L := by
  refine ⟨by rw [hk.tabs_eq, hk.urefs_eq]; exact hO, ?_⟩
  rw [hk.urefs_eq]
  refine Heap.others (fun q hq => h.user q (Multiset.mem_cons_of_mem hq)) hk fun p hp hone => ?_
  rw [urefs_cons, add_assoc] at hone
  rw [← zero_add (urefs s.mem R + L)]
  exact count_one hone (Multiset.mem_add.mpr (Or.inl hp)) fun _ => Multiset.notMem_zero p

/-! ## User permissions -/

/-- The permissions that callers of `uvmalloc` pass: `PTE_W` and `PTE_X` only. -/
def UserPerm (perm : Pte) : Prop := perm &&& (PTE_W ||| PTE_X) = perm

instance (perm : Pte) : Decidable (UserPerm perm) := inferInstanceAs (Decidable (_ = _))

/-- The entry that `uvmalloc` writes for the page `p`. -/
def userEntry (perm : Pte) (p : ℕ) : Pte := PA2PTE p ||| (PTE_R ||| PTE_U ||| perm) ||| PTE_V

section

variable {p : ℕ} {f : Pte}

omit [Image] in
theorem UserPerm.low (h : UserPerm perm) : Low perm := by
  unfold UserPerm at h
  unfold Low
  rw [← h, BitVec.and_assoc]
  rfl

omit [Image] in
theorem userEntry_has (hf : Low f) (hR : PTE_R &&& f = 0#64)
    (hU : PTE_U &&& f = 0#64) (hV : PTE_V &&& f = 0#64) :
    (userEntry perm p).has f = perm.has f := by
  unfold userEntry
  rw [has_or_of_disjoint hV, has_PA2PTE hf]
  unfold Pte.has
  rw [BitVec.and_or_distrib_right, BitVec.and_or_distrib_right, hR, hU]
  simp

omit [Image] in
theorem userEntry_COW (h : UserPerm perm) : (userEntry perm p).has PTE_COW = false := by
  rw [userEntry_has (by decide) (by decide) (by decide) (by decide), ← h]
  unfold Pte.has
  rw [BitVec.and_assoc, show (PTE_W ||| PTE_X) &&& PTE_COW = 0#64 by decide]
  simp

omit [Image] in
@[simp] theorem userEntry_V : (userEntry perm p).has PTE_V = true := has_or_self (by decide)

omit [Image] in
theorem userEntry_R : (userEntry perm p).has PTE_R = true := by
  unfold userEntry
  rw [has_or_of_disjoint (by decide), has_PA2PTE (by decide), BitVec.or_assoc, BitVec.or_comm]
  exact has_or_self (by decide)

theorem PTE2PA_userEntry (h : UserPerm perm) (hp : okPage p) : PTE2PA (userEntry perm p) = p := by
  unfold userEntry
  rw [BitVec.or_assoc]
  exact PTE2PA_map ((Low.or (by decide) h.low).or (by decide)) hp.1 hp.lt

/-- Fresh pages keep to the rules. -/
theorem Mapped.userOk {lf : ℕ → Pte} {a : ℕ} {N : Multiset ℕ} (hperm : UserPerm perm)
    (h : Mapped (PTE_R ||| PTE_U ||| perm) lf lf' a n N) (hu : UserOk lf F) (hN : ∀ p ∈ N, p ∉ F)
    (hn : n = 0 ∨ a + n ≤ UPAGES) : UserOk lf' (F + N) := by
  intro v hv
  by_cases hin : a ≤ v ∧ v < a + n
  · obtain ⟨p, hp, hok, he⟩ := h.page v hin.1 hin.2
    have he : lf' v = userEntry perm p := he
    rw [he]
    refine EntryOk.own (fun _ => userEntry_R) (fun hle => absurd hle (by omega))
      (userEntry_COW hperm) fun _ => ?_
    rw [PTE2PA_userEntry hperm hok, Multiset.count_add, Multiset.count_eq_zero.mpr (hN p hp),
      Multiset.count_eq_one_of_mem h.nodup hp]
  · rw [h.same v (by omega)]
    refine (hu v hv).mono fun _ _ hone => ?_
    have hmem : PTE2PA (lf v) ∈ F := Multiset.count_pos.mp (by omega)
    rw [Multiset.count_add, hone, Multiset.count_eq_zero.mpr fun hm => hN _ hm hmem]

end

/-! ## Growing and shrinking -/

/-- The pages in use. -/
abbrev foot (m : ByteStore) (R K L : Multiset ℕ) : Multiset ℕ := tabs m R + K + (urefs m R + L)

omit [Image] in
theorem Keeps.foot {m m' : ByteStore} {A : Multiset ℕ}
    (h : Keeps m m' (tabs m R + K + (A + (urefs m R + L)))) : Keeps m m' (foot m R K L) :=
  h.left.add h.right.right

omit [Image] in
theorem SameMap.userOk {lf : ℕ → Pte} (h : SameMap lf lf') (hu : UserOk lf F) : UserOk lf' F := by
  intro v hv
  rcases h v with he | ⟨-, he⟩
  · rw [he]
    exact hu v hv
  · rw [he]
    exact EntryOk.zero

/-- What `uvmalloc` has done to the page table `r`. -/
inductive Alloced (s s' : Phys) (r oldsz newsz : ℕ) (perm : Pte) (res : ℕ) : Prop where
  | done (lf' : ℕ → Pte) (N : Multiset ℕ) (hleaf : ∀ v < VPAGES, leaf s'.mem r v = lf' v)
      (hres : res = max oldsz newsz) (hle : res ≤ TRAPFRAME)
      (hmap : Mapped (PTE_R ||| PTE_U ||| perm) (leaf s.mem r) lf' (pages oldsz)
        (pages newsz - pages oldsz) N)
      (hzero : ∀ p ∈ N, ∀ i < 4096, s'.mem (p + i) = 0)
  | failed (lf' : ℕ → Pte) (hleaf : ∀ v < VPAGES, leaf s'.mem r v = lf' v) (hres : res = 0)
      (hsame : SameMap (leaf s.mem r) lf')

theorem Heap.uvmalloc {oldsz newsz res : ℕ} (h : Heap s (r ::ₘ R) K L) (hperm : UserPerm perm)
    (hsz : oldsz ≤ TRAPFRAME)
    (hroom : (leaf s.mem r UPAGES).has PTE_V = true ∨ newsz ≤ TRAPFRAME)
    (hu : Xv6.uvmalloc r oldsz newsz perm s = .ok (res, s')) : Heap s' (r ::ₘ R) K L ∧
      Keeps s.mem s'.mem (foot s.mem R K L) ∧
      Keeps s.mem s'.mem (leafRefs UPAGES (leaf s.mem r)) ∧ Alloced s s' r oldsz newsz perm res := by
  have hS := h.space
  obtain ⟨T', lf', hT', hO', hk, hcases⟩ := uvmalloc_spec hperm.low hS.tree hS.owns hsz hroom hu
  have hk' : Keeps s.mem s'.mem (foot s.mem R K L) := hk.foot
  refine ⟨?_, hk', hk.right.left, ?_⟩
  · rcases hcases with ⟨hres, hle, N, hN, hfresh⟩ | ⟨-, hsame⟩
    · refine h.put_own hk'.left.left ⟨hT', hO', ?_⟩ fun p hp hn => ?_
      · rw [hN.refs, add_right_comm]
        refine hN.userOk hperm hS.user (fun p hp => (hfresh p hp).1) ?_
        have : max oldsz newsz ≤ 274877898752 := hres ▸ hle
        show _ ∨ _ ≤ 67108862
        unfold pages
        omega
      · rw [hN.refs, Multiset.mem_add, not_or]
        refine ⟨hn, fun hpN => (hfresh p hpN).1 ?_⟩
        simp only [Multiset.mem_add]
        tauto
    · refine h.put_own hk'.left.left ⟨hT', hO', ?_⟩ fun p hp hn => ?_
      · rw [hsame.leafRefs_eq]
        exact hsame.userOk hS.user
      · rwa [hsame.leafRefs_eq]
  · rcases hcases with ⟨hres, hle, N, hN, hfresh⟩ | ⟨hres, hsame⟩
    · exact .done lf' N hT'.leaf hres hle hN fun p hp => (hfresh p hp).2
    · exact .failed lf' hT'.leaf hres hsame

omit [Image] in
theorem UserOk.clear {lf : ℕ → Pte} {a : ℕ} {X : Multiset ℕ} (h : UserOk lf (leafRefs UPAGES lf + X)) :
    UserOk (clearPages lf a n) (leafRefs UPAGES (clearPages lf a n) + X) := by
  intro v hv
  by_cases hin : a ≤ v ∧ v < a + n
  · rw [clearPages, if_pos hin]
    exact EntryOk.zero
  · have he : clearPages lf a n v = lf v := if_neg hin
    rw [he]
    refine (h v hv).mono fun hvU hV hone => ?_
    -- the page keeps this reference, and has no other
    have hmem : PTE2PA (lf v) ∈ leafRefs UPAGES (clearPages lf a n) :=
      mem_leafRefs.mpr ⟨v, hvU, by rw [he]; exact hV, by rw [he]⟩
    have hsub : leafRefs UPAGES (clearPages lf a n) ≤ leafRefs UPAGES lf := leafRefs_clear_le
    have hle := Multiset.count_le_of_le (PTE2PA (lf v)) hsub
    have hpos := Multiset.count_pos.mpr hmem
    rw [Multiset.count_add] at hone ⊢
    omega

/-- Page table `r` has lost the pages `a, …, a + n - 1`. -/
structure Cleared (s s' : Phys) (r a n : ℕ) : Prop where
  leaf : ∀ v < VPAGES, leaf s'.mem r v = clearPages (Xv6.leaf s.mem r) a n v
  keeps : Keeps s.mem s'.mem (leafRefs UPAGES (clearPages (Xv6.leaf s.mem r) a n))

theorem Heap.cleared {a : ℕ} (h : Heap s (r ::ₘ R) K L)
    (hT' : Tree s'.mem r (tables s.mem r) (clearPages (leaf s.mem r) a n))
    (hO' : Owns s' (tables s.mem r + (tabs s.mem R + K))
      (leafRefs UPAGES (clearPages (leaf s.mem r) a n) + (urefs s.mem R + L)))
    (hk : Keeps s.mem s'.mem (tabs s.mem R + K +
      (leafRefs UPAGES (clearPages (leaf s.mem r) a n) + (urefs s.mem R + L)))) :
    Heap s' (r ::ₘ R) K L ∧ Keeps s.mem s'.mem (foot s.mem R K L) ∧ Cleared s s' r a n := by
  have hk' : Keeps s.mem s'.mem (foot s.mem R K L) := hk.foot
  refine ⟨h.put_own hk'.left.left ⟨hT', hO', h.space.user.clear⟩ fun p _ hn hm => hn ?_, hk',
    hT'.leaf, hk.right.left⟩
  exact Multiset.mem_of_le leafRefs_clear_le hm

theorem Heap.uvmdealloc {oldsz newsz res : ℕ} (h : Heap s (r ::ₘ R) K L) (hsz : oldsz ≤ TRAPFRAME)
    (hu : Xv6.uvmdealloc r oldsz newsz s = .ok (res, s')) : Heap s' (r ::ₘ R) K L ∧
      Keeps s.mem s'.mem (foot s.mem R K L) ∧ res = min oldsz newsz ∧
      Cleared s s' r (pages newsz) (pages oldsz - pages newsz) := by
  obtain ⟨hres, lf', rfl, hT', hO', hk⟩ := uvmdealloc_spec h.space.tree h.space.owns hsz hu
  obtain ⟨h1, h2, h3⟩ := h.cleared hT' hO' hk
  exact ⟨h1, h2, hres, h3⟩

/-- `uvmunmap` with `do_free` below `TRAPFRAME`. -/
theorem Heap.uvmunmap (h : Heap s (r ::ₘ R) K L) (hn : va + n * 4096 ≤ TRAPFRAME)
    (hu : Xv6.uvmunmap r va n true s = .ok s') : Heap s' (r ::ₘ R) K L ∧
      Keeps s.mem s'.mem (foot s.mem R K L) ∧ Cleared s s' r (va / 4096) n := by
  have hn' : va + n * 4096 ≤ 274877898752 := hn
  obtain ⟨ha, hu'⟩ := uvmunmap_ok hu (by omega)
  obtain ⟨-, hT', hO', hk⟩ := unmapLoop_free_spec h.space.tree h.space.owns ha
    (by show _ ≤ 67108862; omega) hu'
  exact h.cleared hT' hO' hk

/-! ## Creating and freeing -/

/-- Other pages are handed out or taken back. -/
theorem Heap.held (h : Heap s R K L) (hO : Owns s' (tabs s.mem R + K') (urefs s.mem R + L))
    (hk : Keeps s.mem s'.mem (tabs s.mem R)) : Heap s' R K' L := by
  refine ⟨by rw [hk.tabs_eq, hk.urefs_eq]; exact hO, fun q hq => ?_⟩
  rw [hk.leaf_eq hq, hk.urefs_eq]
  exact h.user q hq

theorem Heap.kalloc {o : Option ℕ} (h : Heap s R K L) (hk : Xv6.kalloc s = (o, s')) :
    (o = none ∧ s' = s ∧ s.freelist = []) ∨ ∃ p, o = some p ∧ okPage p ∧ p ∉ foot s.mem R K L ∧
      Heap s' R (p ::ₘ K) L ∧ Keeps s.mem s'.mem (foot s.mem R K L) := by
  rcases h.owns.kalloc with ⟨hf, hk'⟩ | ⟨p, t, hk', hok, hpT, hpF, hO, hE⟩
  · rw [hk] at hk'
    cases hk'
    exact Or.inl ⟨rfl, rfl, hf⟩
  · rw [hk] at hk'
    cases hk'
    have hp : p ∉ foot s.mem R K L := by
      rw [foot, Multiset.mem_add, not_or]
      exact ⟨hpT, hpF⟩
    have hkeep : Keeps s.mem s'.mem (foot s.mem R K L) :=
      fun q hq => hE q (h.owns.alloc.ok hq) fun he => hp (he ▸ hq)
    refine Or.inr ⟨p, rfl, hok, hp, h.held ?_ hkeep.left.left, hkeep⟩
    rwa [Multiset.add_cons]

theorem Heap.kfree {p : ℕ} (h : Heap s R (p ::ₘ K) L) (hk : Xv6.kfree p s = .ok s') :
    Heap s' R K L ∧ Keeps s.mem s'.mem (foot s.mem R K L) := by
  have hO := h.owns
  rw [Multiset.add_cons] at hO
  obtain ⟨hO', hkeep⟩ := hO.kfree_own hk
  exact ⟨h.held hO' hkeep.left.left, hkeep⟩

/-- Writing to a held page. -/
theorem Heap.memmove {p off : ℕ} {src : ℕ → UInt8} (h : Heap s R (p ::ₘ K) L) (hn : off + n ≤ 4096) :
    Heap (s.memmove (p + off) n src) R (p ::ₘ K) L ∧
      Keeps s.mem (s.memmove (p + off) n src).mem (foot s.mem R K L) := by
  have hO := h.owns
  rw [Multiset.add_cons] at hO
  have hp : okPage p := hO.ok_left (Multiset.mem_cons_self p _)
  have hk : Keeps s.mem (s.memmove (p + off) n src).mem (foot s.mem R K L) := by
    intro q hq
    have hne : q ≠ p := by
      rintro rfl
      rcases Multiset.mem_add.mp hq with hq | hq
      · exact (Multiset.nodup_cons.mp hO.nodup).1 hq
      · exact hO.ne (Multiset.mem_cons_self q _) hq rfl
    exact pageEq_blit hp.1 (hO.alloc.ok (by
      rw [Multiset.cons_add]
      exact Multiset.mem_cons_of_mem hq)).1 hne hn
  exact ⟨h.held (h.owns.memmove _ _ _) hk.left.left, hk⟩

theorem Heap.memmove_page {p : ℕ} {src : ℕ → UInt8} (h : Heap s R (p ::ₘ K) L) (hn : n ≤ 4096) :
    Heap (s.memmove p n src) R (p ::ₘ K) L ∧
      Keeps s.mem (s.memmove p n src).mem (foot s.mem R K L) := by
  have hn' : 0 + n ≤ 4096 := by omega
  have : Heap (s.memmove (p + 0) n src) R (p ::ₘ K) L ∧
      Keeps s.mem (s.memmove (p + 0) n src).mem (foot s.mem R K L) := h.memmove hn'
  rwa [Nat.add_zero] at this

/-- A held page of zeros becomes an empty page table. -/
theorem Heap.adopt (h : Heap s R (r ::ₘ K) L) (hz : ∀ i < 512, entry s.mem r i = 0#64) :
    Heap s (r ::ₘ R) K L ∧ ∀ v, leaf s.mem r v = 0#64 := by
  have hleaf : ∀ v, leaf s.mem r v = 0#64 := fun v => leafAt_of_zero hz
  have hrefs : leafRefs UPAGES (leaf s.mem r) = 0 := by
    refine leafRefs_eq_zero fun v _ => ?_
    rw [hleaf v]
    exact zero_has _
  have hO := h.owns
  rw [Multiset.add_cons] at hO
  refine ⟨⟨?_, fun q hq => ?_⟩, hleaf⟩
  · rw [tabs_cons, urefs_cons, hrefs, zero_add, show tables s.mem r = {r} from tablesAt_of_zero hz,
      Multiset.singleton_add, Multiset.cons_add]
    exact hO
  · rw [urefs_cons, hrefs, zero_add]
    rcases Multiset.mem_cons.mp hq with rfl | hq
    · intro v _
      rw [hleaf v]
      exact EntryOk.zero
    · exact h.user q hq

theorem Heap.uvmcreate {o : Option ℕ} (h : Heap s R K L) (hu : Xv6.uvmcreate s = (o, s')) :
    (o = none ∧ s' = s ∧ s.freelist = []) ∨ ∃ r, o = some r ∧ okPage r ∧ Heap s' (r ::ₘ R) K L ∧
      Keeps s.mem s'.mem (foot s.mem R K L) ∧ ∀ v, leaf s'.mem r v = 0#64 := by
  unfold Xv6.uvmcreate at hu
  cases hk : Xv6.kalloc s with
  | mk o s₁ =>
    rw [hk] at hu
    rcases h.kalloc hk with ⟨rfl, rfl, hf⟩ | ⟨r, rfl, hok, -, h₁, hk₁⟩
    · cases hu
      exact Or.inl ⟨rfl, rfl, hf⟩
    · cases hu
      obtain ⟨h₂, hk₂⟩ : Heap (s₁.memset r PGSIZE 0) R (r ::ₘ K) L ∧
          Keeps s₁.mem (s₁.memset r PGSIZE 0).mem (foot s₁.mem R K L) :=
        h₁.memmove_page (le_refl 4096)
      obtain ⟨h₃, hleaf⟩ := h₂.adopt fun i hi => entry_fill_zero hi
      rw [foot, hk₁.left.left.tabs_eq, hk₁.left.left.urefs_eq] at hk₂
      exact Or.inr ⟨r, rfl, hok, h₃, hk₁.trans hk₂, hleaf⟩

/-- A page table that maps no page any more. -/
theorem Heap.freewalk (h : Heap s (r ::ₘ R) K L) (hf : Xv6.freewalk 3 r s = .ok s') :
    Heap s' R K L ∧ Keeps s.mem s'.mem (foot s.mem R K L) ∧
      ∀ v < VPAGES, (leaf s.mem r v).has PTE_V = false := by
  obtain ⟨hO, hk, hinv⟩ := freewalk_spec h.space.tree h.space.owns h.space.user.readable hf
  have hrefs : leafRefs UPAGES (leaf s.mem r) = 0 :=
    leafRefs_eq_zero fun v hv => hinv v (lt_trans hv (by decide))
  rw [hrefs, zero_add] at hO hk
  exact ⟨h.drop hk.left.left hO, hk, hinv⟩

theorem Heap.uvmfree {sz : ℕ} (h : Heap s (r ::ₘ R) K L) (hsz : sz ≤ TRAPFRAME)
    (hf : Xv6.uvmfree r sz s = .ok s') : Heap s' R K L ∧ Keeps s.mem s'.mem (foot s.mem R K L) ∧
      ∀ v < VPAGES, (leaf s.mem r v).has PTE_V = true → v < pages sz := by
  obtain ⟨hO, hk, hinv⟩ := uvmfree_spec h.space.tree h.space.owns h.space.user.readable hsz hf
  exact ⟨h.drop hk.left.left hO, hk, hinv⟩

/-! ## The pages from `TRAPFRAME` on -/

/-- Only entry `v ≥ UPAGES` changes, to a readable entry that user code cannot use. -/
theorem Heap.setTop {e : Pte} {v : ℕ} (h : Heap s (r ::ₘ R) K L) (hv : UPAGES ≤ v)
    (hR : Readable e) (hU : e.has PTE_U = false)
    (hT' : Tree s'.mem r T' (Function.update (leaf s.mem r) v e))
    (hO' : Owns s' (T' + (tabs s.mem R + K)) (leafRefs UPAGES (leaf s.mem r) + (urefs s.mem R + L)))
    (hk : Keeps s.mem s'.mem (tabs s.mem R)) : Heap s' (r ::ₘ R) K L := by
  have hrefs : leafRefs UPAGES (Function.update (leaf s.mem r) v e) = leafRefs UPAGES (leaf s.mem r) :=
    leafRefs_update_of_le hv
  refine h.put_own hk ⟨hT', hrefs ▸ hO', ?_⟩ fun p _ hn => ?_
  · rw [hrefs]
    intro w hw
    by_cases hwv : w = v
    · subst hwv
      rw [Function.update_self]
      exact ⟨hR, fun _ => hU, fun hlt => absurd hlt (by omega), fun hlt => absurd hlt (by omega)⟩
    · rw [Function.update_of_ne hwv]
      exact h.space.user w hw
  · rwa [hrefs]

/-- Mapping the trampoline or the trapframe. -/
theorem Heap.mapTop {pa : ℕ} {res : ℤ} (h : Heap s (r ::ₘ R) K L) (ha : va % 4096 = 0)
    (hva : UPAGES ≤ va / 4096) (hlt : va < MAXVA) (hR : perm.has PTE_R = true)
    (hU : perm.has PTE_U = false) (hm : mappages r va PGSIZE pa perm s = .ok (res, s')) :
    Heap s' (r ::ₘ R) K L ∧ Keeps s.mem s'.mem (foot s.mem R K L) ∧
      ((res = -1 ∧ ∀ v < VPAGES, leaf s'.mem r v = leaf s.mem r v) ∨
        (res = 0 ∧ (leaf s.mem r (va / 4096)).has PTE_V = false ∧ ∀ v < VPAGES, leaf s'.mem r v =
          Function.update (leaf s.mem r) (va / 4096) (PA2PTE pa ||| perm ||| PTE_V) v)) := by
  have hlt' : va < 274877906944 := hlt
  obtain ⟨-, T', lf', hT', hO', hk, hcases⟩ :=
    mappages_spec h.space.tree h.space.owns ha (by omega) hm
  have hk' : Keeps s.mem s'.mem (foot s.mem R K L) := hk.foot
  rcases hcases with ⟨hres, rfl, -⟩ | ⟨hres, hfree, rfl⟩
  · exact ⟨h.put_own hk'.left.left ⟨hT', hO', h.space.user⟩ fun _ _ hn => hn, hk',
      Or.inl ⟨hres, hT'.leaf⟩⟩
  · have hR' : (PA2PTE pa ||| perm ||| PTE_V).has PTE_R = true := by
      rw [has_or_of_disjoint (by decide), has_PA2PTE (by decide)]
      exact hR
    have hU' : (PA2PTE pa ||| perm ||| PTE_V).has PTE_U = false := by
      rw [has_or_of_disjoint (by decide), has_PA2PTE (by decide)]
      exact hU
    exact ⟨h.setTop hva (fun _ => hR') hU' hT' hO' hk'.left.left, hk', Or.inr ⟨hres, hfree, hT'.leaf⟩⟩

/-- Unmapping it again. -/
theorem Heap.unmapTop (h : Heap s (r ::ₘ R) K L) (hva : UPAGES ≤ va / 4096) (hlt : va < MAXVA)
    (hu : Xv6.uvmunmap r va 1 false s = .ok s') : Heap s' (r ::ₘ R) K L ∧
      Keeps s.mem s'.mem (foot s.mem R K L) ∧
      ∀ v < VPAGES, leaf s'.mem r v = Function.update (leaf s.mem r) (va / 4096) 0#64 v := by
  have hlt' : va < 274877906944 := hlt
  obtain ⟨ha, hu'⟩ := uvmunmap_ok hu (by omega)
  obtain ⟨hT', hO', hk⟩ := unmapLoop_keep_spec h.space.tree h.space.owns ha hu'
  have hk' : Keeps s.mem s'.mem (foot s.mem R K L) := hk.foot
  rw [← clearPages_succ, clearPages_zero] at hT'
  have hR : Readable 0#64 := EntryOk.zero (F := 0) (v := 0) |>.readable
  exact ⟨h.setTop hva hR (zero_has _) hT' hO' hk'.left.left, hk', hT'.leaf⟩

/-! ## `uvmclear` -/

section

variable {e : Pte}

omit [Image] in
theorem guard_has {f : Pte} (hf : f &&& ~~~PTE_U = f) : (e &&& ~~~PTE_U).has f = e.has f :=
  has_and_not_of_disjoint hf

omit [Image] in
theorem EntryOk.guard {F : Multiset ℕ} {v : ℕ} (h : EntryOk F v e) : EntryOk F v (e &&& ~~~PTE_U) := by
  have hV : (e &&& ~~~PTE_U).has PTE_V = e.has PTE_V := guard_has (by decide)
  have hC : (e &&& ~~~PTE_U).has PTE_COW = e.has PTE_COW := guard_has (by decide)
  have hW : (e &&& ~~~PTE_U).has PTE_W = e.has PTE_W := guard_has (by decide)
  have hR : (e &&& ~~~PTE_U).has PTE_R = e.has PTE_R := guard_has (by decide)
  refine ⟨?_, fun _ => has_and_not_self, ?_, ?_⟩
  · unfold Readable
    rw [hV, hR]
    exact h.readable
  · rw [hV, hC, PTE2PA_and_not (by decide)]
    exact h.excl
  · rw [hV, hC, hW]
    exact h.plain

end

theorem Heap.uvmclear (h : Heap s (r ::ₘ R) K L) (hc : Xv6.uvmclear r va s = .ok s') :
    Heap s' (r ::ₘ R) K L ∧ Keeps s.mem s'.mem (foot s.mem R K L) ∧
      Keeps s.mem s'.mem (leafRefs UPAGES (leaf s.mem r)) ∧ ∀ v < VPAGES, leaf s'.mem r v =
        Function.update (leaf s.mem r) (va / 4096) (leaf s.mem r (va / 4096) &&& ~~~PTE_U) v := by
  unfold Xv6.uvmclear at hc
  cases hw : walk r va false s with
  | error e => rw [hw] at hc; cases hc
  | ok x =>
    obtain ⟨o, t⟩ := x
    obtain ⟨hlt, rfl, ⟨rfl, -⟩ | ⟨a, rfl, ha⟩⟩ := walk_false_spec h.space.tree hw
    · rw [hw] at hc; cases hc
    · have hv := pageNumber_lt hlt
      rw [hw] at hc
      cases hc
      rw [ha.read h.space.tree hv]
      obtain ⟨hT', hO', hk⟩ := EntryAt.set h.space.tree h.space.owns ha hv
        (leaf t.mem r (va / 4096) &&& ~~~PTE_U)
      have hk' : Keeps t.mem (t.setPte a (leaf t.mem r (va / 4096) &&& ~~~PTE_U)).mem
          (foot t.mem R K L) := hk.foot
      have hrefs : leafRefs UPAGES (Function.update (leaf t.mem r) (va / 4096)
          (leaf t.mem r (va / 4096) &&& ~~~PTE_U)) = leafRefs UPAGES (leaf t.mem r) := by
        refine leafRefs_congr fun w _ => ?_
        by_cases hwv : w = va / 4096
        · subst hwv
          rw [Function.update_self, pageOf, pageOf, guard_has (by decide), PTE2PA_and_not (by decide)]
        · rw [Function.update_of_ne hwv]
      refine ⟨h.put_own hk'.left.left ⟨hT', ?_, ?_⟩ fun p _ hn => ?_, hk', hk.right.left, hT'.leaf⟩
      · rw [hrefs]
        exact hO'
      · rw [hrefs]
        intro w hw
        by_cases hwv : w = va / 4096
        · subst hwv
          rw [Function.update_self]
          exact (h.space.user _ hw).guard
        · rw [Function.update_of_ne hwv]
          exact h.space.user w hw
      · rwa [hrefs]

/-! ## Writes to user memory -/

theorem Poked.heap (h : Heap s (r ::ₘ R) K L)
    (hp : Poked s s' (leaf s.mem r) lf' (tabs s.mem R + K) (urefs s.mem R + L))
    (hS : Space s' r (tables s.mem r) lf' (tabs s.mem R + K) (urefs s.mem R + L)) :
    Heap s' (r ::ₘ R) K L ∧ Keeps s.mem s'.mem (foot s.mem R K L) :=
  ⟨h.put_own hp.keeps.left.left hS fun p hq => hp.own p (Multiset.mem_add.mpr (Or.inl hq)), hp.keeps⟩

end Xv6
