import Mathlib.Tactic.Abel
import Xv6.Mem.Heap

/-!
# Fork — `uvmcopy` over all page tables

`Heap.uvmcopy`: a call that succeeds shares the pages of the parent with the child; one that fails
takes one count for nothing, which joins `L`.  `card_urefs_le` bounds the references to user pages by the
pages of page tables.
-/

namespace Xv6

section

variable {lf lf₁ lf₂ : ℕ → Pte} {a k p v : ℕ} {e : Pte}

theorem mem_rangeRefs : p ∈ rangeRefs lf a k ↔
    ∃ v, a ≤ v ∧ v < a + k ∧ (lf v).has PTE_V = true ∧ PTE2PA (lf v) = p := by
  induction k generalizing a with
  | zero =>
    rw [rangeRefs]
    refine ⟨fun h => absurd h (Multiset.notMem_zero p), ?_⟩
    rintro ⟨v, h1, h2, -⟩
    omega
  | succ k ih =>
    rw [rangeRefs, Multiset.mem_add, mem_pageOf, ih]
    constructor
    · rintro (⟨hV, hp⟩ | ⟨v, h1, h2, hV, hp⟩)
      · exact ⟨a, le_rfl, by omega, hV, hp⟩
      · exact ⟨v, by omega, by omega, hV, hp⟩
    · rintro ⟨v, h1, h2, hV, hp⟩
      by_cases hva : v = a
      · exact Or.inl (hva ▸ ⟨hV, hp⟩)
      · exact Or.inr ⟨v, by omega, by omega, hV, hp⟩

end

variable [Image] {s s' : Phys} {old new sz : ℕ} {R K L D F : Multiset ℕ} {lf lf₁ lf₂ : ℕ → Pte}
  {v k p : ℕ} {e : Pte} {res : ℤ}

/-- The references of the child. -/
theorem leafRefs_shared {a : ℕ} (hk : a + k ≤ UPAGES) (hok : ∀ p ∈ rangeRefs lf₁ a k, okPage p)
    (hV : ∀ v, a ≤ v → v < a + k → (lf₁ v).has PTE_V = true ∧ (lf₂ v).has PTE_V = false) :
    leafRefs UPAGES (mapPages shared lf₁ lf₂ a k) = leafRefs UPAGES lf₂ + rangeRefs lf₁ a k := by
  induction k generalizing a lf₂ with
  | zero => rw [mapPages_zero, rangeRefs, add_zero]
  | succ k ih =>
    have ha : a < UPAGES := by omega
    obtain ⟨h1, h2⟩ := hV a le_rfl (by omega)
    have hpa : PTE2PA (lf₁ a) ∈ rangeRefs lf₁ a (k + 1) :=
      mem_rangeRefs.mpr ⟨a, le_rfl, by omega, h1, rfl⟩
    have hpage : pageOf (shared (lf₁ a)) = pageOf (lf₁ a) := by
      have := hok _ hpa
      rw [pageOf_of_has shared_V, pageOf_of_has h1, PTE2PA_shared this.1 this.lt]
    rw [← mapPages_succ, ih (by omega) (fun p hp => hok p ?_) fun v hv hv' => ?_]
    · rw [leafRefs_update ha, hpage, leafRefs_split (f := lf₂) ha, pageOf_of_not h2, zero_add,
        rangeRefs, add_comm (pageOf _) (leafOthers _ _ _), add_assoc]
    · obtain ⟨v, hv, hv', h⟩ := mem_rangeRefs.mp hp
      exact mem_rangeRefs.mpr ⟨v, by omega, by omega, h⟩
    · rw [Function.update_of_ne (by omega)]
      exact hV v (by omega) (by omega)

omit [Image] in
theorem EntryOk.cowed (h : EntryOk F v e) : EntryOk D v (cowed e) := by
  refine EntryOk.cow (fun hV => ?_) (fun hv => ?_) cowed_COW cowed_W
  · rw [cowed_V] at hV
    rw [cowed_has (by decide) (by decide)]
    exact h.readable hV
  · rw [cowed_has (by decide) (by decide)]
    exact h.top hv

omit [Image] in
theorem EntryOk.shared (h : EntryOk F v e) (hV : e.has PTE_V = true) (hv : v < UPAGES) :
    EntryOk D v (shared e) := by
  refine EntryOk.cow (fun _ => ?_) (fun hle => absurd hv (by omega)) ?_ ?_
  · rw [shared_has (by decide) (by decide), cowed_has (by decide) (by decide)]
    exact h.readable hV
  · rw [shared_has (by decide) (by decide), cowed_COW]
  · rw [shared_has (by decide) (by decide), cowed_W]

omit [Image] in
/-- The parent's entries after its first `k` pages have been marked; the new references `D` are to
these pages. -/
theorem UserOk.cowed {X : Multiset ℕ} (h : UserOk lf (leafRefs UPAGES lf + X)) (hk : k ≤ UPAGES)
    (hD : ∀ p ∈ D, p ∈ rangeRefs lf 0 k) :
    UserOk (mapPages cowed lf lf 0 k) (leafRefs UPAGES lf + X + D) := by
  intro v hv
  by_cases hin : 0 ≤ v ∧ v < 0 + k
  · rw [mapPages, if_pos hin]
    exact (h v hv).cowed
  · rw [mapPages, if_neg hin]
    by_cases hC : (lf v).has PTE_V = true ∧ (lf v).has PTE_COW = false
    · refine (h v hv).mono fun hvU hV hone => ?_
      rw [Multiset.count_add, hone, Multiset.count_eq_zero.mpr fun hm => ?_]
      obtain ⟨w, -, hw, hwV, he⟩ := mem_rangeRefs.mp (hD _ hm)
      exact h.ne hvU hV hC.2 (by omega) hwV (by omega) he
    · refine ⟨(h v hv).readable, (h v hv).top, fun _ hV hC' => absurd ⟨hV, hC'⟩ hC, (h v hv).plain⟩

omit [Image] in
/-- A single reference stays one when the new references are to pages of another page table. -/
theorem count_one_add {A X : Multiset ℕ} (hone : (A + X).count p = 1) (hp : p ∈ X)
    (hD : ∀ q ∈ D, q ∈ A) : (A + X + D).count p = 1 := by
  have hX := Multiset.count_pos.mpr hp
  have hone' := hone
  rw [Multiset.count_add] at hone'
  have hA : p ∉ A := Multiset.count_eq_zero.mp (by omega)
  rw [Multiset.count_add, hone, Multiset.count_eq_zero.mpr fun hm => hA (hD _ hm)]

/-- What `uvmcopy` has done to the page tables of parent and child. -/
inductive Copied (s s' : Phys) (old new sz : ℕ) (R K L : Multiset ℕ) (res : ℤ) : Prop where
  | done (hres : res = 0) (heap : Heap s' (old ::ₘ new ::ₘ R) K L)
      (hold : ∀ v < VPAGES, leaf s'.mem old v =
        mapPages cowed (leaf s.mem old) (leaf s.mem old) 0 (pages sz) v)
      (hnew : ∀ v < VPAGES, leaf s'.mem new v =
        mapPages shared (leaf s.mem old) (leaf s.mem new) 0 (pages sz) v)
      (hvalid : ∀ v < pages sz, (leaf s.mem old v).has PTE_V = true ∧
        (leaf s.mem new v).has PTE_V = false)
  | failed (p k : ℕ) (hres : res = -1) (heap : Heap s' (old ::ₘ new ::ₘ R) K (p ::ₘ L))
      (hk : k ≤ pages sz)
      (hold : ∀ v < VPAGES, leaf s'.mem old v =
        mapPages cowed (leaf s.mem old) (leaf s.mem old) 0 k v)
      (lf' : ℕ → Pte) (hnew : ∀ v < VPAGES, leaf s'.mem new v = lf' v)
      (hsame : SameMap (leaf s.mem new) lf')

omit [Image] in
/-- Two page tables changed, others as before. -/
theorem Heap.pair {T₁ T₂ : Multiset ℕ} (hk : Keeps s.mem s'.mem (tabs s.mem R)) (hT₁ : Tree s'.mem old T₁ lf₁)
    (hT₂ : Tree s'.mem new T₂ lf₂) :
    tabs s'.mem (old ::ₘ new ::ₘ R) = T₁ + (T₂ + tabs s.mem R) ∧
      urefs s'.mem (old ::ₘ new ::ₘ R) = leafRefs UPAGES lf₁ + (leafRefs UPAGES lf₂ + urefs s.mem R) := by
  have hlt : ∀ v < UPAGES, v < VPAGES := fun v hv => lt_trans hv (by decide)
  have h₁ : leafRefs UPAGES (leaf s'.mem old) = leafRefs UPAGES lf₁ :=
    leafRefs_congr fun v hv => by rw [hT₁.leaf v (hlt v hv)]
  have h₂ : leafRefs UPAGES (leaf s'.mem new) = leafRefs UPAGES lf₂ :=
    leafRefs_congr fun v hv => by rw [hT₂.leaf v (hlt v hv)]
  rw [tabs_cons, tabs_cons, urefs_cons, urefs_cons, h₁, h₂, hk.tabs_eq, hk.urefs_eq,
    show tables s'.mem old = T₁ from hT₁.tables, show tables s'.mem new = T₂ from hT₂.tables]
  exact ⟨rfl, rfl⟩

/-- Opening two page tables. -/
theorem Heap.owns₂ (h : Heap s (old ::ₘ new ::ₘ R) K L) :
    Owns s (tables s.mem old + tables s.mem new + (tabs s.mem R + K))
      (leafRefs UPAGES (leaf s.mem old) + leafRefs UPAGES (leaf s.mem new) + (urefs s.mem R + L)) := by
  have hO := h.owns
  rw [tabs_cons, tabs_cons, urefs_cons, urefs_cons] at hO
  refine cast ?_ hO
  congr 1 <;> abel

theorem Heap.uvmcopy (h : Heap s (old ::ₘ new ::ₘ R) K L) (hsz : sz ≤ TRAPFRAME)
    (hlim : ∀ p ∈ leafRefs UPAGES (leaf s.mem old), (urefs s.mem (old ::ₘ new ::ₘ R) + L).count p +
      (rangeRefs (leaf s.mem old) 0 (pages sz)).count p < intLim)
    (hc : Xv6.uvmcopy old new sz s = .ok (res, s')) :
    Keeps s.mem s'.mem (foot s.mem R K L) ∧ Keeps s.mem s'.mem (leafRefs UPAGES (leaf s.mem old)) ∧
      Copied s s' old new sz R K L res := by
  have hO := h.owns₂
  have hu := h.user
  have hpU : pages sz ≤ 67108862 := by
    have : sz ≤ 274877898752 := hsz
    unfold pages
    omega
  rw [urefs_cons, urefs_cons] at hlim hu
  have hF : ∀ A B : Multiset ℕ, A + (B + urefs s.mem R) + L = A + B + (urefs s.mem R + L) := by
    intro A B
    rw [← add_assoc A, add_assoc]
  have hT : ∀ A B : Multiset ℕ, A + (B + tabs s.mem R) + K = A + B + (tabs s.mem R + K) := by
    intro A B
    rw [← add_assoc A, add_assoc]
  rw [hF] at hlim hu
  obtain ⟨hk, T₂', lf₂', hT₂', hcases⟩ := uvmcopy_spec ⟨rfl, fun _ _ => rfl⟩ ⟨rfl, fun _ _ => rfl⟩ hO
    hsz hlim hc
  set lf₁ := leaf s.mem old with hlf₁
  set lf₂ := leaf s.mem new with hlf₂
  have hfoot : Keeps s.mem s'.mem (foot s.mem R K L) := hk.left.add hk.right.right
  have hu₁ : UserOk lf₁ (leafRefs UPAGES lf₁ + (leafRefs UPAGES lf₂ + (urefs s.mem R + L))) := by
    rw [← add_assoc]
    exact hu old (Multiset.mem_cons_self _ _)
  have hu₂ : UserOk lf₂ (leafRefs UPAGES lf₁ + (leafRefs UPAGES lf₂ + (urefs s.mem R + L))) := by
    rw [← add_assoc]
    exact hu new (Multiset.mem_cons_of_mem (Multiset.mem_cons_self _ _))
  -- any new references `D` are to pages of the parent, which are marked
  have huser : ∀ (D : Multiset ℕ) (k : ℕ), k ≤ pages sz → (∀ p ∈ D, p ∈ rangeRefs lf₁ 0 k) →
      UserOk (mapPages Xv6.cowed lf₁ lf₁ 0 k)
        (leafRefs UPAGES lf₁ + (leafRefs UPAGES lf₂ + (urefs s.mem R + L)) + D) ∧
      UserOk lf₂ (leafRefs UPAGES lf₁ + (leafRefs UPAGES lf₂ + (urefs s.mem R + L)) + D) ∧
      ∀ q ∈ R, UserOk (leaf s'.mem q)
        (leafRefs UPAGES lf₁ + (leafRefs UPAGES lf₂ + (urefs s.mem R + L)) + D) := by
    intro D k hk' hD
    have hkU : k ≤ UPAGES := le_trans hk' hpU
    have hDA : ∀ p ∈ D, p ∈ leafRefs UPAGES lf₁ := by
      intro p hp
      obtain ⟨w, -, hw, hwV, he⟩ := mem_rangeRefs.mp (hD p hp)
      exact mem_leafRefs.mpr ⟨w, by omega, hwV, he⟩
    refine ⟨hu₁.cowed hkU hD, fun v hv => (hu₂ v hv).mono fun hvU hV hone => ?_, ?_⟩
    · refine count_one_add hone (Multiset.mem_add.mpr (Or.inl ?_)) hDA
      exact mem_leafRefs.mpr ⟨v, hvU, hV, rfl⟩
    · refine Heap.others (F := leafRefs UPAGES lf₁ + (leafRefs UPAGES lf₂ + (urefs s.mem R + L)))
        (fun q hq => ?_) hfoot.left.left fun p hp hone => ?_
      · rw [← add_assoc]
        exact hu q (Multiset.mem_cons_of_mem (Multiset.mem_cons_of_mem hq))
      · refine count_one_add hone ?_ hDA
        simp only [Multiset.mem_add]
        tauto
  have hcow : ∀ k, leafRefs UPAGES (mapPages Xv6.cowed lf₁ lf₁ 0 k) = leafRefs UPAGES lf₁ :=
    fun k => leafRefs_cowed
  refine ⟨hfoot, hk.right.left.left, ?_⟩
  rcases hcases with ⟨hres, rfl, hvalid, hT₁', hO'⟩ | ⟨hres, hsame, k, hkn, hV, hT₁', hO'⟩
  · -- the child refers to all pages of the parent
    obtain ⟨htabs, hurefs⟩ := Heap.pair hfoot.left.left hT₁' hT₂'
    have hshared : leafRefs UPAGES (mapPages Xv6.shared lf₁ lf₂ 0 (pages sz)) =
        leafRefs UPAGES lf₂ + rangeRefs lf₁ 0 (pages sz) := by
      refine leafRefs_shared (by rw [Nat.zero_add]; exact hpU) (fun p hp => hO.ok_right ?_)
        fun v _ hv => hvalid v (by omega)
      obtain ⟨w, -, hw, hwV, he⟩ := mem_rangeRefs.mp hp
      have : p ∈ leafRefs UPAGES lf₁ := mem_leafRefs.mpr ⟨w, lt_of_lt_of_le (by omega) hpU, hwV, he⟩
      simp only [Multiset.mem_add]
      tauto
    have hrefs : urefs s'.mem (old ::ₘ new ::ₘ R) + L = leafRefs UPAGES lf₁ +
        (leafRefs UPAGES lf₂ + (urefs s.mem R + L)) + rangeRefs lf₁ 0 (pages sz) := by
      rw [hurefs, hcow, hshared]
      abel
    obtain ⟨hU₁, hU₂, hUR⟩ := huser (rangeRefs lf₁ 0 (pages sz)) (pages sz) le_rfl fun p hp => hp
    refine .done hres ⟨?_, fun q hq => ?_⟩ hT₁'.leaf hT₂'.leaf hvalid
    · rwa [htabs, hurefs, hT, hF, hcow]
    · rw [hrefs]
      rcases Multiset.mem_cons.mp hq with rfl | hq
      · exact hU₁.congr hT₁'.leaf
      · rcases Multiset.mem_cons.mp hq with rfl | hq
        · refine UserOk.congr (fun v hv => ?_) hT₂'.leaf
          by_cases hin : 0 ≤ v ∧ v < 0 + pages sz
          · have hvU : v < UPAGES := lt_of_lt_of_le (by omega) hpU
            rw [mapPages, if_pos hin]
            exact (hu₁ v hv).shared (hvalid v (by omega)).1 hvU
          · rw [mapPages, if_neg hin]
            exact hU₂ v hv
        · exact hUR q hq
  · -- one count is taken for nothing
    obtain ⟨htabs, hurefs⟩ := Heap.pair hfoot.left.left hT₁' hT₂'
    have hrefs : urefs s'.mem (old ::ₘ new ::ₘ R) + PTE2PA (lf₁ k) ::ₘ L = leafRefs UPAGES lf₁ +
        (leafRefs UPAGES lf₂ + (urefs s.mem R + L)) + {PTE2PA (lf₁ k)} := by
      rw [hurefs, hcow, hsame.leafRefs_eq, ← Multiset.singleton_add]
      abel
    obtain ⟨hU₁, hU₂, hUR⟩ := huser {PTE2PA (lf₁ k)} (k + 1) hkn fun p hp => by
      rw [Multiset.mem_singleton.mp hp]
      exact mem_rangeRefs.mpr ⟨k, by omega, by omega, hV, rfl⟩
    refine .failed (PTE2PA (lf₁ k)) (k + 1) hres ⟨?_, fun q hq => ?_⟩ hkn hT₁'.leaf lf₂' hT₂'.leaf hsame
    · rw [hrefs, htabs, hT]
      refine cast ?_ hO'
      rw [← Multiset.singleton_add, hsame.leafRefs_eq]
      congr 1
      abel
    · rw [hrefs]
      rcases Multiset.mem_cons.mp hq with rfl | hq
      · exact hU₁.congr hT₁'.leaf
      · rcases Multiset.mem_cons.mp hq with rfl | hq
        · exact (hsame.userOk hU₂).congr hT₂'.leaf
        · exact hUR q hq

/-! ## Counters do not overflow -/

omit [Image] in
/-- A page table maps at most 512 pages for each of its table pages. -/
theorem card_leafRefs_le {m : ByteStore} {r : ℕ} (hnd : (tables m r).Nodup) :
    (leafRefs UPAGES (leaf m r)).card ≤ (tables m r).card * 512 := by
  have hcard : (leafRefs UPAGES (leaf m r)).card =
      ((Finset.range UPAGES).filter fun v => (leaf m r v).has PTE_V = true).card := by
    unfold leafRefs
    rw [Multiset.card_sum, Finset.card_filter]
    refine Finset.sum_congr rfl fun v _ => ?_
    unfold pageOf
    split_ifs <;> rfl
  rw [hcard]
  refine Radix.card_keys_le (by decide) hnd _ fun v hv => ?_
  obtain ⟨hvU, hV⟩ := Finset.mem_filter.mp hv
  refine ⟨lt_trans (Finset.mem_range.mp hvU) (by decide), ?_⟩
  by_contra hs
  rw [leaf, leafAt, Radix.lookup_of_none (Option.not_isSome_iff_eq_none.mp hs), zero_has] at hV
  cases hV

omit [Image] in
theorem card_urefs_le {m : ByteStore} (hnd : (tabs m R).Nodup) :
    (urefs m R).card ≤ (tabs m R).card * 512 := by
  induction R using Multiset.induction_on with
  | empty => simp
  | cons r R ih =>
    rw [tabs_cons] at hnd ⊢
    rw [urefs_cons, Multiset.card_add, Multiset.card_add]
    obtain ⟨h1, h2, -⟩ := Multiset.nodup_add.mp hnd
    have := ih h2
    have := card_leafRefs_le h1
    omega

/-- The allocator has 32768 pages at most. -/
theorem card_pages_le {T : Multiset ℕ} (hnd : T.Nodup) (hok : ∀ p ∈ T, okPage p) :
    T.card ≤ 32768 := by
  have hle : T.toFinset.card ≤ (Finset.range 32768).card := by
    refine Finset.card_le_card_of_injOn (fun p => p / 4096 - 524288) (fun p hp => ?_)
      fun p hp q hq he => ?_
    · obtain ⟨-, h2, h3⟩ := hok p (Multiset.mem_toFinset.mp hp)
      have := Image.base_le
      simp only [KERNBASE, PHYSTOP] at this h3
      simp only [Finset.coe_range, Set.mem_Iio]
      omega
    · obtain ⟨h1, h2, -⟩ := hok p (Multiset.mem_toFinset.mp hp)
      obtain ⟨h1', h2', -⟩ := hok q (Multiset.mem_toFinset.mp hq)
      have := Image.base_le
      simp only [KERNBASE] at this
      simp only at he
      omega
  rwa [Multiset.toFinset_card_of_nodup hnd, Finset.card_range] at hle

end Xv6
