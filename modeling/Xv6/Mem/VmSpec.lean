import Xv6.Mem.Space

/-!
# VmSpec — one lemma for each function of `vm.c` that works on one page table

Every lemma is about a call that returns: a call that panics stops the kernel.  The page table keeps
the form `Tree s.mem r T lf`; `K` are owned pages outside it and `F` all other references.
-/

namespace Xv6

variable [Image] {s s' : Phys} {r va a n pa : ℕ} {T K F X : Multiset ℕ} {lf : ℕ → Pte} {perm : Pte}

theorem Owns.mod (h : Owns s (T + K) F) : ∀ t ∈ T, t % 4096 = 0 :=
  fun _ ht => (h.ok_left (Multiset.mem_add.mpr (Or.inl ht))).1

theorem Owns.nodup_left (h : Owns s (T + K) F) : T.Nodup := (Multiset.nodup_add.mp h.nodup).1

/-- Pages outside the page table are different from its pages. -/
theorem Owns.frame_ne (h : Owns s (T + K) F) {p : ℕ} (hp : p ∈ K + F) : p % 4096 = 0 ∧ p ∉ T := by
  rcases Multiset.mem_add.mp hp with hp | hp
  · refine ⟨(h.ok_left (Multiset.mem_add.mpr (Or.inr hp))).1, fun hT => ?_⟩
    exact Multiset.disjoint_left.mp (Multiset.nodup_add.mp h.nodup).2.2 hT hp
  · refine ⟨(h.ok_right hp).1, fun hT => ?_⟩
    exact Multiset.disjoint_left.mp h.disj (Multiset.mem_add.mpr (Or.inl hT)) hp

/-- Freeing a page that others may share. -/
theorem Owns.kfree {p : ℕ} (h : Owns s T (p ::ₘ F)) (hk : kfree p s = .ok s') :
    Owns s' T F ∧ Keeps s.mem s'.mem (T + F) := by
  obtain ⟨t, hk', hA, hkeep⟩ := kfree_spec (s := s) (p := p) (R := T + F) (by
    rw [← Multiset.add_cons]
    exact h.alloc)
  rw [hk] at hk'
  cases hk'
  exact ⟨⟨hA, h.nodup, h.disj.mono_right (Multiset.le_cons_self _ _)⟩, hkeep⟩

/-- Freeing an owned page. -/
theorem Owns.kfree_own {p : ℕ} (h : Owns s (p ::ₘ T) F) (hk : Xv6.kfree p s = .ok s') :
    Owns s' T F ∧ Keeps s.mem s'.mem (T + F) := by
  refine Owns.kfree (T := T) (F := F) (p := p) ?_ hk
  rw [← Multiset.singleton_add]
  have hsplit : Owns s (T + {p}) F := by
    rwa [add_comm, Multiset.singleton_add]
  exact hsplit.split

/-- A page from `kalloc`, counted among the references. -/
theorem Owns.kalloc_ref {o : Option ℕ} (h : Owns s T F) (hk : Xv6.kalloc s = (o, s')) :
    (o = none ∧ s' = s ∧ s.freelist = []) ∨ ∃ p, o = some p ∧ okPage p ∧ p ∉ T + F ∧
      Owns s' T (p ::ₘ F) ∧ Keeps s.mem s'.mem (T + F) := by
  rcases h.kalloc with ⟨hf, hk'⟩ | ⟨p, t, hk', hok, hpT, hpF, hO, hE⟩
  · rw [hk] at hk'
    cases hk'
    exact Or.inl ⟨rfl, rfl, hf⟩
  · rw [hk] at hk'
    cases hk'
    have hmem : p ∉ T + F := by
      rw [Multiset.mem_add, not_or]
      exact ⟨hpT, hpF⟩
    refine Or.inr ⟨p, rfl, hok, hmem, ?_, fun q hq => hE q (h.alloc.ok hq) fun he => hmem (he ▸ hq)⟩
    rw [← Multiset.singleton_add p F]
    refine Owns.split ?_
    rwa [add_comm, Multiset.singleton_add]

/-! ## `walk` -/

theorem walk_true_spec {o : Option ℕ} (hT : Tree s.mem r T lf) (hO : Owns s (T + K) F)
    (h : walk r va true s = .ok (o, s')) : va < MAXVA ∧ ∃ T', Tree s'.mem r T' lf ∧
      Owns s' (T' + K) F ∧ Keeps s.mem s'.mem (K + F) ∧
      ((o = none ∧ s'.freelist = []) ∨ ∃ a, o = some a ∧ EntryAt s'.mem r (va / 4096) a) := by
  unfold walk at h
  split_ifs at h with hva
  have hO' : Owns s (tablesAt s.mem 2 r) (K + F) := by
    rw [show tablesAt s.mem 2 r = T from hT.tables]
    exact hO.split
  obtain ⟨res, t, hw, hG, hres⟩ := walkLoop_true va 2 r s (K + F) hO'
  rw [hw] at h
  obtain ⟨rfl, rfl⟩ := Prod.mk.inj (Except.ok.inj h)
  have hK : K.Nodup ∧ Disjoint K F := by
    refine ⟨(Multiset.nodup_add.mp hO.nodup).2.1, ?_⟩
    exact hO.disj.mono_left (Multiset.le_add_left K T)
  refine ⟨not_le.mp hva, tables t.mem r, ⟨rfl, fun v hv => ?_⟩, hG.owns.join hK.1 hK.2, hG.frame, ?_⟩
  · exact (hG.leaf v).trans (hT.leaf v hv)
  · rcases hres with ⟨rfl, hf⟩ | ⟨q, hq, rfl⟩
    · exact Or.inl ⟨rfl, hf⟩
    · exact Or.inr ⟨_, rfl, q, hq, rfl⟩

/-- Writing an entry, seen from outside the page table. -/
theorem EntryAt.set (hT : Tree s.mem r T lf) (hO : Owns s (T + K) F) {v : ℕ}
    (ha : EntryAt s.mem r v a) (hv : v < VPAGES) (e : Pte) :
    Tree (s.setPte a e).mem r T (Function.update lf v e) ∧ Owns (s.setPte a e) (T + K) F ∧
      Keeps s.mem (s.setPte a e).mem (K + F) := by
  refine ⟨hT.set ha hv hO.nodup_left hO.mod, hO.setPte a e, fun p hp => ?_⟩
  obtain ⟨hp4, hpT⟩ := hO.frame_ne hp
  exact ha.keeps hT hO.mod hp4 hpT

/-! ## `mappages` -/

omit [Image] in
/-- One page is one round of the loop. -/
theorem mappages_page (hva : va % 4096 = 0) (hlt : va < 2 ^ 64 - 4096) :
    mappages r va PGSIZE pa perm s = mapLoop r perm 0 va pa s := by
  have hdown : PGROUNDDOWN va = va := by
    unfold PGROUNDDOWN
    simp only [PGSIZE]
    omega
  have hrounds : uint64 (2 ^ 64 + PGROUNDDOWN (uint64 (va + PGSIZE - 1)) - va) / PGSIZE = 0 := by
    unfold PGROUNDDOWN uint64
    simp only [PGSIZE]
    omega
  unfold mappages
  rw [if_neg (by decide)]
  simp only [hdown, hrounds]

/-- `mappages` on one page. -/
theorem mappages_spec {res : ℤ} (hT : Tree s.mem r T lf) (hO : Owns s (T + K) F)
    (hva : va % 4096 = 0) (hlt : va < 2 ^ 64 - 4096)
    (h : mappages r va PGSIZE pa perm s = .ok (res, s')) :
    va < MAXVA ∧ ∃ T' lf', Tree s'.mem r T' lf' ∧ Owns s' (T' + K) F ∧
      Keeps s.mem s'.mem (K + F) ∧ ((res = -1 ∧ lf' = lf ∧ s'.freelist = []) ∨
        (res = 0 ∧ (lf (va / 4096)).has PTE_V = false ∧
          lf' = Function.update lf (va / 4096) (PA2PTE pa ||| perm ||| PTE_V))) := by
  rw [mappages_page hva hlt] at h
  unfold mapLoop at h
  cases hw : walk r va true s with
  | error e => rw [hw] at h; cases h
  | ok x =>
    obtain ⟨o, s₁⟩ := x
    obtain ⟨hva', T', hT', hO', hK, hcases⟩ := walk_true_spec hT hO hw
    rw [hw] at h
    rcases hcases with ⟨rfl, hf⟩ | ⟨b, rfl, hb⟩
    · cases h
      exact ⟨hva', T', lf, hT', hO', hK, Or.inl ⟨rfl, rfl, hf⟩⟩
    · simp only at h
      split_ifs at h with hV
      cases h
      have hv := pageNumber_lt hva'
      rw [hb.read hT' hv] at hV
      obtain ⟨hT'', hO'', hK'⟩ := EntryAt.set hT' hO' hb hv (PA2PTE pa ||| perm ||| PTE_V)
      exact ⟨hva', T', _, hT'', hO'', hK.trans hK', Or.inr ⟨rfl, by simpa using hV, rfl⟩⟩

/-! ## `uvmunmap` and `uvmdealloc` -/

/-- One page of `uvmunmap`: what the checks leave. -/
theorem unmap_entry {do_free : Bool} (hT : Tree s.mem r T lf)
    (h : unmapLoop r do_free (n + 1) a s = .ok s') : a < MAXVA ∧ (lf (a / 4096)).has PTE_V = true ∧
      ∃ b, EntryAt s.mem r (a / 4096) b ∧ readPte s.mem b = lf (a / 4096) ∧
        ((do_free = true ∧ ∃ s₁, kfree (PTE2PA (lf (a / 4096))) s = .ok s₁ ∧
            unmapLoop r do_free n (a + 4096) (s₁.setPte b 0#64) = .ok s') ∨
          (do_free = false ∧ unmapLoop r do_free n (a + 4096) (s.setPte b 0#64) = .ok s')) := by
  unfold unmapLoop at h
  cases hw : walk r a false s with
  | error e => rw [hw] at h; cases h
  | ok x =>
    obtain ⟨o, s₁⟩ := x
    obtain ⟨hva, rfl, ⟨rfl, -⟩ | ⟨b, rfl, hb⟩⟩ := walk_false_spec hT hw
    · rw [hw] at h; cases h
    · have hread := hb.read hT (pageNumber_lt hva)
      rw [hw] at h
      simp only [hread] at h
      split_ifs at h with hV hfl hf
      · refine ⟨hva, by simpa using hV, b, hb, hread, Or.inl ⟨hf, ?_⟩⟩
        cases hk : kfree (PTE2PA (lf (a / 4096))) s₁ with
        | error e => rw [hk] at h; cases h
        | ok s₂ => rw [hk] at h; exact ⟨s₂, rfl, h⟩
      · exact ⟨hva, by simpa using hV, b, hb, hread, Or.inr ⟨by simpa using hf, h⟩⟩

/-- Unmapping one page: the reference of the entry is dropped. -/
theorem unmap_page {v b : ℕ} {s₁ : Phys} (hT : Tree s.mem r T lf)
    (hO : Owns s (T + K) (leafRefs UPAGES lf + X)) (hvU : v < UPAGES) (hV : (lf v).has PTE_V = true)
    (hb : EntryAt s.mem r v b) (hk : Xv6.kfree (PTE2PA (lf v)) s = .ok s₁) :
    Tree (s₁.setPte b 0#64).mem r T (Function.update lf v 0#64) ∧
      Owns (s₁.setPte b 0#64) (T + K) (leafRefs UPAGES (Function.update lf v 0#64) + X) ∧
      Keeps s.mem (s₁.setPte b 0#64).mem (K + (leafRefs UPAGES (Function.update lf v 0#64) + X)) := by
  have hO₀ : Owns s (T + K) (PTE2PA (lf v) ::ₘ (leafOthers UPAGES lf v + X)) := by
    rwa [leafRefs_split hvU, pageOf_of_has hV, Multiset.singleton_add, Multiset.cons_add] at hO
  obtain ⟨hO₁, hkeep⟩ := hO₀.kfree hk
  have hkT : Keeps s.mem s₁.mem T := hkeep.left.left
  obtain ⟨hT₂, hO₂, hk₂⟩ := EntryAt.set (hT.congr hkT) hO₁ (hb.congr hT hkT)
    (lt_trans hvU (by decide)) 0#64
  rw [leafRefs_update hvU, pageOf_zero, zero_add]
  refine ⟨hT₂, hO₂, fun p hp => (hkeep p ?_).trans (hk₂ p hp)⟩
  rw [add_assoc]
  exact Multiset.mem_add.mpr (Or.inr hp)

/-- `uvmunmap` with `do_free` below `TRAPFRAME`: the pages are unmapped, each loses one reference. -/
theorem unmapLoop_free_spec (hT : Tree s.mem r T lf) (hO : Owns s (T + K) (leafRefs UPAGES lf + X))
    (ha : a % 4096 = 0) (hn : a / 4096 + n ≤ UPAGES) (h : unmapLoop r true n a s = .ok s') :
    (∀ v, a / 4096 ≤ v → v < a / 4096 + n → (lf v).has PTE_V = true) ∧
      Tree s'.mem r T (clearPages lf (a / 4096) n) ∧
      Owns s' (T + K) (leafRefs UPAGES (clearPages lf (a / 4096) n) + X) ∧
      Keeps s.mem s'.mem (K + (leafRefs UPAGES (clearPages lf (a / 4096) n) + X)) := by
  induction n generalizing s a lf with
  | zero =>
    cases h
    rw [clearPages_zero]
    exact ⟨fun v h1 h2 => absurd h2 (by omega), hT, hO, Keeps.refl _ _⟩
  | succ n ih =>
    obtain ⟨hva, hV, b, hb, -, ⟨-, s₁, hk, hrest⟩ | ⟨hf, -⟩⟩ := unmap_entry hT h
    · obtain ⟨ha', hdiv⟩ := next_page ha
      generalize hv : a / 4096 = v at *
      obtain ⟨hT₂, hO₂, hk₂⟩ := unmap_page hT hO (by omega) hV hb hk
      have hn' : (a + 4096) / 4096 + n ≤ UPAGES := by omega
      obtain ⟨hvalid, hT₃, hO₃, hk₃⟩ := ih hT₂ hO₂ ha' hn' hrest
      rw [hdiv, clearPages_succ] at hT₃ hO₃ hk₃
      rw [hdiv] at hvalid
      refine ⟨fun w h1 h2 => ?_, hT₃, hO₃, fun p hp => ?_⟩
      · by_cases hw : w = v
        · exact hw ▸ hV
        · have := hvalid w (by omega) (by omega)
          rwa [Function.update_of_ne hw] at this
      · -- a page still referenced was referenced all along
        have hsub : K + (leafRefs UPAGES (clearPages lf v (n + 1)) + X) ≤
            K + (leafRefs UPAGES (Function.update lf v 0#64) + X) := by
          rw [← clearPages_succ]
          exact add_le_add_right (add_le_add_left leafRefs_clear_le X) K
        exact (hk₂ p (Multiset.mem_of_le hsub hp)).trans (hk₃ p hp)
    · cases hf

/-- `uvmunmap` without `do_free`: the entries go, the references stay. -/
theorem unmapLoop_keep_spec (hT : Tree s.mem r T lf) (hO : Owns s (T + K) F)
    (ha : a % 4096 = 0) (h : unmapLoop r false n a s = .ok s') :
    Tree s'.mem r T (clearPages lf (a / 4096) n) ∧ Owns s' (T + K) F ∧
      Keeps s.mem s'.mem (K + F) := by
  induction n generalizing s a lf with
  | zero =>
    cases h
    rw [clearPages_zero]
    exact ⟨hT, hO, Keeps.refl _ _⟩
  | succ n ih =>
    obtain ⟨hva, -, b, hb, -, ⟨hf, -⟩ | ⟨-, hrest⟩⟩ := unmap_entry hT h
    · cases hf
    · obtain ⟨ha', hdiv⟩ := next_page ha
      obtain ⟨hT₁, hO₁, hk₁⟩ := EntryAt.set hT hO hb (pageNumber_lt hva) 0#64
      obtain ⟨hT₂, hO₂, hk₂⟩ := ih hT₁ hO₁ ha' hrest
      rw [hdiv, clearPages_succ] at hT₂
      exact ⟨hT₂, hO₂, hk₁.trans hk₂⟩

/-- The number of pages for `sz` bytes. -/
def pages (sz : ℕ) : ℕ := (sz + 4095) / 4096

omit [Image] in
theorem pages_le {sz : ℕ} (h : sz ≤ TRAPFRAME) : pages sz ≤ UPAGES := by
  have h' : sz ≤ 274877898752 := h
  show (sz + 4095) / 4096 ≤ 67108862
  omega

omit [Image] in
theorem PGROUNDUP_eq {sz : ℕ} (h : sz < 2 ^ 64 - 4096) : PGROUNDUP sz = pages sz * 4096 := by
  unfold PGROUNDUP uint64 pages
  simp only [PGSIZE]
  omega

theorem uvmunmap_pages {do_free : Bool} (ha : va % 4096 = 0) (hn : va + n * 4096 < 2 ^ 64) :
    uvmunmap r va n do_free s = unmapLoop r do_free n va s := by
  have hrounds : (uint64 (va + n * PGSIZE) - va + PGSIZE - 1) / PGSIZE = n := by
    unfold uint64
    simp only [PGSIZE]
    omega
  unfold uvmunmap
  simp only [hrounds]
  exact if_neg (not_not.mpr ha)

theorem uvmunmap_ok {do_free : Bool} (h : uvmunmap r va n do_free s = .ok s')
    (hn : va + n * 4096 < 2 ^ 64) : va % 4096 = 0 ∧ unmapLoop r do_free n va s = .ok s' := by
  have ha : va % 4096 = 0 := by
    unfold uvmunmap at h
    split_ifs at h with h0
    exact not_not.mp h0
  exact ⟨ha, uvmunmap_pages ha hn ▸ h⟩

/-- `uvmdealloc` is the loop over the pages between the two sizes. -/
theorem uvmdealloc_pages {oldsz newsz : ℕ} (hsz : oldsz ≤ TRAPFRAME) : uvmdealloc r oldsz newsz s =
    (unmapLoop r true (pages oldsz - pages newsz) (pages newsz * 4096) s).map
      fun t => (min oldsz newsz, t) := by
  have hsz' : oldsz ≤ 274877898752 := hsz
  have hold : PGROUNDUP oldsz = pages oldsz * 4096 := PGROUNDUP_eq (by omega)
  have hop : pages oldsz ≤ 67108862 := pages_le hsz
  unfold uvmdealloc
  split_ifs with h1 h2
  · have h0 : pages oldsz - pages newsz = 0 := by
      unfold pages
      omega
    rw [h0, Nat.min_eq_left h1]
    rfl
  · have hnew : PGROUNDUP newsz = pages newsz * 4096 := PGROUNDUP_eq (by omega)
    have hnp : sextInt ((PGROUNDUP oldsz - PGROUNDUP newsz) / PGSIZE) = pages oldsz - pages newsz := by
      rw [hold, hnew, ← Nat.sub_mul, Nat.mul_div_cancel _ (by decide)]
      unfold sextInt
      rw [if_pos (by omega)]
      omega
    have hle : pages newsz ≤ pages oldsz := by
      rw [hold, hnew] at h2
      omega
    have hlt : pages newsz * 4096 + (pages oldsz - pages newsz) * 4096 < 2 ^ 64 := by
      rw [← Nat.add_mul, Nat.add_sub_cancel' hle]
      omega
    have hu : uvmunmap r (PGROUNDUP newsz) (pages oldsz - pages newsz) true s =
        unmapLoop r true (pages oldsz - pages newsz) (pages newsz * 4096) s := by
      rw [hnew]
      exact uvmunmap_pages (Nat.mul_mod_left _ _) hlt
    simp only [hnp, hu]
    rw [Nat.min_eq_right (by omega)]
    cases unmapLoop r true (pages oldsz - pages newsz) (pages newsz * 4096) s <;> rfl
  · have hnew : PGROUNDUP newsz = pages newsz * 4096 := PGROUNDUP_eq (by omega)
    have h0 : pages oldsz - pages newsz = 0 := by
      rw [hold, hnew] at h2
      omega
    rw [h0, Nat.min_eq_right (by omega)]
    rfl

/-- `uvmdealloc` unmaps the pages between the two sizes. -/
theorem uvmdealloc_spec {oldsz newsz res : ℕ} (hT : Tree s.mem r T lf)
    (hO : Owns s (T + K) (leafRefs UPAGES lf + X)) (hsz : oldsz ≤ TRAPFRAME)
    (h : uvmdealloc r oldsz newsz s = .ok (res, s')) : res = min oldsz newsz ∧
      ∃ lf', lf' = clearPages lf (pages newsz) (pages oldsz - pages newsz) ∧
        Tree s'.mem r T lf' ∧ Owns s' (T + K) (leafRefs UPAGES lf' + X) ∧
        Keeps s.mem s'.mem (K + (leafRefs UPAGES lf' + X)) := by
  have hop : pages oldsz ≤ 67108862 := pages_le hsz
  rw [uvmdealloc_pages hsz] at h
  obtain ⟨t, ht, h⟩ := map_ok h
  obtain ⟨rfl, rfl⟩ := Prod.mk.inj h
  have hdiv : pages newsz * 4096 / 4096 = pages newsz := Nat.mul_div_cancel _ (by decide)
  refine ⟨rfl, _, rfl, ?_⟩
  by_cases hle : pages newsz ≤ pages oldsz
  · obtain ⟨-, hT', hO', hk⟩ := unmapLoop_free_spec hT hO (Nat.mul_mod_left _ _)
      (by rw [hdiv]; show _ ≤ 67108862; omega) ht
    rw [hdiv] at hT' hO' hk
    exact ⟨hT', hO', hk⟩
  · rw [show pages oldsz - pages newsz = 0 by omega] at ht ⊢
    cases ht
    rw [clearPages_zero]
    exact ⟨hT, hO, Keeps.refl _ _⟩

/-! ## `uvmalloc` -/

/-- `lf'` maps the fresh pages `N` at the page numbers `a, …, a + n - 1`, which `lf` leaves free. -/
structure Mapped (perm : Pte) (lf lf' : ℕ → Pte) (a n : ℕ) (N : Multiset ℕ) : Prop where
  same : ∀ v, v < a ∨ a + n ≤ v → lf' v = lf v
  free : ∀ v, a ≤ v → v < a + n → (lf v).has PTE_V = false
  page : ∀ v, a ≤ v → v < a + n → ∃ p ∈ N, okPage p ∧ lf' v = PA2PTE p ||| perm ||| PTE_V
  refs : leafRefs UPAGES lf' = leafRefs UPAGES lf + N
  nodup : N.Nodup

theorem Mapped.nil : Mapped perm lf lf a 0 0 :=
  ⟨fun _ _ => rfl, fun v h1 h2 => absurd h2 (by omega), fun v h1 h2 => absurd h2 (by omega),
    by simp, Multiset.nodup_zero⟩

/-- The entry that `mappages` writes refers to its page. -/
theorem pageOf_mapped {p : ℕ} (hp : okPage p) (hperm : Low perm) :
    pageOf (PA2PTE p ||| perm ||| PTE_V) = {p} := by
  rw [pageOf_of_has (has_or_self (by decide)), BitVec.or_assoc,
    PTE2PA_map (hperm.or (by decide)) hp.1 hp.lt]

theorem leafRefs_map {p v : ℕ} (hp : okPage p) (hperm : Low perm) (hv : v < UPAGES)
    (hfree : (lf v).has PTE_V = false) :
    leafRefs UPAGES (Function.update lf v (PA2PTE p ||| perm ||| PTE_V)) =
      p ::ₘ leafRefs UPAGES lf := by
  rw [leafRefs_update hv, leafRefs_split (f := lf) hv, pageOf_of_not hfree, pageOf_mapped hp hperm,
    Multiset.singleton_add, zero_add]

theorem Mapped.cons {lf' : ℕ → Pte} {p v : ℕ} {N : Multiset ℕ} (hp : okPage p) (hperm : Low perm)
    (hv : v < UPAGES) (hfree : (lf v).has PTE_V = false)
    (h : Mapped perm (Function.update lf v (PA2PTE p ||| perm ||| PTE_V)) lf' (v + 1) n N)
    (hpN : p ∉ N) : Mapped perm lf lf' v (n + 1) (p ::ₘ N) := by
  refine ⟨fun w hw => ?_, fun w h1 h2 => ?_, fun w h1 h2 => ?_, ?_, Multiset.nodup_cons.mpr ⟨hpN, h.nodup⟩⟩
  · rw [h.same w (by omega), Function.update_of_ne (by omega)]
  · by_cases hwv : w = v
    · exact hwv ▸ hfree
    · have := h.free w (by omega) (by omega)
      rwa [Function.update_of_ne hwv] at this
  · by_cases hwv : w = v
    · subst hwv
      exact ⟨p, Multiset.mem_cons_self _ _, hp, by rw [h.same w (by omega), Function.update_self]⟩
    · obtain ⟨q, hq, hok, he⟩ := h.page w (by omega) (by omega)
      exact ⟨q, Multiset.mem_cons_of_mem hq, hok, he⟩
  · rw [h.refs, leafRefs_map hp hperm hv hfree, Multiset.cons_add, Multiset.add_cons]

/-- What is left of the map after the loop has failed and `uvmdealloc` has undone it. -/
structure Undone (lf lf' : ℕ → Pte) (o a : ℕ) : Prop where
  same : ∀ v, v < o ∨ a ≤ v → lf' v = lf v ∨ ((lf v).has PTE_V = false ∧ lf' v = 0#64)
  clear : ∀ v, o ≤ v → v < a → lf' v = 0#64

omit [Image] in
theorem Undone.leafRefs_le {lf' : ℕ → Pte} {o : ℕ} (h : Undone lf lf' o a) :
    leafRefs UPAGES lf' ≤ leafRefs UPAGES lf := by
  refine leafRefs_mono fun v _ => ?_
  by_cases hv : v < o ∨ a ≤ v
  · rcases h.same v hv with he | ⟨-, he⟩
    · rw [he]
    · rw [he, pageOf_zero]; exact Multiset.zero_le _
  · rw [h.clear v (by omega) (by omega), pageOf_zero]
    exact Multiset.zero_le _

omit [Image] in
/-- `uvmdealloc` undoes the loop. -/
theorem Undone.of_clear {o : ℕ} : Undone lf (clearPages lf o (a - o)) o a := by
  refine ⟨fun v hv => Or.inl (if_neg (by omega)), fun v h1 h2 => if_pos (by omega)⟩

omit [Image] in
theorem Undone.step {lf' : ℕ → Pte} {o v : ℕ} {e : Pte} (hov : o ≤ v)
    (hfree : (lf v).has PTE_V = false) (h : Undone (Function.update lf v e) lf' o (v + 1)) :
    Undone lf lf' o v := by
  refine ⟨fun w hw => ?_, fun w h1 h2 => h.clear w h1 (by omega)⟩
  by_cases hwv : w = v
  · subst hwv
    exact Or.inr ⟨hfree, h.clear w hov (by omega)⟩
  · have := h.same w (by omega)
    rwa [Function.update_of_ne hwv] at this

/-- Undoing the loop of `uvmalloc`: `uvmdealloc` from `a` down to `oldsz`. -/
theorem undo_spec {oldsz res : ℕ} (hT : Tree s.mem r T lf)
    (hO : Owns s (T + K) (leafRefs UPAGES lf + X)) (ha : a % 4096 = 0) (ho : oldsz % 4096 = 0)
    (haU : a / 4096 ≤ UPAGES) (h : uvmdealloc r a oldsz s = .ok (res, s')) :
    ∃ lf', Tree s'.mem r T lf' ∧ Owns s' (T + K) (leafRefs UPAGES lf' + X) ∧
      Keeps s.mem s'.mem (K + (leafRefs UPAGES lf' + X)) ∧ Undone lf lf' (oldsz / 4096) (a / 4096) := by
  have haT : a ≤ TRAPFRAME := by
    have : a / 4096 ≤ 67108862 := haU
    show a ≤ 274877898752
    omega
  obtain ⟨-, lf', hlf, hT', hO', hk⟩ := uvmdealloc_spec hT hO haT h
  have hpo : pages oldsz = oldsz / 4096 := by unfold pages; omega
  have hpa : pages a = a / 4096 := by unfold pages; omega
  rw [hpo, hpa] at hlf
  exact ⟨lf', hT', hO', hk, hlf ▸ Undone.of_clear⟩

/-- One round of `uvmalloc`: a zeroed page from `kalloc` is mapped, unless a table is missing. -/
theorem fresh_page_spec {mem : ℕ} {s₁ : Phys} {res : ℤ} (hT : Tree s.mem r T lf)
    (hO : Owns s (T + K) F) (ha : a % 4096 = 0) (haU : a / 4096 ≤ UPAGES)
    (hk : kalloc s = (some mem, s₁))
    (h : mappages r a PGSIZE mem perm (s₁.memset mem PGSIZE 0) = .ok (res, s')) :
    okPage mem ∧ mem ∉ F ∧ Keeps s.mem s'.mem (K + F) ∧ (∀ i < 4096, s'.mem (mem + i) = 0) ∧
      ∃ T' lf', Tree s'.mem r T' lf' ∧ Owns s' (T' + K) (mem ::ₘ F) ∧ ((res = -1 ∧ lf' = lf) ∨
        (res = 0 ∧ (lf (a / 4096)).has PTE_V = false ∧
          lf' = Function.update lf (a / 4096) (PA2PTE mem ||| perm ||| PTE_V))) := by
  rcases hO.kalloc_ref hk with ⟨hn, -, -⟩ | ⟨p, hp, hok, hmem, hO₁, hk₁⟩
  · cases hn
  · cases hp
    have hT₁ : ∀ p ∈ T + K + F, PageEq s.mem (s₁.memset mem PGSIZE 0).mem p := by
      intro p hp
      have hne : p ≠ mem := fun he => hmem (he ▸ hp)
      exact (hk₁ p hp).trans (pageEq_fill hok.1 (hO.alloc.ok hp).1 hne)
    have hlt : a < 2 ^ 64 - 4096 := by
      have : a / 4096 ≤ 67108862 := haU
      omega
    obtain ⟨-, T', lf', hT', hO', hk', hcases⟩ := mappages_spec
      (hT.congr (Keeps.left (Keeps.left hT₁))) (hO₁.memset mem PGSIZE 0) ha hlt h
    rw [Multiset.mem_add, not_or] at hmem
    refine ⟨hok, hmem.2, fun p hp => ?_, fun i hi => ?_, T', lf', hT', hO', ?_⟩
    · have hpK : p ∈ K + mem ::ₘ F := by
        rw [Multiset.add_cons]
        exact Multiset.mem_cons_of_mem hp
      refine (hT₁ p ?_).trans (hk' p hpK)
      rw [add_assoc]
      exact Multiset.mem_add.mpr (Or.inr hp)
    · rw [hk'.right mem (Multiset.mem_cons_self _ _) i hi]
      exact ByteStore.fill_in (by omega) (by simp only [PGSIZE]; omega)
    · rcases hcases with ⟨h1, h2, -⟩ | h2
      · exact Or.inl ⟨h1, h2⟩
      · exact Or.inr h2

/-- The loop of `uvmalloc`, entered with the pages from `oldsz` to `a` mapped. -/
theorem allocLoop_spec {oldsz : ℕ} {ok : Bool} (hperm : Low perm) (hT : Tree s.mem r T lf)
    (hO : Owns s (T + K) (leafRefs UPAGES lf + X)) (ha : a % 4096 = 0) (ho : oldsz % 4096 = 0)
    (hoa : oldsz ≤ a) (haU : a / 4096 ≤ UPAGES)
    (hroom : (lf UPAGES).has PTE_V = true ∨ a / 4096 + n ≤ UPAGES)
    (h : allocLoop r oldsz perm n a s = .ok (ok, s')) :
    ∃ T' lf', Tree s'.mem r T' lf' ∧ Owns s' (T' + K) (leafRefs UPAGES lf' + X) ∧
      ((ok = true ∧ Keeps s.mem s'.mem (K + (leafRefs UPAGES lf + X)) ∧
          ∃ N, Mapped (PTE_R ||| PTE_U ||| perm) lf lf' (a / 4096) n N ∧
            ∀ p ∈ N, p ∉ leafRefs UPAGES lf + X ∧ ∀ i < 4096, s'.mem (p + i) = 0) ∨
        (ok = false ∧ Keeps s.mem s'.mem (K + (leafRefs UPAGES lf' + X)) ∧
          Undone lf lf' (oldsz / 4096) (a / 4096))) := by
  have hperm' : Low (PTE_R ||| PTE_U ||| perm) := Low.or (by decide) hperm
  induction n generalizing s a lf T with
  | zero =>
    cases h
    refine ⟨T, lf, hT, hO, Or.inl ⟨rfl, Keeps.refl _ _, 0, Mapped.nil, fun p hp => ?_⟩⟩
    exact absurd hp (Multiset.notMem_zero p)
  | succ n ih =>
    unfold allocLoop at h
    cases hk : kalloc s with
    | mk o s₁ =>
      rw [hk] at h
      cases o with
      | none =>
        rcases hO.kalloc_ref hk with ⟨-, rfl, -⟩ | ⟨p, hp, -⟩
        · -- no page left
          simp only at h
          cases hu : uvmdealloc r a oldsz s₁ with
          | error e => rw [hu] at h; cases h
          | ok x =>
            obtain ⟨res, t⟩ := x
            rw [hu] at h
            cases h
            obtain ⟨lf', hT', hO', hk', hund⟩ := undo_spec hT hO ha ho haU hu
            exact ⟨T, lf', hT', hO', Or.inr ⟨rfl, hk', hund⟩⟩
        · cases hp
      | some mem =>
        simp only at h
        cases hm : mappages r a PGSIZE mem (PTE_R ||| PTE_U ||| perm) (s₁.memset mem PGSIZE 0) with
        | error e => rw [hm] at h; cases h
        | ok x =>
          obtain ⟨res, s₂⟩ := x
          rw [hm] at h
          obtain ⟨hok, hmem, hk₂, hzero, T₂, lf₂, hT₂, hO₂, ⟨rfl, rfl⟩ | ⟨rfl, hfree, rfl⟩⟩ :=
            fresh_page_spec hT hO ha haU hk hm
          · -- no table: the page goes back, and all that was mapped
            simp only at h
            rw [if_pos (by decide)] at h
            cases hf : kfree mem s₂ with
            | error e => rw [hf] at h; cases h
            | ok s₃ =>
              rw [hf] at h
              obtain ⟨hO₃, hk₃⟩ := hO₂.kfree hf
              simp only at h
              cases hu : uvmdealloc r a oldsz s₃ with
              | error e => rw [hu] at h; cases h
              | ok x =>
                obtain ⟨res, t⟩ := x
                rw [hu] at h
                cases h
                obtain ⟨lf', hT', hO', hk', hund⟩ :=
                  undo_spec (hT₂.congr hk₃.left.left) hO₃ ha ho haU hu
                refine ⟨T₂, lf', hT', hO', Or.inr ⟨rfl, fun p hp => ?_, hund⟩⟩
                have hp' := Multiset.mem_of_le
                  (add_le_add_right (add_le_add_left hund.leafRefs_le X) K) hp
                refine ((hk₂ p hp').trans (hk₃ p ?_)).trans (hk' p hp)
                rw [add_assoc]
                exact Multiset.mem_add.mpr (Or.inr hp')
          · have hvU : a / 4096 < UPAGES := by
              rcases hroom with hV | hle
              · refine lt_of_le_of_ne haU fun he => ?_
                rw [he, hV] at hfree
                cases hfree
              · omega
            simp only [ne_eq, not_true_eq_false, if_false] at h
            have hrefs := leafRefs_map hok hperm' hvU hfree
            rw [← Multiset.cons_add, ← hrefs] at hO₂
            obtain ⟨ha', hdiv⟩ := next_page ha
            have hroom' : (Function.update lf (a / 4096) (PA2PTE mem ||| (PTE_R ||| PTE_U ||| perm) |||
                PTE_V) UPAGES).has PTE_V = true ∨ (a + PGSIZE) / 4096 + n ≤ UPAGES := by
              rcases hroom with hV | hle
              · left
                rwa [Function.update_of_ne hvU.ne']
              · right
                rw [hdiv]
                omega
            obtain ⟨T', lf', hT', hO', hcases⟩ := ih hT₂ hO₂ ha' (le_trans hoa (Nat.le_add_right _ _))
              (by rw [hdiv]; omega) hroom' h
            rw [hdiv, hrefs] at hcases
            refine ⟨T', lf', hT', hO', ?_⟩
            rcases hcases with ⟨rfl, hk', N, hN, hfresh⟩ | ⟨rfl, hk', hund⟩
            · refine Or.inl ⟨rfl, fun p hp => ?_, mem ::ₘ N, ?_, fun p hp => ?_⟩
              · refine (hk₂ p hp).trans (hk' p ?_)
                rw [Multiset.cons_add, Multiset.add_cons]
                exact Multiset.mem_cons_of_mem hp
              · refine Mapped.cons hok hperm' hvU hfree hN fun hmN => (hfresh mem hmN).1 ?_
                rw [Multiset.cons_add]
                exact Multiset.mem_cons_self _ _
              · rcases Multiset.mem_cons.mp hp with rfl | hp
                · refine ⟨hmem, fun i hi => ?_⟩
                  rw [hk' p (by rw [Multiset.cons_add, Multiset.add_cons]; exact Multiset.mem_cons_self _ _) i hi]
                  exact hzero i hi
                · refine ⟨fun hpR => (hfresh p hp).1 ?_, (hfresh p hp).2⟩
                  rw [Multiset.cons_add]
                  exact Multiset.mem_cons_of_mem hpR
            · have hund' := hund.step (Nat.div_le_div_right hoa) hfree
              refine Or.inr ⟨rfl, fun p hp => ?_, hund'⟩
              have hp' := Multiset.mem_of_le
                (add_le_add_right (add_le_add_left hund'.leafRefs_le X) K) hp
              exact (hk₂ p hp').trans (hk' p hp)

/-- The map is the same, but for entries that were not valid. -/
def SameMap (lf lf' : ℕ → Pte) : Prop :=
  ∀ v, lf' v = lf v ∨ ((lf v).has PTE_V = false ∧ lf' v = 0#64)

omit [Image] in
theorem SameMap.leafRefs_eq {lf' : ℕ → Pte} (h : SameMap lf lf') :
    leafRefs n lf' = leafRefs n lf := by
  refine leafRefs_congr fun v _ => ?_
  rcases h v with he | ⟨hV, he⟩
  · rw [he]
  · rw [he, pageOf_zero, pageOf_of_not hV]

omit [Image] in
theorem SameMap.V {lf' : ℕ → Pte} (h : SameMap lf lf') (v : ℕ) :
    (lf' v).has PTE_V = (lf v).has PTE_V := by
  rcases h v with he | ⟨hV, he⟩
  · rw [he]
  · rw [he, hV, zero_has]

/-- The same pages are mapped by the same entries. -/
def SameMaps (lf lf' : ℕ → Pte) : Prop := ∀ v < VPAGES, (lf' v).has PTE_V = (lf v).has PTE_V ∧
  ((lf v).has PTE_V = true → lf' v = lf v)

omit [Image] in
theorem SameMaps.refl (lf : ℕ → Pte) : SameMaps lf lf := fun _ _ => ⟨rfl, fun _ => rfl⟩

omit [Image] in
theorem SameMaps.trans {lf' lf'' : ℕ → Pte} (h : SameMaps lf lf') (h' : SameMaps lf' lf'') :
    SameMaps lf lf'' := by
  intro v hv
  obtain ⟨h1, h2⟩ := h v hv
  obtain ⟨h3, h4⟩ := h' v hv
  exact ⟨h3.trans h1, fun hV => (h4 (h1.trans hV)).trans (h2 hV)⟩

omit [Image] in
theorem SameMap.sameMaps {lf' : ℕ → Pte} (h : SameMap lf lf') : SameMaps lf lf' := by
  intro v _
  refine ⟨h.V v, fun hV => ?_⟩
  rcases h v with he | ⟨hn, -⟩
  · exact he
  · rw [hV] at hn
    cases hn

/-- `uvmalloc` is the loop over the pages between the two sizes. -/
theorem uvmalloc_pages {oldsz newsz : ℕ} (hsz : oldsz ≤ TRAPFRAME) (hle : oldsz ≤ newsz) :
    uvmalloc r oldsz newsz perm s =
      (allocLoop r (pages oldsz * 4096) perm (pages newsz - pages oldsz) (pages oldsz * 4096) s).map
        fun x => (if x.1 then newsz else 0, x.2) := by
  have hsz' : oldsz ≤ 274877898752 := hsz
  have hold : PGROUNDUP oldsz = pages oldsz * 4096 := PGROUNDUP_eq (by omega)
  have hn : (newsz - pages oldsz * 4096 + PGSIZE - 1) / PGSIZE = pages newsz - pages oldsz := by
    unfold pages
    simp only [PGSIZE]
    omega
  unfold uvmalloc
  rw [if_neg (not_lt.mpr hle)]
  simp only [hold, hn]
  cases allocLoop r (pages oldsz * 4096) perm (pages newsz - pages oldsz) (pages oldsz * 4096) s with
  | error e => rfl
  | ok x =>
    obtain ⟨ok, t⟩ := x
    cases ok <;> rfl

/-- **`uvmalloc`** maps fresh zeroed pages up to the new size, or leaves the map as it was. -/
theorem uvmalloc_spec {oldsz newsz res : ℕ} (hperm : Low perm) (hT : Tree s.mem r T lf)
    (hO : Owns s (T + K) (leafRefs UPAGES lf + X)) (hsz : oldsz ≤ TRAPFRAME)
    (hroom : (lf UPAGES).has PTE_V = true ∨ newsz ≤ TRAPFRAME)
    (h : uvmalloc r oldsz newsz perm s = .ok (res, s')) :
    ∃ T' lf', Tree s'.mem r T' lf' ∧ Owns s' (T' + K) (leafRefs UPAGES lf' + X) ∧
      Keeps s.mem s'.mem (K + (leafRefs UPAGES lf + X)) ∧
      ((res = max oldsz newsz ∧ res ≤ TRAPFRAME ∧ ∃ N,
          Mapped (PTE_R ||| PTE_U ||| perm) lf lf' (pages oldsz) (pages newsz - pages oldsz) N ∧
            ∀ p ∈ N, p ∉ leafRefs UPAGES lf + X ∧ ∀ i < 4096, s'.mem (p + i) = 0) ∨
        (res = 0 ∧ SameMap lf lf')) := by
  have hsz' : oldsz ≤ 274877898752 := hsz
  have hop : pages oldsz ≤ 67108862 := pages_le hsz
  by_cases hle : oldsz ≤ newsz
  · have hdiv : pages oldsz * 4096 / 4096 = pages oldsz := Nat.mul_div_cancel _ (by decide)
    have hmod : pages oldsz * 4096 % 4096 = 0 := Nat.mul_mod_left _ _
    have hroom' : (lf UPAGES).has PTE_V = true ∨
        pages oldsz * 4096 / 4096 + (pages newsz - pages oldsz) ≤ UPAGES := by
      rcases hroom with hV | hle
      · exact Or.inl hV
      · right
        rw [hdiv]
        have hle' : newsz ≤ 274877898752 := hle
        show pages oldsz + (pages newsz - pages oldsz) ≤ 67108862
        unfold pages at hop ⊢
        omega
    rw [uvmalloc_pages hsz hle] at h
    obtain ⟨⟨ok, t⟩, ha, h⟩ := map_ok h
    obtain ⟨T', lf', hT', hO', hcases⟩ := allocLoop_spec hperm hT hO hmod hmod le_rfl
      (by rw [hdiv]; exact hop) hroom' ha
    rw [hdiv] at hcases
    rcases hcases with ⟨rfl, hk, N, hN, hfresh⟩ | ⟨rfl, hk, hund⟩
    · cases h
      refine ⟨T', lf', hT', hO', hk, Or.inl ⟨(Nat.max_eq_right hle).symm, ?_, N, hN, hfresh⟩⟩
      -- the page at `TRAPFRAME` cannot have been mapped
      rcases hroom with hV | hle
      · by_contra hgt
        have hgt' : 274877898752 < newsz := not_le.mp hgt
        have hfree := hN.free UPAGES hop (by
          show 67108862 < _
          unfold pages at hop ⊢
          omega)
        rw [hV] at hfree
        cases hfree
      · exact hle
    · cases h
      have hsame : SameMap lf lf' := fun v => hund.same v (by omega)
      rw [hsame.leafRefs_eq] at hk
      exact ⟨T', lf', hT', hO', hk, Or.inr ⟨rfl, hsame⟩⟩
  · unfold uvmalloc at h
    rw [if_pos (not_le.mp hle)] at h
    cases h
    have h0 : pages newsz - pages oldsz = 0 := by unfold pages; omega
    refine ⟨T, lf, hT, hO, Keeps.refl _ _, Or.inl ⟨by omega, hsz, 0, ?_, fun p hp => ?_⟩⟩
    · rw [h0]
      exact Mapped.nil
    · exact absurd hp (Multiset.notMem_zero p)

end Xv6
