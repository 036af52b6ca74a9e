import Xv6.Mem.Transfer

/-!
# Resize — `uvmalloc` and `uvmdealloc` return, and undo each other

The lemmas of `VmSpec` are about calls that return.  Here the calls return: `uvmunmap` wherever the pages are
mapped by leaf entries (`unmapLoop_total`), `uvmalloc` wherever the pages are not mapped
(`uvmalloc_total`).

* `Grew`: `uvmalloc` has mapped fresh pages of zeros, and `uvmdealloc` takes exactly these back.
* `Failed`: it has left the user memory alone, and keeps pages for tables only.
* `uvmalloc_uvmdealloc`: it is one of the two.
-/

namespace Xv6

/-- What `uvmunmap` asks of an entry. -/
def IsLeaf (e : Pte) : Prop := e.has PTE_V = true ∧ PTE_FLAGS e ≠ PTE_V

theorem isLeaf_of_readable {e : Pte} (hV : e.has PTE_V = true) (hR : e.has PTE_R = true) : IsLeaf e := by
  refine ⟨hV, fun he => ?_⟩
  rw [← has_flags (by decide), he] at hR
  exact absurd hR (by decide)

section

variable [Image] {s s' : Phys} {r va a n pa oldsz newsz : ℕ} {T K F X : Multiset ℕ} {lf lf' : ℕ → Pte}
  {perm xperm : Pte}

/-! ## The calls return -/

omit [Image] in
theorem walk_false_total (hT : Tree s.mem r T lf) (hva : va < MAXVA)
    (hV : (lf (va / 4096)).has PTE_V = true) :
    ∃ b, walk r va false s = .ok (some b, s) ∧ EntryAt s.mem r (va / 4096) b := by
  obtain ⟨o, t, hw⟩ : ∃ o t, walk r va false s = .ok (o, t) := by
    unfold walk
    rw [if_neg (not_le.mpr hva)]
    exact ⟨_, _, rfl⟩
  obtain ⟨-, rfl, ⟨-, h0⟩ | ⟨b, rfl, hb⟩⟩ := walk_false_spec hT hw
  · rw [h0, zero_has] at hV
    cases hV
  · exact ⟨b, hw, hb⟩

theorem Owns.kfree_total {p : ℕ} (h : Owns s T F) (hp : p ∈ F) : ∃ s', Xv6.kfree p s = .ok s' := by
  obtain ⟨F', rfl⟩ := Multiset.exists_cons_of_mem hp
  obtain ⟨s', hk, -⟩ := kfree_spec (s := s) (p := p) (R := T + F') (by
    rw [← Multiset.add_cons]
    exact h.alloc)
  exact ⟨s', hk⟩

theorem unmapLoop_total (hT : Tree s.mem r T lf) (hO : Owns s (T + K) (leafRefs UPAGES lf + X))
    (ha : a % 4096 = 0) (hn : a / 4096 + n ≤ UPAGES)
    (hleaf : ∀ v, a / 4096 ≤ v → v < a / 4096 + n → IsLeaf (lf v)) :
    ∃ s', unmapLoop r true n a s = .ok s' := by
  induction n generalizing s a lf with
  | zero => exact ⟨s, rfl⟩
  | succ n ih =>
    obtain ⟨hV, hfl⟩ := hleaf (a / 4096) le_rfl (by omega)
    have hvU : a / 4096 < UPAGES := by omega
    have hva : a < MAXVA := by
      have hvU' : a / 4096 < 67108862 := hvU
      show a < 274877906944
      omega
    obtain ⟨b, hw, hb⟩ := walk_false_total hT hva hV
    have hmem : PTE2PA (lf (a / 4096)) ∈ leafRefs UPAGES lf + X :=
      Multiset.mem_add.mpr (Or.inl (mem_leafRefs.mpr ⟨_, hvU, hV, rfl⟩))
    obtain ⟨s₁, hk⟩ := hO.kfree_total hmem
    obtain ⟨hT₂, hO₂, -⟩ := unmap_page hT hO hvU hV hb hk
    obtain ⟨ha', hdiv⟩ := next_page ha
    obtain ⟨t, ht⟩ := ih hT₂ hO₂ ha' (by omega) fun v h1 h2 => by
      rw [Function.update_of_ne (by omega)]
      exact hleaf v (by omega) (by omega)
    refine ⟨t, ?_⟩
    unfold unmapLoop
    rw [hw]
    simp only [hb.read hT (pageNumber_lt hva), hV, hfl, Bool.true_eq_false, if_false, if_true, hk]
    exact ht

theorem uvmdealloc_total (hT : Tree s.mem r T lf) (hO : Owns s (T + K) (leafRefs UPAGES lf + X))
    (hsz : oldsz ≤ TRAPFRAME) (hleaf : ∀ v, pages newsz ≤ v → v < pages oldsz → IsLeaf (lf v)) :
    ∃ res s', uvmdealloc r oldsz newsz s = .ok (res, s') := by
  have hop : pages oldsz ≤ 67108862 := pages_le hsz
  have hdiv : pages newsz * 4096 / 4096 = pages newsz := Nat.mul_div_cancel _ (by decide)
  obtain ⟨t, ht⟩ : ∃ t, unmapLoop r true (pages oldsz - pages newsz) (pages newsz * 4096) s = .ok t := by
    by_cases hle : pages newsz ≤ pages oldsz
    · refine unmapLoop_total hT hO (Nat.mul_mod_left _ _) ?_ fun v h1 h2 => ?_
      · rw [hdiv]
        show pages newsz + (pages oldsz - pages newsz) ≤ 67108862
        omega
      · rw [hdiv] at h1 h2
        exact hleaf v h1 (by omega)
    · rw [show pages oldsz - pages newsz = 0 by omega]
      exact ⟨s, rfl⟩
  rw [uvmdealloc_pages hsz, ht]
  exact ⟨_, _, rfl⟩

theorem mappages_total (hT : Tree s.mem r T lf) (hO : Owns s (T + K) F) (hva : va % 4096 = 0)
    (hlt : va < MAXVA) (hfree : (lf (va / 4096)).has PTE_V = false) :
    ∃ res s', mappages r va PGSIZE pa perm s = .ok (res, s') := by
  have hlt' : va < 274877906944 := hlt
  rw [mappages_page hva (by omega)]
  unfold mapLoop
  obtain ⟨o, t, hw⟩ : ∃ o t, walk r va true s = .ok (o, t) := by
    unfold walk
    rw [if_neg (not_le.mpr hlt)]
    exact ⟨_, _, rfl⟩
  obtain ⟨-, T', hT', -, -, ⟨rfl, -⟩ | ⟨b, rfl, hb⟩⟩ := walk_true_spec hT hO hw
  · rw [hw]
    exact ⟨_, _, rfl⟩
  · rw [hw]
    simp only [hb.read hT' (pageNumber_lt hlt), hfree, Bool.false_eq_true, if_false]
    exact ⟨_, _, rfl⟩

/-- The loop of `uvmalloc`: the pages from `oldsz` to `a` are mapped, the next ones are not. -/
theorem allocLoop_total (hperm : Low xperm) (hT : Tree s.mem r T lf)
    (hO : Owns s (T + K) (leafRefs UPAGES lf + X)) (ha : a % 4096 = 0) (ho : oldsz % 4096 = 0)
    (haU : a / 4096 + n ≤ UPAGES)
    (hleaf : ∀ v, oldsz / 4096 ≤ v → v < a / 4096 → IsLeaf (lf v))
    (hfree : ∀ v, a / 4096 ≤ v → v < a / 4096 + n → (lf v).has PTE_V = false) :
    ∃ ok s', allocLoop r oldsz xperm n a s = .ok (ok, s') := by
  induction n generalizing s a lf T with
  | zero => exact ⟨_, _, rfl⟩
  | succ n ih =>
    have haU' : a / 4096 + (n + 1) ≤ 67108862 := haU
    have haT : a ≤ TRAPFRAME := by
      show a ≤ 274877898752
      omega
    -- what has been mapped can be unmapped again
    have hundo : ∀ {t T'}, Tree t.mem r T' lf → Owns t (T' + K) (leafRefs UPAGES lf + X) →
        ∃ res s', uvmdealloc r a oldsz t = .ok (res, s') := by
      intro t T' hT' hO'
      refine uvmdealloc_total hT' hO' haT fun v h1 h2 => hleaf v ?_ ?_
      · unfold pages at h1
        omega
      · unfold pages at h2
        omega
    unfold allocLoop
    cases hk : kalloc s with
    | mk o s₁ =>
      cases o with
      | none =>
        obtain ⟨-, rfl, -⟩ | ⟨p, hp, -⟩ := hO.kalloc_ref hk
        · obtain ⟨res, t, hd⟩ := hundo hT hO
          simp only [hd]
          exact ⟨_, _, rfl⟩
        · cases hp
      | some mem =>
        obtain ⟨hn, -⟩ | ⟨p, hp, hok, hmem, hO₁, hk₁⟩ := hO.kalloc_ref hk
        · cases hn
        cases hp
        have hT₁ : Keeps s.mem (s₁.memset mem PGSIZE 0).mem T := by
          intro q hq
          have hq' : q ∈ T + K + (leafRefs UPAGES lf + X) :=
            Multiset.mem_add.mpr (Or.inl (Multiset.mem_add.mpr (Or.inl hq)))
          have hne : q ≠ mem := fun he => hmem (he ▸ hq')
          exact (hk₁ q hq').trans (pageEq_fill hok.1 (hO.alloc.ok hq').1 hne)
        obtain ⟨res, s₂, hm⟩ := @mappages_total _ (s₁.memset mem PGSIZE 0) r a mem T K _ lf
          (PTE_R ||| PTE_U ||| xperm) (hT.congr hT₁) (hO₁.memset mem PGSIZE 0) ha
          (by show a < 274877906944; omega) (hfree _ le_rfl (by omega))
        obtain ⟨-, -, -, -, T₂, lf₂, hT₂, hO₂, ⟨rfl, rfl⟩ | ⟨rfl, -, rfl⟩⟩ :=
          fresh_page_spec hT hO ha (by omega) hk hm
        · obtain ⟨s₃, hf⟩ := hO₂.kfree_total (Multiset.mem_cons_self _ _)
          obtain ⟨hO₃, hk₃⟩ := hO₂.kfree hf
          obtain ⟨res, t, hd⟩ := hundo (hT₂.congr hk₃.left.left) hO₃
          simp only [hm, ne_eq, show ¬ (-1 : ℤ) = 0 by decide, not_false_eq_true, if_true, hf, hd]
          exact ⟨_, _, rfl⟩
        · simp only [hm, ne_eq, not_true_eq_false, if_false]
          obtain ⟨ha', hdiv⟩ := next_page ha
          have hrefs := leafRefs_map hok (Low.or (by decide) hperm : Low (PTE_R ||| PTE_U ||| xperm))
            (by omega : a / 4096 < UPAGES) (hfree _ le_rfl (by omega))
          rw [← Multiset.cons_add, ← hrefs] at hO₂
          refine ih hT₂ hO₂ ha' (by rw [hdiv]; omega) (fun v h1 h2 => ?_) fun v h1 h2 => ?_
          · rw [hdiv] at h2
            by_cases hv : v = a / 4096
            · subst hv
              rw [Function.update_self]
              exact isLeaf_of_readable userEntry_V userEntry_R
            · rw [Function.update_of_ne hv]
              exact hleaf v h1 (by omega)
          · rw [hdiv] at h1 h2
            rw [Function.update_of_ne (by omega)]
            exact hfree v (by omega) (by omega)

theorem uvmalloc_total (hperm : Low xperm) (hT : Tree s.mem r T lf)
    (hO : Owns s (T + K) (leafRefs UPAGES lf + X)) (htop : newsz ≤ TRAPFRAME)
    (hfree : ∀ v, pages oldsz ≤ v → v < pages newsz → (lf v).has PTE_V = false) :
    ∃ res s', uvmalloc r oldsz newsz xperm s = .ok (res, s') := by
  by_cases hle : oldsz ≤ newsz
  · have hsz : oldsz ≤ TRAPFRAME := hle.trans htop
    have hdiv : pages oldsz * 4096 / 4096 = pages oldsz := Nat.mul_div_cancel _ (by decide)
    have hmod : pages oldsz * 4096 % 4096 = 0 := Nat.mul_mod_left _ _
    obtain ⟨ok, t, ha⟩ : ∃ ok t, allocLoop r (pages oldsz * 4096) xperm (pages newsz - pages oldsz)
        (pages oldsz * 4096) s = .ok (ok, t) := by
      refine allocLoop_total hperm hT hO hmod hmod ?_ (fun v h1 h2 => absurd h1 (by omega)) ?_
      · rw [hdiv]
        have h1 := pages_le hsz
        have h2 := pages_le htop
        omega
      · intro v h1 h2
        rw [hdiv] at h1 h2
        exact hfree v h1 (by omega)
    rw [uvmalloc_pages hsz hle, ha]
    exact ⟨_, _, rfl⟩
  · unfold uvmalloc
    rw [if_pos (not_le.mp hle)]
    exact ⟨_, _, rfl⟩

/-! ## Growing and shrinking -/

/-- The pages that the entries from page number `a` up to `b` refer to. -/
def pagesAt (lf : ℕ → Pte) (a b : ℕ) : Multiset ℕ := (Finset.Ico a b).val.map fun v => PTE2PA (lf v)

/-- User code has the same pages with the same contents. -/
structure SameUser (s s' : Phys) (r : ℕ) : Prop where
  maps : SameMaps (leaf s.mem r) (leaf s'.mem r)
  byte : ∀ a, a / 4096 < UPAGES → (leaf s.mem r (a / 4096)).has PTE_V = true →
    userByte s'.mem (leaf s'.mem r) a = userByte s.mem (leaf s.mem r) a

/-- `uvmalloc` has mapped fresh pages of zeros, which `uvmdealloc` gives back. -/
structure Grew (s s' : Phys) (r oldsz newsz : ℕ) : Prop where
  mapped : ∀ v < UPAGES, (leaf s'.mem r v).has PTE_V = true ↔ v * PGSIZE < PGROUNDUP newsz
  entry : ∀ v, v * PGSIZE < PGROUNDUP oldsz → leaf s'.mem r v = leaf s.mem r v
  byte : ∀ a < PGROUNDUP oldsz, userByte s'.mem (leaf s'.mem r) a = userByte s.mem (leaf s.mem r) a
  zero : ∀ a, PGROUNDUP oldsz ≤ a → a < PGROUNDUP newsz → userByte s'.mem (leaf s'.mem r) a = 0
  own : ∀ v, PGROUNDUP oldsz ≤ v * PGSIZE → v * PGSIZE < PGROUNDUP newsz →
    s'.pte_count (PTE2PA (leaf s'.mem r v) / PGSIZE) = 1
  shrink : ∃ t, uvmdealloc r newsz oldsz s' = .ok (oldsz, t) ∧ SameUser s t r ∧
    (t.freelist : Multiset ℕ) =
      pagesAt (leaf s'.mem r) (PGROUNDUP oldsz / PGSIZE) (PGROUNDUP newsz / PGSIZE) + s'.freelist

/-- `uvmalloc` has left the user memory alone; the pages that it has not given back are tables. -/
structure Failed (s s' : Phys) (r : ℕ) : Prop where
  user : SameUser s s' r
  taken : ∀ p ∈ s.freelist, p ∉ s'.freelist → p ∈ tables s'.mem r

omit [Image] in
theorem lt_PGROUNDUP_iff {sz v : ℕ} (h : sz ≤ TRAPFRAME) : v * PGSIZE < PGROUNDUP sz ↔ v < pages sz := by
  have h' : sz ≤ 274877898752 := h
  rw [PGROUNDUP_eq (by omega)]
  simp only [PGSIZE]
  omega

/-- The fresh pages are those that the new entries refer to. -/
theorem Mapped.refs_eq {N : Multiset ℕ} (h : Mapped perm lf lf' a n N) (hn : a + n ≤ UPAGES) :
    N = pagesAt lf' a (a + n) := by
  have hsub : Finset.Ico a (a + n) ⊆ Finset.range UPAGES := by
    intro v hv
    rw [Finset.mem_Ico] at hv
    exact Finset.mem_range.mpr (by omega)
  have hrest : ∑ v ∈ Finset.range UPAGES \ Finset.Ico a (a + n), pageOf (lf' v) =
      ∑ v ∈ Finset.range UPAGES \ Finset.Ico a (a + n), pageOf (lf v) := by
    refine Finset.sum_congr rfl fun v hv => ?_
    rw [Finset.mem_sdiff, Finset.mem_Ico] at hv
    rw [h.same v (by omega)]
  have hold : ∑ v ∈ Finset.Ico a (a + n), pageOf (lf v) = 0 := by
    refine Finset.sum_eq_zero fun v hv => ?_
    rw [Finset.mem_Ico] at hv
    exact pageOf_of_not (h.free v hv.1 hv.2)
  have hnew : ∑ v ∈ Finset.Ico a (a + n), pageOf (lf' v) = pagesAt lf' a (a + n) := by
    have hone : ∀ v ∈ Finset.Ico a (a + n), pageOf (lf' v) = {PTE2PA (lf' v)} := by
      intro v hv
      rw [Finset.mem_Ico] at hv
      obtain ⟨p, -, -, he⟩ := h.page v hv.1 hv.2
      rw [he]
      exact pageOf_of_has (has_or_self (by decide))
    rw [Finset.sum_congr rfl hone]
    have hsum := Multiset.sum_map_singleton ((Finset.Ico a (a + n)).val.map fun v => PTE2PA (lf' v))
    rwa [Multiset.map_map] at hsum
  have hrefs := h.refs
  unfold leafRefs at hrefs
  rw [← Finset.sum_sdiff hsub, ← Finset.sum_sdiff (f := fun v => pageOf (lf v)) hsub, hrest, hold, hnew,
    add_zero] at hrefs
  exact (add_left_cancel hrefs).symm

omit [Image] in
/-- Entries that map nothing have been zeroed, and the mapped pages keep their contents. -/
theorem SameUser.of_keeps (hm : SameMaps (leaf s.mem r) (leaf s'.mem r))
    (hk : Keeps s.mem s'.mem (leafRefs UPAGES (leaf s.mem r))) : SameUser s s' r := by
  refine ⟨hm, fun a ha hV => ?_⟩
  unfold userByte
  rw [(hm _ (lt_trans ha (by decide))).2 hV]
  exact hk _ (mem_leafRefs.mpr ⟨_, ha, hV, rfl⟩) _ (Nat.mod_lt _ (by decide))

/-- The pages that a call takes and keeps are tables, if it makes no other reference. -/
theorem taken_tables {T' : Multiset ℕ} {F' : Multiset ℕ} (hO : Owns s (T + K) F) (hO' : Owns s' (T' + K) F')
    (hF : ∀ p ∈ F', p ∈ F) : ∀ p ∈ s.freelist, p ∉ s'.freelist → p ∈ T' := by
  intro p hp hp'
  obtain ⟨hok, hno⟩ := (hO.alloc.free_iff p).mp hp
  have hR : p ∈ T' + K + F' := by
    by_contra hR
    exact hp' ((hO'.alloc.free_iff p).mpr ⟨hok, hR⟩)
  simp only [Multiset.mem_add] at hR hno
  rcases hR with (hT | hK) | hF'
  · exact hT
  · exact absurd (Or.inl (Or.inr hK)) hno
  · exact absurd (Or.inr (hF p hF')) hno

/-- A fresh page has one reference, that of its new entry. -/
theorem Mapped.count_one {T' N : Multiset ℕ} {p : ℕ} (h : Mapped perm lf lf' a n N)
    (hO' : Owns s' (T' + K) (leafRefs UPAGES lf' + X)) (hp : p ∈ N) (hno : p ∉ leafRefs UPAGES lf + X) :
    s'.pte_count (p / 4096) = 1 := by
  have hmem : p ∈ leafRefs UPAGES lf' + X := by
    rw [h.refs]
    exact Multiset.mem_add.mpr (Or.inl (Multiset.mem_add.mpr (Or.inr hp)))
  have hnot : p ∉ T' + K := fun hT => hO'.ne hT hmem rfl
  rw [Multiset.mem_add, not_or] at hno
  have hcount := hO'.alloc.count_eq (Multiset.mem_add.mpr (Or.inr hmem))
  rw [Multiset.count_add, Multiset.count_eq_zero.mpr hnot, h.refs, Multiset.count_add,
    Multiset.count_add, Multiset.count_eq_zero.mpr hno.1, Multiset.count_eq_zero.mpr hno.2,
    Multiset.count_eq_one_of_mem h.nodup hp] at hcount
  exact hcount

/-- **`uvmdealloc` undoes what `uvmalloc` did**: the fresh pages go back to the free list. -/
theorem Mapped.undo {T' N : Multiset ℕ} (hold : oldsz ≤ TRAPFRAME) (htop : newsz ≤ TRAPFRAME)
    (hle : oldsz ≤ newsz)
    (hN : Mapped perm (leaf s.mem r) lf' (pages oldsz) (pages newsz - pages oldsz) N)
    (hleaf : ∀ v, pages oldsz ≤ v → v < pages newsz → IsLeaf (lf' v))
    (hT' : Tree s'.mem r T' lf') (hO' : Owns s' (T' + K) (leafRefs UPAGES lf' + X))
    (hk : Keeps s.mem s'.mem (leafRefs UPAGES (leaf s.mem r)))
    (hno : ∀ p ∈ N, p ∉ leafRefs UPAGES (leaf s.mem r) + X) :
    ∃ t, uvmdealloc r newsz oldsz s' = .ok (oldsz, t) ∧ SameUser s t r ∧
      (t.freelist : Multiset ℕ) = N + s'.freelist := by
  obtain ⟨res, t, hd⟩ := uvmdealloc_total hT' hO' htop hleaf
  obtain ⟨hres, lf₂, hlf₂, hT₂, hO₂, hk₂⟩ := uvmdealloc_spec hT' hO' htop hd
  obtain rfl : res = oldsz := by omega
  have hpages : pages res ≤ pages newsz := by
    unfold pages
    omega
  -- the new entries are gone, the others are as before
  have hentry : ∀ v, lf₂ v = leaf s.mem r v ∨ (leaf s.mem r v).has PTE_V = false ∧ lf₂ v = 0#64 := by
    intro v
    rw [hlf₂]
    unfold clearPages
    split_ifs with hv
    · exact Or.inr ⟨hN.free v hv.1 hv.2, rfl⟩
    · exact Or.inl (hN.same v (by omega))
  rw [SameMap.leafRefs_eq hentry] at hO₂ hk₂
  have hmaps : SameMaps (leaf s.mem r) (leaf t.mem r) := by
    intro v hv
    rw [hT₂.leaf v hv]
    exact SameMap.sameMaps hentry v hv
  refine ⟨t, hd, SameUser.of_keeps hmaps (hk.trans hk₂.right.left), ?_⟩
  refine hO₂.alloc.free_add hO'.alloc hN.nodup (fun p hp hR => ?_) fun p => ?_
  · rcases Multiset.mem_add.mp hR with hR | hR
    · refine hO'.ne hR (?_ : p ∈ leafRefs UPAGES lf' + X) rfl
      rw [hN.refs]
      exact Multiset.mem_add.mpr (Or.inl (Multiset.mem_add.mpr (Or.inr hp)))
    · exact hno p hp hR
  · rw [hN.refs, add_right_comm _ N X, ← add_assoc, add_comm _ N]
    exact Multiset.mem_add

/-- A call of `uvmalloc` that goes through. -/
theorem grew_of_mapped {T' N : Multiset ℕ} (hperm : Low xperm) (htop : newsz ≤ TRAPFRAME)
    (hle : oldsz ≤ newsz)
    (hmap : ∀ v < UPAGES, (leaf s.mem r v).has PTE_V = true ↔ v * PGSIZE < PGROUNDUP oldsz)
    (hT' : Tree s'.mem r T' lf') (hO' : Owns s' (T' + K) (leafRefs UPAGES lf' + X))
    (hk : Keeps s.mem s'.mem (K + (leafRefs UPAGES (leaf s.mem r) + X)))
    (hN : Mapped (PTE_R ||| PTE_U ||| xperm) (leaf s.mem r) lf' (pages oldsz) (pages newsz - pages oldsz) N)
    (hfresh : ∀ p ∈ N, p ∉ leafRefs UPAGES (leaf s.mem r) + X ∧ ∀ i < 4096, s'.mem (p + i) = 0) :
    Grew s s' r oldsz newsz := by
  have hold : oldsz ≤ TRAPFRAME := hle.trans htop
  have hpages : pages oldsz ≤ pages newsz := by
    unfold pages
    omega
  have htopP : pages newsz ≤ UPAGES := pages_le htop
  have hup : ∀ {sz}, sz ≤ TRAPFRAME → PGROUNDUP sz = pages sz * 4096 := fun {sz} h => by
    have h' : sz ≤ 274877898752 := h
    exact PGROUNDUP_eq (by omega)
  have hleaf : ∀ v < UPAGES, leaf s'.mem r v = lf' v := fun v hv => hT'.leaf v (lt_trans hv (by decide))
  simp only [lt_PGROUNDUP_iff hold] at hmap
  -- the new entries
  have hin : ∀ v, pages oldsz ≤ v → v < pages newsz →
      ∃ p ∈ N, lf' v = userEntry xperm p ∧ PTE2PA (lf' v) = p := by
    intro v h1 h2
    obtain ⟨p, hp, hok, he⟩ := hN.page v h1 (by omega)
    refine ⟨p, hp, he, ?_⟩
    rw [he, BitVec.or_assoc]
    exact PTE2PA_map ((Low.or (by decide) hperm).or (by decide)) hok.1 hok.lt
  have hkl : Keeps s.mem s'.mem (leafRefs UPAGES (leaf s.mem r)) := hk.right.left
  refine ⟨fun v hv => ?_, fun v hv => ?_, fun a ha => ?_, fun a h1 h2 => ?_, fun v h1 h2 => ?_, ?_⟩
  · rw [lt_PGROUNDUP_iff htop, hleaf v hv]
    by_cases h1 : pages oldsz ≤ v
    · by_cases h2 : v < pages newsz
      · obtain ⟨p, -, he, -⟩ := hin v h1 h2
        rw [he]
        exact iff_of_true userEntry_V h2
      · rw [hN.same v (by omega), hmap v hv]
        exact iff_of_false (by omega) h2
    · rw [hN.same v (by omega), hmap v hv]
      exact iff_of_true (by omega) (by omega)
  · rw [lt_PGROUNDUP_iff hold] at hv
    rw [hleaf v (by omega), hN.same v (by omega)]
  · have hv : a / 4096 < pages oldsz := by
      rw [hup hold] at ha
      omega
    unfold userByte
    rw [hleaf _ (by omega), hN.same _ (by omega)]
    exact hkl _ (mem_leafRefs.mpr ⟨_, by omega, (hmap _ (by omega)).mpr hv, rfl⟩) _
      (Nat.mod_lt _ (by decide))
  · rw [hup hold] at h1
    rw [hup htop] at h2
    obtain ⟨p, hp, -, he⟩ := hin (a / 4096) (by omega) (by omega)
    unfold userByte
    rw [hleaf _ (by omega), he]
    exact (hfresh p hp).2 _ (Nat.mod_lt _ (by decide))
  · rw [hup hold] at h1
    rw [hup htop] at h2
    simp only [PGSIZE] at h1 h2
    obtain ⟨p, hp, -, he⟩ := hin v (by omega) (by omega)
    rw [hleaf v (by omega), he]
    exact hN.count_one hO' hp (hfresh p hp).1
  · obtain ⟨t, hd, hsame, hfree⟩ := hN.undo hold htop hle (fun v h1 h2 => by
      obtain ⟨p, -, he, -⟩ := hin v h1 h2
      rw [he]
      exact isLeaf_of_readable userEntry_V userEntry_R) hT' hO' hkl fun p hp => (hfresh p hp).1
    have hN' : N = pagesAt lf' (pages oldsz) (pages newsz) := by
      have := hN.refs_eq (by omega)
      rwa [Nat.add_sub_cancel' hpages] at this
    have hdiv : ∀ n : ℕ, n * 4096 / PGSIZE = n := fun n => Nat.mul_div_cancel n (by decide)
    have hN'' : pagesAt lf' (pages oldsz) (pages newsz) =
        pagesAt (leaf s'.mem r) (pages oldsz) (pages newsz) := by
      refine Multiset.map_congr rfl fun v hv => ?_
      rw [Finset.mem_val, Finset.mem_Ico] at hv
      rw [hleaf v (by omega)]
    refine ⟨t, hd, hsame, ?_⟩
    rw [hfree, hup hold, hup htop, hdiv, hdiv, hN', hN'']

omit [Image] in
theorem SameUser.refl (s : Phys) (r : ℕ) : SameUser s s r := ⟨SameMaps.refl _, fun _ _ _ => rfl⟩

/-- **Growing and shrinking user memory are inverse.** -/
theorem uvmalloc_uvmdealloc (hperm : Low xperm)
    (hO : Owns s (tables s.mem r + K) (leafRefs UPAGES (leaf s.mem r) + X)) (hle : oldsz ≤ newsz)
    (htop : newsz ≤ TRAPFRAME)
    (hmap : ∀ v < UPAGES, (leaf s.mem r v).has PTE_V = true ↔ v * PGSIZE < PGROUNDUP oldsz) :
    ∃ res s', uvmalloc r oldsz newsz xperm s = .ok (res, s') ∧ (res = newsz ∨ res = 0) ∧
      (res = newsz → Grew s s' r oldsz newsz) ∧ (res = 0 → Failed s s' r) := by
  by_cases h0 : newsz = 0
  · -- a size of zero is also what a call that fails returns
    subst h0
    obtain rfl : oldsz = 0 := by omega
    have hup : PGROUNDUP 0 = 0 := by decide
    rw [hup] at hmap
    refine ⟨0, s, rfl, Or.inl rfl, fun _ => ?_, fun _ => ⟨SameUser.refl s r, fun p h1 h2 => absurd h1 h2⟩⟩
    refine ⟨hup ▸ hmap, fun _ _ => rfl, fun _ _ => rfl, fun a h1 h2 => absurd h2 (not_lt.mpr h1),
      fun v h1 h2 => absurd h2 (not_lt.mpr h1), s, rfl, SameUser.refl s r, ?_⟩
    rw [pagesAt, Finset.Ico_self]
    exact (zero_add _).symm
  have hT : Tree s.mem r (tables s.mem r) (leaf s.mem r) := ⟨rfl, fun _ _ => rfl⟩
  have hold : oldsz ≤ TRAPFRAME := hle.trans htop
  have hpages : pages newsz ≤ UPAGES := pages_le htop
  obtain ⟨res, s', hu⟩ : ∃ res s', uvmalloc r oldsz newsz xperm s = .ok (res, s') := by
    refine uvmalloc_total hperm hT hO htop fun v h1 h2 => Bool.eq_false_iff.mpr fun hV => ?_
    rw [hmap v (by omega), lt_PGROUNDUP_iff hold] at hV
    omega
  refine ⟨res, s', hu, ?_⟩
  obtain ⟨T', lf', hT', hO', hk, ⟨hres, -, N, hN, hfresh⟩ | ⟨rfl, hsame⟩⟩ :=
    uvmalloc_spec hperm hT hO hold (Or.inr htop) hu
  · exact ⟨Or.inl (by omega), fun _ => grew_of_mapped hperm htop hle hmap hT' hO' hk hN hfresh,
      fun hz => absurd hz (by omega)⟩
  · refine ⟨Or.inr rfl, fun hz => absurd hz.symm h0, fun _ => ⟨SameUser.of_keeps ?_ hk.right.left, ?_⟩⟩
    · intro v hv
      rw [hT'.leaf v hv]
      exact hsame.sameMaps v hv
    · rw [show tables s'.mem r = T' from hT'.tables]
      refine taken_tables hO hO' fun p hp => ?_
      rwa [hsame.leafRefs_eq] at hp

end

/-- A new page table, which has room for two pages on the small machine. -/
theorem grows_empty : ∃ r s s', uvmcreate smallPhys = (some r, s) ∧
    @uvmalloc smallImage r 0 5000 PTE_W s = .ok (5000, s') ∧ @Grew smallImage s s' r 0 5000 := by
  let _ := smallImage
  have hall : (uvmcreate smallPhys).1.any (fun r => Runs.okWith (fun x : ℕ × Phys => decide (x.1 = 5000))
      (uvmalloc r 0 5000 PTE_W (uvmcreate smallPhys).2)) = true := by decide +kernel
  cases hc : uvmcreate smallPhys with
  | mk o s =>
    rw [hc] at hall
    obtain ⟨rfl, -⟩ | ⟨r, rfl, -, h, -, hleaf⟩ := smallPhys_alloc.heap.uvmcreate hc
    · cases hall
    obtain ⟨res, s', hu, -, hgrew, -⟩ := uvmalloc_uvmdealloc (r := r) (s := s) (K := 0) (X := 0)
      (by decide : Low PTE_W) h.space.owns (Nat.zero_le 5000) (by decide) fun v hv => by
        rw [hleaf v, zero_has]
        exact iff_of_false Bool.false_ne_true (Nat.not_lt_zero _)
    obtain ⟨x, hx, hres⟩ := Runs.okWith_iff.mp hall
    cases hu.symm.trans hx
    obtain rfl : res = 5000 := of_decide_eq_true hres
    exact ⟨r, s, s', rfl, hu, hgrew rfl⟩

end Xv6
