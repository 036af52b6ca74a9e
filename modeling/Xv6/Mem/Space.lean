import Xv6.Mem.PageTable

/-!
# Space — user page tables as flat maps

`Tree m r T lf`: the page table at `r` has the table pages `T` and the entries `lf`, a flat map over
page numbers.  `leafRefs n lf` are the references that the entries of the first `n` pages make.

One lemma for each function of `vm.c` says, for a call that returns, how the flat map changes, which
references are accounted for (`Owns`, with other owned pages `K`), and that all other pages in use
keep their contents (`Keeps`).
-/

namespace Xv6

/-- Page numbers that a page table can tell apart. -/
abbrev VPAGES : ℕ := 512 ^ 3

theorem pageNumber_lt {va : ℕ} (h : va < MAXVA) : va / 4096 < VPAGES := by
  simp only [MAXVA] at h
  simp only [VPAGES]
  omega

/-! ## References made by entries -/

section Refs

/-- The page an entry refers to. -/
def pageOf (e : Pte) : Multiset ℕ := if e.has PTE_V then {PTE2PA e} else 0

/-- The pages that the entries of the first `n` pages refer to. -/
def leafRefs (n : ℕ) (lf : ℕ → Pte) : Multiset ℕ := ∑ v ∈ Finset.range n, pageOf (lf v)

/-- The same without page `v`. -/
def leafOthers (n : ℕ) (lf : ℕ → Pte) (v : ℕ) : Multiset ℕ :=
  ∑ w ∈ (Finset.range n).erase v, pageOf (lf w)

variable {n v a k p : ℕ} {lf lf' : ℕ → Pte} {e : Pte}

@[simp] theorem pageOf_zero : pageOf 0#64 = 0 := by simp [pageOf]

theorem pageOf_of_has (h : e.has PTE_V = true) : pageOf e = {PTE2PA e} := by simp [pageOf, h]

theorem pageOf_of_not (h : e.has PTE_V = false) : pageOf e = 0 := by simp [pageOf, h]

theorem mem_pageOf : p ∈ pageOf e ↔ e.has PTE_V = true ∧ PTE2PA e = p := by
  unfold pageOf
  split_ifs with h
  · simp [h, eq_comm]
  · simp [h]

theorem leafRefs_split {n : ℕ} {f : ℕ → Pte} (h : v < n) : leafRefs n f = pageOf (f v) + leafOthers n f v :=
  (Finset.add_sum_erase _ (fun w => pageOf (f w)) (Finset.mem_range.mpr h)).symm

theorem leafOthers_update : leafOthers n (Function.update lf v e) v = leafOthers n lf v :=
  Finset.sum_congr rfl fun w hw => by
    rw [Function.update_of_ne (Finset.ne_of_mem_erase hw)]

theorem leafRefs_update (h : v < n) :
    leafRefs n (Function.update lf v e) = pageOf e + leafOthers n lf v := by
  rw [leafRefs_split h, Function.update_self, leafOthers_update]

theorem leafRefs_congr (h : ∀ v < n, pageOf (lf' v) = pageOf (lf v)) :
    leafRefs n lf' = leafRefs n lf :=
  Finset.sum_congr rfl fun v hv => h v (Finset.mem_range.mp hv)

theorem leafRefs_update_of_le (h : n ≤ v) : leafRefs n (Function.update lf v e) = leafRefs n lf :=
  leafRefs_congr fun w hw => by rw [Function.update_of_ne (by omega)]

theorem mem_leafRefs : p ∈ leafRefs n lf ↔ ∃ v < n, (lf v).has PTE_V = true ∧ PTE2PA (lf v) = p := by
  unfold leafRefs
  rw [Multiset.mem_sum]
  simp only [Finset.mem_range, mem_pageOf]

theorem mem_leafOthers : p ∈ leafOthers n lf v ↔
    ∃ w < n, w ≠ v ∧ (lf w).has PTE_V = true ∧ PTE2PA (lf w) = p := by
  unfold leafOthers
  rw [Multiset.mem_sum]
  simp only [Finset.mem_erase, Finset.mem_range, mem_pageOf]
  constructor
  · rintro ⟨w, ⟨hne, hw⟩, hp⟩
    exact ⟨w, hw, hne, hp⟩
  · rintro ⟨w, hw, hne, hp⟩
    exact ⟨w, ⟨hne, hw⟩, hp⟩

theorem leafRefs_eq_zero (h : ∀ v < n, (lf v).has PTE_V = false) : leafRefs n lf = 0 :=
  Finset.sum_eq_zero fun v hv => pageOf_of_not (h v (Finset.mem_range.mp hv))

/-- The map without the `k` pages from `a` on. -/
def clearPages (lf : ℕ → Pte) (a k : ℕ) : ℕ → Pte := fun v => if a ≤ v ∧ v < a + k then 0#64 else lf v

theorem clearPages_zero : clearPages lf a 0 = lf := by
  funext v
  exact if_neg (by omega)

theorem clearPages_succ :
    clearPages (Function.update lf a 0#64) (a + 1) k = clearPages lf a (k + 1) := by
  funext v
  unfold clearPages
  by_cases hv : v = a
  · subst hv
    rw [if_neg (by omega), Function.update_self, if_pos (by omega)]
  · rw [Function.update_of_ne hv]
    exact if_congr (by omega) rfl rfl

theorem leafRefs_mono (h : ∀ v < n, pageOf (lf' v) ≤ pageOf (lf v)) :
    leafRefs n lf' ≤ leafRefs n lf :=
  Finset.sum_le_sum fun v hv => h v (Finset.mem_range.mp hv)

theorem leafRefs_clear_le : leafRefs n (clearPages lf a k) ≤ leafRefs n lf := by
  refine leafRefs_mono fun v _ => ?_
  unfold clearPages
  split_ifs
  · rw [pageOf_zero]
    exact Multiset.zero_le _
  · exact le_rfl

attribute [irreducible] leafRefs leafOthers

theorem next_page (ha : a % 4096 = 0) : (a + 4096) % 4096 = 0 ∧ (a + 4096) / 4096 = a / 4096 + 1 := by
  omega

end Refs

/-- Entries that map a page can be told from links. -/
def Readable (e : Pte) : Prop := e.has PTE_V = true → e.has PTE_R = true

theorem Readable.not_link {e : Pte} (h : Readable e) (hV : e.has PTE_V = true) :
    (e &&& (PTE_R ||| PTE_W ||| PTE_X) == 0#64) = false := by
  have hR := h hV
  rw [beq_eq_false_iff_ne]
  intro h0
  refine (bne_iff_ne.mp hR) ?_
  have hsub : e &&& PTE_R = e &&& (PTE_R ||| PTE_W ||| PTE_X) &&& PTE_R := by
    rw [BitVec.and_assoc]
    rfl
  rw [hsub, h0]
  rfl

/-! ## Flat maps -/

/-- The contents of all pages of `X` are the same. -/
def Keeps (m m' : ByteStore) (X : Multiset ℕ) : Prop := ∀ p ∈ X, PageEq m m' p

section Keeps

variable {m m' m'' : ByteStore} {X Y : Multiset ℕ}

theorem Keeps.refl (m : ByteStore) (X : Multiset ℕ) : Keeps m m X := fun _ _ => PageEq.refl _ _

theorem Keeps.trans (h : Keeps m m' X) (h' : Keeps m' m'' X) : Keeps m m'' X :=
  fun p hp => (h p hp).trans (h' p hp)

theorem Keeps.mono (h : Keeps m m' X) (hY : ∀ p ∈ Y, p ∈ X) : Keeps m m' Y :=
  fun p hp => h p (hY p hp)

theorem Keeps.left (h : Keeps m m' (X + Y)) : Keeps m m' X :=
  h.mono fun _ hp => Multiset.mem_add.mpr (Or.inl hp)

theorem Keeps.right (h : Keeps m m' (X + Y)) : Keeps m m' Y :=
  h.mono fun _ hp => Multiset.mem_add.mpr (Or.inr hp)

theorem Keeps.add (h : Keeps m m' X) (h' : Keeps m m' Y) : Keeps m m' (X + Y) :=
  fun p hp => (Multiset.mem_add.mp hp).elim (h p) (h' p)

end Keeps

/-- The page table at `r` has the table pages `T` and the entries `lf`. -/
structure Tree (m : ByteStore) (r : ℕ) (T : Multiset ℕ) (lf : ℕ → Pte) : Prop where
  tables : tables m r = T
  leaf : ∀ v < VPAGES, leaf m r v = lf v

/-- `a` is the address of the entry of page number `v`. -/
def EntryAt (m : ByteStore) (r v a : ℕ) : Prop :=
  ∃ t, slotAt m 2 r v = some t ∧ a = t + 8 * indexAt 0 v

section Tree

variable {m m' : ByteStore} {r v a p : ℕ} {T : Multiset ℕ} {lf lf' : ℕ → Pte} {e : Pte}

theorem Tree.mem_iff (h : Tree m r T lf) : p ∈ tablesAt m 2 r ↔ p ∈ T := by
  rw [← h.tables]

theorem Tree.root_mem (h : Tree m r T lf) : r ∈ T := h.mem_iff.mp Radix.root_mem

theorem Tree.congr (h : Tree m r T lf) (hT : Keeps m m' T) : Tree m' r T lf := by
  have hk : ∀ t ∈ tablesAt m 2 r, PageEq m m' t := by
    intro t ht
    exact hT t (h.mem_iff.mp ht)
  refine ⟨(tablesAt_congr hk).trans h.tables, fun v hv => ?_⟩
  exact (leafAt_congr hk).trans (h.leaf v hv)

theorem EntryAt.congr (h : Tree m r T lf) (hT : Keeps m m' T) (ha : EntryAt m r v a) :
    EntryAt m' r v a := by
  obtain ⟨t, ht, rfl⟩ := ha
  have hk : ∀ t ∈ tablesAt m 2 r, PageEq m m' t := by
    intro t ht
    exact hT t (h.mem_iff.mp ht)
  exact ⟨t, (slotAt_congr hk).trans ht, rfl⟩

theorem EntryAt.mem (h : Tree m r T lf) (ha : EntryAt m r v a) :
    ∃ t ∈ T, a = t + 8 * indexAt 0 v := by
  obtain ⟨t, ht, rfl⟩ := ha
  exact ⟨t, h.mem_iff.mp (Radix.slot_mem (by decide) ht), rfl⟩

theorem EntryAt.read (h : Tree m r T lf) (ha : EntryAt m r v a) (hv : v < VPAGES) :
    readPte m a = lf v := by
  obtain ⟨t, ht, rfl⟩ := ha
  rw [← h.leaf v hv, Xv6.leaf, leafAt, Radix.lookup_of_slot ht]
  rfl

/-- Writing an entry touches no page outside the page table. -/
theorem EntryAt.keeps (h : Tree m r T lf) (ha : EntryAt m r v a) (hT : ∀ t ∈ T, t % 4096 = 0)
    (hp : p % 4096 = 0) (hpT : p ∉ T) : PageEq m (writePte m a e) p := by
  obtain ⟨t, ht, rfl⟩ := ha.mem h
  exact pageEq_writePte (hT t ht) hp (fun he => hpT (he ▸ ht)) (indexAt_lt 0 v)

/-- **Writing an entry** changes the flat map at one page. -/
theorem Tree.set (h : Tree m r T lf) (ha : EntryAt m r v a) (hv : v < VPAGES) (hnd : T.Nodup)
    (hT : ∀ t ∈ T, t % 4096 = 0) : Tree (writePte m a e) r T (Function.update lf v e) := by
  obtain ⟨t, ht, rfl⟩ := ha
  have hndT : (Xv6.tables m r).Nodup := by
    rw [h.tables]
    exact hnd
  have htT : t ∈ T := h.mem_iff.mp (Radix.slot_mem (by decide) ht)
  have hg : ∀ n ∈ tablesAt m 2 r, ∀ i < 512, ¬ (n = t ∧ i = indexAt 0 v) →
      entry (writePte m (t + 8 * indexAt 0 v) e) n i = entry m n i := by
    intro n hn i hi hne
    have hn4 := hT n (h.mem_iff.mp hn)
    have ht4 := hT t htT
    have hlt := indexAt_lt 0 v
    refine readPte_writePte_of_ne ?_
    by_cases hnt : n = t
    · have : i ≠ indexAt 0 v := fun hi' => hne ⟨hnt, hi'⟩
      omega
    · omega
  obtain ⟨hnodes, hslot⟩ := Radix.nodes_set (by decide) hndT ht hg
  refine ⟨hnodes.trans h.tables, fun w hw => ?_⟩
  have := Radix.lookup_set (z := 0#64) (by decide) hndT ht hg hv hw
  rw [Xv6.leaf, leafAt, this]
  by_cases hwv : w = v
  · subst hwv
    rw [if_pos rfl, Function.update_self, entry_writePte_self]
  · rw [if_neg hwv, Function.update_of_ne hwv]
    exact h.leaf w hw

theorem walk_false_spec {s s' : Phys} {va : ℕ} {o : Option ℕ} (hT : Tree s.mem r T lf)
    (h : walk r va false s = .ok (o, s')) : va < MAXVA ∧ s' = s ∧
      ((o = none ∧ lf (va / 4096) = 0#64) ∨ ∃ a, o = some a ∧ EntryAt s.mem r (va / 4096) a) := by
  unfold walk at h
  split_ifs at h with hva
  have hva : va < MAXVA := not_le.mp hva
  rw [walkLoop_false] at h
  obtain ⟨rfl, rfl⟩ := Prod.mk.inj (Except.ok.inj h)
  refine ⟨hva, rfl, ?_⟩
  cases hs : slotAt s.mem 2 r (va / 4096) with
  | none =>
    refine Or.inl ⟨rfl, ?_⟩
    rw [← hT.leaf _ (pageNumber_lt hva), leaf, leafAt, Radix.lookup_of_none hs]
  | some t => exact Or.inr ⟨_, rfl, t, hs, rfl⟩

end Tree

end Xv6
