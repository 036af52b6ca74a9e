import Xv6.Mem.VmSpec

/-!
# Teardown — freeing a page table

`freewalk` returns only if no entry maps a page; then all table pages are freed (`freewalk_spec`).
Entries that map a page have `R` set, which is how `freewalk` tells them from links.
-/

namespace Xv6

variable [Image] {s s' : Phys} {r q l n : ℕ} {T K F X : Multiset ℕ} {lf : ℕ → Pte}

/-- What `freewalk` does to the tree of height `l` at `q`. -/
def FreesTree (free : ℕ → Phys → Except Panic Phys) (l : ℕ) : Prop :=
  ∀ q s s' K F, free q s = .ok s' → Owns s (tablesAt s.mem l q + K) F →
    (∀ v, Readable (leafAt s.mem l q v)) →
    Owns s' K F ∧ Keeps s.mem s'.mem (K + F) ∧ ∀ v, (leafAt s.mem l q v).has PTE_V = false

omit [Image] in
/-- The loop of `freewalk` over a lowest-level table. -/
theorem freewalkLoop_leaf {free : ℕ → Phys → Except Panic Phys} (hn : n ≤ 512)
    (hR : ∀ i < 512, Readable (entry s.mem q i)) (h : freewalkLoop free q n s = .ok s') :
    s' = s ∧ ∀ i < 512, 512 - n ≤ i → (entry s.mem q i).has PTE_V = false := by
  induction n with
  | zero =>
    cases h
    exact ⟨rfl, fun i hi hle => absurd hi (by omega)⟩
  | succ n ih =>
    have he : readPte s.mem (q + 8 * (511 - n)) = entry s.mem q (511 - n) := rfl
    unfold freewalkLoop at h
    simp only [he] at h
    cases hV : (entry s.mem q (511 - n)).has PTE_V with
    | true => simp [hV, (hR (511 - n) (by omega)).not_link hV] at h
    | false =>
      simp only [hV, Bool.false_and, Bool.false_eq_true, if_false] at h
      obtain ⟨hs, hi⟩ := ih (by omega) h
      refine ⟨hs, fun i hi' hle => ?_⟩
      by_cases hin : i = 511 - n
      · exact hin ▸ hV
      · exact hi i hi' (by omega)

/-- The entry of `q` before the last `n` has been cleared, its tree being free; the trees behind it are
as before. -/
structure Unlinked (s s' : Phys) (l q n : ℕ) (K F : Multiset ℕ) : Prop where
  owns : Owns s' (q ::ₘ Radix.rest link 512 (entry s'.mem) l q n + K) F
  keeps : Keeps s.mem s'.mem (K + F)
  row : ∀ i < 512, 512 - n ≤ i → entry s'.mem q i = entry s.mem q i
  child : ∀ i < 512, 512 - n ≤ i → ∀ c, link (entry s'.mem q i) = some c →
    link (entry s.mem q i) = some c ∧ ∀ t ∈ tablesAt s.mem l c, PageEq s.mem s'.mem t

theorem Owns.unlink {s₁ : Phys} (hn : n < 512)
    (hO : Owns s₁ (q ::ₘ Radix.rest link 512 (entry s.mem) l q n + K) F)
    (hk : Keeps s.mem s₁.mem (q ::ₘ Radix.rest link 512 (entry s.mem) l q n + K + F)) :
    Unlinked s (s₁.setPte (q + 8 * (511 - n)) 0#64) l q n K F := by
  have hlt : 511 - n < 512 := by omega
  set s₂ := s₁.setPte (q + 8 * (511 - n)) 0#64 with hs₂
  have hq : q % 4096 = 0 := hO.mod q (Multiset.mem_cons_self _ _)
  have hnd := (Multiset.nodup_add.mp hO.nodup).1
  -- the other tables and the frame are as before
  have hk₂ : ∀ p ∈ Radix.rest link 512 (entry s.mem) l q n + (K + F), PageEq s.mem s₂.mem p := by
    intro p hp
    have hp' : p ∈ q ::ₘ Radix.rest link 512 (entry s.mem) l q n + K + F := by
      rw [Multiset.cons_add, Multiset.cons_add, add_assoc]
      exact Multiset.mem_cons_of_mem hp
    have hne : p ≠ q := by
      rcases Multiset.mem_add.mp hp with hp | hp
      · rintro rfl
        exact (Multiset.nodup_cons.mp hnd).1 hp
      · have := hO.frame_ne hp
        rintro rfl
        exact this.2 (Multiset.mem_cons_self _ _)
    have hp4 : p % 4096 = 0 := (hO.alloc.ok hp').1
    exact (hk p hp').trans (pageEq_writePte hq hp4 hne hlt)
  have hqe : ∀ i < 512, 512 - n ≤ i → entry s₂.mem q i = entry s.mem q i := by
    intro i hi hle
    have hqk : PageEq s.mem s₁.mem q := hk q (by
      rw [Multiset.cons_add, Multiset.cons_add]; exact Multiset.mem_cons_self _ _)
    have hne : i ≠ 511 - n := by omega
    rw [hs₂]
    exact (entry_writePte_ne hne).trans (entry_congr hqk hi)
  have hrest : Radix.rest link 512 (entry s₂.mem) l q n = Radix.rest link 512 (entry s.mem) l q n := by
    refine Radix.rest_congr (by omega) hqe fun t ht k hk' => ?_
    exact entry_congr (hk₂ t (Multiset.mem_add.mpr (Or.inl ht))) hk'
  refine ⟨?_, fun p hp => hk₂ p (Multiset.mem_add.mpr (Or.inr hp)), hqe, fun i hi hle c hc => ?_⟩
  · rw [hrest]
    exact hO.setPte _ _
  · rw [hqe i hi hle] at hc
    refine ⟨hc, fun t ht => hk₂ t (Multiset.mem_add.mpr (Or.inl ?_))⟩
    exact Radix.mem_rest (by omega) hi hle hc ht

/-- The loop of `freewalk` over a table of links. -/
theorem freewalkLoop_links {free : ℕ → Phys → Except Panic Phys} (hfree : FreesTree free l)
    (hn : n ≤ 512) (hO : Owns s (q ::ₘ Radix.rest link 512 (entry s.mem) l q n + K) F)
    (hR : ∀ i < 512, 512 - n ≤ i → ∀ c, link (entry s.mem q i) = some c →
      ∀ v, Readable (leafAt s.mem l c v))
    (h : freewalkLoop free q n s = .ok s') : Owns s' (q ::ₘ K) F ∧ Keeps s.mem s'.mem (K + F) ∧
      ∀ i < 512, 512 - n ≤ i → ∀ c, link (entry s.mem q i) = some c →
        ∀ v, (leafAt s.mem l c v).has PTE_V = false := by
  induction n generalizing s with
  | zero =>
    cases h
    refine ⟨?_, Keeps.refl _ _, fun i hi hle => absurd hi (by omega)⟩
    rwa [Radix.rest_zero, Multiset.cons_add, zero_add] at hO
  | succ n ih =>
    have hlt : 511 - n < 512 := by omega
    have he : readPte s.mem (q + 8 * (511 - n)) = entry s.mem q (511 - n) := rfl
    rw [Radix.rest_succ] at hO
    unfold freewalkLoop at h
    simp only [he] at h
    split_ifs at h with hlink hV
    · -- a link: its tree is freed and the link cleared
      rw [Bool.and_eq_true] at hlink
      have hc := link_of_has hlink.1
      cases hf : free (PTE2PA (entry s.mem q (511 - n))) s with
      | error e => rw [hf] at h; cases h
      | ok s₁ =>
        rw [hf] at h
        simp only at h
        have hO₁ : Owns s (tablesAt s.mem l (PTE2PA (entry s.mem q (511 - n))) +
            (q ::ₘ Radix.rest link 512 (entry s.mem) l q n + K)) F := by
          rw [Radix.sub_some hc] at hO
          rwa [Multiset.cons_add, Multiset.add_cons, ← add_assoc, ← Multiset.cons_add]
        obtain ⟨hO₂, hk, hinv⟩ := hfree _ _ _ _ _ hf hO₁ (hR _ hlt (by omega) _ hc)
        have hU := hO₂.unlink (by omega) hk
        have hchild : ∀ i < 512, 512 - n ≤ i → ∀ c,
            link (entry (s₁.setPte (q + 8 * (511 - n)) 0#64).mem q i) = some c →
            link (entry s.mem q i) = some c ∧
              ∀ v, leafAt (s₁.setPte (q + 8 * (511 - n)) 0#64).mem l c v = leafAt s.mem l c v := by
          intro i hi hle c hc
          obtain ⟨hc', ht⟩ := hU.child i hi hle c hc
          exact ⟨hc', fun v => leafAt_congr ht⟩
        obtain ⟨hO₄, hk₄, hinv₄⟩ := ih (by omega) hU.owns (fun i hi hle c hc v => by
          obtain ⟨hc', hv⟩ := hchild i hi hle c hc
          rw [hv v]
          exact hR i hi (by omega) c hc' v) h
        refine ⟨hO₄, hU.keeps.trans hk₄, fun i hi hle c hc' v => ?_⟩
        by_cases hin : i = 511 - n
        · subst hin
          rw [hc] at hc'
          cases hc'
          exact hinv v
        · have hle' : 512 - n ≤ i := by omega
          have hc₂ : link (entry (s₁.setPte (q + 8 * (511 - n)) 0#64).mem q i) = some c := by
            rw [hU.row i hi hle']
            exact hc'
          have := hinv₄ i hi hle' c hc₂ v
          rwa [(hchild i hi hle' c hc₂).2 v] at this
    · -- no link
      have hc : link (entry s.mem q (511 - n)) = none := link_of_not (by simpa using hV)
      rw [Radix.sub_none hc, zero_add] at hO
      obtain ⟨hO', hk', hinv⟩ := ih (by omega) hO (fun i hi hle => hR i hi (by omega)) h
      refine ⟨hO', hk', fun i hi hle c hc' => ?_⟩
      by_cases hin : i = 511 - n
      · subst hin
        rw [hc] at hc'
        cases hc'
      · exact hinv i hi (by omega) c hc'

/-- **`freewalk`** frees the tree of height `l`, provided that no entry maps a page. -/
theorem freewalk_frees (l : ℕ) : FreesTree (freewalk (l + 1)) l := by
  induction l with
  | zero =>
    intro q s s' K F h hO hR
    have hleaf : ∀ v, leafAt s.mem 0 q v = entry s.mem q (indexAt 0 v) := fun v => by
      have hs : slotAt s.mem 0 q v = some q := rfl
      rw [leafAt, Radix.lookup_of_slot hs]
    have hR' : ∀ i < 512, Readable (entry s.mem q i) := by
      intro i hi
      have := hR i
      rwa [hleaf, show indexAt 0 i = i by simp [indexAt, Radix.index, Nat.mod_eq_of_lt hi]] at this
    unfold freewalk at h
    cases hl : freewalkLoop (freewalk 0) q 512 s with
    | error e => rw [hl] at h; cases h
    | ok t =>
      rw [hl] at h
      obtain ⟨rfl, hinv⟩ := freewalkLoop_leaf le_rfl hR' hl
      rw [tablesAt, Radix.nodes_zero, Multiset.singleton_add] at hO
      obtain ⟨hO', hk⟩ := hO.kfree_own h
      refine ⟨hO', hk, fun v => ?_⟩
      rw [hleaf]
      exact hinv _ (indexAt_lt 0 v) (by omega)
  | succ l ih =>
    intro q s s' K F h hO hR
    have hchild : ∀ i < 512, ∀ c, link (entry s.mem q i) = some c →
        ∀ v, Readable (leafAt s.mem l c v) := by
      intro i hi c hc v
      obtain ⟨w, hw⟩ := Radix.lookup_child (z := 0#64) (by decide) hi hc v
      have := hR w
      rwa [leafAt, hw] at this
    rw [tablesAt, Radix.nodes_rest] at hO
    unfold freewalk at h
    cases hl : freewalkLoop (freewalk (l + 1)) q 512 s with
    | error e => rw [hl] at h; cases h
    | ok t =>
      rw [hl] at h
      obtain ⟨hO₁, hk₁, hinv⟩ := freewalkLoop_links ih le_rfl hO (fun i hi _ => hchild i hi) hl
      obtain ⟨hO', hk⟩ := hO₁.kfree_own h
      refine ⟨hO', hk₁.trans hk, fun v => ?_⟩
      have hlt := indexAt_lt (l + 1) v
      cases hc : link (entry s.mem q (indexAt (l + 1) v)) with
      | none =>
        rw [leafAt, Radix.lookup_of_none (Radix.slot_succ_none hc)]
        exact zero_has _
      | some c =>
        have := hinv _ hlt (by omega) c hc v
        rwa [leafAt, Radix.lookup, ← Radix.slot_succ hc] at this

/-- `freewalk` on a page table. -/
theorem freewalk_spec (hT : Tree s.mem r T lf) (hO : Owns s (T + K) F)
    (hR : ∀ v < VPAGES, Readable (lf v)) (h : freewalk 3 r s = .ok s') :
    Owns s' K F ∧ Keeps s.mem s'.mem (K + F) ∧ ∀ v < VPAGES, (lf v).has PTE_V = false := by
  have hO' : Owns s (tablesAt s.mem 2 r + K) F := by
    rw [show tablesAt s.mem 2 r = T from hT.tables]
    exact hO
  have hmod : ∀ v, leafAt s.mem 2 r v = lf (v % VPAGES) := by
    intro v
    rw [← hT.leaf _ (Nat.mod_lt _ (by decide))]
    exact Radix.lookup_mod_congr (Nat.mod_mod v VPAGES).symm
  obtain ⟨h1, h2, h3⟩ := freewalk_frees 2 r s s' K F h hO' (fun v => by
    rw [hmod v]
    exact hR _ (Nat.mod_lt _ (by decide)))
  refine ⟨h1, h2, fun v hv => ?_⟩
  have := h3 v
  rwa [hmod v, Nat.mod_eq_of_lt hv] at this

/-- `uvmfree` frees the pages below `sz` and the page table, provided that nothing else is mapped. -/
theorem uvmfree_spec {sz : ℕ} (hT : Tree s.mem r T lf)
    (hO : Owns s (T + K) (leafRefs UPAGES lf + X)) (hR : ∀ v < VPAGES, Readable (lf v))
    (hsz : sz ≤ TRAPFRAME) (h : uvmfree r sz s = .ok s') :
    Owns s' K X ∧ Keeps s.mem s'.mem (K + X) ∧
      ∀ v < VPAGES, (lf v).has PTE_V = true → v < pages sz := by
  have hsz' : sz ≤ 274877898752 := hsz
  have hup : PGROUNDUP sz / PGSIZE = pages sz := by
    rw [PGROUNDUP_eq (by omega)]
    exact Nat.mul_div_cancel _ (by decide)
  have hpU : pages sz ≤ 67108862 := by unfold pages; omega
  -- in both branches the pages below `sz` are unmapped and the tables walked
  obtain ⟨t, ht, hwalk⟩ : ∃ t, unmapLoop r true (pages sz) 0 s = .ok t ∧
      freewalk 3 r t = .ok s' := by
    unfold uvmfree at h
    split_ifs at h with h0
    · rw [hup] at h
      cases hu : uvmunmap r 0 (pages sz) true s with
      | error e => rw [hu] at h; cases h
      | ok t =>
        rw [hu] at h
        exact ⟨t, (uvmunmap_ok hu (by omega)).2, h⟩
    · have hz : pages sz = 0 := by unfold pages; omega
      rw [hz]
      exact ⟨s, rfl, h⟩
  obtain ⟨-, hT', hO', hk⟩ := unmapLoop_free_spec hT hO rfl
    (by simp only [Nat.zero_div, zero_add]; exact hpU) ht
  rw [Nat.zero_div] at hT' hO' hk
  have hR' : ∀ v < VPAGES, Readable (clearPages lf 0 (pages sz) v) := by
    intro v hv
    unfold clearPages
    split_ifs
    · intro hV
      rw [zero_has] at hV
      cases hV
    · exact hR v hv
  obtain ⟨hO'', hk', hinv⟩ := freewalk_spec hT' hO' hR' hwalk
  have hzero : leafRefs UPAGES (clearPages lf 0 (pages sz)) = 0 :=
    leafRefs_eq_zero fun v hv => hinv v (lt_trans hv (by decide))
  rw [hzero, zero_add] at hO'' hk hk'
  refine ⟨hO'', hk.trans hk', fun v hv hV => ?_⟩
  by_contra hge
  have := hinv v hv
  rw [clearPages, if_neg (by omega), hV] at this
  cases this

end Xv6
