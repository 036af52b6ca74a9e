import Xv6.Kernel.Vm
import Xv6.Lib.Radix
import Xv6.Mem.Alloc

/-!
# PageTable — page tables as radix trees in physical memory

A page table is a radix tree of height 2 and fan-out 512 (`Radix`) whose nodes are pages.
`tables m r` are its pages, `leaf m r v` is the entry of page number `v`.  `walk` without allocation
is the radix lookup (`walkLoop_false`); with allocation it adds tables and keeps every entry
(`walkLoop_true`).
-/

namespace Xv6

/-- Entry `i` of the table page `q`. -/
def entry (m : ByteStore) (q i : ℕ) : Pte := readPte m (q + 8 * i)

/-- The table page a non-leaf entry points to. -/
def link (e : Pte) : Option ℕ := if e.has PTE_V then some (PTE2PA e) else none

/-- The table pages of the tree of height `l` at `q`. -/
abbrev tablesAt (m : ByteStore) (l q : ℕ) : Multiset ℕ := Radix.nodes link 512 (entry m) l q

/-- The lowest-level table page for page number `v`. -/
abbrev slotAt (m : ByteStore) (l q v : ℕ) : Option ℕ := Radix.slot? link 512 (entry m) l q v

/-- The entry of page number `v`, `0` where a table is missing. -/
abbrev leafAt (m : ByteStore) (l q v : ℕ) : Pte := Radix.lookup link 512 (entry m) 0#64 l q v

abbrev tables (m : ByteStore) (r : ℕ) : Multiset ℕ := tablesAt m 2 r

abbrev leaf (m : ByteStore) (r v : ℕ) : Pte := leafAt m 2 r v

abbrev othersAt (m : ByteStore) (l q i : ℕ) : Multiset ℕ := Radix.others link 512 (entry m) l q i

abbrev subAt (m : ByteStore) (l : ℕ) (e : Pte) : Multiset ℕ := Radix.sub link 512 (entry m) l e

/-- The index of page number `v` at level `l`. -/
abbrev indexAt (l v : ℕ) : ℕ := Radix.index 512 l v

section Entries

variable {m m' : ByteStore} {q p i j l v : ℕ} {e : Pte}

theorem PX_index (l va : ℕ) : PX l va = indexAt l (va / 4096) := PX_eq l va

theorem indexAt_lt (l v : ℕ) : indexAt l v < 512 := Radix.index_lt (by decide)

@[simp] theorem link_zero : link 0#64 = none := by simp [link]

theorem link_of_has (h : e.has PTE_V = true) : link e = some (PTE2PA e) := by simp [link, h]

theorem link_of_not (h : e.has PTE_V = false) : link e = none := by simp [link, h]

theorem entry_congr (h : PageEq m m' q) (hi : i < 512) : entry m' q i = entry m q i :=
  readPte_congr fun k hk => by
    have := h (8 * i + k) (by omega)
    rwa [← Nat.add_assoc] at this

theorem entry_writePte_self : entry (writePte m (q + 8 * i) e) q i = e := readPte_writePte _ _ _

theorem entry_writePte_ne (h : j ≠ i) : entry (writePte m (q + 8 * i) e) q j = entry m q j :=
  readPte_writePte_of_ne (by omega)

theorem entry_fill_zero (hi : i < 512) : entry (m.fill q 4096 0) q i = 0#64 :=
  readPte_zero fun k hk => ByteStore.fill_in (by omega) (by omega)

/-- A zeroed table page has no tables below it and maps nothing. -/
theorem tablesAt_of_zero (h : ∀ i < 512, entry m q i = 0#64) : tablesAt m l q = {q} :=
  Radix.nodes_of_no_child fun i hi => by rw [h i hi, link_zero]

theorem leafAt_of_zero (h : ∀ i < 512, entry m q i = 0#64) : leafAt m l q v = 0#64 := by
  cases l with
  | zero =>
    have hs : slotAt m 0 q v = some q := rfl
    rw [leafAt, Radix.lookup_of_slot hs, h _ (indexAt_lt 0 v)]
  | succ l =>
    refine Radix.lookup_of_none (Radix.slot_succ_none ?_)
    rw [h _ (indexAt_lt _ v), link_zero]

theorem tablesAt_congr (h : ∀ t ∈ tablesAt m l q, PageEq m m' t) :
    tablesAt m' l q = tablesAt m l q :=
  Radix.nodes_congr fun t ht _ hi => entry_congr (h t ht) hi

theorem slotAt_congr (h : ∀ t ∈ tablesAt m l q, PageEq m m' t) :
    slotAt m' l q v = slotAt m l q v :=
  Radix.slot_congr (by decide) fun t ht _ hi => entry_congr (h t ht) hi

theorem leafAt_congr (h : ∀ t ∈ tablesAt m l q, PageEq m m' t) :
    leafAt m' l q v = leafAt m l q v :=
  Radix.lookup_congr (by decide) fun t ht _ hi => entry_congr (h t ht) hi

/-- A page table that maps a page has a table on each level. -/
theorem three_le_tables {r : ℕ} (h : (leaf m r v).has PTE_V = true) : 3 ≤ (tables m r).card := by
  cases hs : slotAt m 2 r v with
  | none =>
    rw [leaf, leafAt, Radix.lookup_of_none hs] at h
    simp [Pte.has] at h
  | some t => exact Radix.lt_card_nodes (by decide) hs

end Entries

/-! ## `walk` -/

section Walk

/-- Without allocation `walk` finds the entry's place and changes nothing. -/
theorem walkLoop_false (va l q : ℕ) (s : Phys) :
    walkLoop va false l q s =
      ((slotAt s.mem l q (va / 4096)).map (fun t => t + 8 * indexAt 0 (va / 4096)), s) := by
  induction l generalizing q with
  | zero => simp only [walkLoop, PX_index]; rfl
  | succ l ih =>
    have he : readPte s.mem (q + 8 * PX (l + 1) va) =
        entry s.mem q (indexAt (l + 1) (va / 4096)) := by rw [PX_index]; rfl
    simp only [walkLoop, he]
    by_cases h : (entry s.mem q (indexAt (l + 1) (va / 4096))).has PTE_V = true
    · rw [if_pos h, ih, slotAt, slotAt, Radix.slot_succ (link_of_has h)]
    · have h' := link_of_not (by simpa using h)
      rw [if_neg h, slotAt, Radix.slot_succ_none h']
      rfl

variable [Image] {s s' : Phys} {F : Multiset ℕ} {l q i c va : ℕ}

/-- The tree at `q` may have gained tables; its entries and the frame are as before. -/
structure Grown (s s' : Phys) (l q : ℕ) (F : Multiset ℕ) : Prop where
  owns : Owns s' (tablesAt s'.mem l q) F
  leaf : ∀ v, leafAt s'.mem l q v = leafAt s.mem l q v
  frame : ∀ p ∈ F, PageEq s.mem s'.mem p

theorem Grown.refl (h : Owns s (tablesAt s.mem l q) F) : Grown s s l q F :=
  ⟨h, fun _ => rfl, fun _ _ => PageEq.refl _ _⟩

/-- Growth of the subtree at one index of the root is growth of the tree. -/
theorem Grown.graft (hO : Owns s (tablesAt s.mem (l + 1) q) F) (hi : i < 512)
    (hq : ∀ j < 512, j ≠ i → entry s'.mem q j = entry s.mem q j)
    (hc : link (entry s'.mem q i) = some c)
    (hsib : ∀ j < 512, j ≠ i → ∀ t ∈ subAt s.mem l (entry s.mem q j), PageEq s.mem s'.mem t)
    (hO' : Owns s' (tablesAt s'.mem l c) (othersAt s.mem l q i + F))
    (hleaf : ∀ v, indexAt (l + 1) v = i → leafAt s'.mem l c v = leafAt s.mem (l + 1) q v)
    (hF : ∀ p ∈ F, PageEq s.mem s'.mem p) : Grown s s' (l + 1) q F := by
  have hsib' : ∀ j < 512, j ≠ i → ∀ t ∈ subAt s.mem l (entry s.mem q j), ∀ k < 512,
      entry s'.mem t k = entry s.mem t k :=
    fun j hj hne t ht k hk => entry_congr (hsib j hj hne t ht) hk
  have hsplit : tablesAt s.mem (l + 1) q = subAt s.mem l (entry s.mem q i) + othersAt s.mem l q i :=
    Radix.nodes_split hi
  have hsplit' : tablesAt s'.mem (l + 1) q =
      subAt s'.mem l (entry s'.mem q i) + othersAt s'.mem l q i := Radix.nodes_split hi
  rw [othersAt, subAt, Radix.others_congr hq hsib', Radix.sub_some hc] at hsplit'
  refine ⟨?_, fun v => ?_, hF⟩
  · have hnd := hO.nodup
    have hd := hO.disj
    rw [hsplit] at hnd hd
    have hle : othersAt s.mem l q i ≤
        Radix.sub link 512 (entry s.mem) l (entry s.mem q i) + othersAt s.mem l q i :=
      Multiset.le_add_left _ _
    rw [hsplit']
    refine hO'.join (Multiset.nodup_of_le hle hnd) (Multiset.disjoint_left.mpr fun hx => ?_)
    exact Multiset.disjoint_left.mp hd (Multiset.mem_of_le hle hx)
  · have hslot := Radix.slot_graft (v := v) (by decide) hq hc hsib'
    by_cases hv : indexAt (l + 1) v = i
    · rw [← hleaf v hv]
      rw [if_pos hv] at hslot
      simp only [leafAt, Radix.lookup, hslot]
    · rw [if_neg hv] at hslot
      cases hs : Radix.slot? link 512 (entry s.mem) (l + 1) q v with
      | none => rw [leafAt, leafAt, Radix.lookup_of_none (hslot.trans hs), Radix.lookup_of_none hs]
      | some t =>
        rw [leafAt, leafAt, Radix.lookup_of_slot (hslot.trans hs), Radix.lookup_of_slot hs]
        -- `t` lies below another index of the root
        have hlt := indexAt_lt (l + 1) v
        cases hn : link (entry s.mem q (indexAt (l + 1) v)) with
        | none => rw [Radix.slot_succ_none hn] at hs; cases hs
        | some d =>
          rw [Radix.slot_succ hn] at hs
          refine hsib' _ hlt hv t ?_ _ (indexAt_lt 0 v)
          rw [subAt, Radix.sub_some hn]
          exact Radix.slot_mem (by decide) hs

/-- A fresh zeroed page `p` is linked to at index `i` of `q`, which had no table there. -/
structure Linking (s s' : Phys) (l q i p : ℕ) (F : Multiset ℕ) : Prop where
  page : ∀ t, okPage t → t ≠ p → t ≠ q → PageEq s.mem s'.mem t
  row : ∀ j < 512, j ≠ i → entry s'.mem q j = entry s.mem q j
  new : entry s'.mem q i = PA2PTE p ||| PTE_V
  child : link (entry s'.mem q i) = some p
  zero : ∀ j < 512, entry s'.mem p j = 0#64
  owns : Owns s' (tablesAt s'.mem l p) (othersAt s.mem l q i + F)

/-- Linking a page from `kalloc`. -/
theorem Owns.linking {s₁ : Phys} {p : ℕ} (h : Owns s (tablesAt s.mem (l + 1) q) F) (hi : i < 512)
    (hc : link (entry s.mem q i) = none) (hok : okPage p) (hpT : p ∉ tablesAt s.mem (l + 1) q)
    (hO : Owns s₁ (p ::ₘ tablesAt s.mem (l + 1) q) F)
    (hE : ∀ t, okPage t → t ≠ p → PageEq s.mem s₁.mem t) :
    Linking s ((s₁.memset p PGSIZE 0).setPte (q + 8 * i) (PA2PTE p ||| PTE_V)) l q i p F := by
  have hT : tablesAt s.mem (l + 1) q = othersAt s.mem l q i := by
    have hsplit : tablesAt s.mem (l + 1) q =
        subAt s.mem l (entry s.mem q i) + othersAt s.mem l q i := Radix.nodes_split hi
    rw [hsplit, subAt, Radix.sub_none hc, zero_add]
  have hqok : okPage q := h.ok_left Radix.root_mem
  have hqp : q ≠ p := fun he => hpT (he ▸ Radix.root_mem)
  set s₂ := (s₁.memset p PGSIZE 0).setPte (q + 8 * i) (PA2PTE p ||| PTE_V) with hs₂
  have hm₂ : s₂.mem = writePte (s₁.mem.fill p 4096 0) (q + 8 * i) (PA2PTE p ||| PTE_V) := rfl
  have hentry : entry s₂.mem q i = PA2PTE p ||| PTE_V := by rw [hm₂, entry_writePte_self]
  have hp0 : ∀ j < 512, entry s₂.mem p j = 0#64 := by
    intro j hj
    rw [hm₂, entry_congr (pageEq_writePte hqok.1 hok.1 hqp.symm hi) hj, entry_fill_zero hj]
  refine ⟨fun t ht htp htq => ?_, fun j hj hne => ?_, hentry, ?_, hp0, ?_⟩
  · rw [hm₂]
    exact ((hE t ht htp).trans (pageEq_fill hok.1 ht.1 htp)).trans (pageEq_writePte hqok.1 ht.1 htq hi)
  · rw [hm₂, entry_writePte_ne hne]
    exact entry_congr ((hE q hqok hqp).trans (pageEq_fill hok.1 hqok.1 hqp)) hj
  · rw [hentry, link_of_has, PTE2PA_or (by decide), PTE2PA_PA2PTE hok.1 hok.lt]
    rw [has_PA2PTE (by decide)]
    decide
  · rw [tablesAt_of_zero hp0, ← hT]
    refine Owns.split ?_
    rw [Multiset.singleton_add]
    exact (hO.memset _ _ _).setPte _ _

/-- **`walk` with allocation** adds tables only, and fails on an empty free list only. -/
theorem walkLoop_true (va l q : ℕ) (s : Phys) (F : Multiset ℕ)
    (h : Owns s (tablesAt s.mem l q) F) :
    ∃ res s', walkLoop va true l q s = (res, s') ∧ Grown s s' l q F ∧
      ((res = none ∧ s'.freelist = []) ∨
        ∃ t, slotAt s'.mem l q (va / 4096) = some t ∧
          res = some (t + 8 * indexAt 0 (va / 4096))) := by
  induction l generalizing q s F with
  | zero =>
    exact ⟨_, s, rfl, Grown.refl h, Or.inr ⟨q, rfl, by rw [PX_index]⟩⟩
  | succ l ih =>
    have hlt := indexAt_lt (l + 1) (va / 4096)
    have he : readPte s.mem (q + 8 * PX (l + 1) va) =
        entry s.mem q (indexAt (l + 1) (va / 4096)) := by rw [PX_index]; rfl
    generalize hi : indexAt (l + 1) (va / 4096) = i at hlt he
    have hsplit : tablesAt s.mem (l + 1) q =
        subAt s.mem l (entry s.mem q i) + othersAt s.mem l q i := Radix.nodes_split hlt
    have hslot' : ∀ {m : ByteStore} {c : ℕ}, link (entry m q i) = some c →
        slotAt m (l + 1) q (va / 4096) = slotAt m l c (va / 4096) := fun hc =>
      Radix.slot_succ (by rw [show Radix.index 512 (l + 1) (va / 4096) = i from hi]; exact hc)
    -- pages of the sibling subtrees are owned and differ from the root
    have hmem : ∀ j < 512, j ≠ i → ∀ t ∈ subAt s.mem l (entry s.mem q j),
        t ∈ othersAt s.mem l q i ∧ t ≠ q := by
      intro j hj hne t ht
      refine ⟨Radix.mem_others hj hne ht, ?_⟩
      rintro rfl
      exact Radix.root_not_mem_sub h.nodup hj ht
    simp only [walkLoop, he]
    by_cases hV : (entry s.mem q i).has PTE_V = true
    · -- the table exists
      have hc := link_of_has hV
      rw [if_pos hV]
      have hO : Owns s (tablesAt s.mem l (PTE2PA (entry s.mem q i))) (othersAt s.mem l q i + F) := by
        refine Owns.split ?_
        rw [hsplit, subAt, Radix.sub_some hc] at h
        exact h
      obtain ⟨res, s', hw, hG, hres⟩ := ih _ _ _ hO
      have hfr : ∀ t ∈ othersAt s.mem l q i, PageEq s.mem s'.mem t := fun t ht =>
        hG.frame t (Multiset.mem_add.mpr (Or.inl ht))
      have hq : ∀ j < 512, entry s'.mem q j = entry s.mem q j := fun j hj =>
        entry_congr (hfr q Radix.root_mem_others) hj
      have hc' : link (entry s'.mem q i) = some (PTE2PA (entry s.mem q i)) := by
        rw [hq i hlt]; exact hc
      refine ⟨res, s', hw, ?_, ?_⟩
      · refine Grown.graft h hlt (fun j hj _ => hq j hj) hc'
          (fun j hj hne t ht => hfr t (hmem j hj hne t ht).1) hG.owns (fun v hv => ?_)
          (fun p hp => hG.frame p (Multiset.mem_add.mpr (Or.inr hp)))
        rw [hG.leaf v]
        have : Radix.slot? link 512 (entry s.mem) (l + 1) q v = Radix.slot? link 512 (entry s.mem) l
            (PTE2PA (entry s.mem q i)) v := Radix.slot_succ (by
          rw [show Radix.index 512 (l + 1) v = i from hv]; exact hc)
        simp only [leafAt, Radix.lookup, this]
      · rcases hres with h0 | ⟨t, ht, hr⟩
        · exact Or.inl h0
        · exact Or.inr ⟨t, by rw [hslot' hc']; exact ht, hr⟩
    · -- a new table
      have hc : link (entry s.mem q i) = none := link_of_not (by simpa using hV)
      have hT : tablesAt s.mem (l + 1) q = othersAt s.mem l q i := by
        rw [hsplit, subAt, Radix.sub_none hc, zero_add]
      rw [if_neg hV, if_neg (by decide)]
      rcases h.kalloc with ⟨hf, hk⟩ | ⟨p, s₁, hk, hok, hpT, hpF, hO₁, hE⟩
      · simp only [hk]
        exact ⟨none, s, rfl, Grown.refl h, Or.inl ⟨rfl, hf⟩⟩
      · simp only [hk]
        have hn := h.linking hlt hc hok hpT hO₁ hE
        rw [show PX (l + 1) va = i by rw [PX_index, hi]]
        set s₂ := (s₁.memset p PGSIZE 0).setPte (q + 8 * i) (PA2PTE p ||| PTE_V)
        have hO₂ : Owns s₂ (tablesAt s₂.mem l p) (othersAt s.mem l q i + F) := hn.owns
        obtain ⟨res, s', hw, hG, hres⟩ := ih _ _ _ hO₂
        have hfr : ∀ t ∈ othersAt s.mem l q i, PageEq s₂.mem s'.mem t := fun t ht =>
          hG.frame t (Multiset.mem_add.mpr (Or.inl ht))
        have hq' : ∀ j < 512, entry s'.mem q j = entry s₂.mem q j := fun j hj =>
          entry_congr (hfr q Radix.root_mem_others) hj
        have hc' : link (entry s'.mem q i) = some p := by rw [hq' i hlt]; exact hn.child
        refine ⟨res, s', hw, ?_, ?_⟩
        · refine Grown.graft h hlt (fun j hj hne => (hq' j hj).trans (hn.row j hj hne)) hc'
            (fun j hj hne t ht => ?_) hG.owns (fun v hv => ?_) (fun t ht => ?_)
          · obtain ⟨hto, htq⟩ := hmem j hj hne t ht
            have htT : t ∈ tablesAt s.mem (l + 1) q := hT ▸ hto
            exact (hn.page t (h.ok_left htT) (fun he => hpT (he ▸ htT)) htq).trans (hfr t hto)
          · rw [hG.leaf v, leafAt_of_zero hn.zero]
            refine (Radix.lookup_of_none (Radix.slot_succ_none ?_)).symm
            rw [show Radix.index 512 (l + 1) v = i from hv]
            exact hc
          · exact (hn.page t (h.ok_right ht) (fun he => hpF (he ▸ ht))
              (h.ne Radix.root_mem ht)).trans (hG.frame t (Multiset.mem_add.mpr (Or.inr ht)))
        · rcases hres with h0 | ⟨t, ht, hr⟩
          · exact Or.inl h0
          · exact Or.inr ⟨t, by rw [hslot' hc']; exact ht, hr⟩

end Walk

end Xv6
