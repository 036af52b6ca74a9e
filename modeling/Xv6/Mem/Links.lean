import Xv6.Mem.Contents

/-!
# Links — page tables that can be freed

`freewalk` tells a link from an entry that maps a page by its permission bits, and panics at the latter.
`Linked m r`: no entry above the lowest level has a permission bit.  `walk` makes such links only, and
everything else writes to the lowest level.

* `freewalk_total`: a linked page table that maps no page can be freed.
* `Built.proc_freepagetable_total`: so can an image that is given up.
-/

namespace Xv6

/-- What `freewalk` takes for a link. -/
def IsLink (e : Pte) : Prop := e &&& (PTE_R ||| PTE_W ||| PTE_X) = 0#64

/-- All links of the tree of height `l` at `q` are recognized. -/
abbrev LinkedAt (m : ByteStore) (l q : ℕ) : Prop := Radix.Inner IsLink link 512 (entry m) l q

abbrev Linked (m : ByteStore) (r : ℕ) : Prop := LinkedAt m 2 r

section Tree

variable {m m' : ByteStore} {s : Phys} {r l q v a p : ℕ} {T K F : Multiset ℕ} {lf : ℕ → Pte}

theorem isLink_PA2PTE : IsLink (PA2PTE p ||| PTE_V) := by
  unfold IsLink
  rw [BitVec.and_or_distrib_right, PA2PTE_and (by decide)]
  decide

theorem linkedAt_congr (hl : LinkedAt m l q) (h : ∀ t ∈ tablesAt m l q, PageEq m m' t) :
    LinkedAt m' l q :=
  Radix.inner_congr (fun t ht _ hi => entry_congr (h t ht) hi) hl

theorem Linked.congr (hl : Linked m r) (hT : Tree m r T lf) (hk : Keeps m m' T) : Linked m' r :=
  linkedAt_congr hl fun t ht => hk t (hT.mem_iff.mp ht)

/-- A test for links that reads one byte of an entry that is not valid. -/
def linksOk (m : ByteStore) : ℕ → ℕ → Bool
  | 0, _ => true
  | l + 1, q => (List.range 512).all fun i => (m (q + 8 * i)).toNat % 2 == 0 ||
      (entry m q i &&& (PTE_R ||| PTE_W ||| PTE_X) == 0#64 && linksOk m l (PTE2PA (entry m q i)))

theorem readPte_invalid (h : (m a).toNat % 2 = 0) : (readPte m a).has PTE_V = false := by
  have h2 : (readPte m a).toNat % 2 = 0 := by
    rw [readPte, BitVec.toNat_ofNat, ByteStore.load]
    omega
  have h3 : readPte m a &&& PTE_V = 0#64 := by
    apply BitVec.eq_of_toNat_eq
    rw [BitVec.toNat_and, show PTE_V.toNat = 1 from rfl, Nat.and_one_is_mod, h2]
    rfl
  simp [Pte.has, h3]

theorem linksOk_linked (h : linksOk m l q = true) : LinkedAt m l q := by
  induction l generalizing q with
  | zero => trivial
  | succ l ih =>
    intro i hi c hc
    have hent := List.all_eq_true.mp h i (List.mem_range.mpr hi)
    unfold link at hc
    split_ifs at hc with hV
    cases hc
    have hodd : ((m (q + 8 * i)).toNat % 2 == 0) = false := by
      by_contra hne
      rw [Bool.not_eq_false, beq_iff_eq] at hne
      rw [show entry m q i = readPte m (q + 8 * i) from rfl, readPte_invalid hne] at hV
      cases hV
    rw [hodd, Bool.false_or, Bool.and_eq_true, beq_iff_eq] at hent
    exact ⟨hent.1, ih hent.2⟩

/-- Entries of pages are on the lowest level. -/
theorem Linked.set [Image] (hl : Linked s.mem r) (hT : Tree s.mem r T lf) (hO : Owns s (T + K) F)
    (ha : EntryAt s.mem r v a) (e : Pte) : Linked (s.setPte a e).mem r := by
  obtain ⟨t, ht, rfl⟩ := ha
  have hnd : (tablesAt s.mem 2 r).Nodup := by
    rw [show tablesAt s.mem 2 r = T from hT.tables]
    exact hO.nodup_left
  have htT : t ∈ T := hT.mem_iff.mp (Radix.slot_mem (by decide) ht)
  refine Radix.inner_set (by decide) hnd ht (fun n hn i hi hne => ?_) hl
  have hn4 := hO.mod n (hT.mem_iff.mp hn)
  have ht4 := hO.mod t htT
  have hlt := indexAt_lt 0 v
  refine readPte_writePte_of_ne ?_
  by_cases hnt : n = t
  · have : i ≠ indexAt 0 v := fun hi' => hne ⟨hnt, hi'⟩
    omega
  · omega

end Tree

variable [Image] {s s' : Phys} {r l q n va a pa : ℕ} {T K F X : Multiset ℕ} {lf : ℕ → Pte} {perm : Pte}

/-! ## What keeps the links -/

theorem walkLoop_linked (va l q : ℕ) (s : Phys) (F : Multiset ℕ) (h : Owns s (tablesAt s.mem l q) F)
    (hl : LinkedAt s.mem l q) : LinkedAt (walkLoop va true l q s).2.mem l q := by
  induction l generalizing q s F with
  | zero => trivial
  | succ l ih =>
    have hlt := indexAt_lt (l + 1) (va / 4096)
    have he : readPte s.mem (q + 8 * PX (l + 1) va) =
        entry s.mem q (indexAt (l + 1) (va / 4096)) := by rw [PX_index]; rfl
    generalize hi : indexAt (l + 1) (va / 4096) = i at hlt he
    have hsplit : tablesAt s.mem (l + 1) q =
        subAt s.mem l (entry s.mem q i) + othersAt s.mem l q i := Radix.nodes_split hlt
    have hmem : ∀ j < 512, j ≠ i → ∀ t ∈ subAt s.mem l (entry s.mem q j),
        t ∈ othersAt s.mem l q i ∧ t ≠ q := by
      intro j hj hne t ht
      refine ⟨Radix.mem_others hj hne ht, ?_⟩
      rintro rfl
      exact Radix.root_not_mem_sub h.nodup hj ht
    simp only [walkLoop, he]
    by_cases hV : (entry s.mem q i).has PTE_V = true
    · -- the table exists
      have hc := link_of_has hV
      rw [if_pos hV]
      have hO : Owns s (tablesAt s.mem l (PTE2PA (entry s.mem q i))) (othersAt s.mem l q i + F) := by
        refine Owns.split ?_
        rw [hsplit, subAt, Radix.sub_some hc] at h
        exact h
      obtain ⟨hP, hlc⟩ := hl i hlt _ hc
      obtain ⟨res, s', hw, hG, -⟩ := walkLoop_true va l _ s _ hO
      have hl' := ih _ _ _ hO hlc
      rw [hw] at hl' ⊢
      have hfr : ∀ t ∈ othersAt s.mem l q i, PageEq s.mem s'.mem t := fun t ht =>
        hG.frame t (Multiset.mem_add.mpr (Or.inl ht))
      have hq : ∀ j < 512, entry s'.mem q j = entry s.mem q j := fun j hj =>
        entry_congr (hfr q Radix.root_mem_others) hj
      refine Radix.inner_graft (fun j hj _ => hq j hj)
        (fun j hj hne t ht k hk => entry_congr (hfr t (hmem j hj hne t ht).1) hk) hl fun c hc' => ?_
      rw [hq i hlt] at hc' ⊢
      rw [hc] at hc'
      cases hc'
      exact ⟨hP, hl'⟩
    · -- a new table
      have hc : link (entry s.mem q i) = none := link_of_not (by simpa using hV)
      have hT : tablesAt s.mem (l + 1) q = othersAt s.mem l q i := by
        rw [hsplit, subAt, Radix.sub_none hc, zero_add]
      rw [if_neg hV, if_neg (by decide)]
      rcases h.kalloc with ⟨-, hk⟩ | ⟨p, s₁, hk, hok, hpT, -, hO₁, hE⟩
      · simp only [hk]
        exact hl
      · simp only [hk]
        have hn := h.linking hlt hc hok hpT hO₁ hE
        rw [show PX (l + 1) va = i by rw [PX_index, hi]]
        set s₂ := (s₁.memset p PGSIZE 0).setPte (q + 8 * i) (PA2PTE p ||| PTE_V)
        obtain ⟨res, s', hw, hG, -⟩ := walkLoop_true va l p s₂ _ hn.owns
        have hl' := ih _ _ _ hn.owns (Radix.inner_of_no_child fun j hj => by rw [hn.zero j hj, link_zero])
        rw [hw] at hl' ⊢
        have hfr : ∀ t ∈ othersAt s.mem l q i, PageEq s₂.mem s'.mem t := fun t ht =>
          hG.frame t (Multiset.mem_add.mpr (Or.inl ht))
        have hq' : ∀ j < 512, entry s'.mem q j = entry s₂.mem q j := fun j hj =>
          entry_congr (hfr q Radix.root_mem_others) hj
        refine Radix.inner_graft (fun j hj hne => (hq' j hj).trans (hn.row j hj hne))
          (fun j hj hne t ht k hk => ?_) hl fun c hc' => ?_
        · obtain ⟨hto, htq⟩ := hmem j hj hne t ht
          have htT : t ∈ tablesAt s.mem (l + 1) q := hT ▸ hto
          exact entry_congr ((hn.page t (h.ok_left htT) (fun he => hpT (he ▸ htT)) htq).trans (hfr t hto)) hk
        · rw [hq' i hlt] at hc' ⊢
          rw [hn.child] at hc'
          cases hc'
          exact ⟨hn.new ▸ isLink_PA2PTE, hl'⟩

theorem walk_linked {o : Option ℕ} (hl : Linked s.mem r) (hT : Tree s.mem r T lf) (hO : Owns s (T + K) F)
    (h : walk r va true s = .ok (o, s')) : Linked s'.mem r := by
  unfold walk at h
  split_ifs at h with hva
  have hO' : Owns s (tablesAt s.mem 2 r) (K + F) := by
    rw [show tablesAt s.mem 2 r = T from hT.tables]
    exact hO.split
  have := walkLoop_linked va 2 r s (K + F) hO' hl
  rw [Except.ok.inj h] at this
  exact this

theorem mappages_linked {res : ℤ} (hl : Linked s.mem r) (hT : Tree s.mem r T lf) (hO : Owns s (T + K) F)
    (hva : va % 4096 = 0) (hlt : va < 2 ^ 64 - 4096)
    (h : mappages r va PGSIZE pa perm s = .ok (res, s')) : Linked s'.mem r := by
  rw [mappages_page hva hlt] at h
  unfold mapLoop at h
  cases hw : walk r va true s with
  | error e => rw [hw] at h; cases h
  | ok x =>
    obtain ⟨o, s₁⟩ := x
    have hl₁ := walk_linked hl hT hO hw
    obtain ⟨hva', T', hT', hO', -, ⟨rfl, -⟩ | ⟨b, rfl, hb⟩⟩ := walk_true_spec hT hO hw
    · rw [hw] at h
      cases h
      exact hl₁
    · rw [hw] at h
      simp only at h
      split_ifs at h
      cases h
      exact hl₁.set hT' hO' hb _

theorem unmapLoop_free_linked (hl : Linked s.mem r) (hT : Tree s.mem r T lf)
    (hO : Owns s (T + K) (leafRefs UPAGES lf + X)) (ha : a % 4096 = 0) (hn : a / 4096 + n ≤ UPAGES)
    (h : unmapLoop r true n a s = .ok s') : Linked s'.mem r := by
  induction n generalizing s a lf with
  | zero =>
    cases h
    exact hl
  | succ n ih =>
    obtain ⟨hva, hV, b, hb, -, ⟨-, s₁, hk, hrest⟩ | ⟨hf, -⟩⟩ := unmap_entry hT h
    · obtain ⟨ha', hdiv⟩ := next_page ha
      have hvU : a / 4096 < UPAGES := by omega
      have hmem : PTE2PA (lf (a / 4096)) ∈ leafRefs UPAGES lf + X :=
        Multiset.mem_add.mpr (Or.inl (mem_leafRefs.mpr ⟨_, hvU, hV, rfl⟩))
      obtain ⟨F, hF⟩ := Multiset.exists_cons_of_mem hmem
      obtain ⟨hO₁, hk₁⟩ := (hF ▸ hO).kfree hk
      have hkT : Keeps s.mem s₁.mem T := hk₁.left.left
      obtain ⟨hT₂, hO₂, -⟩ := unmap_page hT hO hvU hV hb hk
      have hl₂ := (hl.congr hT hkT).set (hT.congr hkT) hO₁ (hb.congr hT hkT) 0#64
      exact ih hl₂ hT₂ hO₂ ha' (by omega) hrest
    · cases hf

theorem unmapLoop_keep_linked (hl : Linked s.mem r) (hT : Tree s.mem r T lf) (hO : Owns s (T + K) F)
    (ha : a % 4096 = 0) (h : unmapLoop r false n a s = .ok s') : Linked s'.mem r := by
  induction n generalizing s a lf with
  | zero =>
    cases h
    exact hl
  | succ n ih =>
    obtain ⟨hva, -, b, hb, -, ⟨hf, -⟩ | ⟨-, hrest⟩⟩ := unmap_entry hT h
    · cases hf
    · obtain ⟨ha', -⟩ := next_page ha
      obtain ⟨hT₁, hO₁, -⟩ := EntryAt.set hT hO hb (pageNumber_lt hva) 0#64
      exact ih (hl.set hT hO hb 0#64) hT₁ hO₁ ha' hrest

theorem uvmdealloc_linked {oldsz newsz res : ℕ} (hl : Linked s.mem r) (hT : Tree s.mem r T lf)
    (hO : Owns s (T + K) (leafRefs UPAGES lf + X)) (hsz : oldsz ≤ TRAPFRAME)
    (h : uvmdealloc r oldsz newsz s = .ok (res, s')) : Linked s'.mem r := by
  rw [uvmdealloc_pages hsz] at h
  obtain ⟨t, ht, h⟩ := map_ok h
  obtain ⟨-, rfl⟩ := Prod.mk.inj h
  by_cases hle : pages newsz ≤ pages oldsz
  · refine unmapLoop_free_linked hl hT hO (Nat.mul_mod_left _ _) ?_ ht
    have hop := pages_le hsz
    rw [Nat.mul_div_cancel _ (by decide)]
    omega
  · rw [show pages oldsz - pages newsz = 0 by omega] at ht
    cases ht
    exact hl

theorem allocLoop_linked {oldsz : ℕ} {ok : Bool} (hperm : Low perm) (hl : Linked s.mem r)
    (hT : Tree s.mem r T lf) (hO : Owns s (T + K) (leafRefs UPAGES lf + X)) (ha : a % 4096 = 0)
    (haU : a / 4096 ≤ UPAGES)
    (hroom : (lf UPAGES).has PTE_V = true ∨ a / 4096 + n ≤ UPAGES)
    (h : allocLoop r oldsz perm n a s = .ok (ok, s')) : Linked s'.mem r := by
  have hperm' : Low (PTE_R ||| PTE_U ||| perm) := Low.or (by decide) hperm
  induction n generalizing s a lf T with
  | zero =>
    cases h
    exact hl
  | succ n ih =>
    have haU' : a / 4096 ≤ 67108862 := haU
    have haT : a ≤ TRAPFRAME := by
      show a ≤ 274877898752
      omega
    unfold allocLoop at h
    cases hk : kalloc s with
    | mk o s₁ =>
      rw [hk] at h
      cases o with
      | none =>
        rcases hO.kalloc_ref hk with ⟨-, rfl, -⟩ | ⟨p, hp, -⟩
        · simp only at h
          cases hu : uvmdealloc r a oldsz s₁ with
          | error e => rw [hu] at h; cases h
          | ok x =>
            rw [hu] at h
            cases h
            exact uvmdealloc_linked hl hT hO haT hu
        · cases hp
      | some mem =>
        simp only at h
        cases hm : mappages r a PGSIZE mem (PTE_R ||| PTE_U ||| perm) (s₁.memset mem PGSIZE 0) with
        | error e => rw [hm] at h; cases h
        | ok x =>
          obtain ⟨res, s₂⟩ := x
          rw [hm] at h
          have hl₂ : Linked s₂.mem r := by
            obtain ⟨hn, -⟩ | ⟨p, hp, hok, hmem, hO₁, hk₁⟩ := hO.kalloc_ref hk
            · cases hn
            cases hp
            have hT₁ : Keeps s.mem (s₁.memset mem PGSIZE 0).mem T := by
              intro q hq
              have hq' : q ∈ T + K + (leafRefs UPAGES lf + X) :=
                Multiset.mem_add.mpr (Or.inl (Multiset.mem_add.mpr (Or.inl hq)))
              have hne : q ≠ mem := fun he => hmem (he ▸ hq')
              exact (hk₁ q hq').trans (pageEq_fill hok.1 (hO.alloc.ok hq').1 hne)
            exact mappages_linked (hl.congr hT hT₁) (hT.congr hT₁) (hO₁.memset mem PGSIZE 0) ha
              (by omega) hm
          obtain ⟨hok, -, -, -, T₂, lf₂, hT₂, hO₂, ⟨rfl, rfl⟩ | ⟨rfl, hfree, rfl⟩⟩ :=
            fresh_page_spec hT hO ha haU hk hm
          · simp only at h
            rw [if_pos (by decide)] at h
            cases hf : kfree mem s₂ with
            | error e => rw [hf] at h; cases h
            | ok s₃ =>
              rw [hf] at h
              obtain ⟨hO₃, hk₃⟩ := hO₂.kfree hf
              simp only at h
              cases hu : uvmdealloc r a oldsz s₃ with
              | error e => rw [hu] at h; cases h
              | ok x =>
                rw [hu] at h
                cases h
                exact uvmdealloc_linked (hl₂.congr hT₂ hk₃.left.left) (hT₂.congr hk₃.left.left) hO₃ haT hu
          · have hvU : a / 4096 < UPAGES := by
              rcases hroom with hV | hle
              · refine lt_of_le_of_ne haU fun he => ?_
                rw [he, hV] at hfree
                cases hfree
              · omega
            simp only [ne_eq, not_true_eq_false, if_false] at h
            rw [← Multiset.cons_add, ← leafRefs_map hok hperm' hvU hfree] at hO₂
            obtain ⟨ha', hdiv⟩ := next_page ha
            refine ih hl₂ hT₂ hO₂ ha' (by rw [hdiv]; omega) ?_ h
            rcases hroom with hV | hle
            · left
              rwa [Function.update_of_ne hvU.ne']
            · right
              rw [hdiv]
              omega

theorem uvmalloc_linked {oldsz newsz res : ℕ} (hperm : Low perm) (hl : Linked s.mem r)
    (hT : Tree s.mem r T lf) (hO : Owns s (T + K) (leafRefs UPAGES lf + X)) (hsz : oldsz ≤ TRAPFRAME)
    (hroom : (lf UPAGES).has PTE_V = true) (h : uvmalloc r oldsz newsz perm s = .ok (res, s')) :
    Linked s'.mem r := by
  by_cases hle : oldsz ≤ newsz
  · have hdiv : pages oldsz * 4096 / 4096 = pages oldsz := Nat.mul_div_cancel _ (by decide)
    rw [uvmalloc_pages hsz hle] at h
    obtain ⟨⟨ok, t⟩, ha, h⟩ := map_ok h
    obtain ⟨-, rfl⟩ := Prod.mk.inj h
    exact allocLoop_linked hperm hl hT hO (Nat.mul_mod_left _ _) (by rw [hdiv]; exact pages_le hsz)
      (Or.inl hroom) ha
  · unfold uvmalloc at h
    rw [if_pos (not_le.mp hle)] at h
    cases h
    exact hl

theorem uvmclear_linked (hl : Linked s.mem r) (hT : Tree s.mem r T lf) (hO : Owns s (T + K) F)
    (h : uvmclear r va s = .ok s') : Linked s'.mem r := by
  unfold uvmclear at h
  cases hw : walk r va false s with
  | error e => rw [hw] at h; cases h
  | ok x =>
    obtain ⟨o, t⟩ := x
    obtain ⟨-, rfl, ⟨rfl, -⟩ | ⟨b, rfl, hb⟩⟩ := walk_false_spec hT hw
    · rw [hw] at h; cases h
    · rw [hw] at h
      cases h
      exact hl.set hT hO hb _

/-- A write to a user page. -/
theorem Space.linked_write {v off : ℕ} (src : ℕ → UInt8) (h : Space s r T lf K X) (hl : Linked s.mem r)
    (hv : v < UPAGES) (hV : (lf v).has PTE_V = true) (hn : off + n ≤ 4096) :
    Linked (s.memmove (PTE2PA (lf v) + off) n src).mem r := by
  have hpR : PTE2PA (lf v) ∈ leafRefs UPAGES lf + X :=
    Multiset.mem_add.mpr (Or.inl (mem_leafRefs.mpr ⟨v, hv, hV, rfl⟩))
  refine hl.congr h.tree fun q hq => ?_
  have hqT : q ∈ T + K := Multiset.mem_add.mpr (Or.inl hq)
  exact pageEq_blit (h.owns.ok_right hpR).1 (h.owns.ok_left hqT).1 (fun he => h.owns.ne hqT hpR he.symm) hn

theorem copyoutLoop_linked {rounds dstva len left : ℕ} {src : ℕ → UInt8} (h : Space s r T lf K X)
    (hp : Plain lf) (hl : Linked s.mem r) (hc : copyoutLoop r rounds dstva src len s = .ok (left, s')) :
    Linked s'.mem r := by
  induction rounds generalizing dstva src len s with
  | zero =>
    cases hc
    exact hl
  | succ rounds ih =>
    by_cases hlen : len = 0
    · subst hlen
      cases hc
      exact hl
    · rcases copyout_round rounds dstva len src h hlen with ⟨-, hx⟩ | ⟨hu, -, t, lf₁, hr, hx⟩
      · rw [hx] at hc
        cases hc
        exact hl
      · rw [hx] at hc
        have hv := h.lt_upages hu
        obtain ⟨rfl, rfl⟩ := hr.kept (hp _ hv hu.2.1)
        have hoff : dstva % 4096 + min (4096 - dstva % 4096) len ≤ 4096 := by omega
        obtain ⟨hS, -⟩ := poke_spec h hv hu.2.1 hr.own hoff src
        exact ih hS (h.linked_write src hl hv hu.2.1 hoff) hc

/-- An owned page can be freed. -/
theorem Owns.kfree_own_total {p : ℕ} (h : Owns s (p ::ₘ T) F) : ∃ s', Xv6.kfree p s = .ok s' := by
  obtain ⟨s', hk, -⟩ := kfree_spec (s := s) (p := p) (R := T + F) (by
    rw [← Multiset.cons_add]
    exact h.alloc)
  exact ⟨s', hk⟩

/-! ## The images of `exec` -/

section

variable {s₀ : Phys} {sz newsz : ℕ} {R L : Multiset ℕ} {src : ℕ → UInt8}

theorem Built.copyout_linked {len : ℕ} {res : ℤ} (h : Built s₀ s r sz R K L) (hl : Linked s.mem r)
    (hc : Xv6.copyout r va src len s = .ok (res, s')) : Linked s'.mem r := by
  unfold Xv6.copyout at hc
  cases hr : copyoutLoop r len va src len s with
  | error e => rw [hr] at hc; cases hc
  | ok x =>
    rw [hr] at hc
    cases hc
    exact copyoutLoop_linked h.heap.space h.plain hl hr

theorem Built.write_linked (h : Built s₀ s r sz R K L) (hl : Linked s.mem r) (h0 : walkaddr r va s ≠ 0)
    (hn : n ≤ 4096) : Linked (s.memmove (walkaddr r va s) n src).mem r := by
  have hS := h.heap.space
  obtain ⟨hva, hV, hU, he⟩ := walkaddr_spec hS.tree h0
  have hv : va / 4096 < UPAGES := by
    by_contra hge
    rw [hS.user.top _ (not_lt.mp hge) (pageNumber_lt hva)] at hU
    cases hU
  have hn' : 0 + n ≤ 4096 := by omega
  have hw := hS.linked_write src hl hv hV hn'
  rw [Nat.add_zero] at hw
  rw [he]
  exact hw

theorem Built.uvmalloc_linked {res : ℕ} (h : Built s₀ s r sz R K L) (hl : Linked s.mem r)
    (hperm : UserPerm perm) (hu : Xv6.uvmalloc r sz newsz perm s = .ok (res, s')) : Linked s'.mem r :=
  Xv6.uvmalloc_linked hperm.low hl h.heap.space.tree h.heap.space.owns h.shape.le h.shape.frame hu

theorem Built.loadseg_linked {ip : Inode} {offset len rounds i : ℕ} {res : ℤ}
    (h : Built s₀ s r sz R K L) (hl : Linked s.mem r)
    (hs : loadsegLoop r va ip offset len rounds i s = .ok (res, s')) : Linked s'.mem r := by
  induction rounds generalizing s i with
  | zero =>
    cases hs
    exact hl
  | succ rounds ih =>
    unfold loadsegLoop at hs
    dsimp only at hs
    have hpage : ∀ n, n ≤ 4096 → (ip.readi (uint32 (offset + i)) n).length ≤ 4096 := fun n hn =>
      (ip.length_le _ _).trans hn
    split_ifs at hs with h0 hn hd hd
    · cases hs
      exact h.write_linked hl h0 (hpage _ hn.le)
    · exact ih (h.write h0 (hpage _ hn.le)) (h.write_linked hl h0 (hpage _ hn.le)) hs
    · cases hs
      exact h.write_linked hl h0 (hpage _ le_rfl)
    · exact ih (h.write h0 (hpage _ le_rfl)) (h.write_linked hl h0 (hpage _ le_rfl)) hs

theorem Built.loadLoop_linked {ip : Inode} {off : ℕ} {ok : Bool} (h : Built s₀ s r sz R K L)
    (hl : Linked s.mem r) (hs : Xv6.loadLoop r ip n off sz s = .ok (ok, newsz, s')) :
    Linked s'.mem r := by
  induction n generalizing s off sz with
  | zero =>
    cases hs
    exact hl
  | succ n ih =>
    unfold Xv6.loadLoop at hs
    dsimp only at hs
    split_ifs at hs
    · cases hs
      exact hl
    · exact ih h hl hs
    · cases hs
      exact hl
    · obtain ⟨⟨sz1, s₁⟩, hu, hs⟩ := bind_ok hs
      have hl₁ := h.uvmalloc_linked hl (userPerm_flags2perm _) hu
      rcases h.uvmalloc (userPerm_flags2perm _) hu with ⟨rfl, -⟩ | ⟨h0, h₁⟩
      · simp only [if_true] at hs
        cases hs
        exact hl₁
      · simp only [h0, if_false] at hs
        obtain ⟨⟨r₁, s₂⟩, hg, hs⟩ := bind_ok hs
        have hl₂ := h₁.loadseg_linked hl₁ hg
        dsimp only at hs
        split_ifs at hs
        · cases hs
          exact hl₂
        · exact ih (h₁.loadseg hg) hl₂ hs

theorem Built.pushLoop_linked {stackbase sp : ℕ} {argv : List (List UInt8)} {ustack : List ℕ}
    {o : Option (ℕ × List ℕ)} (h : Built s₀ s r sz R K L) (hl : Linked s.mem r)
    (hp : Xv6.pushLoop r stackbase argv sp ustack s = .ok (o, s')) : Linked s'.mem r := by
  induction argv generalizing s sp ustack with
  | nil =>
    cases hp
    exact hl
  | cons arg argv ih =>
    unfold Xv6.pushLoop at hp
    dsimp only at hp
    split_ifs at hp
    · cases hp
      exact hl
    · cases hp
      exact hl
    · obtain ⟨⟨r₁, s₁⟩, hc, hp⟩ := bind_ok hp
      have hl₁ := h.copyout_linked hl hc
      dsimp only at hp
      split_ifs at hp
      · cases hp
        exact hl₁
      · exact ih (h.copyout hc) hl₁ hp

theorem Built.setupStack_linked {argv : List (List UInt8)} {o : Option ℕ} (h : Built s₀ s r sz R K L)
    (hl : Linked s.mem r) (hs : Xv6.setupStack r sz argv s = .ok (o, newsz, s')) : Linked s'.mem r := by
  have h := h.roundup
  unfold Xv6.setupStack at hs
  dsimp only at hs
  obtain ⟨⟨sz1, s₁⟩, hu, hs⟩ := bind_ok hs
  have hl₁ := h.uvmalloc_linked hl (by decide) hu
  rcases h.uvmalloc (by decide) hu with ⟨rfl, -⟩ | ⟨h0, h₁⟩
  · simp only [if_true] at hs
    cases hs
    exact hl₁
  · simp only [h0, if_false] at hs
    obtain ⟨s₂, hc, hs⟩ := bind_ok hs
    have hl₂ := uvmclear_linked hl₁ h₁.heap.space.tree h₁.heap.space.owns hc
    obtain ⟨⟨o₁, s₃⟩, hp, hs⟩ := bind_ok hs
    have h₂ := h₁.uvmclear hc
    have hl₃ := h₂.pushLoop_linked hl₂ hp
    have h₃ := h₂.pushLoop hp
    cases o₁ with
    | none =>
      cases hs
      exact hl₃
    | some x =>
      dsimp only at hs
      split_ifs at hs
      · cases hs
        exact hl₃
      · obtain ⟨⟨r₁, s₄⟩, hc', hs⟩ := bind_ok hs
        have hl₄ := h₃.copyout_linked hl₃ hc'
        dsimp only at hs
        split_ifs at hs
        all_goals
          cases hs
          exact hl₄

omit [Image] in
theorem uvmcreate_linked (hu : uvmcreate s = (some r, s')) : Linked s'.mem r := by
  unfold uvmcreate at hu
  cases hk : kalloc s with
  | mk o s₁ =>
    rw [hk] at hu
    cases o with
    | none => cases hu
    | some p =>
      cases hu
      exact Radix.inner_of_no_child fun i hi => by
        rw [show entry (s₁.memset r PGSIZE 0).mem r i = 0#64 from entry_fill_zero hi, link_zero]

theorem Heap.proc_pagetable_linked {trapframe pt : ℕ} (h : Heap s R K L)
    (hp : Xv6.proc_pagetable trapframe s = .ok (pt, s')) (h0 : pt ≠ 0) : Linked s'.mem pt := by
  unfold Xv6.proc_pagetable at hp
  cases hc : Xv6.uvmcreate s with
  | mk o s₁ =>
    rw [hc] at hp
    cases o with
    | none =>
      cases hp
      exact absurd rfl h0
    | some r =>
      have hl₁ := uvmcreate_linked hc
      rcases h.uvmcreate hc with ⟨hn, -⟩ | ⟨r', hr, -, h₁, -⟩
      · cases hn
      cases hr
      dsimp only at hp
      obtain ⟨⟨r₁, s₂⟩, hm₁, hp⟩ := bind_ok hp
      have hl₂ := mappages_linked hl₁ h₁.space.tree h₁.space.owns (by decide) (by decide) hm₁
      obtain ⟨h₂, -⟩ := h₁.mapTop (by decide) (by decide) (by decide) (by decide) (by decide) hm₁
      dsimp only at hp
      split_ifs at hp
      · obtain ⟨s₃, -, hp⟩ := bind_ok hp
        cases hp
        exact absurd rfl h0
      · obtain ⟨⟨r₂, s₃⟩, hm₂, hp⟩ := bind_ok hp
        have hl₃ := mappages_linked hl₂ h₂.space.tree h₂.space.owns (by decide) (by decide) hm₂
        dsimp only at hp
        split_ifs at hp
        · obtain ⟨s₄, -, hp⟩ := bind_ok hp
          obtain ⟨s₅, -, hp⟩ := bind_ok hp
          cases hp
          exact absurd rfl h0
        · cases hp
          exact hl₃

theorem Heap.buildImage_linked {trapframe pt : ℕ} {ip : Inode} {argv : List (List UInt8)} {o : Option ℕ}
    (h : Heap s R K L) (hb : Xv6.buildImage trapframe ip argv s = .ok (o, pt, sz, s')) (h0 : pt ≠ 0) :
    Linked s'.mem pt := by
  unfold Xv6.buildImage at hb
  dsimp only at hb
  split_ifs at hb
  · cases hb
    exact absurd rfl h0
  · obtain ⟨⟨pt₁, s₁⟩, hp, hb⟩ := bind_ok hb
    obtain ⟨-, ⟨rfl, -⟩ | ⟨h1, -⟩⟩ := h.proc_pagetable hp
    · simp only [if_true] at hb
      cases hb
      exact absurd rfl h0
    · simp only [h1, if_false] at hb
      have hl₁ := h.proc_pagetable_linked hp h1
      have hB := h.emptyImage hp h1
      obtain ⟨⟨ok, sz₁, s₂⟩, hs, hb⟩ := bind_ok hb
      have hl₂ := hB.loadLoop_linked hl₁ hs
      dsimp only at hb
      split_ifs at hb
      · cases hb
        exact hl₂
      · obtain ⟨⟨o₁, sz₂, s₃⟩, hs', hb⟩ := bind_ok hb
        cases hb
        exact (hB.loadLoop hs).setupStack_linked hl₂ hs'

end

/-! ## `freewalk` returns -/

/-- `free` gives back a tree of height `l` that maps no page. -/
def FreesEmpty (free : ℕ → Phys → Except Panic Phys) (l : ℕ) : Prop :=
  ∀ q s K F, Owns s (tablesAt s.mem l q + K) F → (∀ v, (leafAt s.mem l q v).has PTE_V = false) →
    LinkedAt s.mem l q → ∃ s', free q s = .ok s'

omit [Image] in
theorem freewalkLoop_empty {free : ℕ → Phys → Except Panic Phys} (hn : n ≤ 512)
    (hV : ∀ i < 512, (entry s.mem q i).has PTE_V = false) : freewalkLoop free q n s = .ok s := by
  induction n with
  | zero => rfl
  | succ n ih =>
    have he : (readPte s.mem (q + 8 * (511 - n))).has PTE_V = false := hV (511 - n) (by omega)
    unfold freewalkLoop
    simp only [he, Bool.false_and, Bool.false_eq_true, if_false]
    exact ih (by omega)

theorem freewalkLoop_total {free : ℕ → Phys → Except Panic Phys} (hfree : FreesTree free l)
    (htotal : FreesEmpty free l) (hn : n ≤ 512)
    (hO : Owns s (q ::ₘ Radix.rest link 512 (entry s.mem) l q n + K) F)
    (hc : ∀ i < 512, 512 - n ≤ i → ∀ c, link (entry s.mem q i) = some c →
      (∀ v, (leafAt s.mem l c v).has PTE_V = false) ∧ IsLink (entry s.mem q i) ∧ LinkedAt s.mem l c) :
    ∃ s', freewalkLoop free q n s = .ok s' := by
  induction n generalizing s with
  | zero => exact ⟨s, rfl⟩
  | succ n ih =>
    have hlt : 511 - n < 512 := by omega
    have he : readPte s.mem (q + 8 * (511 - n)) = entry s.mem q (511 - n) := rfl
    rw [Radix.rest_succ] at hO
    unfold freewalkLoop
    simp only [he]
    by_cases hV : (entry s.mem q (511 - n)).has PTE_V = true
    · have hlink := link_of_has hV
      obtain ⟨hleaf, hP, hl⟩ := hc _ hlt (by omega) _ hlink
      have hO₁ : Owns s (tablesAt s.mem l (PTE2PA (entry s.mem q (511 - n))) +
          (q ::ₘ Radix.rest link 512 (entry s.mem) l q n + K)) F := by
        rw [Radix.sub_some hlink] at hO
        rwa [Multiset.cons_add, Multiset.add_cons, ← add_assoc, ← Multiset.cons_add]
      obtain ⟨s₁, hf⟩ := htotal _ _ _ _ hO₁ hleaf hl
      have hR : ∀ v, Readable (leafAt s.mem l (PTE2PA (entry s.mem q (511 - n))) v) := fun v hv => by
        rw [hleaf v] at hv
        cases hv
      obtain ⟨hO₂, hk, -⟩ := hfree _ _ _ _ _ hf hO₁ hR
      have hU := hO₂.unlink (by omega) hk
      have hP' : (entry s.mem q (511 - n) &&& (PTE_R ||| PTE_W ||| PTE_X) == 0#64) = true :=
        beq_iff_eq.mpr hP
      simp only [hV, hP', Bool.and_self, if_true, hf]
      refine ih (by omega) hU.owns fun i hi hle c hc' => ?_
      obtain ⟨hc'', ht⟩ := hU.child i hi hle c hc'
      obtain ⟨hleaf', hP'', hl'⟩ := hc i hi (by omega) c hc''
      rw [hU.row i hi hle]
      exact ⟨fun v => by rw [leafAt_congr ht]; exact hleaf' v, hP'', linkedAt_congr hl' ht⟩
    · have hV' : (entry s.mem q (511 - n)).has PTE_V = false := by simpa using hV
      rw [Radix.sub_none (link_of_not hV'), zero_add] at hO
      simp only [hV', Bool.false_and, Bool.false_eq_true, if_false]
      exact ih (by omega) hO fun i hi hle => hc i hi (by omega)

theorem freewalk_frees_empty (l : ℕ) : FreesEmpty (freewalk (l + 1)) l := by
  induction l with
  | zero =>
    intro q s K F hO hV hl
    have hleaf : ∀ i < 512, (entry s.mem q i).has PTE_V = false := by
      intro i hi
      have := hV i
      rwa [leafAt, Radix.lookup_of_slot (show slotAt s.mem 0 q i = some q from rfl),
        show Radix.index 512 0 i = i by simp [Radix.index, Nat.mod_eq_of_lt hi]] at this
    unfold freewalk
    simp only [freewalkLoop_empty le_rfl hleaf]
    rw [tablesAt, Radix.nodes_zero, Multiset.singleton_add] at hO
    exact hO.kfree_own_total
  | succ l ih =>
    intro q s K F hO hV hl
    have hchild : ∀ i < 512, ∀ c, link (entry s.mem q i) = some c →
        ∀ v, (leafAt s.mem l c v).has PTE_V = false := by
      intro i hi c hc v
      obtain ⟨w, hw⟩ := Radix.lookup_child (z := 0#64) (by decide) hi hc v
      have := hV w
      rwa [leafAt, hw] at this
    have hchildR : ∀ i < 512, 512 - 512 ≤ i → ∀ c, link (entry s.mem q i) = some c →
        ∀ v, Readable (leafAt s.mem l c v) := fun i hi _ c hc v hv => by
      rw [hchild i hi c hc v] at hv
      cases hv
    rw [tablesAt, Radix.nodes_rest] at hO
    obtain ⟨t, ht⟩ := freewalkLoop_total (freewalk_frees l) ih le_rfl hO fun i hi _ c hc =>
      ⟨hchild i hi c hc, hl i hi c hc⟩
    obtain ⟨hO₁, -⟩ := freewalkLoop_links (freewalk_frees l) le_rfl hO hchildR ht
    unfold freewalk
    simp only [ht]
    exact hO₁.kfree_own_total

theorem freewalk_total (hl : Linked s.mem r) (hT : Tree s.mem r T lf) (hO : Owns s (T + K) F)
    (hV : ∀ v < VPAGES, (lf v).has PTE_V = false) : ∃ s', freewalk 3 r s = .ok s' := by
  have hO' : Owns s (tablesAt s.mem 2 r + K) F := by
    rw [show tablesAt s.mem 2 r = T from hT.tables]
    exact hO
  refine freewalk_frees_empty 2 r s K F hO' (fun v => ?_) hl
  have hmod : leafAt s.mem 2 r v = lf (v % VPAGES) := by
    rw [← hT.leaf _ (Nat.mod_lt _ (by decide))]
    exact Radix.lookup_mod_congr (Nat.mod_mod v VPAGES).symm
  rw [hmod]
  exact hV _ (Nat.mod_lt _ (by decide))

/-- Unmapping pages that are there. -/
theorem unmapLoop_keep_total (hT : Tree s.mem r T lf) (hO : Owns s (T + K) F) (ha : a % 4096 = 0)
    (hlt : a + n * 4096 ≤ MAXVA)
    (hleaf : ∀ v, a / 4096 ≤ v → v < a / 4096 + n → IsLeaf (lf v)) :
    ∃ s', unmapLoop r false n a s = .ok s' := by
  induction n generalizing s a lf with
  | zero => exact ⟨s, rfl⟩
  | succ n ih =>
    have hva : a < MAXVA := by omega
    obtain ⟨hV, hfl⟩ := hleaf (a / 4096) le_rfl (by omega)
    obtain ⟨b, hw, hb⟩ := walk_false_total hT hva hV
    obtain ⟨hT₂, hO₂, -⟩ := EntryAt.set hT hO hb (pageNumber_lt hva) 0#64
    obtain ⟨ha', hdiv⟩ := next_page ha
    have hlt' : a + 4096 + n * 4096 ≤ MAXVA := by omega
    obtain ⟨t, ht⟩ := ih hT₂ hO₂ ha' hlt' fun v h1 h2 => by
      rw [Function.update_of_ne (by omega)]
      exact hleaf v (by omega) (by omega)
    refine ⟨t, ?_⟩
    unfold unmapLoop
    rw [hw]
    simp only [hb.read hT (pageNumber_lt hva), hV, hfl, Bool.true_eq_false, Bool.false_eq_true, if_false]
    exact ht

theorem Heap.unmapTop_total {R L : Multiset ℕ} (va : ℕ) (h : Heap s (r ::ₘ R) K L) (hl : Linked s.mem r)
    (ha : va % 4096 = 0) (hva : UPAGES ≤ va / 4096) (hlt : va < MAXVA)
    (hV : (leaf s.mem r (va / 4096)).has PTE_V = true) : ∃ s', Xv6.uvmunmap r va 1 false s = .ok s' ∧
      Heap s' (r ::ₘ R) K L ∧ Linked s'.mem r ∧
      ∀ v < VPAGES, leaf s'.mem r v = Function.update (leaf s.mem r) (va / 4096) 0#64 v := by
  have hlt' : va < 274877906944 := hlt
  have hR := h.space.user.readable _ (pageNumber_lt hlt) hV
  have hle : va + 1 * 4096 ≤ MAXVA := by
    show va + 1 * 4096 ≤ 274877906944
    omega
  obtain ⟨s', hu⟩ := unmapLoop_keep_total h.space.tree h.space.owns ha hle fun v h1 h2 => by
    rw [show v = va / 4096 by omega]
    exact isLeaf_of_readable hV hR
  have hu' : Xv6.uvmunmap r va 1 false s = .ok s' := by
    rw [uvmunmap_pages ha (by omega)]
    exact hu
  obtain ⟨h', -, hleaf⟩ := h.unmapTop hva hlt hu'
  exact ⟨s', hu', h', unmapLoop_keep_linked hl h.space.tree h.space.owns ha hu, hleaf⟩

theorem Heap.uvmfree_total {sz : ℕ} {R L : Multiset ℕ} (h : Heap s (r ::ₘ R) K L) (hl : Linked s.mem r)
    (hsz : sz ≤ TRAPFRAME) (hV : ∀ v < VPAGES, (leaf s.mem r v).has PTE_V = true ↔ v < pages sz) :
    ∃ s', Xv6.uvmfree r sz s = .ok s' := by
  have hsz' : sz ≤ 274877898752 := hsz
  have hpU : pages sz ≤ 67108862 := pages_le hsz
  have hup : PGROUNDUP sz / PGSIZE = pages sz := by
    rw [PGROUNDUP_eq (by omega)]
    exact Nat.mul_div_cancel _ (by decide)
  have h0 : 0 / 4096 + pages sz ≤ UPAGES := by
    rw [Nat.zero_div, zero_add]
    exact hpU
  have hvlt : ∀ v < pages sz, v < VPAGES := fun v hv => lt_of_lt_of_le hv (hpU.trans (by decide))
  obtain ⟨t, ht⟩ : ∃ t, unmapLoop r true (pages sz) 0 s = .ok t := by
    refine unmapLoop_total h.space.tree h.space.owns rfl h0 fun v _ hv => ?_
    rw [Nat.zero_div, zero_add] at hv
    have hvV := (hV v (hvlt v hv)).mpr hv
    exact isLeaf_of_readable hvV (h.space.user.readable v (hvlt v hv) hvV)
  have hlt := unmapLoop_free_linked hl h.space.tree h.space.owns rfl h0 ht
  obtain ⟨-, hT, hO, -⟩ := unmapLoop_free_spec h.space.tree h.space.owns rfl h0 ht
  rw [Nat.zero_div] at hT hO
  obtain ⟨s', hs'⟩ := freewalk_total hlt hT hO fun v hv => by
    unfold clearPages
    split_ifs with hin
    · exact zero_has _
    · exact Bool.eq_false_iff.mpr fun hvV => hin ⟨Nat.zero_le v, by rw [zero_add]; exact (hV v hv).mp hvV⟩
  refine ⟨s', ?_⟩
  unfold Xv6.uvmfree
  split_ifs with hpos
  · rw [hup, uvmunmap_pages rfl (by omega), ht]
    exact hs'
  · rw [show pages sz = 0 by unfold pages; omega] at ht
    cases ht
    exact hs'

/-- The page table of a process with all its pages can be freed. -/
theorem Heap.proc_freepagetable_total {sz : ℕ} {R L : Multiset ℕ} (h : Heap s (r ::ₘ R) K L)
    (hl : Linked s.mem r) (hsh : Shape (leaf s.mem r) sz) (hfull : Full (leaf s.mem r) sz) :
    ∃ s', Xv6.proc_freepagetable r sz s = .ok s' := by
  have hpU : pages sz ≤ 67108862 := pages_le hsh.le
  obtain ⟨s₁, hu₁, h₁, hl₁, hf₁⟩ := h.unmapTop_total TRAMPOLINE hl (by decide) (by decide)
    (by decide) hsh.trampoline
  have hf₁ : ∀ v < VPAGES, leaf s₁.mem r v = Function.update (leaf s.mem r) (UPAGES + 1) 0#64 v := hf₁
  obtain ⟨s₂, hu₂, h₂, hl₂, hf₂⟩ := h₁.unmapTop_total TRAPFRAME hl₁ (by decide) (by decide)
    (by decide) (by
      show (leaf s₁.mem r UPAGES).has PTE_V = true
      rw [hf₁ _ (by decide), Function.update_of_ne (by decide)]
      exact hsh.frame)
  have hf₂ : ∀ v < VPAGES, leaf s₂.mem r v = Function.update (leaf s₁.mem r) UPAGES 0#64 v := hf₂
  -- only the pages below `sz` are left
  have hV : ∀ v < VPAGES, (leaf s₂.mem r v).has PTE_V = true ↔ v < pages sz := by
    intro v hv
    rw [hf₂ v hv, Function.update_apply]
    split_ifs with h1
    · rw [zero_has, h1]
      exact iff_of_false (by decide) (not_lt.mpr hpU)
    rw [hf₁ v hv, Function.update_apply]
    split_ifs with h2
    · rw [zero_has, h2]
      exact iff_of_false (by decide) (not_lt.mpr (hpU.trans (by decide)))
    refine ⟨fun hvV => ?_, hfull v⟩
    by_contra hge
    rcases lt_or_ge v UPAGES with hu | hu
    · exact hge (hsh.user v hu hvV)
    · rw [hsh.top v (by omega) hv] at hvV
      cases hvV
  obtain ⟨s₃, hu₃⟩ := h₂.uvmfree_total hl₂ hsh.le hV
  refine ⟨s₃, ?_⟩
  unfold Xv6.proc_freepagetable
  rw [hu₁, ok_bind, hu₂, ok_bind, hu₃]

/-- **An image that is given up** can be freed. -/
theorem Built.proc_freepagetable_total {s₀ : Phys} {sz : ℕ} {R L : Multiset ℕ}
    (h : Built s₀ s r sz R K L) (hl : Linked s.mem r) : ∃ s', Xv6.proc_freepagetable r sz s = .ok s' :=
  h.heap.proc_freepagetable_total hl h.shape h.full

end Xv6
