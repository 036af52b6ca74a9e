import Xv6.Mem.Share

/-!
# UserAccess — user stores, `copyout` and `copyin`

`UserOk lf F` is what the entries `lf` of a page table keep to, with `F` all references to user
pages: a page mapped without `PTE_COW` has a single mapper, and a writable page is not
copy-on-write.  Under it a write to user memory changes the bytes that it names and no others
(`poke_spec`, `copyout_spec`, `userStore_spec`).
-/

namespace Xv6

/-- What the entry `e` of page `v` keeps to. -/
structure EntryOk (F : Multiset ℕ) (v : ℕ) (e : Pte) : Prop where
  readable : Readable e
  top : UPAGES ≤ v → e.has PTE_U = false
  excl : v < UPAGES → e.has PTE_V = true → e.has PTE_COW = false → F.count (PTE2PA e) = 1
  plain : v < UPAGES → e.has PTE_V = true → e.has PTE_W = true → e.has PTE_COW = false

def UserOk (lf : ℕ → Pte) (F : Multiset ℕ) : Prop := ∀ v < VPAGES, EntryOk F v (lf v)

/-- The byte at the user address `va`. -/
def userByte (m : ByteStore) (lf : ℕ → Pte) (va : ℕ) : UInt8 :=
  m (PTE2PA (lf (va / 4096)) + va % 4096)

/-- Some copy-on-write pages have got their own copy. -/
def Uncowed (lf lf' : ℕ → Pte) : Prop := ∀ v, lf' v = lf v ∨
  ((lf v).has PTE_V = true ∧ (lf v).has PTE_U = true ∧ (lf v).has PTE_COW = true ∧
    ∃ p, lf' v = uncowed (lf v) p)

section

variable {lf lf' lf'' : ℕ → Pte} {F F' X : Multiset ℕ} {v w p : ℕ} {e : Pte} {m m' : ByteStore}

theorem EntryOk.zero : EntryOk F v 0#64 := by
  refine ⟨fun h => ?_, fun _ => zero_has _, fun _ h => ?_, fun _ h => ?_⟩ <;>
  · rw [zero_has] at h
    cases h

/-- An entry keeps to the rules as long as its page gets no further reference. -/
theorem EntryOk.mono (h : EntryOk F v e) (hF : v < UPAGES → e.has PTE_V = true →
    F.count (PTE2PA e) = 1 → F'.count (PTE2PA e) = 1) : EntryOk F' v e :=
  ⟨h.readable, h.top, fun hv hV hC => hF hv hV (h.excl hv hV hC), h.plain⟩

/-- A copy-on-write entry may be shared. -/
theorem EntryOk.cow (hR : Readable e) (hU : UPAGES ≤ v → e.has PTE_U = false)
    (hC : e.has PTE_COW = true) (hW : e.has PTE_W = false) : EntryOk F v e := by
  refine ⟨hR, hU, fun _ _ h => ?_, fun _ _ h => ?_⟩
  · rw [hC] at h
    cases h
  · rw [hW] at h
    cases h

/-- An entry without `PTE_COW` for a page with a single reference. -/
theorem EntryOk.own (hR : Readable e) (hU : UPAGES ≤ v → e.has PTE_U = false)
    (hC : e.has PTE_COW = false) (hF : v < UPAGES → F.count (PTE2PA e) = 1) : EntryOk F v e :=
  ⟨hR, hU, fun hv _ _ => hF hv, fun _ _ _ => hC⟩

theorem UserOk.readable (h : UserOk lf F) : ∀ v < VPAGES, Readable (lf v) :=
  fun v hv => (h v hv).readable

theorem UserOk.top (h : UserOk lf F) : TopClosed lf := fun v hv hV => (h v hV).top hv

theorem UserOk.excl (h : UserOk lf F) (hv : v < UPAGES) (hV : (lf v).has PTE_V = true)
    (hC : (lf v).has PTE_COW = false) : F.count (PTE2PA (lf v)) = 1 :=
  (h v (lt_trans hv (by decide))).excl hv hV hC

theorem UserOk.plain (h : UserOk lf F) (hv : v < UPAGES) (hV : (lf v).has PTE_V = true)
    (hW : (lf v).has PTE_W = true) : (lf v).has PTE_COW = false :=
  (h v (lt_trans hv (by decide))).plain hv hV hW

theorem Uncowed.refl (lf : ℕ → Pte) : Uncowed lf lf := fun _ => Or.inl rfl

theorem Uncowed.has (h : Uncowed lf lf') {f : Pte} (hf : Low f) (hC : f &&& ~~~PTE_COW = f)
    (hW : PTE_W &&& f = 0#64) : (lf' v).has f = (lf v).has f := by
  rcases h v with he | ⟨-, -, -, p, he⟩
  · rw [he]
  · rw [he, uncowed_has hf hC hW]

theorem Uncowed.V (h : Uncowed lf lf') (v : ℕ) : (lf' v).has PTE_V = (lf v).has PTE_V :=
  h.has (by decide) (by decide) (by decide)

theorem Uncowed.not_cow (h : Uncowed lf lf') (hC : (lf v).has PTE_COW = false) :
    (lf' v).has PTE_COW = false := by
  rcases h v with he | ⟨-, -, hC', -⟩
  · rw [he]
    exact hC
  · rw [hC] at hC'
    cases hC'

theorem Uncowed.trans (h : Uncowed lf lf') (h' : Uncowed lf' lf'') : Uncowed lf lf'' := by
  intro v
  rcases h' v with he | ⟨h1, h2, h3, p, he⟩
  · rw [he]
    exact h v
  · rcases h v with he' | ⟨-, -, -, q, he'⟩
    · rw [he'] at h1 h2 h3 he
      exact Or.inr ⟨h1, h2, h3, p, he⟩
    · rw [he', uncowed_COW] at h3
      cases h3

/-- The single mapper of a page has no other entry for it. -/
theorem UserOk.ne (h : UserOk lf (leafRefs UPAGES lf + X)) (hv : v < UPAGES)
    (hV : (lf v).has PTE_V = true) (hC : (lf v).has PTE_COW = false) (hw : w < UPAGES)
    (hwV : (lf w).has PTE_V = true) (hne : w ≠ v) : PTE2PA (lf w) ≠ PTE2PA (lf v) := by
  intro he
  have hcount := h.excl hv hV hC
  have h2 : 2 ≤ (leafRefs UPAGES lf + X).count (PTE2PA (lf v)) := by
    have hrest : PTE2PA (lf v) ∈ leafOthers UPAGES lf v :=
      mem_leafOthers.mpr ⟨w, hw, hne, hwV, he⟩
    rw [leafRefs_split hv, pageOf_of_has hV, Multiset.count_add, Multiset.singleton_add,
      Multiset.count_cons_self]
    have := Multiset.count_pos.mpr hrest
    omega
  omega

theorem UserOk.not_mem (h : UserOk lf (leafRefs UPAGES lf + X)) (hv : v < UPAGES)
    (hV : (lf v).has PTE_V = true) (hC : (lf v).has PTE_COW = false) : PTE2PA (lf v) ∉ X := by
  intro hX
  have hcount := h.excl hv hV hC
  rw [leafRefs_split hv, pageOf_of_has hV, Multiset.count_add, Multiset.singleton_add,
    Multiset.count_cons_self] at hcount
  have := Multiset.count_pos.mpr hX
  omega

theorem userByte_congr {va : ℕ} (h : PageEq m m' (PTE2PA (lf (va / 4096)))) :
    userByte m' lf va = userByte m lf va := h _ (Nat.mod_lt _ (by decide))

end

variable [Image] {s s' : Phys} {r va n p : ℕ} {T K X : Multiset ℕ} {lf : ℕ → Pte}
  {src : ℕ → UInt8}

/-- The page table at `r` in a memory that accounts for it; `K` are other owned pages and `X` the
references that other page tables make. -/
structure Space (s : Phys) (r : ℕ) (T : Multiset ℕ) (lf : ℕ → Pte) (K X : Multiset ℕ) : Prop where
  tree : Tree s.mem r T lf
  owns : Owns s (T + K) (leafRefs UPAGES lf + X)
  user : UserOk lf (leafRefs UPAGES lf + X)

/-- Two memories that differ in one user page of `lf` at most. -/
structure Poked (s s' : Phys) (lf lf' : ℕ → Pte) (K X : Multiset ℕ) : Prop where
  keeps : Keeps s.mem s'.mem (K + X)
  uncowed : Uncowed lf lf'
  own : ∀ q ∈ X, q ∉ leafRefs UPAGES lf → q ∉ leafRefs UPAGES lf'

omit [Image] in
theorem Poked.refl (s : Phys) (lf : ℕ → Pte) (K X : Multiset ℕ) : Poked s s lf lf K X :=
  ⟨Keeps.refl _ _, Uncowed.refl _, fun _ _ h => h⟩

omit [Image] in
theorem Poked.trans {s'' : Phys} {lf' lf'' : ℕ → Pte} (h : Poked s s' lf lf' K X)
    (h' : Poked s' s'' lf' lf'' K X) : Poked s s'' lf lf'' K X :=
  ⟨h.keeps.trans h'.keeps, h.uncowed.trans h'.uncowed,
    fun q hq hm => h'.own q hq (h.own q hq hm)⟩

/-- A write into a page that this page table alone maps. -/
theorem poke_spec {v off : ℕ} (h : Space s r T lf K X) (hv : v < UPAGES)
    (hV : (lf v).has PTE_V = true) (hC : (lf v).has PTE_COW = false) (hn : off + n ≤ 4096)
    (src : ℕ → UInt8) :
    Space (s.memmove (PTE2PA (lf v) + off) n src) r T lf K X ∧
      Keeps s.mem (s.memmove (PTE2PA (lf v) + off) n src).mem (K + X) ∧
      ∀ va, va / 4096 < UPAGES → (lf (va / 4096)).has PTE_V = true →
        userByte (s.memmove (PTE2PA (lf v) + off) n src).mem lf va =
          if v * 4096 + off ≤ va ∧ va < v * 4096 + off + n then src (va - (v * 4096 + off))
          else userByte s.mem lf va := by
  have hpage : ∀ w < UPAGES, (lf w).has PTE_V = true → okPage (PTE2PA (lf w)) := by
    intro w hw hwV
    exact h.owns.ok_right (Multiset.mem_add.mpr (Or.inl (mem_leafRefs.mpr ⟨w, hw, hwV, rfl⟩)))
  have hok := hpage v hv hV
  -- pages other than the one written to are as before
  have hother : ∀ q, okPage q → q ≠ PTE2PA (lf v) →
      PageEq s.mem (s.memmove (PTE2PA (lf v) + off) n src).mem q := by
    intro q hq hne
    exact pageEq_blit hok.1 hq.1 hne hn
  have hpR : PTE2PA (lf v) ∈ leafRefs UPAGES lf + X :=
    Multiset.mem_add.mpr (Or.inl (mem_leafRefs.mpr ⟨v, hv, hV, rfl⟩))
  have hTK : Keeps s.mem (s.memmove (PTE2PA (lf v) + off) n src).mem (T + K) := by
    intro q hq
    exact hother q (h.owns.ok_left hq) fun he => h.owns.ne hq hpR he.symm
  refine ⟨⟨h.tree.congr hTK.left, h.owns.memmove _ _ _, h.user⟩, hTK.right.add ?_, ?_⟩
  · intro q hq
    refine hother q (h.owns.ok_right (Multiset.mem_add.mpr (Or.inr hq))) ?_
    rintro rfl
    exact h.user.not_mem hv hV hC hq
  · intro va hva hvaV
    have hmod : va % 4096 < 4096 := Nat.mod_lt _ (by decide)
    by_cases hvv : va / 4096 = v
    · subst hvv
      split_ifs with hin
      · have hoff : va - (va / 4096 * 4096 + off) = va % 4096 - off := by omega
        rw [hoff]
        have hin' : userByte (s.memmove (PTE2PA (lf (va / 4096)) + off) n src).mem lf va =
            src (PTE2PA (lf (va / 4096)) + va % 4096 - (PTE2PA (lf (va / 4096)) + off)) :=
          ByteStore.blit_in (by omega) (by omega)
        rw [hin', Nat.add_sub_add_left]
      · exact ByteStore.blit_out (by omega)
    · rw [if_neg (by omega)]
      exact userByte_congr (hother _ (hpage _ hva hvaV) (h.user.ne hv hV hC hva hvaV hvv))

/-! ## Copy-on-write faults -/

theorem EntryOk.uncowed {F : Multiset ℕ} {v : ℕ} {e : Pte} (h : EntryOk F v e) (hp : okPage p)
    (hv : v < UPAGES) (hV : e.has PTE_V = true) {F' : Multiset ℕ} (hF : F'.count p = 1) :
    EntryOk F' v (uncowed e p) := by
  refine EntryOk.own (fun _ => ?_) (fun hle => absurd hv (not_lt.mpr hle)) uncowed_COW fun _ => ?_
  · rw [uncowed_has (by decide) (by decide) (by decide)]
    exact h.readable hV
  · rw [PTE2PA_uncowed hp]
    exact hF

/-- In `t`, which has come from `s`, page `v` is ready for a write: it is not copy-on-write, or it has
got its own copy.  No byte that user code can see has changed. -/
structure Ready (s t : Phys) (r : ℕ) (T : Multiset ℕ) (lf lf' : ℕ → Pte) (K X : Multiset ℕ) (v : ℕ) :
    Prop where
  space : Space t r T lf' K X
  poked : Poked s t lf lf' K X
  outside : Outside s.mem t.mem
  own : (lf' v).has PTE_COW = false
  other : ∀ w, w ≠ v → lf' w = lf w
  byte : ∀ a, a / 4096 < UPAGES → (lf (a / 4096)).has PTE_V = true →
    userByte t.mem lf' a = userByte s.mem lf a
  kept : (lf v).has PTE_COW = false → t = s ∧ lf' = lf
  copied : (lf v).has PTE_COW = true →
    ∃ p, p ∉ leafRefs UPAGES lf + X ∧ leafRefs UPAGES lf' = p ::ₘ leafOthers UPAGES lf v

/-- A page that is not copy-on-write is ready. -/
theorem Ready.refl {v : ℕ} (h : Space s r T lf K X) (hC : (lf v).has PTE_COW = false) :
    Ready s s r T lf lf K X v := by
  refine ⟨h, Poked.refl _ _ _ _, fun q _ _ => PageEq.refl _ q, hC, fun _ _ => rfl, fun _ _ _ => rfl,
    fun _ => ⟨rfl, rfl⟩, fun h' => ?_⟩
  rw [hC] at h'
  cases h'

/-- A copy-on-write fault changes no byte that user code can see. -/
theorem cow_space {res : ℤ} (h : Space s r T lf K X) (hf : cow_page_fault r va s = .ok (res, s')) :
    (res = -1 ∧ s' = s) ∨ (res = 0 ∧ va / 4096 < UPAGES ∧ (lf (va / 4096)).has PTE_V = true ∧
      (lf (va / 4096)).has PTE_COW = true ∧ ∃ lf', Ready s s' r T lf lf' K X (va / 4096)) := by
  have hout := cow_page_fault_outside h.tree h.owns hf
  rcases cow_page_fault_spec h.tree h.owns h.user.top hf with h0 | ⟨hres, hv, hU, hV, hC, p, lf', rfl,
    hok, hp, hT', hO', hrefs, hkeep, hcopy⟩
  · exact Or.inl h0
  · generalize va / 4096 = v at *
    refine Or.inr ⟨hres, hv, hV, hC, Function.update lf v (uncowed (lf v) p), ⟨hT', hO', ?_⟩,
      ⟨fun q hq => hkeep q ?_, fun w => ?_, fun q hq hn hn' => ?_⟩, hout, ?_,
      fun w hw => Function.update_of_ne hw _ _, fun a ha haV => ?_, fun hC' => ?_,
      fun _ => ⟨p, hp, hrefs⟩⟩
    · -- the page table's rules: only the page that was copied has lost a reference
      intro w hw
      have hpX : p ∉ leafOthers UPAGES lf v + X := by
        intro hm
        refine hp (Multiset.mem_of_le (add_le_add_left ?_ X) hm)
        rw [leafRefs_split hv]
        exact Multiset.le_add_left _ _
      rw [hrefs, Multiset.cons_add]
      by_cases hwv : w = v
      · subst hwv
        rw [Function.update_self]
        refine (h.user w hw).uncowed hok hv hV ?_
        rw [Multiset.count_cons_self, Multiset.count_eq_zero.mpr hpX]
      · rw [Function.update_of_ne hwv]
        refine (h.user w hw).mono fun hwU hwV hone => ?_
        have hmem : PTE2PA (lf w) ∈ leafOthers UPAGES lf v + X :=
          Multiset.mem_add.mpr (Or.inl (mem_leafOthers.mpr ⟨w, hwU, hwv, hwV, rfl⟩))
        have hne : PTE2PA (lf w) ≠ p := fun he => hpX (he ▸ hmem)
        have hpos := Multiset.count_pos.mpr hmem
        rw [leafRefs_split hv, add_assoc, Multiset.count_add] at hone
        rw [Multiset.count_cons_of_ne hne]
        omega
    · rcases Multiset.mem_add.mp hq with hq | hq
      · exact Multiset.mem_add.mpr (Or.inl hq)
      · exact Multiset.mem_add.mpr (Or.inr (Multiset.mem_add.mpr (Or.inr hq)))
    · by_cases hwv : w = v
      · subst hwv
        rw [Function.update_self]
        exact Or.inr ⟨hV, hU, hC, p, rfl⟩
      · exact Or.inl (Function.update_of_ne hwv _ _)
    · rw [hrefs] at hn'
      rcases Multiset.mem_cons.mp hn' with rfl | hn'
      · exact hp (Multiset.mem_add.mpr (Or.inr hq))
      · refine hn (Multiset.mem_of_le ?_ hn')
        rw [leafRefs_split hv]
        exact Multiset.le_add_left _ _
    · rw [Function.update_self, uncowed_COW]
    · by_cases hav : a / 4096 = v
      · subst hav
        unfold userByte
        rw [Function.update_self, PTE2PA_uncowed hok]
        exact hcopy _ (Nat.mod_lt _ (by decide))
      · unfold userByte
        rw [Function.update_of_ne hav]
        refine hkeep _ (Multiset.mem_add.mpr (Or.inr (Multiset.mem_add.mpr (Or.inl ?_)))) _
          (Nat.mod_lt _ (by decide))
        exact mem_leafOthers.mpr ⟨_, ha, hav, haV, rfl⟩
    · rw [hC] at hC'
      cases hC'

/-! ## `walkaddr` -/

omit [Image] in
theorem walkLoop_entry (hT : Tree s.mem r T lf) (hva : va < MAXVA) :
    ((walkLoop va false 2 r s).1 = none ∧ lf (va / 4096) = 0#64) ∨
      ∃ a, (walkLoop va false 2 r s).1 = some a ∧ readPte s.mem a = lf (va / 4096) := by
  cases hw : walkLoop va false 2 r s with
  | mk o t =>
    have h : walk r va false s = .ok (o, t) := by
      unfold walk
      rw [if_neg (not_le.mpr hva), hw]
    obtain ⟨-, -, h0 | ⟨a, rfl, ha⟩⟩ := walk_false_spec hT h
    · exact Or.inl h0
    · exact Or.inr ⟨a, rfl, ha.read hT (pageNumber_lt hva)⟩

omit [Image] in
theorem walkaddr_spec (hT : Tree s.mem r T lf) (h : walkaddr r va s ≠ 0) : va < MAXVA ∧
    (lf (va / 4096)).has PTE_V = true ∧ (lf (va / 4096)).has PTE_U = true ∧
    walkaddr r va s = PTE2PA (lf (va / 4096)) := by
  unfold walkaddr at h ⊢
  split_ifs at h ⊢ with hva
  · exact absurd rfl h
  · have hva : va < MAXVA := not_le.mp hva
    rcases walkLoop_entry hT hva with ⟨h1, -⟩ | ⟨a, h1, hread⟩
    · rw [h1] at h
      exact absurd rfl h
    · rw [h1] at h ⊢
      simp only [hread] at h ⊢
      split_ifs at h ⊢ with hV hU
      · exact absurd rfl h
      · exact absurd rfl h
      · simp only [Bool.not_eq_false] at hV hU
        exact ⟨hva, hV, hU, rfl⟩

omit [Image] in
/-- `walkaddr` on a mapped user page. -/
theorem walkaddr_eq (hT : Tree s.mem r T lf) (hva : va < MAXVA) (hV : (lf (va / 4096)).has PTE_V = true)
    (hU : (lf (va / 4096)).has PTE_U = true) : walkaddr r va s = PTE2PA (lf (va / 4096)) := by
  unfold walkaddr
  rw [if_neg (not_le.mpr hva)]
  rcases walkLoop_entry hT hva with ⟨-, h0⟩ | ⟨a, h1, hread⟩
  · rw [h0, zero_has] at hV
    cases hV
  · rw [h1]
    simp only [hread, hV, hU, Bool.true_eq_false, if_false]

omit [Image] in
theorem pteOf_spec (hT : Tree s.mem r T lf) (hva : va < MAXVA) : pteOf r va s = lf (va / 4096) := by
  unfold pteOf
  rcases walkLoop_entry hT hva with ⟨h1, h0⟩ | ⟨a, h1, hread⟩
  · rw [h1, h0]
  · rw [h1]
    exact hread

/-! ## `copyout` and `userStore` -/

/-- The outcome of a write of `n` bytes to user memory at `dstva`. -/
structure Wrote (s s' : Phys) (r : ℕ) (T : Multiset ℕ) (lf lf' : ℕ → Pte) (K X : Multiset ℕ)
    (dstva n : ℕ) (src : ℕ → UInt8) : Prop where
  space : Space s' r T lf' K X
  poked : Poked s s' lf lf' K X
  user : ∀ a, dstva ≤ a → a < dstva + n → a / 4096 < UPAGES ∧ (lf (a / 4096)).has PTE_V = true ∧
    (lf (a / 4096)).has PTE_U = true
  byte : ∀ a, a / 4096 < UPAGES → (lf (a / 4096)).has PTE_V = true → userByte s'.mem lf' a =
    if dstva ≤ a ∧ a < dstva + n then src (a - dstva) else userByte s.mem lf a
  only : ∀ v, lf' v = lf v ∨ ∃ a, dstva ≤ a ∧ a < dstva + n ∧ a / 4096 = v
  outside : Outside s.mem s'.mem
  own : ∀ a, dstva ≤ a → a < dstva + n → (lf' (a / 4096)).has PTE_COW = false

theorem Wrote.refl (h : Space s r T lf K X) (dstva : ℕ) (src : ℕ → UInt8) :
    Wrote s s r T lf lf K X dstva 0 src :=
  ⟨h, Poked.refl _ _ _ _, fun a h1 h2 => absurd h2 (by omega),
    fun a _ _ => (if_neg (by omega)).symm, fun _ => Or.inl rfl, fun q _ _ => PageEq.refl _ q,
    fun a h1 h2 => absurd h2 (by omega)⟩

/-- Two writes in a row. -/
theorem Wrote.append {s'' : Phys} {lf' lf'' : ℕ → Pte} {dstva n n' : ℕ}
    (h : Wrote s s' r T lf lf' K X dstva n src)
    (h' : Wrote s' s'' r T lf' lf'' K X (dstva + n) n' (fun i => src (n + i))) :
    Wrote s s'' r T lf lf'' K X dstva (n + n') src := by
  refine ⟨h'.space, h.poked.trans h'.poked, fun a h1 h2 => ?_, fun a ha haV => ?_, fun v => ?_,
    h.outside.trans h'.outside, fun a h1 h2 => ?_⟩
  · by_cases hlt : a < dstva + n
    · exact h.user a h1 hlt
    · obtain ⟨h3, h4, h5⟩ := h'.user a (by omega) (by omega)
      rw [h.poked.uncowed.V] at h4
      rw [h.poked.uncowed.has (by decide) (by decide) (by decide)] at h5
      exact ⟨h3, h4, h5⟩
  · rw [h'.byte a ha ((h.poked.uncowed.V _).trans haV), h.byte a ha haV]
    by_cases h1 : dstva + n ≤ a ∧ a < dstva + n + n'
    · rw [if_pos h1, if_pos (by omega)]
      congr 1
      omega
    · rw [if_neg h1]
      exact if_congr (by omega) rfl rfl
  · rcases h'.only v with he | ⟨a, h1, h2, ha⟩
    · rcases h.only v with he' | ⟨a, h1, h2, ha⟩
      · exact Or.inl (he.trans he')
      · exact Or.inr ⟨a, h1, by omega, ha⟩
    · exact Or.inr ⟨a, by omega, by omega, ha⟩
  · by_cases hlt : a < dstva + n
    · exact h'.poked.uncowed.not_cow (h.own a h1 hlt)
    · exact h'.own a (by omega) (by omega)

/-- A write within a page that is ready. -/
theorem page_write {lf' : ℕ → Pte} {t : Phys} {off : ℕ} {v : ℕ} (h : Ready s t r T lf lf' K X v)
    (hv : v < UPAGES) (hV : (lf v).has PTE_V = true) (hU : (lf v).has PTE_U = true)
    (hn : off + n ≤ 4096) (h0 : 0 < n) :
    Wrote s (t.memmove (PTE2PA (lf' v) + off) n src) r T lf lf' K X (v * 4096 + off) n src := by
  have hV' : (lf' v).has PTE_V = true := (h.poked.uncowed.V v).trans hV
  obtain ⟨hS, hk, hb⟩ := poke_spec h.space hv hV' h.own hn src
  have hok : okPage (PTE2PA (lf' v)) := h.space.owns.ok_right
    (Multiset.mem_add.mpr (Or.inl (mem_leafRefs.mpr ⟨v, hv, hV', rfl⟩)))
  refine ⟨hS, h.poked.trans ⟨hk, Uncowed.refl _, fun _ _ hq => hq⟩, fun a h1 h2 => ?_,
    fun a ha haV => ?_, fun w => ?_, h.outside.trans (outside_blit hok hn src), fun a h1 h2 => ?_⟩
  · have hav : a / 4096 = v := by omega
    rw [hav]
    exact ⟨hv, hV, hU⟩
  · rw [hb a ha ((h.poked.uncowed.V _).trans haV), h.byte a ha haV]
  · by_cases hw : w = v
    · exact Or.inr ⟨v * 4096 + off, le_rfl, by omega, by omega⟩
    · exact Or.inl (h.other w hw)
  · rw [show a / 4096 = v by omega]
    exact h.own

/-- The user address `va` is below `MAXVA` and its page is mapped for user code. -/
def UserPage (lf : ℕ → Pte) (va : ℕ) : Prop :=
  va < MAXVA ∧ (lf (va / 4096)).has PTE_V = true ∧ (lf (va / 4096)).has PTE_U = true

instance (lf : ℕ → Pte) (va : ℕ) : Decidable (UserPage lf va) := inferInstanceAs (Decidable (_ ∧ _))

theorem Space.lt_upages (h : Space s r T lf K X) (hp : UserPage lf va) : va / 4096 < UPAGES := by
  by_contra hge
  have hU := h.user.top _ (not_lt.mp hge) (pageNumber_lt hp.1)
  rw [hp.2.2] at hU
  cases hU

/-- **One round of `copyout`**: it stops at a page that is not mapped for user code, or that is
copy-on-write while no page is free; else it writes to a page that is ready. -/
theorem copyout_round (rounds dstva len : ℕ) (src : ℕ → UInt8) (h : Space s r T lf K X)
    (hlen : len ≠ 0) :
    (¬ (UserPage lf dstva ∧ ((lf (dstva / 4096)).has PTE_COW = true → s.freelist ≠ [])) ∧
      copyoutLoop r (rounds + 1) dstva src len s = .ok (len, s)) ∨
    (UserPage lf dstva ∧ ((lf (dstva / 4096)).has PTE_COW = true → s.freelist ≠ []) ∧
      ∃ t lf', Ready s t r T lf lf' K X (dstva / 4096) ∧
        copyoutLoop r (rounds + 1) dstva src len s =
          copyoutLoop r rounds (dstva / 4096 * 4096 + 4096)
            (fun i => src (min (4096 - dstva % 4096) len + i)) (len - min (4096 - dstva % 4096) len)
            (t.memmove (PTE2PA (lf' (dstva / 4096)) + dstva % 4096) (min (4096 - dstva % 4096) len)
              src)) := by
  have hdiv : PGROUNDDOWN dstva / 4096 = dstva / 4096 := Nat.mul_div_cancel _ (by decide)
  have hoff : dstva - PGROUNDDOWN dstva = dstva % 4096 := by
    unfold PGROUNDDOWN
    simp only [PGSIZE]
    omega
  have hlt : PGROUNDDOWN dstva < MAXVA ↔ dstva < MAXVA := by
    unfold PGROUNDDOWN
    simp only [PGSIZE, MAXVA]
    omega
  -- the write itself
  have hwrite : ∀ {t lf'}, Ready s t r T lf lf' K X (dstva / 4096) → UserPage lf dstva →
      walkaddr r (PGROUNDDOWN dstva) t = PTE2PA (lf' (dstva / 4096)) ∧ PTE2PA (lf' (dstva / 4096)) ≠ 0 := by
    intro t lf' hr hp
    have hV : (lf' (PGROUNDDOWN dstva / 4096)).has PTE_V = true := by
      rw [hdiv, hr.poked.uncowed.V]
      exact hp.2.1
    have hU : (lf' (PGROUNDDOWN dstva / 4096)).has PTE_U = true := by
      rw [hdiv, hr.poked.uncowed.has (by decide) (by decide) (by decide)]
      exact hp.2.2
    have hpa := walkaddr_eq hr.space.tree (hlt.mpr hp.1) hV hU
    rw [hdiv] at hpa hV
    have hok : okPage (PTE2PA (lf' (dstva / 4096))) := hr.space.owns.ok_right
      (Multiset.mem_add.mpr (Or.inl (mem_leafRefs.mpr ⟨_, h.lt_upages hp, hV, rfl⟩)))
    exact ⟨hpa, hok.pos.ne'⟩
  simp only [copyoutLoop, hlen, if_false]
  by_cases hva : dstva < MAXVA
  · rw [if_neg (not_le.mpr (hlt.mpr hva))]
    cases hw : walk r (PGROUNDDOWN dstva) false s with
    | error e =>
      unfold walk at hw
      rw [if_neg (not_le.mpr (hlt.mpr hva))] at hw
      cases hw
    | ok y =>
      obtain ⟨o, s₁⟩ := y
      obtain ⟨-, rfl, ⟨rfl, hz⟩ | ⟨a, rfl, ha⟩⟩ := walk_false_spec h.tree hw
      · refine Or.inl ⟨fun hp => ?_, rfl⟩
        have hV := hp.1.2.1
        rw [← hdiv, hz, zero_has] at hV
        cases hV
      have hread := ha.read h.tree (pageNumber_lt (hlt.mpr hva))
      rw [hdiv] at hread
      simp only [hread, has_flags (show Low PTE_COW by decide)]
      by_cases hUV : (lf (dstva / 4096)).has PTE_U = true ∧ (lf (dstva / 4096)).has PTE_V = true
      · have hp : UserPage lf dstva := ⟨hva, hUV.2, hUV.1⟩
        rw [if_neg (by simp [hUV])]
        by_cases hC : (lf (dstva / 4096)).has PTE_COW = true
        · -- a copy-on-write page is copied first
          rw [if_pos hC]
          obtain ⟨res, s₂, hf, hres⟩ := cow_page_fault_total (PGROUNDDOWN dstva) h.tree h.owns h.user.top
          rw [hf]
          rw [hdiv] at hres
          rcases cow_space h hf with ⟨rfl, rfl⟩ | ⟨rfl, -, -, -, lf', hr⟩
          · refine Or.inl ⟨fun hgo => ?_, rfl⟩
            have := hres.mpr ⟨hlt.mpr hva, ⟨hUV.1, hUV.2, hC⟩, hgo.2 hC⟩
            omega
          · rw [hdiv] at hr
            obtain ⟨hpa, hne⟩ := hwrite hr hp
            refine Or.inr ⟨hp, fun _ => (hres.mp rfl).2.2, s₂, lf', hr, ?_⟩
            simp only [ne_eq, not_true_eq_false, if_false]
            rw [hpa, if_neg hne, hoff]
            rfl
        · have hC' := Bool.eq_false_iff.mpr hC
          have hr := Ready.refl h hC'
          obtain ⟨hpa, hne⟩ := hwrite hr hp
          refine Or.inr ⟨hp, fun h' => absurd h' hC, s₁, lf, hr, ?_⟩
          simp only [hC', Bool.false_eq_true, if_false, ne_eq, not_true_eq_false]
          rw [hpa, if_neg hne, hoff]
          rfl
      · rw [if_pos (by
          simp only [← Bool.not_eq_true]
          tauto)]
        exact Or.inl ⟨fun hp => hUV ⟨hp.1.2.2, hp.1.2.1⟩, rfl⟩
  · rw [if_pos (not_lt.mp fun h' => hva (hlt.mp h'))]
    exact Or.inl ⟨fun hp => hva hp.1.1, rfl⟩

theorem copyoutLoop_spec {rounds dstva len left : ℕ} (h : Space s r T lf K X)
    (hc : copyoutLoop r rounds dstva src len s = .ok (left, s')) :
    ∃ lf' n, left + n = len ∧ Wrote s s' r T lf lf' K X dstva n src := by
  induction rounds generalizing dstva src len s lf with
  | zero =>
    cases hc
    exact ⟨lf, 0, rfl, Wrote.refl h _ _⟩
  | succ rounds ih =>
    by_cases hlen : len = 0
    · subst hlen
      cases hc
      exact ⟨lf, 0, rfl, Wrote.refl h _ _⟩
    · rcases copyout_round rounds dstva len src h hlen with ⟨-, hx⟩ | ⟨hp, -, t, lf₁, hr, hx⟩
      · rw [hx] at hc
        cases hc
        exact ⟨lf, 0, rfl, Wrote.refl h _ _⟩
      · rw [hx] at hc
        have hoff : dstva % 4096 + min (4096 - dstva % 4096) len ≤ 4096 := by omega
        have hW : Wrote s _ r T lf lf₁ K X _ _ src := page_write hr (h.lt_upages hp) hp.2.1 hp.2.2 hoff
          (by omega)
        have hva : dstva / 4096 * 4096 + dstva % 4096 = dstva := Nat.div_add_mod' _ _
        rw [hva] at hW
        obtain ⟨lf₂, n, hn, hW₂⟩ := ih hW.space hc
        by_cases hfull : 4096 - dstva % 4096 ≤ len
        · have hnext : dstva / 4096 * 4096 + 4096 = dstva + min (4096 - dstva % 4096) len := by omega
          rw [hnext] at hW₂
          exact ⟨lf₂, _, by omega, hW.append hW₂⟩
        · -- the last page: the next round has nothing left to do
          have hn0 : n = 0 := by omega
          subst hn0
          refine ⟨lf₂, min (4096 - dstva % 4096) len + 0, by omega, hW.append ⟨hW₂.space, hW₂.poked,
            fun a h1 h2 => absurd h2 (by omega), fun a ha haV => ?_, fun v => ?_, hW₂.outside,
            fun a h1 h2 => absurd h2 (by omega)⟩⟩
          · rw [hW₂.byte a ha haV, if_neg (by omega), if_neg (by omega)]
          · rcases hW₂.only v with he | ⟨a, h1, h2, -⟩
            · exact Or.inl he
            · omega

/-- **`copyout`** writes a prefix of the bytes, all of them if it succeeds. -/
theorem copyout_spec {dstva len : ℕ} {res : ℤ} (h : Space s r T lf K X)
    (hc : copyout r dstva src len s = .ok (res, s')) :
    ∃ lf' n, Wrote s s' r T lf lf' K X dstva n src ∧ n ≤ len ∧ (res = 0 → n = len) := by
  unfold copyout at hc
  cases hl : copyoutLoop r len dstva src len s with
  | error e => rw [hl] at hc; cases hc
  | ok x =>
    obtain ⟨left, t⟩ := x
    rw [hl] at hc
    cases hc
    obtain ⟨lf', n, hn, hW⟩ := copyoutLoop_spec h hl
    refine ⟨lf', n, hW, by omega, fun hres => ?_⟩
    split_ifs at hres with h0
    omega

/-- **A user store** that goes through changes one byte; one that does not changes nothing. -/
theorem userStore_spec {b : UInt8} {ok : Bool} (h : Space s r T lf K X)
    (hc : userStore r va b s = .ok (ok, s')) : (ok = false ∧ s' = s) ∨ (ok = true ∧
      ((lf (va / 4096)).has PTE_W = true ∨ (lf (va / 4096)).has PTE_COW = true) ∧
      ∃ lf', Wrote s s' r T lf lf' K X va 1 (fun _ => b)) := by
  have hdiv : PGROUNDDOWN va / 4096 = va / 4096 := Nat.mul_div_cancel _ (by decide)
  have hoff : va % 4096 + 1 ≤ 4096 := by omega
  have hadd : va / 4096 * 4096 + va % 4096 = va := Nat.div_add_mod' _ _
  unfold userStore at hc
  split_ifs at hc with hva hs
  · cases hc
    exact Or.inl ⟨rfl, rfl⟩
  all_goals rw [pteOf_spec h.tree (not_le.mp hva)] at hs
  · -- the entry lets the store through
    cases hc
    simp only [storable, Bool.and_eq_true] at hs
    obtain ⟨⟨hV, hU⟩, hW⟩ := hs
    have hv : va / 4096 < UPAGES := by
      by_contra hge
      rw [h.user.top _ (not_lt.mp hge) (pageNumber_lt (not_le.mp hva))] at hU
      cases hU
    rw [pteOf_spec h.tree (not_le.mp hva)]
    have hw : Wrote s _ r T lf lf K X _ 1 (fun _ => b) :=
      page_write (Ready.refl h (h.user.plain hv hV hW)) hv hV hU hoff one_pos
    rw [hadd] at hw
    exact Or.inr ⟨rfl, Or.inl hW, lf, hw⟩
  · -- a store page fault
    cases hf : cow_page_fault r (PGROUNDDOWN va) s with
    | error e => rw [hf] at hc; cases hc
    | ok y =>
      obtain ⟨res, s₁⟩ := y
      rw [hf] at hc
      rcases cow_space h hf with ⟨rfl, rfl⟩ | ⟨rfl, hv, hV, hC, lf₁, hr⟩
      · cases hc
        exact Or.inl ⟨rfl, rfl⟩
      · rw [hdiv] at hv hV hC hr
        simp only [ne_eq, not_true_eq_false, if_false, pteOf_spec hr.space.tree (not_le.mp hva)] at hc
        obtain he | ⟨-, hU, -, p, he⟩ := hr.poked.uncowed (va / 4096)
        · have hC₁ := hr.own
          rw [he, hC] at hC₁
          cases hC₁
        · have hst : storable (lf₁ (va / 4096)) = true := by
            simp only [storable, Bool.and_eq_true]
            refine ⟨⟨(hr.poked.uncowed.V _).trans hV, ?_⟩, ?_⟩
            · rw [he, uncowed_has (by decide) (by decide) (by decide)]
              exact hU
            · rw [he, uncowed_W]
          rw [if_pos hst] at hc
          cases hc
          have hw : Wrote s _ r T lf lf₁ K X _ 1 (fun _ => b) := page_write hr hv hV hU hoff one_pos
          rw [hadd] at hw
          exact Or.inr ⟨rfl, Or.inr hC, lf₁, hw⟩

end Xv6
