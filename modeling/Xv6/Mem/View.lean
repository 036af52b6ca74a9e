import Xv6.Mem.Transfer

/-!
# View — which bytes `copyout` writes

`CowView` is what the outcome of `copyout` depends on: the free pages, the counts of the pages and the
entries of the page table.  `write` goes over the bytes one by one and stops at the first that cannot be written;
`copyoutLoop` writes the same bytes (`copyoutLoop_view`).
-/

namespace Xv6

structure CowView where
  free : ℕ
  count : ℕ → ℤ
  pte : ℕ → Pte

namespace CowView

/-- The byte at `va` can be written. -/
def ok (c : CowView) (va : ℕ) : Prop :=
  UserPage c.pte va ∧ ((c.pte (va / 4096)).has PTE_COW = true → 0 < c.free)

instance (c : CowView) (va : ℕ) : Decidable (c.ok va) :=
  inferInstanceAs (Decidable ((_ ∧ _ ∧ _) ∧ (_ → _)))

/-- Page `v` gets its own copy, if it is copy-on-write. -/
def own (c : CowView) (v : ℕ) : CowView :=
  if (c.pte v).has PTE_COW then
    { free := if c.count (PTE2PA (c.pte v)) = 1 then c.free else c.free - 1
      count := Function.update c.count (PTE2PA (c.pte v)) (c.count (PTE2PA (c.pte v)) - 1)
      pte := Function.update c.pte v (c.pte v &&& ~~~PTE_COW) }
  else c

/-- A write of `len` bytes at `va`: how many bytes it reaches, and the view afterwards. -/
def write (c : CowView) : ℕ → ℕ → ℕ × CowView
  | _, 0 => (0, c)
  | va, len + 1 =>
    if c.ok va then
      let (k, c') := (c.own (va / 4096)).write (va + 1) len
      (k + 1, c')
    else (0, c)

variable {c : CowView} {va v n m len : ℕ}

theorem own_of_cow (h : (c.pte v).has PTE_COW = true) : c.own v =
    { free := if c.count (PTE2PA (c.pte v)) = 1 then c.free else c.free - 1
      count := Function.update c.count (PTE2PA (c.pte v)) (c.count (PTE2PA (c.pte v)) - 1)
      pte := Function.update c.pte v (c.pte v &&& ~~~PTE_COW) } := if_pos h

theorem own_of_not (h : (c.pte v).has PTE_COW = false) : c.own v = c := by
  unfold own
  rw [if_neg (by rw [h]; decide)]

theorem own_cow : ((c.own v).pte v).has PTE_COW = false := by
  by_cases h : (c.pte v).has PTE_COW = true
  · rw [own_of_cow h]
    dsimp only
    rw [Function.update_self]
    exact has_and_not_self
  · have h := Bool.eq_false_iff.mpr h
    rwa [own_of_not h]

theorem own_own : (c.own v).own v = c.own v := own_of_not own_cow

/-- A flag other than `PTE_COW` stays. -/
theorem own_has {f : Pte} (w : ℕ) (hf : f &&& ~~~PTE_COW = f) :
    ((c.own v).pte w).has f = (c.pte w).has f := by
  by_cases h : (c.pte v).has PTE_COW = true
  · rw [own_of_cow h]
    dsimp only
    by_cases hw : w = v
    · subst hw
      rw [Function.update_self, has_and_not_of_disjoint hf]
    · rw [Function.update_of_ne hw]
  · rw [own_of_not (Bool.eq_false_iff.mpr h)]

theorem own_userPage {a : ℕ} : UserPage (c.own v).pte a ↔ UserPage c.pte a := by
  unfold UserPage
  rw [own_has _ (by decide), own_has _ (by decide)]

theorem free_own : c.free ≤ (c.own v).free + 1 := by
  by_cases h : (c.pte v).has PTE_COW = true
  · rw [own_of_cow h]
    dsimp only
    split_ifs
    · omega
    · omega
  · rw [own_of_not (Bool.eq_false_iff.mpr h)]
    exact Nat.le_succ _

theorem write_le : (c.write va len).1 ≤ len := by
  induction len generalizing c va with
  | zero => exact le_rfl
  | succ len ih =>
    rw [write]
    split_ifs
    · exact Nat.succ_le_succ ih
    · exact Nat.zero_le _

theorem write_stop (h : ¬ c.ok va) : c.write va len = (0, c) := by
  cases len with
  | zero => rfl
  | succ len => rw [write, if_neg h]

/-- The bytes of one page, and the rest. -/
theorem write_page (h : c.ok va) (h0 : 0 < n) (hn : va % 4096 + n ≤ 4096) :
    c.write va (n + m) = (n + ((c.own (va / 4096)).write (va + n) m).1,
      ((c.own (va / 4096)).write (va + n) m).2) := by
  induction n generalizing c va with
  | zero => omega
  | succ n ih =>
    rw [Nat.add_right_comm, write, if_pos h]
    by_cases hn0 : n = 0
    · subst hn0
      rw [Nat.zero_add, Nat.zero_add, Nat.add_comm 1]
    · have hdiv : (va + 1) / 4096 = va / 4096 := by omega
      have hok : (c.own (va / 4096)).ok (va + 1) := by
        refine ⟨own_userPage.mpr (h.1.same hdiv), fun hC => ?_⟩
        rw [hdiv, own_cow] at hC
        cases hC
      rw [ih hok (by omega) (by omega), hdiv, own_own, Nat.add_assoc va 1 n, Nat.add_comm 1 n]
      dsimp only
      rw [Nat.add_right_comm]

theorem write_userPage {a : ℕ} : UserPage (c.write va len).2.pte a ↔ UserPage c.pte a := by
  induction len generalizing c va with
  | zero => exact Iff.rfl
  | succ len ih =>
    rw [write]
    split_ifs
    · exact ih.trans own_userPage
    · exact Iff.rfl

/-- The bytes that a write reaches are mapped for user code. -/
theorem userPage_of_lt {k : ℕ} (h : k < (c.write va len).1) : UserPage c.pte (va + k) := by
  induction len generalizing c va k with
  | zero => exact absurd h (Nat.not_lt_zero k)
  | succ len ih =>
    rw [write] at h
    split_ifs at h with hok
    · cases k with
      | zero => exact hok.1
      | succ k =>
        have := own_userPage.mp (ih (Nat.lt_of_succ_lt_succ h))
        rwa [Nat.add_right_comm] at this
    · exact absurd h (Nat.not_lt_zero k)

/-- A write of at most a page takes at most two free pages. -/
theorem free_write (hlen : len ≤ 4096) : c.free ≤ (c.write va len).2.free + 2 := by
  by_cases hok : c.ok va
  · by_cases h0 : len = 0
    · subst h0
      exact Nat.le_add_right _ _
    have h1 : c.free ≤ (c.own (va / 4096)).free + 1 := free_own
    obtain ⟨n, m, rfl, hn, hn0, hm⟩ : ∃ n m, len = n + m ∧ va % 4096 + n ≤ 4096 ∧ 0 < n ∧
        (m = 0 ∨ (va + n) % 4096 = 0) := by
      refine ⟨min (4096 - va % 4096) len, len - min (4096 - va % 4096) len, by omega, by omega, by omega, ?_⟩
      omega
    rw [write_page hok hn0 hn]
    dsimp only
    generalize c.own (va / 4096) = c₁ at h1 ⊢
    by_cases hok₁ : c₁.ok (va + n)
    · by_cases hm0 : m = 0
      · subst hm0
        show c.free ≤ c₁.free + 2
        omega
      have h2 : c₁.free ≤ (c₁.own ((va + n) / 4096)).free + 1 := free_own
      have hw := write_page (m := 0) hok₁ (Nat.pos_of_ne_zero hm0) (by omega)
      rw [Nat.add_zero] at hw
      rw [hw]
      show c.free ≤ (c₁.own ((va + n) / 4096)).free + 2
      omega
    · rw [write_stop hok₁]
      show c.free ≤ c₁.free + 2
      omega
  · rw [write_stop hok]
    exact Nat.le_add_right _ _

/-- With two free pages a word can be written wherever user code has memory. -/
theorem write_full (hfree : 2 ≤ c.free) (hlen : len ≤ 4096) :
    (c.write va len).1 = len ↔ ∀ k < len, UserPage c.pte (va + k) := by
  refine ⟨fun h k hk => userPage_of_lt (h.symm ▸ hk), fun h => ?_⟩
  by_cases h0 : len = 0
  · subst h0
    rfl
  have hok : c.ok va := ⟨h 0 (Nat.pos_of_ne_zero h0), fun _ => by omega⟩
  have h1 : c.free ≤ (c.own (va / 4096)).free + 1 := free_own
  obtain ⟨n, m, rfl, hn, hn0, hm⟩ : ∃ n m, len = n + m ∧ va % 4096 + n ≤ 4096 ∧ 0 < n ∧
      (m = 0 ∨ (va + n) % 4096 = 0) := by
    refine ⟨min (4096 - va % 4096) len, len - min (4096 - va % 4096) len, by omega, by omega, by omega, ?_⟩
    omega
  rw [write_page hok hn0 hn]
  dsimp only
  by_cases hm0 : m = 0
  · subst hm0
    rfl
  have hok₁ : (c.own (va / 4096)).ok (va + n) :=
    ⟨own_userPage.mpr (h n (by omega)), fun _ => by omega⟩
  have hw := write_page (m := 0) hok₁ (Nat.pos_of_ne_zero hm0) (by omega)
  rw [Nat.add_zero] at hw
  rw [hw]
  rfl

end CowView

/-- The view `c` is right about the state `s` with the entries `lf` and the references `F`. -/
structure Seen (s : Phys) (lf : ℕ → Pte) (F : Multiset ℕ) (c : CowView) : Prop where
  free : c.free = s.freelist.length
  user : ∀ a, UserPage c.pte a ↔ UserPage lf a
  cow : ∀ v, (c.pte v).has PTE_COW = (lf v).has PTE_COW
  page : ∀ v, (lf v).has PTE_COW = true → PTE2PA (c.pte v) = PTE2PA (lf v)
  count : ∀ v < UPAGES, (lf v).has PTE_V = true → (lf v).has PTE_COW = true →
    c.count (PTE2PA (lf v)) = F.count (PTE2PA (lf v))

/-- The view of a page table with the entries `lf`. -/
def Phys.view (s : Phys) (lf : ℕ → Pte) : CowView :=
  { free := s.freelist.length, count := fun p => s.pte_count (p / PGSIZE), pte := lf }

variable [Image] {s s' t : Phys} {r va len : ℕ} {T K X : Multiset ℕ} {lf lf' : ℕ → Pte}
  {src : ℕ → UInt8} {c : CowView}

theorem Space.seen (h : Space s r T lf K X) : Seen s lf (leafRefs UPAGES lf + X) (s.view lf) := by
  refine ⟨rfl, fun _ => Iff.rfl, fun _ => rfl, fun _ _ => rfl, fun v hv hV _ => ?_⟩
  have hmem : PTE2PA (lf v) ∈ leafRefs UPAGES lf + X :=
    Multiset.mem_add.mpr (Or.inl (mem_leafRefs.mpr ⟨v, hv, hV, rfl⟩))
  have hnot : PTE2PA (lf v) ∉ T + K := fun hm => h.owns.ne hm hmem rfl
  have hcount := h.owns.alloc.count_eq (Multiset.mem_add.mpr (Or.inr hmem))
  rw [Multiset.count_add, Multiset.count_eq_zero.mpr hnot, Nat.zero_add] at hcount
  exact hcount

omit [Image] in
theorem Seen.ok_iff (h : Seen s lf (leafRefs UPAGES lf + X) c) : c.ok va ↔
    UserPage lf va ∧ ((lf (va / 4096)).has PTE_COW = true → s.freelist ≠ []) := by
  unfold CowView.ok
  rw [h.user, h.cow, h.free, List.length_pos_iff]

/-- A page that is ready, in the view. -/
theorem Seen.ready (h : Seen s lf (leafRefs UPAGES lf + X) c) (hS : Space s r T lf K X)
    (hr : Ready s t r T lf lf' K X (va / 4096)) (hp : UserPage lf va) :
    Seen t lf' (leafRefs UPAGES lf' + X) (c.own (va / 4096)) := by
  have hv := hS.lt_upages hp
  by_cases hC : (lf (va / 4096)).has PTE_COW = true
  · obtain ⟨p, hpF, hrefs⟩ := hr.copied hC
    have hlen := hr.length_free hS hv hp.2.1 hC
    have hcC : (c.pte (va / 4096)).has PTE_COW = true := (h.cow _).trans hC
    have hsplit : leafRefs UPAGES lf + X =
        PTE2PA (lf (va / 4096)) ::ₘ (leafOthers UPAGES lf (va / 4096) + X) := by
      rw [leafRefs_split hv, pageOf_of_has hp.2.1, Multiset.singleton_add, Multiset.cons_add]
    refine ⟨?_, fun a => ?_, fun w => ?_, fun w hw => ?_, fun w hw hwV hwC => ?_⟩
    · rw [hlen, CowView.own_of_cow hcC]
      dsimp only
      rw [h.page _ hC, h.count _ hv hp.2.1 hC, h.free]
      simp only [Nat.cast_eq_one]
    · rw [CowView.own_userPage, h.user, UserPage.congr hr.poked.uncowed]
    · by_cases hw : w = va / 4096
      · rw [hw, CowView.own_cow, hr.own]
      · rw [CowView.own_of_cow hcC]
        dsimp only
        rw [Function.update_of_ne hw, hr.other w hw, h.cow]
    all_goals
      have hwne : w ≠ va / 4096 := fun he => by
        subst he
        first | rw [hr.own] at hw; cases hw | rw [hr.own] at hwC; cases hwC
    · rw [hr.other w hwne] at hw ⊢
      rw [CowView.own_of_cow hcC]
      dsimp only
      rw [Function.update_of_ne hwne, h.page w hw]
    · rw [hr.other w hwne] at hwV hwC ⊢
      have hmem : PTE2PA (lf w) ∈ leafRefs UPAGES lf + X :=
        Multiset.mem_add.mpr (Or.inl (mem_leafRefs.mpr ⟨w, hw, hwV, rfl⟩))
      have hqp : PTE2PA (lf w) ≠ p := fun he => hpF (he ▸ hmem)
      have hcount := h.count w hw hwV hwC
      rw [hrefs, Multiset.cons_add, Multiset.count_cons_of_ne hqp, CowView.own_of_cow hcC]
      dsimp only
      rw [h.page _ hC]
      by_cases hpp : PTE2PA (lf w) = PTE2PA (lf (va / 4096))
      · rw [hpp] at hcount ⊢
        rw [Function.update_self, hcount, hsplit, Multiset.count_cons_self]
        push_cast
        ring
      · rw [Function.update_of_ne hpp, hcount, hsplit, Multiset.count_cons_of_ne hpp]
  · have hC' := Bool.eq_false_iff.mpr hC
    obtain ⟨rfl, rfl⟩ := hr.kept hC'
    rw [CowView.own_of_not ((h.cow _).trans hC')]
    exact h

theorem copyoutLoop_zero {rounds : ℕ} : copyoutLoop r rounds va src 0 s = .ok (0, s) := by
  cases rounds with
  | zero => rfl
  | succ rounds => rw [copyoutLoop, if_pos rfl]

/-- **`copyout` writes the bytes that the view reaches.** -/
theorem copyoutLoop_view {rounds : ℕ} (dstva len : ℕ) (src : ℕ → UInt8) (h : Space s r T lf K X)
    (hc : Seen s lf (leafRefs UPAGES lf + X) c) (hle : len ≤ rounds) :
    ∃ left s' lf', copyoutLoop r rounds dstva src len s = .ok (left, s') ∧
      left + (c.write dstva len).1 = len ∧
      Wrote s s' r T lf lf' K X dstva (c.write dstva len).1 src ∧
      Seen s' lf' (leafRefs UPAGES lf' + X) (c.write dstva len).2 := by
  induction rounds generalizing dstva src len s lf c with
  | zero =>
    obtain rfl : len = 0 := by omega
    exact ⟨0, s, lf, rfl, rfl, Wrote.refl h _ _, hc⟩
  | succ rounds ih =>
    by_cases hlen : len = 0
    · subst hlen
      exact ⟨0, s, lf, rfl, rfl, Wrote.refl h _ _, hc⟩
    rcases copyout_round rounds dstva len src h hlen with ⟨hno, hx⟩ | ⟨hp, hfree, t, lf₁, hr, hx⟩
    · rw [CowView.write_stop (fun hok => hno (hc.ok_iff.mp hok))]
      exact ⟨len, s, lf, hx, Nat.add_zero _, Wrote.refl h _ _, hc⟩
    · generalize hn : min (4096 - dstva % 4096) len = n at hx
      obtain ⟨m, rfl⟩ : ∃ m, len = n + m := ⟨len - n, by omega⟩
      have hW : Wrote s _ r T lf lf₁ K X (dstva / 4096 * 4096 + dstva % 4096) n src :=
        page_write hr (h.lt_upages hp) hp.2.1 hp.2.2 (by omega) (by omega)
      have hva : dstva / 4096 * 4096 + dstva % 4096 = dstva := Nat.div_add_mod' _ _
      rw [hva] at hW
      have hc₁ := hc.ready h hr hp
      obtain ⟨left, s', lf₂, hs', hleft, hW', hseen⟩ := ih (dstva / 4096 * 4096 + 4096) m
        (fun i => src (n + i)) hW.space ⟨hc₁.free, hc₁.user, hc₁.cow, hc₁.page, hc₁.count⟩ (by omega)
      rw [Nat.add_sub_cancel_left] at hx
      rw [CowView.write_page (hc.ok_iff.mpr ⟨hp, hfree⟩) (by omega) (by omega)]
      by_cases hm : m = 0
      · -- the last page
        subst hm
        exact ⟨0, _, lf₁, hx.trans copyoutLoop_zero, Nat.zero_add _, hW,
          ⟨hc₁.free, hc₁.user, hc₁.cow, hc₁.page, hc₁.count⟩⟩
      · rw [show dstva / 4096 * 4096 + 4096 = dstva + n by omega] at hs' hleft hW' hseen hx
        exact ⟨left, s', lf₂, hx.trans hs', by dsimp only; omega, hW.append hW', hseen⟩

/-- How many bytes `copyout` writes. -/
def copyoutCount (pagetable dstva : ℕ) (src : ℕ → UInt8) (len : ℕ) (s : Phys) : ℕ :=
  match copyoutLoop pagetable len dstva src len s with
  | .ok (left, _) => len - left
  | .error _ => 0

/-- `copyout` succeeds exactly if the view reaches all bytes. -/
theorem copyout_view (dstva len : ℕ) (src : ℕ → UInt8) (h : Space s r T lf K X)
    (hc : Seen s lf (leafRefs UPAGES lf + X) c) :
    ∃ s' lf', copyout r dstva src len s = .ok (if (c.write dstva len).1 = len then 0 else -1, s') ∧
      copyoutCount r dstva src len s = (c.write dstva len).1 ∧
      Wrote s s' r T lf lf' K X dstva (c.write dstva len).1 src ∧
      Seen s' lf' (leafRefs UPAGES lf' + X) (c.write dstva len).2 := by
  obtain ⟨left, s', lf', hl, hleft, hW, hseen⟩ := copyoutLoop_view dstva len src h hc le_rfl
  refine ⟨s', lf', ?_, ?_, hW, hseen⟩
  · unfold copyout
    rw [hl]
    dsimp only
    congr 2
    exact if_congr (by omega) rfl rfl
  · unfold copyoutCount
    rw [hl]
    dsimp only
    omega

end Xv6
