import Xv6.Kernel.Cow
import Xv6.Mem.VmSpec

/-!
# Share — `uvmcopy` and copy-on-write faults

`cowed e` is the entry that `uvmcopy` leaves in the parent and `shared e` the one it makes in the
child.  `uvmcopy_spec` says what a call does to the two page tables and to the references; a call
that fails leaves one count too many behind.  `cow_page_fault_spec` is the way back.
-/

namespace Xv6

/-! ## Entries -/

/-- The entry that `uvmcopy` leaves in the parent. -/
def cowed (e : Pte) : Pte := (e &&& ~~~PTE_W) ||| PTE_COW

/-- The entry that `uvmcopy` makes in the child. -/
def shared (e : Pte) : Pte := PA2PTE (PTE2PA e) ||| PTE_FLAGS (cowed e) ||| PTE_V

/-- The entries of the pages `a, …, a + k - 1` changed by `f`. -/
def mapPages (f : Pte → Pte) (src lf : ℕ → Pte) (a k : ℕ) : ℕ → Pte :=
  fun v => if a ≤ v ∧ v < a + k then f (src v) else lf v

/-- The pages that the entries `a, …, a + k - 1` refer to. -/
def rangeRefs (lf : ℕ → Pte) (a : ℕ) : ℕ → Multiset ℕ
  | 0 => 0
  | k + 1 => pageOf (lf a) + rangeRefs lf (a + 1) k

section Entries

variable {e f : Pte} {f' : Pte → Pte} {lf src lf' : ℕ → Pte} {n v a k : ℕ}

theorem cowed_has (hW : f &&& ~~~PTE_W = f) (hC : PTE_COW &&& f = 0#64) :
    (cowed e).has f = e.has f := by
  unfold cowed
  rw [has_or_of_disjoint hC, has_and_not_of_disjoint hW]

@[simp] theorem cowed_V : (cowed e).has PTE_V = e.has PTE_V := cowed_has (by decide) (by decide)

@[simp] theorem cowed_W : (cowed e).has PTE_W = false := by
  unfold cowed
  rw [has_or_of_disjoint (by decide), has_and_not_self]

@[simp] theorem cowed_COW : (cowed e).has PTE_COW = true := has_or_self (by decide)

@[simp] theorem PTE2PA_cowed : PTE2PA (cowed e) = PTE2PA e := by
  unfold cowed
  rw [PTE2PA_or (by decide), PTE2PA_and_not (by decide)]

@[simp] theorem pageOf_cowed : pageOf (cowed e) = pageOf e := by
  unfold pageOf
  rw [cowed_V, PTE2PA_cowed]

theorem shared_has (hf : Low f) (hV : PTE_V &&& f = 0#64) : (shared e).has f = (cowed e).has f := by
  unfold shared
  rw [has_or_of_disjoint hV, has_PA2PTE hf, has_flags hf]

@[simp] theorem shared_V : (shared e).has PTE_V = true := has_or_self (by decide)

theorem PTE2PA_shared (hp : PTE2PA e % 4096 = 0) (hlt : PTE2PA e < 2 ^ 56) :
    PTE2PA (shared e) = PTE2PA e := by
  unfold shared
  rw [BitVec.or_assoc, PTE2PA_map ((low_flags _).or (by decide)) hp hlt]

theorem mapPages_zero : mapPages f' src lf a 0 = lf := by
  funext v
  exact if_neg (by omega)

theorem mapPages_succ : mapPages f' src (Function.update lf a (f' (src a))) (a + 1) k =
    mapPages f' src lf a (k + 1) := by
  funext v
  unfold mapPages
  by_cases hv : v = a
  · subst hv
    rw [if_neg (by omega), Function.update_self, if_pos (by omega)]
  · rw [Function.update_of_ne hv]
    exact if_congr (by omega) rfl rfl

theorem mapPages_one : mapPages f' src lf a 1 = Function.update lf a (f' (src a)) := by
  rw [← mapPages_succ, mapPages_zero]

theorem mapPages_src {src' : ℕ → Pte} (h : ∀ v, a ≤ v → v < a + k → src' v = src v) :
    mapPages f' src' lf a k = mapPages f' src lf a k := by
  funext v
  unfold mapPages
  split_ifs with hv
  · rw [h v hv.1 hv.2]
  · rfl

theorem leafRefs_cowed : leafRefs n (mapPages cowed lf lf a k) = leafRefs n lf := by
  refine leafRefs_congr fun v _ => ?_
  unfold mapPages
  split_ifs
  · exact pageOf_cowed
  · rfl

theorem rangeRefs_congr (h : ∀ v, a ≤ v → pageOf (lf' v) = pageOf (lf v)) :
    rangeRefs lf' a k = rangeRefs lf a k := by
  induction k generalizing a with
  | zero => rfl
  | succ k ih => rw [rangeRefs, rangeRefs, h a le_rfl, ih fun v hv => h v (by omega)]

end Entries

/-! ## `uvmcopy` -/

variable [Image] {s s' : Phys} {old new i n : ℕ} {T T₁ T₂ K F X : Multiset ℕ} {lf lf₁ lf₂ : ℕ → Pte}

omit [Image] in
/-- One round of `uvmcopy`, up to `mappages`. -/
theorem copy_entry {x : Option ℕ × Phys} (hT : Tree s.mem old T₁ lf₁)
    (h : copyLoop old new (n + 1) i s = .ok x) : i < MAXVA ∧ (lf₁ (i / 4096)).has PTE_V = true ∧
      ∃ a, EntryAt s.mem old (i / 4096) a ∧ ∃ res t,
        mappages new i PGSIZE (PTE2PA (lf₁ (i / 4096))) (PTE_FLAGS (cowed (lf₁ (i / 4096))))
          ((s.setPte a (cowed (lf₁ (i / 4096)))).safe_inc_count (PTE2PA (lf₁ (i / 4096)))) =
            .ok (res, t) ∧
        (if res ≠ 0 then .ok (some i, t) else copyLoop old new n (i + 4096) t) = Except.ok x := by
  unfold copyLoop at h
  cases hw : walk old i false s with
  | error e => rw [hw] at h; cases h
  | ok y =>
    obtain ⟨o, s₁⟩ := y
    obtain ⟨hva, rfl, ⟨rfl, -⟩ | ⟨a, rfl, ha⟩⟩ := walk_false_spec hT hw
    · rw [hw] at h; cases h
    · have hread := ha.read hT (pageNumber_lt hva)
      rw [hw] at h
      simp only [hread] at h
      split_ifs at h with hV
      rw [show (lf₁ (i / 4096) &&& ~~~PTE_W) ||| PTE_COW = cowed (lf₁ (i / 4096)) from rfl] at h
      have hset : readPte (s₁.setPte a (cowed (lf₁ (i / 4096)))).mem a = cowed (lf₁ (i / 4096)) :=
        readPte_writePte _ _ _
      have hset' : ∀ q, readPte ((s₁.setPte a (cowed (lf₁ (i / 4096)))).safe_inc_count q).mem a =
          cowed (lf₁ (i / 4096)) := fun q => hset
      rw [hset, PTE2PA_cowed, hset'] at h
      refine ⟨hva, by simpa using hV, a, ha, ?_⟩
      cases hm : mappages new i PGSIZE (PTE2PA (lf₁ (i / 4096))) (PTE_FLAGS (cowed (lf₁ (i / 4096))))
          ((s₁.setPte a (cowed (lf₁ (i / 4096)))).safe_inc_count (PTE2PA (lf₁ (i / 4096)))) with
      | error e => rw [hm] at h; cases h
      | ok z =>
        rw [hm] at h
        exact ⟨z.1, z.2, rfl, h⟩

/-- One more reference to a page that is referenced already. -/
theorem Owns.inc {p : ℕ} (h : Owns s T F) (hp : p ∈ F) (hlim : F.count p + 1 < intLim) :
    Owns (s.safe_inc_count p) T (p ::ₘ F) := by
  have hpT : p ∉ T := fun hT => Multiset.disjoint_left.mp h.disj hT hp
  have hcount : (T + F).count p = F.count p := by
    rw [Multiset.count_add, Multiset.count_eq_zero.mpr hpT, zero_add]
  have hA := safe_inc_count_spec h.alloc (Multiset.mem_add.mpr (Or.inr hp)) (by rw [hcount]; exact hlim)
  refine ⟨by rwa [Multiset.add_cons], h.nodup, Multiset.disjoint_left.mpr fun hx hx' => ?_⟩
  rcases Multiset.mem_cons.mp hx' with rfl | hx'
  · exact hpT hx
  · exact Multiset.disjoint_left.mp h.disj hx hx'

/-- The round of one page: its entry is marked, its count taken, and the child gets it if there is memory for
the tables. -/
theorem copy_round {a : ℕ} {res : ℤ} (hT₁ : Tree s.mem old T₁ lf₁) (hT₂ : Tree s.mem new T₂ lf₂)
    (hO : Owns s (T₁ + T₂ + K) F) (hva : i < MAXVA) (hi : i % 4096 = 0) (hU : i / 4096 < UPAGES)
    (ha : EntryAt s.mem old (i / 4096) a) (hF : PTE2PA (lf₁ (i / 4096)) ∈ F)
    (hlim : F.count (PTE2PA (lf₁ (i / 4096))) + 1 < intLim)
    (hm : mappages new i PGSIZE (PTE2PA (lf₁ (i / 4096))) (PTE_FLAGS (cowed (lf₁ (i / 4096))))
      ((s.setPte a (cowed (lf₁ (i / 4096)))).safe_inc_count (PTE2PA (lf₁ (i / 4096)))) = .ok (res, s')) :
    ∃ T₂' lf₂', Tree s'.mem old T₁ (Function.update lf₁ (i / 4096) (cowed (lf₁ (i / 4096)))) ∧
      Tree s'.mem new T₂' lf₂' ∧ Owns s' (T₁ + T₂' + K) (PTE2PA (lf₁ (i / 4096)) ::ₘ F) ∧
      Keeps s.mem s'.mem (K + F) ∧
      ((res ≠ 0 ∧ lf₂' = lf₂) ∨ (res = 0 ∧ (lf₂ (i / 4096)).has PTE_V = false ∧
        lf₂' = Function.update lf₂ (i / 4096) (shared (lf₁ (i / 4096))))) := by
  have hlt : i < 2 ^ 64 - 4096 := by
    have : i / 4096 < 67108862 := hU
    omega
  have hO₁ : Owns s (T₁ + (T₂ + K)) F := by
    rw [← add_assoc]
    exact hO
  obtain ⟨hT₁', hO₁', hk₁⟩ := EntryAt.set hT₁ hO₁ ha (pageNumber_lt hva) (cowed (lf₁ (i / 4096)))
  have hO₂ := hO₁'.inc hF hlim
  rw [add_left_comm] at hO₂
  have hT₂₀ : Tree ((s.setPte a (cowed (lf₁ (i / 4096)))).safe_inc_count (PTE2PA (lf₁ (i / 4096)))).mem
      new T₂ lf₂ := hT₂.congr hk₁.left.left
  obtain ⟨-, T₂', lf₂', hT₂', hO₃, hk₂, hcases⟩ := mappages_spec hT₂₀ hO₂ hi hlt hm
  rw [add_left_comm, ← add_assoc] at hO₃
  refine ⟨T₂', lf₂', hT₁'.congr hk₂.left.left, hT₂', hO₃, fun p hp => (hk₁ p ?_).trans (hk₂ p ?_), ?_⟩
  · rw [add_assoc]
    exact Multiset.mem_add.mpr (Or.inr hp)
  · rw [Multiset.add_cons, add_assoc]
    exact Multiset.mem_cons_of_mem (Multiset.mem_add.mpr (Or.inr hp))
  · rcases hcases with ⟨rfl, rfl, -⟩ | ⟨rfl, hfree, rfl⟩
    · exact Or.inl ⟨by decide, rfl⟩
    · exact Or.inr ⟨rfl, hfree, rfl⟩

omit [Image] in
/-- A page that is shared has one reference more, and one less to get. -/
theorem count_share {A : Multiset ℕ} {v : ℕ} (hV : (lf v).has PTE_V = true) (p : ℕ) :
    (PTE2PA (lf v) ::ₘ A).count p + (rangeRefs lf (v + 1) n).count p =
      A.count p + (rangeRefs lf v (n + 1)).count p := by
  rw [rangeRefs, pageOf_of_has hV, Multiset.singleton_add, Multiset.count_cons, Multiset.count_cons]
  omega

/-- The loop of `uvmcopy`: `k` pages are shared; if it fails, the count of the next one is taken. -/
theorem copyLoop_spec {o : Option ℕ} (hT₁ : Tree s.mem old T₁ lf₁) (hT₂ : Tree s.mem new T₂ lf₂)
    (hO : Owns s (T₁ + T₂ + K) (leafRefs UPAGES lf₁ + leafRefs UPAGES lf₂ + X))
    (hi : i % 4096 = 0) (hU : i / 4096 + n ≤ UPAGES)
    (hlim : ∀ p ∈ leafRefs UPAGES lf₁, (leafRefs UPAGES lf₁ + leafRefs UPAGES lf₂ + X).count p +
      (rangeRefs lf₁ (i / 4096) n).count p < intLim)
    (h : copyLoop old new n i s = .ok (o, s')) :
    ∃ T₂' lf₂' k, Keeps s.mem s'.mem (K + (leafRefs UPAGES lf₁ + leafRefs UPAGES lf₂ + X)) ∧
      Tree s'.mem new T₂' lf₂' ∧ lf₂' = mapPages shared lf₁ lf₂ (i / 4096) k ∧
      (∀ v, i / 4096 ≤ v → v < i / 4096 + k →
        (lf₁ v).has PTE_V = true ∧ (lf₂ v).has PTE_V = false) ∧
      ((o = none ∧ k = n ∧ Tree s'.mem old T₁ (mapPages cowed lf₁ lf₁ (i / 4096) n) ∧
          Owns s' (T₁ + T₂' + K) (leafRefs UPAGES lf₁ + leafRefs UPAGES lf₂' + X)) ∨
        (o = some (i + 4096 * k) ∧ k < n ∧ (lf₁ (i / 4096 + k)).has PTE_V = true ∧
          Tree s'.mem old T₁ (mapPages cowed lf₁ lf₁ (i / 4096) (k + 1)) ∧
          Owns s' (T₁ + T₂' + K) (PTE2PA (lf₁ (i / 4096 + k)) ::ₘ
            (leafRefs UPAGES lf₁ + leafRefs UPAGES lf₂' + X)))) := by
  induction n generalizing s i lf₁ lf₂ T₂ with
  | zero =>
    cases h
    refine ⟨T₂, lf₂, 0, Keeps.refl _ _, hT₂, mapPages_zero.symm, fun v h1 h2 => absurd h2 (by omega),
      Or.inl ⟨rfl, rfl, ?_, hO⟩⟩
    rw [mapPages_zero]
    exact hT₁
  | succ n ih =>
    obtain ⟨hva, hV, a, ha, res, t, hm, hnext⟩ := copy_entry hT₁ h
    obtain ⟨hi', hdiv⟩ := next_page hi
    have hvU : i / 4096 < UPAGES := by omega
    have hpaR : PTE2PA (lf₁ (i / 4096)) ∈ leafRefs UPAGES lf₁ := mem_leafRefs.mpr ⟨_, hvU, hV, rfl⟩
    have hpaF : PTE2PA (lf₁ (i / 4096)) ∈ leafRefs UPAGES lf₁ + leafRefs UPAGES lf₂ + X :=
      Multiset.mem_add.mpr (Or.inl (Multiset.mem_add.mpr (Or.inl hpaR)))
    have hnew := fun p => count_share (n := n) (A := leafRefs UPAGES lf₁ + leafRefs UPAGES lf₂ + X) hV p
    obtain ⟨T₂', lf₂', hT₁', hT₂', hO', hkeep, hcases⟩ := copy_round hT₁ hT₂ hO hva hi hvU ha hpaF (by
      have h1 := hlim _ hpaR
      have h2 := hnew (PTE2PA (lf₁ (i / 4096)))
      rw [Multiset.count_cons_self] at h2
      omega) hm
    generalize i / 4096 = v at *
    rcases hcases with ⟨hres, rfl⟩ | ⟨rfl, hfree, rfl⟩
    · -- no memory for a table of the child
      rw [if_pos hres] at hnext
      cases hnext
      refine ⟨T₂', lf₂', 0, hkeep, hT₂', mapPages_zero.symm, fun w h1 h2 => absurd h2 (by omega),
        Or.inr ⟨by simp, by omega, hV, ?_, hO'⟩⟩
      rw [mapPages_one]
      exact hT₁'
    · rw [if_neg (by decide)] at hnext
      have hrefs₁ : leafRefs UPAGES (Function.update lf₁ v (cowed (lf₁ v))) = leafRefs UPAGES lf₁ := by
        rw [← mapPages_one]
        exact leafRefs_cowed
      have hrefs₂ : leafRefs UPAGES (Function.update lf₂ v (shared (lf₁ v))) =
          PTE2PA (lf₁ v) ::ₘ leafRefs UPAGES lf₂ := leafRefs_map (hO.ok_right hpaF) (low_flags _) hvU hfree
      have hF : PTE2PA (lf₁ v) ::ₘ (leafRefs UPAGES lf₁ + leafRefs UPAGES lf₂ + X) =
          leafRefs UPAGES (Function.update lf₁ v (cowed (lf₁ v))) +
            leafRefs UPAGES (Function.update lf₂ v (shared (lf₁ v))) + X := by
        rw [hrefs₁, hrefs₂, Multiset.add_cons, Multiset.cons_add]
      have hsrc : ∀ w, v + 1 ≤ w → Function.update lf₁ v (cowed (lf₁ v)) w = lf₁ w := fun w hw =>
        Function.update_of_ne (by omega) _ _
      have hrange' : rangeRefs (Function.update lf₁ v (cowed (lf₁ v))) (v + 1) n =
          rangeRefs lf₁ (v + 1) n := rangeRefs_congr fun w hw => by rw [hsrc w hw]
      rw [hF] at hO'
      obtain ⟨T', lf', k, hk₃, hT', hlf', hvalid, hres⟩ := ih hT₁' hT₂' hO' hi' (by omega) (by
        intro p hp
        rw [hrefs₁] at hp
        rw [hdiv, hrange', ← hF, hnew]
        exact hlim p hp) hnext
      rw [hdiv] at hlf' hvalid hres
      have hcow : ∀ j, mapPages cowed (Function.update lf₁ v (cowed (lf₁ v)))
          (Function.update lf₁ v (cowed (lf₁ v))) (v + 1) j = mapPages cowed lf₁ lf₁ v (j + 1) := by
        intro j
        rw [mapPages_src (fun w h1 _ => hsrc w h1), mapPages_succ]
      refine ⟨T', lf', k + 1, fun p hp => (hkeep p hp).trans (hk₃ p ?_), hT', ?_, fun w h1 h2 => ?_, ?_⟩
      · rw [← hF, Multiset.add_cons]
        exact Multiset.mem_cons_of_mem hp
      · rw [hlf', mapPages_src (fun w h1 _ => hsrc w h1), ← mapPages_succ]
      · by_cases hwv : w = v
        · subst hwv
          exact ⟨hV, hfree⟩
        · have := hvalid w (by omega) (by omega)
          rwa [Function.update_of_ne hwv, Function.update_of_ne hwv] at this
      · rw [hcow, hrefs₁] at hres
        rcases hres with ⟨h1, h2, h3, h4⟩ | ⟨h1, h2, h3, h4, h5⟩
        · exact Or.inl ⟨h1, by omega, h3, h4⟩
        · rw [show v + 1 + k = v + (k + 1) by omega, hsrc _ (by omega)] at h3 h5
          rw [hcow] at h4
          refine Or.inr ⟨?_, by omega, h3, h4, h5⟩
          rw [h1, show i + 4096 + 4096 * k = i + 4096 * (k + 1) by ring]

/-- **`uvmcopy`** shares all pages below `sz`.  If it fails the child's map is as before, but the
count of the page it failed at has been taken for nothing. -/
theorem uvmcopy_spec {sz : ℕ} {res : ℤ} (hT₁ : Tree s.mem old T₁ lf₁) (hT₂ : Tree s.mem new T₂ lf₂)
    (hO : Owns s (T₁ + T₂ + K) (leafRefs UPAGES lf₁ + leafRefs UPAGES lf₂ + X))
    (hsz : sz ≤ TRAPFRAME)
    (hlim : ∀ p ∈ leafRefs UPAGES lf₁, (leafRefs UPAGES lf₁ + leafRefs UPAGES lf₂ + X).count p +
      (rangeRefs lf₁ 0 (pages sz)).count p < intLim)
    (h : uvmcopy old new sz s = .ok (res, s')) :
    Keeps s.mem s'.mem (K + (leafRefs UPAGES lf₁ + leafRefs UPAGES lf₂ + X)) ∧
      ∃ T₂' lf₂', Tree s'.mem new T₂' lf₂' ∧
      ((res = 0 ∧ lf₂' = mapPages shared lf₁ lf₂ 0 (pages sz) ∧
          (∀ v < pages sz, (lf₁ v).has PTE_V = true ∧ (lf₂ v).has PTE_V = false) ∧
          Tree s'.mem old T₁ (mapPages cowed lf₁ lf₁ 0 (pages sz)) ∧
          Owns s' (T₁ + T₂' + K) (leafRefs UPAGES lf₁ + leafRefs UPAGES lf₂' + X)) ∨
        (res = -1 ∧ SameMap lf₂ lf₂' ∧ ∃ k < pages sz, (lf₁ k).has PTE_V = true ∧
          Tree s'.mem old T₁ (mapPages cowed lf₁ lf₁ 0 (k + 1)) ∧
          Owns s' (T₁ + T₂' + K) (PTE2PA (lf₁ k) ::ₘ
            (leafRefs UPAGES lf₁ + leafRefs UPAGES lf₂' + X)))) := by
  have hsz' : sz ≤ 274877898752 := hsz
  have hn : (sz + PGSIZE - 1) / PGSIZE = pages sz := rfl
  have hpU : pages sz ≤ 67108862 := by unfold pages; omega
  unfold uvmcopy at h
  rw [hn] at h
  cases hc : copyLoop old new (pages sz) 0 s with
  | error e => rw [hc] at h; cases h
  | ok x =>
    obtain ⟨o, t⟩ := x
    obtain ⟨T₂', lf₂', k, hk, hT₂', hlf₂', hvalid, hres⟩ := copyLoop_spec hT₁ hT₂ hO rfl
      (by simp only [Nat.zero_div, zero_add]; exact hpU) hlim hc
    simp only [Nat.zero_div, zero_add, zero_le, true_implies] at hlf₂' hvalid hres
    rw [hc] at h
    rcases hres with ⟨rfl, rfl, hT₁', hO'⟩ | ⟨rfl, hkn, hV, hT₁', hO'⟩
    · cases h
      exact ⟨hk, T₂', lf₂', hT₂', Or.inl ⟨rfl, hlf₂', hvalid, hT₁', hO'⟩⟩
    · -- the pages shared so far are unmapped again
      simp only at h
      have hdiv : 4096 * k / PGSIZE = k := Nat.mul_div_cancel_left k (by decide)
      rw [hdiv] at h
      cases hu : uvmunmap new 0 k true t with
      | error e => rw [hu] at h; cases h
      | ok t' =>
        rw [hu] at h
        cases h
        obtain ⟨-, hu'⟩ := uvmunmap_ok hu (by omega)
        have hO₂ : Owns t (T₂' + (T₁ + K)) (leafRefs UPAGES lf₂' +
            (PTE2PA (lf₁ k) ::ₘ (leafRefs UPAGES lf₁ + X))) := by
          rw [Multiset.add_cons, add_left_comm, ← add_assoc, add_left_comm, ← add_assoc]
          exact hO'
        obtain ⟨-, hT₂'', hO₃, hk₃⟩ := unmapLoop_free_spec hT₂' hO₂ rfl
          (by simp only [Nat.zero_div, zero_add]; exact le_trans hkn.le hpU) hu'
        rw [Nat.zero_div] at hT₂'' hO₃ hk₃
        have hsame : SameMap lf₂ (clearPages lf₂' 0 k) := by
          intro v
          unfold clearPages
          split_ifs with hv
          · exact Or.inr ⟨(hvalid v (by omega)).2, rfl⟩
          · rw [hlf₂', mapPages, if_neg hv]
            exact Or.inl rfl
        refine ⟨fun p hp => (hk p hp).trans (hk₃ p ?_), T₂', clearPages lf₂' 0 k, hT₂'',
          Or.inr ⟨rfl, hsame, k, hkn, hV, hT₁'.congr hk₃.left.left, ?_⟩⟩
        · rw [hsame.leafRefs_eq, Multiset.add_cons, Multiset.add_cons]
          refine Multiset.mem_cons_of_mem ?_
          simp only [Multiset.mem_add] at hp ⊢
          tauto
        · rw [Multiset.add_cons, add_left_comm, ← add_assoc, add_left_comm, ← add_assoc] at hO₃
          exact hO₃

/-! ## Copy-on-write faults -/

/-- The entry after a copy-on-write fault that found a page `p`. -/
def uncowed (e : Pte) (p : ℕ) : Pte := PA2PTE p ||| ((PTE_FLAGS e ||| PTE_W) &&& ~~~PTE_COW)

omit [Image] in
theorem uncowed_has {e f : Pte} {p : ℕ} (hf : Low f) (hC : f &&& ~~~PTE_COW = f)
    (hW : PTE_W &&& f = 0#64) : (uncowed e p).has f = e.has f := by
  unfold uncowed
  rw [has_PA2PTE hf, has_and_not_of_disjoint hC, has_or_of_disjoint hW, has_flags hf]

theorem PTE2PA_uncowed {e : Pte} {p : ℕ} (hp : okPage p) : PTE2PA (uncowed e p) = p := by
  unfold uncowed
  exact PTE2PA_map (((low_flags _).or (by decide)).and) hp.1 hp.lt

omit [Image] in
theorem uncowed_W {e : Pte} {p : ℕ} : (uncowed e p).has PTE_W = true := by
  unfold uncowed
  rw [has_PA2PTE (by decide), has_and_not_of_disjoint (by decide), has_or_self (by decide)]

omit [Image] in
theorem uncowed_COW {e : Pte} {p : ℕ} : (uncowed e p).has PTE_COW = false := by
  unfold uncowed
  rw [has_PA2PTE (by decide), has_and_not_self]

/-- No page from `TRAPFRAME` on is open to user code. -/
def TopClosed (lf : ℕ → Pte) : Prop := ∀ v, UPAGES ≤ v → v < VPAGES → (lf v).has PTE_U = false

/-- A fresh page takes the place of the page that an entry refers to: it gets the contents, and the
old page has a reference less. -/
theorem replace_spec {r v a p : ℕ} {s₂ : Phys} (hT : Tree s.mem r T lf)
    (hO : Owns s (T + K) (leafRefs UPAGES lf + X)) (ha : EntryAt s.mem r v a) (hv : v < VPAGES)
    (hvU : v < UPAGES) (hV : (lf v).has PTE_V = true) (hok : okPage p)
    (hp : p ∉ T + K + (leafRefs UPAGES lf + X)) (hO₂ : Owns s₂ (T + K) (p ::ₘ (leafRefs UPAGES lf + X)))
    (hk₂ : Keeps s.mem s₂.mem (T + K + (leafRefs UPAGES lf + X)))
    (hf : kfree (PTE2PA (lf v)) ((s₂.memmove p PGSIZE fun i => s₂.mem (PTE2PA (lf v) + i)).setPte a
      (uncowed (lf v) p)) = .ok s') :
    Tree s'.mem r T (Function.update lf v (uncowed (lf v) p)) ∧
      leafRefs UPAGES (Function.update lf v (uncowed (lf v) p)) = p ::ₘ leafOthers UPAGES lf v ∧
      Owns s' (T + K) (leafRefs UPAGES (Function.update lf v (uncowed (lf v) p)) + X) ∧
      Keeps s.mem s'.mem (K + (leafOthers UPAGES lf v + X)) ∧
      ∀ i < 4096, s'.mem (p + i) = s.mem (PTE2PA (lf v) + i) := by
  set old := PTE2PA (lf v) with hold
  have hsplit : leafRefs UPAGES lf = old ::ₘ leafOthers UPAGES lf v := by
    rw [leafRefs_split hvU, pageOf_of_has hV, Multiset.singleton_add]
  have holdF : old ∈ leafRefs UPAGES lf + X := by
    rw [hsplit, Multiset.cons_add]
    exact Multiset.mem_cons_self _ _
  -- the copy goes to a page that nothing refers to
  set s₃ := s₂.memmove p PGSIZE (fun i => s₂.mem (old + i)) with hs₃
  have hm₃ : s₃.mem = s₂.mem.blit p 4096 (fun i => s₂.mem (old + i)) := rfl
  have hk₃ : Keeps s.mem s₃.mem (T + K + (leafRefs UPAGES lf + X)) := by
    intro q hq
    have hne : q ≠ p := fun he => hp (he ▸ hq)
    rw [hm₃]
    exact (hk₂ q hq).trans (pageEq_page hok.1 (hO.alloc.ok hq).1 hne)
  have hcopy : ∀ i < 4096, s₃.mem (p + i) = s.mem (old + i) := by
    intro i hi
    rw [hm₃, ByteStore.blit_add hi]
    exact hk₂ old (Multiset.mem_add.mpr (Or.inr holdF)) i hi
  have hT₃ := hT.congr hk₃.left.left
  have hO₃ : Owns s₃ (T + K) (p ::ₘ (leafRefs UPAGES lf + X)) := hO₂.memmove _ _ _
  obtain ⟨hT₄, hO₄, hk₄⟩ := EntryAt.set hT₃ hO₃ (ha.congr hT hk₃.left.left) hv (uncowed (lf v) p)
  have hrefs : leafRefs UPAGES (Function.update lf v (uncowed (lf v) p)) =
      p ::ₘ leafOthers UPAGES lf v := by
    have hpV : (uncowed (lf v) p).has PTE_V = true :=
      (uncowed_has (by decide) (by decide) (by decide)).trans hV
    rw [leafRefs_update hvU, pageOf_of_has hpV, PTE2PA_uncowed hok, Multiset.singleton_add]
  rw [hsplit, Multiset.cons_add, Multiset.cons_swap, ← Multiset.cons_add, ← hrefs] at hO₄
  obtain ⟨hO₅, hk₅⟩ := hO₄.kfree hf
  refine ⟨hT₄.congr hk₅.left.left, hrefs, hO₅, fun q hq => ?_, fun i hi => ?_⟩
  · have hq' : q ∈ K + (leafRefs UPAGES lf + X) := by
      rw [hsplit, Multiset.cons_add, Multiset.add_cons]
      exact Multiset.mem_cons_of_mem hq
    refine ((hk₃ q ?_).trans (hk₄ q ?_)).trans (hk₅ q ?_)
    · rw [add_assoc]
      exact Multiset.mem_add.mpr (Or.inr hq')
    · rw [Multiset.add_cons]
      exact Multiset.mem_cons_of_mem hq'
    · rw [hrefs, Multiset.cons_add, Multiset.add_cons, add_assoc]
      exact Multiset.mem_cons_of_mem (Multiset.mem_add.mpr (Or.inr hq))
  · rw [← hcopy i hi]
    have h5 : p ∈ T + K + (leafRefs UPAGES (Function.update lf v (uncowed (lf v) p)) + X) := by
      rw [hrefs, Multiset.cons_add, Multiset.add_cons]
      exact Multiset.mem_cons_self _ _
    have h4 : p ∈ K + p ::ₘ (leafRefs UPAGES lf + X) := by
      rw [Multiset.add_cons]
      exact Multiset.mem_cons_self _ _
    exact (hk₅ p h5 i hi).trans (hk₄ p h4 i hi)

/-- **`cow_page_fault`** gives the page of a copy-on-write mapping its own writable copy, or changes
nothing. -/
theorem cow_page_fault_spec {va r : ℕ} {res : ℤ} (hT : Tree s.mem r T lf)
    (hO : Owns s (T + K) (leafRefs UPAGES lf + X)) (htop : TopClosed lf)
    (h : cow_page_fault r va s = .ok (res, s')) :
    (res = -1 ∧ s' = s) ∨ (res = 0 ∧ va / 4096 < UPAGES ∧ (lf (va / 4096)).has PTE_U = true ∧
      (lf (va / 4096)).has PTE_V = true ∧ (lf (va / 4096)).has PTE_COW = true ∧
      ∃ p lf', lf' = Function.update lf (va / 4096) (uncowed (lf (va / 4096)) p) ∧ okPage p ∧
        p ∉ leafRefs UPAGES lf + X ∧ Tree s'.mem r T lf' ∧
        Owns s' (T + K) (leafRefs UPAGES lf' + X) ∧
        leafRefs UPAGES lf' = p ::ₘ leafOthers UPAGES lf (va / 4096) ∧
        Keeps s.mem s'.mem (K + (leafOthers UPAGES lf (va / 4096) + X)) ∧
        ∀ i < 4096, s'.mem (p + i) = s.mem (PTE2PA (lf (va / 4096)) + i)) := by
  unfold cow_page_fault at h
  split_ifs at h with hva
  · cases h
    exact Or.inl ⟨rfl, rfl⟩
  · cases hw : walk r va false s with
    | error e => rw [hw] at h; cases h
    | ok x =>
      obtain ⟨o, s₁⟩ := x
      obtain ⟨hva', rfl, ⟨rfl, -⟩ | ⟨a, rfl, ha⟩⟩ := walk_false_spec hT hw
      · rw [hw] at h
        cases h
        exact Or.inl ⟨rfl, rfl⟩
      · have hv := pageNumber_lt hva'
        have hread := ha.read hT hv
        generalize va / 4096 = v at *
        rw [hw] at h
        simp only [hread, has_flags (show Low PTE_U by decide), has_flags (show Low PTE_V by decide),
          has_flags (show Low PTE_COW by decide)] at h
        split_ifs at h with hfl h0
        · cases h
          exact Or.inl ⟨rfl, rfl⟩
        · cases h
          exact Or.inl ⟨rfl, rfl⟩
        · simp only [not_or, Bool.not_eq_false] at hfl
          obtain ⟨hU, hV, hC⟩ := hfl
          cases hk : kalloc s₁ with
          | mk o s₂ =>
            rw [hk] at h
            rcases hO.kalloc_ref hk with ⟨rfl, rfl, -⟩ | ⟨p, rfl, hok, hp, hO₂, hk₂⟩
            · cases h
              exact Or.inl ⟨rfl, rfl⟩
            · simp only at h
              have hvU : v < UPAGES := by
                by_contra hge
                rw [htop v (not_lt.mp hge) hv] at hU
                cases hU
              cases hf : kfree (PTE2PA (lf v))
                  ((s₂.memmove p PGSIZE fun i => s₂.mem (PTE2PA (lf v) + i)).setPte a
                    (uncowed (lf v) p)) with
              | error e =>
                unfold uncowed at hf
                rw [hf] at h
                cases h
              | ok s₅ =>
                obtain ⟨hT₅, hrefs, hO₅, hk₅, hcopy⟩ :=
                  replace_spec hT hO ha hv hvU hV hok hp hO₂ hk₂ hf
                unfold uncowed at hf
                rw [hf] at h
                cases h
                have hpN : p ∉ leafRefs UPAGES lf + X := fun hm => hp (Multiset.mem_add.mpr (Or.inr hm))
                exact Or.inr ⟨rfl, hvU, hU, hV, hC, p, _, rfl, hok, hpN, hT₅, hO₅, hrefs, hk₅, hcopy⟩

/-- The entry that `cow_page_fault` looks for. -/
def CowEntry (e : Pte) : Prop :=
  e.has PTE_U = true ∧ e.has PTE_V = true ∧ e.has PTE_COW = true

/-- **`cow_page_fault` returns**, and succeeds exactly on a copy-on-write page with memory left. -/
theorem cow_page_fault_total {r : ℕ} (va : ℕ) (hT : Tree s.mem r T lf) (hO : Owns s (T + K) (leafRefs UPAGES lf + X))
    (htop : TopClosed lf) : ∃ res s', cow_page_fault r va s = .ok (res, s') ∧
      (res = 0 ↔ va < MAXVA ∧ CowEntry (lf (va / 4096)) ∧ s.freelist ≠ []) := by
  unfold cow_page_fault
  by_cases hva : MAXVA ≤ va
  · rw [if_pos hva]
    refine ⟨_, _, rfl, fun h => (by omega), fun h => absurd h.1 (not_lt.mpr hva)⟩
  · rw [if_neg hva]
    have hv := pageNumber_lt (not_le.mp hva)
    cases hw : walk r va false s with
    | error e =>
      unfold walk at hw
      rw [if_neg hva] at hw
      cases hw
    | ok y =>
      obtain ⟨o, s₁⟩ := y
      obtain ⟨-, rfl, ⟨rfl, hz⟩ | ⟨a, rfl, ha⟩⟩ := walk_false_spec hT hw
      · refine ⟨_, _, rfl, fun h => (by omega), fun h => ?_⟩
        have hV := h.2.1.2.1
        rw [hz, zero_has] at hV
        cases hV
      · simp only [ha.read hT hv, has_flags (show Low PTE_U by decide),
          has_flags (show Low PTE_V by decide), has_flags (show Low PTE_COW by decide)]
        by_cases hc : CowEntry (lf (va / 4096))
        · obtain ⟨hU, hV, hC⟩ := hc
          rw [if_neg (by simp [hU, hV, hC])]
          have hvU : va / 4096 < UPAGES := by
            by_contra hge
            rw [htop _ (not_lt.mp hge) hv] at hU
            cases hU
          have hold : PTE2PA (lf (va / 4096)) ∈ leafRefs UPAGES lf + X :=
            Multiset.mem_add.mpr (Or.inl (mem_leafRefs.mpr ⟨_, hvU, hV, rfl⟩))
          rw [if_neg (hO.ok_right hold).pos.ne']
          rcases kalloc_spec hO.alloc with ⟨hnil, hk⟩ | ⟨p, s₂, hk, -, -, hA, -⟩
          · rw [hk]
            exact ⟨_, _, rfl, fun h => (by omega), fun h => absurd hnil h.2.2⟩
          · obtain ⟨R, hR⟩ := Multiset.exists_cons_of_mem
              (Multiset.mem_cons_of_mem (b := p) (Multiset.mem_add.mpr (Or.inr hold)) :
                PTE2PA (lf (va / 4096)) ∈ p ::ₘ (T + K + (leafRefs UPAGES lf + X)))
            rw [hR] at hA
            -- the copy and the new entry do not concern the allocator
            obtain ⟨s₃, hs₃, -⟩ := kfree_spec (s := (s₂.memmove p PGSIZE
              (fun i => s₂.mem (PTE2PA (lf (va / 4096)) + i))).setPte a
                (PA2PTE p ||| ((PTE_FLAGS (lf (va / 4096)) ||| PTE_W) &&& ~~~PTE_COW))) hA
            have hne : s₁.freelist ≠ [] := by
              intro hnil
              unfold kalloc at hk
              rw [hnil] at hk
              cases hk
            simp only [hk, hs₃]
            exact ⟨_, _, rfl, fun _ => ⟨not_le.mp hva, ⟨hU, hV, hC⟩, hne⟩, fun _ => rfl⟩
        · rw [if_pos]
          · exact ⟨_, _, rfl, fun h => (by omega), fun h => absurd h.2.1 hc⟩
          · unfold CowEntry at hc
            simp only [← Bool.not_eq_true]
            tauto

/-! ## Pages outside the allocator's range -/

/-- Memory that the allocator does not manage keeps its contents. -/
def Outside (m m' : ByteStore) : Prop := ∀ q, q % 4096 = 0 → ¬ okPage q → PageEq m m' q

theorem Outside.trans {m m' m'' : ByteStore} (h : Outside m m') (h' : Outside m' m'') : Outside m m'' :=
  fun q hq hn => (h q hq hn).trans (h' q hq hn)

theorem okPage.ne {p q : ℕ} (hp : okPage p) (hq : ¬ okPage q) : q ≠ p := fun he => hq (he ▸ hp)

/-- A write into a page of the allocator's range. -/
theorem outside_blit {m : ByteStore} {p off : ℕ} (hp : okPage p) (hn : off + n ≤ 4096)
    (src : ℕ → UInt8) : Outside m (m.blit (p + off) n src) := by
  intro q hq hnot
  exact pageEq_blit hp.1 hq (hp.ne hnot) hn

theorem kalloc_outside {R : Multiset ℕ} {o : Option ℕ} (h : Alloc s R) (hk : kalloc s = (o, s')) :
    Outside s.mem s'.mem := by
  unfold kalloc at hk
  cases hf : s.freelist with
  | nil =>
    rw [hf] at hk
    cases hk
    exact fun q _ _ => PageEq.refl _ q
  | cons p next =>
    rw [hf] at hk
    cases hk
    have hp : okPage p := ((h.free_iff p).mp (by rw [hf]; exact List.mem_cons_self)).1
    exact fun q hq hn => pageEq_fill hp.1 hq (hp.ne hn)

theorem kfree_outside {p : ℕ} (hk : kfree p s = .ok s') : Outside s.mem s'.mem := by
  unfold kfree at hk
  split_ifs at hk with hg
  simp only [not_or, ne_eq, not_not, not_lt, not_le] at hg
  dsimp only at hk
  split_ifs at hk with h0
  · cases hk
    exact fun q _ _ => PageEq.refl _ q
  · cases hk
    exact fun q hq hn => pageEq_fill hg.1 hq (okPage.ne hg hn)

theorem cow_page_fault_outside {r va : ℕ} {res : ℤ} (hT : Tree s.mem r T lf)
    (hO : Owns s (T + K) F) (h : cow_page_fault r va s = .ok (res, s')) : Outside s.mem s'.mem := by
  have hrefl : Outside s.mem s.mem := fun q _ _ => PageEq.refl _ q
  unfold cow_page_fault at h
  split_ifs at h with hva
  · cases h
    exact hrefl
  cases hw : walk r va false s with
  | error e => rw [hw] at h; cases h
  | ok x =>
    obtain ⟨o, s₁⟩ := x
    obtain ⟨-, rfl, ⟨rfl, -⟩ | ⟨a, rfl, ha⟩⟩ := walk_false_spec hT hw
    · rw [hw] at h
      cases h
      exact hrefl
    rw [hw] at h
    dsimp only at h
    split_ifs at h
    · cases h
      exact hrefl
    · cases h
      exact hrefl
    cases hk : kalloc s₁ with
    | mk o s₂ =>
      rw [hk] at h
      have h₁ := kalloc_outside hO.alloc hk
      rcases kalloc_spec hO.alloc with ⟨-, hk'⟩ | ⟨p, t, hk', hok, -⟩
      · rw [hk] at hk'
        cases hk'
        cases h
        exact hrefl
      · rw [hk] at hk'
        cases hk'
        dsimp only at h
        cases hf : kfree (PTE2PA (readPte s₁.mem a)) ((s₂.memmove p PGSIZE
            (fun i => s₂.mem (PTE2PA (readPte s₁.mem a) + i))).setPte a
              (PA2PTE p ||| ((PTE_FLAGS (readPte s₁.mem a) ||| PTE_W) &&& ~~~PTE_COW))) with
        | error e => rw [hf] at h; cases h
        | ok s₃ =>
          rw [hf] at h
          cases h
          obtain ⟨t, ht, rfl⟩ := ha.mem hT
          have hta := hO.ok_left (Multiset.mem_add.mpr (Or.inl ht))
          have h₂ : Outside s₂.mem (s₂.mem.blit p 4096
              fun i => s₂.mem (PTE2PA (readPte s₁.mem (t + 8 * indexAt 0 (va / 4096))) + i)) :=
            fun q hq hn => pageEq_page hok.1 hq (hok.ne hn)
          have h₃ : ∀ m e, Outside m (writePte m (t + 8 * indexAt 0 (va / 4096)) e) := fun m e q hq hn =>
            pageEq_writePte hta.1 hq (hta.ne hn) (indexAt_lt 0 _)
          exact ((h₁.trans h₂).trans (h₃ _ _)).trans (kfree_outside hf)

end Xv6
