import Xv6.Kernel.System
import Xv6.Mem.Heap
import Xv6.Mem.UserString

/-!
# Transfer — when `copyout` succeeds, and what `copyin` reads then

`Writable free lf F va len` says, of the entries `lf`, the references `F` and the number of free pages,
that a write of `len` bytes at `va` goes through: every address is mapped for user code, and each
copy-on-write page on the way finds a free page for its copy.
-/

namespace Xv6

/-- The pages of the addresses `va, …, va + len - 1`. -/
def touched (va len : ℕ) : List ℕ :=
  if len = 0 then [] else List.range' (va / 4096) ((va + len - 1) / 4096 - va / 4096 + 1)

/-- The physical pages that a write of `len` bytes at `va` has to copy, in order. -/
def cowPages (lf : ℕ → Pte) (va len : ℕ) : List ℕ :=
  ((touched va len).filter fun v => (lf v).has PTE_COW).map fun v => PTE2PA (lf v)

/-- With `free` free pages, each page of the list can be copied in turn; a page that loses its last
reference in `F` is free afterwards. -/
def CowRoom : ℕ → Multiset ℕ → List ℕ → Prop
  | _, _, [] => True
  | free, F, p :: ps => 0 < free ∧ CowRoom (if F.count p = 1 then free else free - 1) (F.erase p) ps

structure Writable (free : ℕ) (lf : ℕ → Pte) (F : Multiset ℕ) (va len : ℕ) : Prop where
  user : ∀ a, va ≤ a → a < va + len → UserPage lf a
  room : CowRoom free F (cowPages lf va len)

section

variable {free va len n : ℕ} {lf lf' : ℕ → Pte} {F F' : Multiset ℕ} {ps : List ℕ}

theorem cowRoom_congr (h : ∀ p ∈ ps, F'.count p = F.count p) : CowRoom free F' ps ↔ CowRoom free F ps := by
  induction ps generalizing free F F' with
  | nil => exact Iff.rfl
  | cons p ps ih =>
    rw [CowRoom, CowRoom, h p List.mem_cons_self]
    refine and_congr_right fun _ => ih fun q hq => ?_
    have hcount := h q (List.mem_cons_of_mem p hq)
    by_cases hqp : q = p
    · subst hqp
      rw [Multiset.count_erase_self, Multiset.count_erase_self, hcount]
    · rw [Multiset.count_erase_of_ne hqp, Multiset.count_erase_of_ne hqp, hcount]

theorem writable_zero : Writable free lf F va 0 := ⟨fun a h1 h2 => absurd h2 (by omega), trivial⟩

theorem touched_succ (h : len ≠ 0) :
    touched va len = va / 4096 :: List.range' (va / 4096 + 1) ((va + len - 1) / 4096 - va / 4096) := by
  rw [touched, if_neg h, List.range'_succ]

theorem mem_touched {v : ℕ} : v ∈ touched va len ↔ ∃ a, va ≤ a ∧ a < va + len ∧ a / 4096 = v := by
  unfold touched
  split_ifs with h
  · subst h
    simp only [List.not_mem_nil, false_iff, not_exists]
    intro a
    omega
  · rw [List.mem_range'_1]
    constructor
    · rintro ⟨h1, h2⟩
      exact ⟨max va (v * 4096), le_max_left _ _, by omega, by omega⟩
    · rintro ⟨a, h1, h2, rfl⟩
      omega

/-- After a write that ends in the first page, no page before the next is copy-on-write. -/
theorem cowPages_split (h0 : 0 < n) (hn : n ≤ len) (hpage : va % 4096 + n ≤ 4096)
    (hown : (lf' (va / 4096)).has PTE_COW = false) (hother : ∀ w, w ≠ va / 4096 → lf' w = lf w) :
    cowPages lf va len =
      (if (lf (va / 4096)).has PTE_COW then [PTE2PA (lf (va / 4096))] else []) ++
        cowPages lf' (va + n) (len - n) := by
  -- the pages behind the first one
  generalize hrest : List.range' (va / 4096 + 1) ((va + len - 1) / 4096 - va / 4096) = rest
  have hne : ∀ w ∈ rest, w ≠ va / 4096 := by
    intro w hw
    rw [← hrest, List.mem_range'_1] at hw
    omega
  have hsame : ((rest.filter fun v => (lf' v).has PTE_COW).map fun v => PTE2PA (lf' v)) =
      (rest.filter fun v => (lf v).has PTE_COW).map fun v => PTE2PA (lf v) := by
    rw [List.filter_congr fun w hw => by rw [hother w (hne w hw)]]
    exact List.map_congr_left fun w hw => by rw [hother w (hne w (List.mem_of_mem_filter hw))]
  have hnext : cowPages lf' (va + n) (len - n) =
      (rest.filter fun v => (lf v).has PTE_COW).map fun v => PTE2PA (lf v) := by
    unfold cowPages
    rw [← hsame]
    by_cases hlen : len - n = 0
    · have hnil : rest = [] := by
        rw [← hrest, show (va + len - 1) / 4096 - va / 4096 = 0 by omega]
        rfl
      rw [hlen, hnil]
      rfl
    by_cases hin : (va + n) / 4096 = va / 4096
    · rw [touched_succ hlen, hin, show va + n + (len - n) - 1 = va + len - 1 by omega, hrest,
        List.filter_cons_of_neg (by rw [hown]; decide)]
    · rw [touched, if_neg hlen, show (va + n) / 4096 = va / 4096 + 1 by omega,
        show (va + n + (len - n) - 1) / 4096 - (va / 4096 + 1) + 1 =
          (va + len - 1) / 4096 - va / 4096 by omega, hrest]
  rw [hnext]
  unfold cowPages
  rw [touched_succ (by omega), hrest]
  split_ifs with hC
  · rw [List.filter_cons_of_pos (by exact hC)]
    rfl
  · rw [List.filter_cons_of_neg (by exact hC)]
    rfl

theorem UserPage.congr {a : ℕ} (hu : Uncowed lf lf') : UserPage lf' a ↔ UserPage lf a := by
  unfold UserPage
  rw [hu.V, hu.has (by decide) (by decide) (by decide)]

/-- Two addresses of one page. -/
theorem UserPage.same {a : ℕ} (h : UserPage lf va) (ha : a / 4096 = va / 4096) : UserPage lf a := by
  obtain ⟨h1, h2⟩ := h
  refine ⟨?_, by rwa [ha]⟩
  simp only [MAXVA] at h1 ⊢
  omega

/-- Bytes within a page that user code can write to. -/
theorem Writable.of_page (hp : UserPage lf va) (hC : (lf (va / 4096)).has PTE_COW = false)
    (hpage : va % 4096 + len ≤ 4096) : Writable free lf F va len := by
  have hnil : cowPages lf va len = [] := by
    unfold cowPages
    rw [List.map_eq_nil_iff, List.filter_eq_nil_iff]
    intro v hv
    obtain ⟨a, h1, h2, rfl⟩ := mem_touched.mp hv
    rw [show a / 4096 = va / 4096 by omega, hC]
    decide
  refine ⟨fun a h1 h2 => hp.same (by omega), ?_⟩
  rw [hnil]
  trivial

end

section

variable [Image] {s s' t : Phys} {r va n len : ℕ} {T K X : Multiset ℕ} {lf lf' : ℕ → Pte} {src : ℕ → UInt8}

/-- The free pages once page `v` is ready. -/
theorem Ready.length_free {v : ℕ} (hr : Ready s t r T lf lf' K X v) (h : Space s r T lf K X)
    (hv : v < UPAGES) (hV : (lf v).has PTE_V = true) (hC : (lf v).has PTE_COW = true) :
    t.freelist.length = if (leafRefs UPAGES lf + X).count (PTE2PA (lf v)) = 1 then s.freelist.length
      else s.freelist.length - 1 := by
  obtain ⟨p, hp, hrefs⟩ := hr.copied hC
  have hsplit : leafRefs UPAGES lf + X = PTE2PA (lf v) ::ₘ (leafOthers UPAGES lf v + X) := by
    rw [leafRefs_split hv, pageOf_of_has hV, Multiset.singleton_add, Multiset.cons_add]
  have hO := h.owns.alloc
  have hO' := hr.space.owns.alloc
  have hpT : p ∉ T + K := fun hm => Multiset.disjoint_left.mp hr.space.owns.disj hm
    (Multiset.mem_add.mpr (Or.inl (by rw [hrefs]; exact Multiset.mem_cons_self _ _)))
  have hqT : PTE2PA (lf v) ∉ T + K := fun hm => Multiset.disjoint_left.mp h.owns.disj hm
    (by rw [hsplit]; exact Multiset.mem_cons_self _ _)
  rw [hsplit] at hp
  rw [hsplit, Multiset.add_cons] at hO
  rw [hrefs, Multiset.cons_add, Multiset.add_cons] at hO'
  have hpR : p ∉ PTE2PA (lf v) ::ₘ (T + K + (leafOthers UPAGES lf v + X)) := by
    intro hm
    rcases Multiset.mem_cons.mp hm with rfl | hm
    · exact hp (Multiset.mem_cons_self _ _)
    · rcases Multiset.mem_add.mp hm with hm | hm
      · exact hpT hm
      · exact hp (Multiset.mem_cons_of_mem hm)
  rw [hsplit, Multiset.count_cons_self]
  by_cases hq : PTE2PA (lf v) ∈ leafOthers UPAGES lf v + X
  · have hcount := Multiset.count_pos.mpr hq
    have hmem : PTE2PA (lf v) ∈ T + K + (leafOthers UPAGES lf v + X) := Multiset.mem_add.mpr (Or.inr hq)
    rw [if_neg (by omega), hO.length_succ hO' hpR fun x => ?_, Nat.add_sub_cancel]
    rw [Multiset.mem_cons, Multiset.mem_cons]
    refine or_congr_right ⟨Or.inr, fun hx => hx.elim (fun he => he ▸ hmem) id⟩
  · have hnot : PTE2PA (lf v) ∉ T + K + (leafOthers UPAGES lf v + X) :=
      fun hm => (Multiset.mem_add.mp hm).elim hqT hq
    rw [if_pos (by rw [Multiset.count_eq_zero.mpr hq]), hO.length_swap hO' hpR hnot rfl]

/-- **One step of a write**: the first bytes, as far as they are in one page, and the rest. -/
theorem Ready.writable_iff (hr : Ready s t r T lf lf' K X (va / 4096)) (h : Space s r T lf K X)
    (hp : UserPage lf va) (hfree : (lf (va / 4096)).has PTE_COW = true → s.freelist ≠ [])
    (h0 : 0 < n) (hn : n ≤ len) (hpage : va % 4096 + n ≤ 4096) :
    Writable s.freelist.length lf (leafRefs UPAGES lf + X) va len ↔
      Writable t.freelist.length lf' (leafRefs UPAGES lf' + X) (va + n) (len - n) := by
  have hv := h.lt_upages hp
  have huser : (∀ a, va ≤ a → a < va + len → UserPage lf a) ↔
      ∀ a, va + n ≤ a → a < va + n + (len - n) → UserPage lf' a := by
    constructor
    · intro hall a h1 h2
      exact (UserPage.congr hr.poked.uncowed).mpr (hall a (by omega) (by omega))
    · intro hall a h1 h2
      by_cases hlt : a < va + n
      · exact hp.same (by omega)
      · exact (UserPage.congr hr.poked.uncowed).mp (hall a (by omega) (by omega))
  have hroom : (∀ a, va + n ≤ a → a < va + n + (len - n) → UserPage lf' a) →
      (CowRoom s.freelist.length (leafRefs UPAGES lf + X) (cowPages lf va len) ↔
        CowRoom t.freelist.length (leafRefs UPAGES lf' + X) (cowPages lf' (va + n) (len - n))) := by
    intro hall
    rw [cowPages_split h0 hn hpage hr.own hr.other]
    by_cases hC : (lf (va / 4096)).has PTE_COW = true
    · obtain ⟨p, hpF, hrefs⟩ := hr.copied hC
      have hlen := hr.length_free h hv hp.2.1 hC
      have hpos := List.length_pos_iff.mpr (hfree hC)
      have hsplit : leafRefs UPAGES lf + X = PTE2PA (lf (va / 4096)) ::ₘ (leafOthers UPAGES lf (va / 4096) + X) := by
        rw [leafRefs_split hv, pageOf_of_has hp.2.1, Multiset.singleton_add, Multiset.cons_add]
      rw [if_pos hC, List.singleton_append, CowRoom, ← hlen, and_iff_right hpos]
      -- the pages that are still to be copied have lost no reference
      refine cowRoom_congr fun q hq => ?_
      obtain ⟨w, hw, rfl⟩ := List.mem_map.mp hq
      obtain ⟨hw, hwC⟩ := List.mem_filter.mp hw
      obtain ⟨a, h1, h2, rfl⟩ := mem_touched.mp hw
      have hwne : a / 4096 ≠ va / 4096 := fun he => by
        rw [he, hr.own] at hwC
        cases hwC
      have hpa := hall a h1 h2
      have hmem : PTE2PA (lf (a / 4096)) ∈ leafRefs UPAGES lf + X := by
        rw [UserPage.congr hr.poked.uncowed] at hpa
        exact Multiset.mem_add.mpr (Or.inl (mem_leafRefs.mpr ⟨_, h.lt_upages hpa, hpa.2.1, rfl⟩))
      have hqp : PTE2PA (lf (a / 4096)) ≠ p := fun he => hpF (he ▸ hmem)
      rw [hr.other _ hwne, hrefs, Multiset.cons_add, Multiset.count_cons_of_ne hqp, hsplit,
        Multiset.erase_cons_head]
    · obtain ⟨rfl, rfl⟩ := hr.kept (Bool.eq_false_iff.mpr hC)
      rw [if_neg hC, List.nil_append]
  constructor
  · rintro ⟨h1, h2⟩
    exact ⟨huser.mp h1, (hroom (huser.mp h1)).mp h2⟩
  · rintro ⟨h1, h2⟩
    exact ⟨huser.mpr h1, (hroom h1).mpr h2⟩

/-! ## `copyout` -/

omit [Image] in
/-- The first round of a write that goes through. -/
theorem Writable.head {free : ℕ} {F : Multiset ℕ} (h : Writable free lf F va len) (hlen : len ≠ 0) :
    UserPage lf va ∧ ((lf (va / 4096)).has PTE_COW = true → 0 < free) := by
  refine ⟨h.user va le_rfl (by omega), fun hC => ?_⟩
  have hroom := h.room
  rw [cowPages, touched_succ hlen, List.filter_cons_of_pos (by exact hC), List.map_cons] at hroom
  exact hroom.1

/-- **`copyout` returns**, and succeeds exactly if the bytes can be written. -/
theorem copyoutLoop_total {rounds : ℕ} (dstva len : ℕ) (src : ℕ → UInt8) (h : Space s r T lf K X)
    (hle : len ≤ rounds) :
    ∃ left s', copyoutLoop r rounds dstva src len s = .ok (left, s') ∧
      (left = 0 ↔ Writable s.freelist.length lf (leafRefs UPAGES lf + X) dstva len) := by
  induction rounds generalizing dstva src len s lf with
  | zero =>
    obtain rfl : len = 0 := by omega
    exact ⟨0, s, rfl, fun _ => writable_zero, fun _ => rfl⟩
  | succ rounds ih =>
    by_cases hlen : len = 0
    · subst hlen
      exact ⟨0, s, rfl, fun _ => writable_zero, fun _ => rfl⟩
    rcases copyout_round rounds dstva len src h hlen with ⟨hno, hx⟩ | ⟨hp, hfree, t, lf₁, hr, hx⟩
    · refine ⟨len, s, hx, fun h0 => absurd h0 hlen, fun hw => absurd (hw.head hlen) fun hh => hno ?_⟩
      exact ⟨hh.1, fun hC => List.length_pos_iff.mp (hh.2 hC)⟩
    · generalize hn : min (4096 - dstva % 4096) len = n at hx
      have hW : Wrote s _ r T lf lf₁ K X (dstva / 4096 * 4096 + dstva % 4096) n src :=
        page_write hr (h.lt_upages hp) hp.2.1 hp.2.2 (by omega) (by omega)
      obtain ⟨left, s', hs', hiff⟩ := ih (dstva / 4096 * 4096 + 4096) (len - n)
        (fun i => src (n + i)) hW.space (by omega)
      refine ⟨left, s', hx.trans hs', hiff.trans ?_⟩
      rw [hr.writable_iff h hp hfree (by omega) (show n ≤ len by omega) (by omega)]
      by_cases hlast : len - n = 0
      · rw [hlast]
        exact ⟨fun _ => writable_zero, fun _ => writable_zero⟩
      · rw [show dstva / 4096 * 4096 + 4096 = dstva + n by omega]
        exact Iff.rfl

theorem copyout_total (dstva len : ℕ) (src : ℕ → UInt8) (h : Space s r T lf K X) :
    ∃ res s', copyout r dstva src len s = .ok (res, s') ∧ (res = 0 ∨ res = -1) ∧
      (res = 0 ↔ Writable s.freelist.length lf (leafRefs UPAGES lf + X) dstva len) := by
  obtain ⟨left, s', hl, hiff⟩ := copyoutLoop_total dstva len src h le_rfl
  unfold copyout
  rw [hl]
  by_cases h0 : left = 0
  · exact ⟨0, s', by simp only [h0, if_true], Or.inl rfl, fun _ => hiff.mp h0, fun _ => rfl⟩
  · exact ⟨-1, s', by simp only [h0, if_false], Or.inr rfl, fun h' => absurd h' (by decide),
      fun hw => absurd (hiff.mpr hw) h0⟩

/-! ## `copyin` -/

omit [Image] in
theorem UserMapped.userPage (hT : Tree s.mem r T lf) (h : UserMapped r va s) : UserPage lf va := by
  obtain ⟨hva, hV, hU, -⟩ := h
  rw [pteOf_spec hT hva] at hV hU
  exact ⟨hva, hV, hU⟩

/-- In the kernel's page tables no user page is the page at the null pointer. -/
theorem UserPage.userMapped (h : Space s r T lf K X) (hp : UserPage lf va) : UserMapped r va s := by
  have hok : okPage (PTE2PA (lf (va / 4096))) := h.owns.ok_right
    (Multiset.mem_add.mpr (Or.inl (mem_leafRefs.mpr ⟨_, h.lt_upages hp, hp.2.1, rfl⟩)))
  unfold UserMapped
  rw [pteOf_spec h.tree hp.1]
  exact ⟨hp.1, hp.2.1, hp.2.2, hok.pos.ne'⟩

/-- **`copyin` returns the bytes** if all addresses are mapped for user code, and fails else. -/
theorem copyin_eq (srcva len : ℕ) (h : Space s r T lf K X) : 
    ((∀ a, srcva ≤ a → a < srcva + len → UserPage lf a) → copyin r srcva len s =
      some ((List.range len).map fun i => userByte s.mem lf (srcva + i))) ∧
    ((∃ a, srcva ≤ a ∧ a < srcva + len ∧ ¬ UserPage lf a) → copyin r srcva len s = none) := by
  have hle : accessible (fun i => (userSrc r srcva s i).isSome) len ≤ len := Fs.accessible_le
  have hloop := copyinLoop_eq r s len srcva len le_rfl
  constructor
  · intro hall
    have hsrc : ∀ i < len, userSrc r srcva s i = some (userByte s.mem lf (srcva + i)) := by
      intro i hi
      have hp := hall (srcva + i) (by omega) (by omega)
      rw [userSrc_eq, if_pos (hp.userMapped h), byteOf, pteOf_spec h.tree hp.1]
      rfl
    have hacc : accessible (fun i => (userSrc r srcva s i).isSome) len = len :=
      Fs.accessible_eq fun i hi => by rw [hsrc i hi]; rfl
    rw [copyin, hloop, hacc, Nat.sub_self]
    exact congrArg some (List.map_congr_left fun i hi => by
      rw [hsrc i (List.mem_range.mp hi), Option.getD_some])
  · rintro ⟨a, h1, h2, hno⟩
    have hlt : accessible (fun i => (userSrc r srcva s i).isSome) len < len := by
      refine lt_of_le_of_ne hle fun heq => ?_
      have hin : a - srcva < accessible (fun i => (userSrc r srcva s i).isSome) len := by omega
      have hsome : (userSrc r srcva s (a - srcva)).isSome = true := Fs.accessible_lt hin
      rw [userSrc_eq, show srcva + (a - srcva) = a by omega] at hsome
      split_ifs at hsome with hm
      · exact hno (hm.userPage h.tree)
      · cases hsome
    obtain ⟨l, hl⟩ : ∃ l, len - accessible (fun i => (userSrc r srcva s i).isSome) len = l + 1 :=
      ⟨_, by rw [Nat.sub_add_cancel]; omega⟩
    rw [copyin, hloop, hl]

/-! ## The two together -/

omit [Image] in
theorem PTE2PA_mod (e : Pte) : PTE2PA e % 4096 = 0 := by
  unfold PTE2PA
  simp only [BitVec.toNat_shiftLeft, BitVec.toNat_ushiftRight, Nat.shiftLeft_eq,
    Nat.shiftRight_eq_div_pow]
  omega

/-- `len` bytes of `src` have been written at `dstva`, and nothing else has changed: not in this address
space, whose entries are now `lf'`, and not in the address space of any other page table, made of the
tables `K` and the pages `X`.  Pages outside the allocator's range are the kernel's own. -/
structure Transferred (s s' : Phys) (r : ℕ) (T : Multiset ℕ) (lf lf' : ℕ → Pte) (K X : Multiset ℕ)
    (dstva len : ℕ) (src : ℕ → UInt8) : Prop where
  space : Space s' r T lf' K X
  mapped : ∀ v, (lf' v).has PTE_V = (lf v).has PTE_V
  uncowed : ∀ a, dstva ≤ a → a < dstva + len → (lf' (a / 4096)).has PTE_COW = false
  written : ∀ a, dstva ≤ a → a < dstva + len → userByte s'.mem lf' a = src (a - dstva)
  frame : ∀ a, a / 4096 < UPAGES → (lf (a / 4096)).has PTE_V = true → a < dstva ∨ dstva + len ≤ a →
    userByte s'.mem lf' a = userByte s.mem lf a
  top : ∀ a, UPAGES ≤ a / 4096 → PTE2PA (lf (a / 4096)) ∈ K ∨ ¬ okPage (PTE2PA (lf (a / 4096))) →
    userByte s'.mem lf' a = userByte s.mem lf a
  others : ∀ r₂ T₂ lf₂, Tree s.mem r₂ T₂ lf₂ → (∀ t ∈ T₂, t ∈ K) → Tree s'.mem r₂ T₂ lf₂ ∧
    ∀ a, PTE2PA (lf₂ (a / 4096)) ∈ K + X ∨ ¬ okPage (PTE2PA (lf₂ (a / 4096))) →
      userByte s'.mem lf₂ a = userByte s.mem lf₂ a

theorem Wrote.transferred (h : Wrote s s' r T lf lf' K X va len src) :
    Transferred s s' r T lf lf' K X va len src := by
  have hpage : ∀ e, PTE2PA e ∈ K + X ∨ ¬ okPage (PTE2PA e) → PageEq s.mem s'.mem (PTE2PA e) := by
    rintro e (he | he)
    · exact h.poked.keeps _ he
    · exact h.outside _ (PTE2PA_mod e) he
  refine ⟨h.space, h.poked.uncowed.V, h.own, fun a h1 h2 => ?_, fun a ha hV hout => ?_,
    fun a ha hK => ?_, fun r₂ T₂ lf₂ hT hK => ⟨hT.congr fun t ht => h.poked.keeps t ?_, fun a ha => ?_⟩⟩
  · obtain ⟨hv, hV, -⟩ := h.user a h1 h2
    rw [h.byte a hv hV, if_pos ⟨h1, h2⟩]
  · rw [h.byte a ha hV, if_neg (by omega)]
  · rcases h.only (a / 4096) with he | ⟨b, h1, h2, hb⟩
    · unfold userByte
      rw [he]
      exact hpage _ (hK.imp_left fun hm => Multiset.mem_add.mpr (Or.inl hm)) _ (Nat.mod_lt _ (by decide))
    · have hv := (h.user b h1 h2).1
      rw [hb] at hv
      exact absurd ha (not_le.mpr hv)
  · exact Multiset.mem_add.mpr (Or.inl (hK t ht))
  · exact hpage _ ha _ (Nat.mod_lt _ (by decide))

/-- **`copyout` and `copyin` are inverse and framed**: `copyout` always returns, with success exactly if
every touched page is mapped for user code and each copy-on-write page among them can be copied; then
`copyin` reads the bytes back, nothing else has changed, and no touched page is copy-on-write.  A range
that passes `MAXVA` is refused by both, and `walkaddr` does not panic. -/
theorem copyout_copyin (dstva len : ℕ) (src : ℕ → UInt8) (h : Space s r T lf K X) :
    ∃ res s', copyout r dstva src len s = .ok (res, s') ∧ (res = 0 ∨ res = -1) ∧
      (res = 0 ↔ Writable s.freelist.length lf (leafRefs UPAGES lf + X) dstva len) ∧
      (res = 0 → copyin r dstva len s' = some ((List.range len).map src) ∧
        ∃ lf', Transferred s s' r T lf lf' K X dstva len src) ∧
      (0 < len → MAXVA < dstva + len → res = -1 ∧ copyin r dstva len s = none) ∧
      ∀ va, walkaddrCall r va s = .ok (walkaddr r va s) := by
  obtain ⟨res, s', hc, hres, hiff⟩ := copyout_total dstva len src h
  refine ⟨res, s', hc, hres, hiff, fun h0 => ?_, fun hlen hmax => ?_, fun _ => walkaddrCall_eq⟩
  · obtain ⟨lf', n, hW, -, hn⟩ := copyout_spec h hc
    obtain rfl := hn h0
    have ht := hW.transferred
    refine ⟨?_, lf', ht⟩
    have huser : ∀ a, dstva ≤ a → a < dstva + n → UserPage lf' a := fun a h1 h2 =>
      (UserPage.congr hW.poked.uncowed).mpr ((hiff.mp h0).user a h1 h2)
    rw [(copyin_eq dstva n ht.space).1 huser]
    refine congrArg some (List.map_congr_left fun i hi => ?_)
    have hi := List.mem_range.mp hi
    rw [ht.written (dstva + i) (by omega) (by omega), Nat.add_sub_cancel_left]
  · -- the first address from `MAXVA` on
    have hno : ∃ a, dstva ≤ a ∧ a < dstva + len ∧ ¬ UserPage lf a :=
      ⟨max dstva MAXVA, le_max_left _ _, max_lt (by omega) hmax,
        fun hp => absurd hp.1 (not_lt.mpr (le_max_right _ _))⟩
    refine ⟨?_, (copyin_eq dstva len h).2 hno⟩
    obtain ⟨a, h1, h2, hp⟩ := hno
    rcases hres with h0 | h0
    · exact absurd ((hiff.mp h0).user a h1 h2) hp
    · exact h0

/-- No page is in use. -/
theorem Alloc.heap (h : Alloc s 0) : Heap s 0 0 0 := by
  refine ⟨⟨h, Multiset.nodup_zero, Multiset.disjoint_left.mpr fun _ h => ?_⟩, fun q h => ?_⟩
  · exact absurd h (Multiset.notMem_zero _)
  · exact absurd h (Multiset.notMem_zero q)

/-- A new page table with `sz` bytes of memory, on a machine that has just booted. -/
def grown (sz : ℕ) : Except Panic (Option (ℕ × Phys)) :=
  match kinit fun _ => 0 with
  | .error e => .error e
  | .ok s =>
    match uvmcreate s with
    | (none, _) => .ok none
    | (some pagetable, s) => (uvmalloc pagetable 0 sz PTE_W s).map fun (_, s) => some (pagetable, s)

theorem grown_heap {sz : ℕ} (hsz : sz ≤ TRAPFRAME) (hg : grown sz = .ok (some (r, s))) :
    Heap s {r} 0 0 := by
  obtain ⟨s₀, hs₀, hA⟩ := kinit_spec fun _ => 0
  have h₀ := hA.heap
  unfold grown at hg
  rw [hs₀] at hg
  dsimp only at hg
  cases hc : uvmcreate s₀ with
  | mk o s₁ =>
    rw [hc] at hg
    cases o with
    | none => cases hg
    | some pagetable =>
      obtain ⟨x, hx, he⟩ := map_ok hg
      obtain ⟨res, s₂⟩ := x
      cases he
      rcases h₀.uvmcreate hc with ⟨h, -⟩ | ⟨q, hq, -, h₁, -⟩
      · cases h
      · cases hq
        exact (h₁.uvmalloc (by decide) (Nat.zero_le _) (Or.inr hsz) hx).1

end

theorem smallPhys_alloc : @Alloc smallImage smallPhys 0 := by
  obtain ⟨s, hs, hA⟩ := @kinit_spec smallImage fun _ => 0
  have he : smallPhys = s := by
    unfold smallPhys
    rw [hs]
  rwa [he]

/-- The call returns `0` in the state that `grown` leaves. -/
def copiesOut [Image] (dstva len : ℕ) : Except Panic (Option (ℕ × Phys)) → Bool
  | .ok (some (pagetable, s)) => match copyout pagetable dstva (fun _ => 7) len s with
    | .ok (r, _) => r == 0
    | .error _ => false
  | _ => false

theorem copiesOut_page : @copiesOut smallImage 4090 6 (@grown smallImage 4096) = true := by
  decide +kernel

/-- Six bytes at the end of a page. -/
theorem copyout_copyin_page : ∃ r s s', @grown smallImage 4096 = .ok (some (r, s)) ∧
    @copyout smallImage r 4090 (fun _ => 7) 6 s = .ok (0, s') ∧
      copyin r 4090 6 s' = some [7, 7, 7, 7, 7, 7] := by
  let _ := smallImage
  have hpage := copiesOut_page
  cases hg : grown 4096 with
  | error e => rw [hg] at hpage; cases hpage
  | ok o =>
    obtain _ | ⟨r, s⟩ := o
    · rw [hg] at hpage
      cases hpage
    obtain ⟨res, s', hc, -, -, hin, -⟩ :=
      copyout_copyin 4090 6 (fun _ => 7) (grown_heap (by decide) hg).space
    rw [hg] at hpage
    simp only [copiesOut, hc, beq_iff_eq] at hpage
    subst hpage
    exact ⟨r, s, s', rfl, hc, (hin rfl).1⟩

end Xv6
