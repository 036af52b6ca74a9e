import Mathlib.Data.List.Nodup
import Mathlib.Data.Multiset.Count
import Mathlib.Data.Multiset.Dedup
import Mathlib.Data.Multiset.FinsetOps
import Mathlib.Data.Multiset.UnionInter

/-!
# RefCount — reference-counted allocation

An allocator keeps a free list and a counter for every page of a range.  `Counted ok lim free cnt R`
says that it accounts for the multiset `R` of references: exactly the pages of the range without a
reference are free, none twice, and the counter of every page is the number of its references (0 for a
free page), which stays below `lim`.

The four rules are the ways an allocator can change the references: `alloc` (a first reference to a
free page), `share` (one more reference), `release` (one reference less, the page stays in use) and
`release_last` (the page becomes free).
-/

namespace RefCount

variable {P : Type*} [DecidableEq P]

/-- The free list `free` and the counters `cnt` account for the references `R` to pages of `ok`. -/
structure Counted (ok : P → Prop) (lim : ℕ) (free : List P) (cnt : P → ℤ) (R : Multiset P) :
    Prop where
  nodup : free.Nodup
  free_iff : ∀ p, p ∈ free ↔ ok p ∧ p ∉ R
  mem_ok : ∀ p ∈ R, ok p
  cnt_eq : ∀ p, ok p → cnt p = R.count p
  lt_lim : ∀ p, R.count p < lim

variable {ok : P → Prop} {lim : ℕ} {free : List P} {cnt cnt' : P → ℤ} {R : Multiset P} {p : P}

namespace Counted

theorem cnt_mem (h : Counted ok lim free cnt R) (hp : p ∈ R) : cnt p = R.count p :=
  h.cnt_eq p (h.mem_ok p hp)

theorem cnt_free (h : Counted ok lim free cnt R) (hp : p ∈ free) : cnt p = 0 := by
  obtain ⟨hok, hpR⟩ := (h.free_iff p).mp hp
  rw [h.cnt_eq p hok, Multiset.count_eq_zero.mpr hpR]
  rfl

theorem not_mem_free (h : Counted ok lim free cnt R) (hp : p ∈ R) : p ∉ free :=
  fun hf => ((h.free_iff p).mp hf).2 hp

/-- The references determine what is free. -/
theorem free_perm {free' : List P} {cnt' : P → ℤ} (h : Counted ok lim free cnt R)
    (h' : Counted ok lim free' cnt' R) : free'.Perm free :=
  (List.perm_ext_iff_of_nodup h'.nodup h.nodup).mpr fun p => (h'.free_iff p).trans (h.free_iff p).symm

/-- The free pages and the pages with a reference are all pages. -/
theorem mem_all (h : Counted ok lim free cnt R) : p ∈ (free : Multiset P) + R.dedup ↔ ok p := by
  rw [Multiset.mem_add, Multiset.mem_coe, Multiset.mem_dedup, h.free_iff]
  constructor
  · rintro (⟨hok, -⟩ | hp)
    · exact hok
    · exact h.mem_ok p hp
  · intro hok
    by_cases hp : p ∈ R
    · exact Or.inr hp
    · exact Or.inl ⟨hok, hp⟩

theorem nodup_all (h : Counted ok lim free cnt R) : ((free : Multiset P) + R.dedup).Nodup := by
  refine Multiset.nodup_add.mpr ⟨Multiset.coe_nodup.mpr h.nodup, Multiset.nodup_dedup R, ?_⟩
  exact Multiset.disjoint_left.mpr fun hp hp' => h.not_mem_free (Multiset.mem_dedup.mp hp') hp

/-- **Nothing is lost**: what is not free has a reference. -/
theorem conserved {free' : List P} {R' : Multiset P} (h : Counted ok lim free cnt R)
    (h' : Counted ok lim free' cnt' R') : free'.length + R'.dedup.card = free.length + R.dedup.card := by
  have he : (free' : Multiset P) + R'.dedup = (free : Multiset P) + R.dedup :=
    (Multiset.Nodup.ext h'.nodup_all h.nodup_all).mpr fun p => h'.mem_all.trans h.mem_all.symm
  simpa using congrArg Multiset.card he

/-- The state with all pages free accounts for no references. -/
theorem nil (hnd : free.Nodup) (hfree : ∀ p, p ∈ free ↔ ok p) (hcnt : ∀ p ∈ free, cnt p = 0)
    (hlim : 0 < lim) : Counted ok lim free cnt 0 :=
  ⟨hnd, fun p => by simp [hfree], fun p hp => by simp at hp,
    fun p hp => by simpa using hcnt p ((hfree p).mpr hp), fun p => by simpa using hlim⟩

theorem count_cons_of_ne {x : P} (hx : x ≠ p) : (p ::ₘ R).count x = R.count x :=
  Multiset.count_cons_of_ne hx R

/-- **Allocation**: the head of the free list gets its first reference. -/
theorem alloc (h : Counted ok lim (p :: free) cnt R) (hlim : 1 < lim) (hp : cnt' p = 1)
    (hcnt : ∀ x, ok x → x ≠ p → cnt' x = cnt x) : Counted ok lim free cnt' (p ::ₘ R) := by
  obtain ⟨hpf, hnd⟩ := List.nodup_cons.mp h.nodup
  obtain ⟨hok, hpR⟩ := (h.free_iff p).mp List.mem_cons_self
  have hp0 : R.count p = 0 := Multiset.count_eq_zero.mpr hpR
  refine ⟨hnd, fun x => ?_, fun x hx => ?_, fun x hx => ?_, fun x => ?_⟩
  · have := h.free_iff x
    simp only [List.mem_cons, Multiset.mem_cons] at this ⊢
    by_cases hxp : x = p
    · subst hxp; simp [hpf]
    · simpa [hxp] using this
  · rcases Multiset.mem_cons.mp hx with rfl | hx
    · exact hok
    · exact h.mem_ok x hx
  · by_cases hxp : x = p
    · subst hxp; simp [hp, hp0]
    · rw [hcnt x hx hxp, h.cnt_eq x hx, count_cons_of_ne hxp]
  · by_cases hxp : x = p
    · subst hxp; simpa [hp0] using hlim
    · rw [count_cons_of_ne hxp]; exact h.lt_lim x

/-- **Sharing**: a page in use gets one more reference. -/
theorem share (h : Counted ok lim free cnt R) (hpR : p ∈ R) (hlim : R.count p + 1 < lim)
    (hp : cnt' p = cnt p + 1) (hcnt : ∀ x, ok x → x ≠ p → cnt' x = cnt x) :
    Counted ok lim free cnt' (p ::ₘ R) := by
  refine ⟨h.nodup, fun x => ?_, fun x hx => ?_, fun x hx => ?_, fun x => ?_⟩
  · rw [h.free_iff x]
    by_cases hxp : x = p
    · subst hxp; simp [hpR]
    · simp [hxp]
  · rcases Multiset.mem_cons.mp hx with rfl | hx
    · exact h.mem_ok _ hpR
    · exact h.mem_ok x hx
  · by_cases hxp : x = p
    · subst hxp; rw [hp, h.cnt_eq _ hx, Multiset.count_cons_self]; push_cast; rfl
    · rw [hcnt x hx hxp, h.cnt_eq x hx, count_cons_of_ne hxp]
  · by_cases hxp : x = p
    · subst hxp; simpa using hlim
    · rw [count_cons_of_ne hxp]; exact h.lt_lim x

/-- The counters after one reference is dropped still count the remaining references. -/
theorem drop_cnt (h : Counted ok lim free cnt (p ::ₘ R)) (hp : cnt' p = cnt p - 1)
    (hcnt : ∀ x, ok x → x ≠ p → cnt' x = cnt x) {x : P} (hx : ok x) : cnt' x = R.count x := by
  by_cases hxp : x = p
  · subst hxp; rw [hp, h.cnt_eq _ hx, Multiset.count_cons_self]; push_cast; omega
  · rw [hcnt x hx hxp, h.cnt_eq x hx, count_cons_of_ne hxp]

theorem drop_lt_lim (h : Counted ok lim free cnt (p ::ₘ R)) (x : P) : R.count x < lim :=
  (Multiset.count_le_count_cons x p R).trans_lt (h.lt_lim x)

/-- **Release**: a page with further references loses one. -/
theorem release (h : Counted ok lim free cnt (p ::ₘ R)) (hpR : p ∈ R) (hp : cnt' p = cnt p - 1)
    (hcnt : ∀ x, ok x → x ≠ p → cnt' x = cnt x) : Counted ok lim free cnt' R := by
  refine ⟨h.nodup, fun x => ?_, fun x hx => h.mem_ok x (Multiset.mem_cons_of_mem hx),
    fun x hx => h.drop_cnt hp hcnt hx, h.drop_lt_lim⟩
  rw [h.free_iff x]
  by_cases hxp : x = p
  · subst hxp; simp [hpR]
  · simp [hxp]

/-- **Last release**: a page that loses its only reference becomes free. -/
theorem release_last (h : Counted ok lim free cnt (p ::ₘ R)) (hpR : p ∉ R) (hp : cnt' p = cnt p - 1)
    (hcnt : ∀ x, ok x → x ≠ p → cnt' x = cnt x) : Counted ok lim (p :: free) cnt' R := by
  refine ⟨List.nodup_cons.mpr ⟨h.not_mem_free (Multiset.mem_cons_self p R), h.nodup⟩,
    fun x => ?_, fun x hx => h.mem_ok x (Multiset.mem_cons_of_mem hx),
    fun x hx => h.drop_cnt hp hcnt hx, h.drop_lt_lim⟩
  have := h.free_iff x
  by_cases hxp : x = p
  · subst hxp; simp [hpR, h.mem_ok x (Multiset.mem_cons_self x R)]
  · simp only [List.mem_cons, hxp, false_or, this, Multiset.mem_cons]

/-- **The free list is determined by the pages that have a reference**: it lacks the pages `M` that
others have got. -/
theorem free_add {free' : List P} {R' M : Multiset P} (h : Counted ok lim free cnt R)
    (h' : Counted ok lim free' cnt' R') (hM : M.Nodup) (hMR : ∀ p ∈ M, p ∉ R)
    (hR : ∀ p, p ∈ R' ↔ p ∈ M ∨ p ∈ R) : (free : Multiset P) = M + free' := by
  have hnd : (M + (free' : Multiset P)).Nodup := by
    refine Multiset.nodup_add.mpr ⟨hM, h'.nodup, Multiset.disjoint_left.mpr fun hp hf => ?_⟩
    exact ((h'.free_iff _).mp hf).2 ((hR _).mpr (Or.inl hp))
  refine (Multiset.Nodup.ext (Multiset.coe_nodup.mpr h.nodup) hnd).mpr fun p => ?_
  rw [Multiset.mem_coe, h.free_iff, Multiset.mem_add, Multiset.mem_coe, h'.free_iff, hR]
  by_cases hp : p ∈ M
  · simp [hp, hMR p hp, h'.mem_ok p ((hR p).mpr (Or.inl hp))]
  · simp [hp]

/-- Pages without a reference are free. -/
theorem card_le_free {M : Multiset P} (h : Counted ok lim free cnt R) (hM : M.Nodup)
    (hok : ∀ p ∈ M, ok p ∧ p ∉ R) : M.card ≤ free.length := by
  have hle : M ≤ (free : Multiset P) :=
    (Multiset.le_iff_subset hM).mpr fun p hp => Multiset.mem_coe.mpr ((h.free_iff p).mpr (hok p hp))
  simpa using Multiset.card_le_card hle

/-- One more page with a reference is one free page less. -/
theorem length_succ {free' : List P} {R' : Multiset P} (h : Counted ok lim free cnt R)
    (h' : Counted ok lim free' cnt' R') (hp : p ∉ R) (hR : ∀ x, x ∈ R' ↔ x = p ∨ x ∈ R) :
    free.length = free'.length + 1 := by
  have hadd := h.free_add h' (Multiset.nodup_singleton p) (fun x hx => ?_) fun x => ?_
  · simpa [Nat.add_comm] using congrArg Multiset.card hadd
  · rwa [Multiset.mem_singleton.mp hx]
  · rw [hR, Multiset.mem_singleton]

/-- A page with a reference in the place of another one. -/
theorem length_swap {free' : List P} {q : P} {R' : Multiset P} (h : Counted ok lim free cnt (q ::ₘ R))
    (h' : Counted ok lim free' cnt' R') (hp : p ∉ q ::ₘ R) (hq : q ∉ R) (hR : R' = p ::ₘ R) :
    free.length = free'.length := by
  subst hR
  have hqm := Multiset.mem_cons_self q R
  have hpm := Multiset.mem_cons_self p R
  have hnd : (q :: free).Nodup := List.nodup_cons.mpr ⟨h.not_mem_free hqm, h.nodup⟩
  have hnd' : (p :: free').Nodup := List.nodup_cons.mpr ⟨h'.not_mem_free hpm, h'.nodup⟩
  have hperm : (q :: free).Perm (p :: free') := by
    refine (List.perm_ext_iff_of_nodup hnd hnd').mpr fun x => ?_
    have hokq := h.mem_ok q hqm
    have hokp := h'.mem_ok p hpm
    have hpR : p ∉ R := fun hm => hp (Multiset.mem_cons_of_mem hm)
    simp only [List.mem_cons, h.free_iff, h'.free_iff, Multiset.mem_cons]
    by_cases hxq : x = q
    · subst hxq
      by_cases hxp : x = p
      · simp [hxp]
      · simp [hxp, hokq, hq]
    · by_cases hxp : x = p
      · subst hxp
        simp [hxq, hokp, hpR]
      · simp [hxq, hxp]
  simpa using hperm.length_eq

/-- The references are determined by the free list and the counters. -/
theorem refs_unique {R' : Multiset P} (h : Counted ok lim free cnt R)
    (h' : Counted ok lim free cnt R') : R = R' := by
  have hmem : ∀ p, p ∈ R ↔ p ∈ R' := by
    intro p
    constructor
    · intro hp
      by_contra hn
      exact h.not_mem_free hp ((h'.free_iff p).mpr ⟨h.mem_ok p hp, hn⟩)
    · intro hp
      by_contra hn
      exact h'.not_mem_free hp ((h.free_iff p).mpr ⟨h'.mem_ok p hp, hn⟩)
  ext p
  by_cases hp : p ∈ R
  · exact_mod_cast (h.cnt_mem hp).symm.trans (h'.cnt_mem ((hmem p).mp hp))
  · rw [Multiset.count_eq_zero.mpr hp, Multiset.count_eq_zero.mpr fun hp' => hp ((hmem p).mpr hp')]

end Counted

end RefCount
