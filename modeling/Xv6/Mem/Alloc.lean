import Mathlib.Algebra.Order.Group.Multiset
import Mathlib.Data.Multiset.UnionInter
import Mathlib.Tactic.Ring
import Xv6.Kernel.Kalloc
import Xv6.Lib.RefCount

/-!
# Alloc — the allocator accounts for the references to its pages

`Alloc s R`: the free list and the counters of `s` account for the multiset `R` of references
(`RefCount.Counted`).  `Owns s T F`: moreover the pages of `T` have a single reference each; `F` are
all other references.  Operations on a page table own its pages `T` and frame `F`.
-/

namespace Xv6

open RefCount

theorem int32_of_lt {x : ℤ} (h0 : -2147483648 ≤ x) (h1 : x < 2147483648) : int32 x = x := by
  unfold int32; omega

/-! ## Page contents -/

section Contents

variable {p q : ℕ} {m m' m'' : ByteStore}

/-- The contents of page `q` are the same. -/
def PageEq (m m' : ByteStore) (q : ℕ) : Prop := ∀ i < 4096, m' (q + i) = m (q + i)

theorem PageEq.refl (m : ByteStore) (q : ℕ) : PageEq m m q := fun _ _ => rfl

theorem PageEq.trans (h : PageEq m m' q) (h' : PageEq m' m'' q) : PageEq m m'' q :=
  fun i hi => (h' i hi).trans (h i hi)

theorem pageEq_blit (hp : p % 4096 = 0) (hq : q % 4096 = 0) (h : q ≠ p) {o n : ℕ}
    {src : ℕ → UInt8} (hn : o + n ≤ 4096) : PageEq m (m.blit (p + o) n src) q :=
  fun i hi => ByteStore.blit_out (by omega)

/-- Overwriting a whole page. -/
theorem pageEq_page (hp : p % 4096 = 0) (hq : q % 4096 = 0) (h : q ≠ p) {src : ℕ → UInt8} :
    PageEq m (m.blit p 4096 src) q := by
  have : PageEq m (m.blit (p + 0) 4096 src) q := pageEq_blit hp hq h (by omega)
  rwa [Nat.add_zero] at this

theorem pageEq_fill (hp : p % 4096 = 0) (hq : q % 4096 = 0) (h : q ≠ p) {c : UInt8} :
    PageEq m (m.fill p 4096 c) q := pageEq_page hp hq h

theorem pageEq_writePte (hp : p % 4096 = 0) (hq : q % 4096 = 0) (h : q ≠ p) {i : ℕ} {e : Pte}
    (hi : i < 512) : PageEq m (writePte m (p + 8 * i) e) q := by
  unfold writePte ByteStore.store
  exact pageEq_blit hp hq h (by omega)

end Contents

/-! ## Accounting -/

variable [Image]

/-- A page that `freerange` hands to the allocator. -/
def okPage (p : ℕ) : Prop := p % 4096 = 0 ∧ Image.kend ≤ p ∧ p < PHYSTOP

/-- No counter reaches this value. -/
abbrev intLim : ℕ := 2147483648

/-- The allocator of `s` accounts for the references `R`. -/
def Alloc (s : Phys) (R : Multiset ℕ) : Prop :=
  Counted okPage intLim s.freelist (fun p => s.pte_count (p / 4096)) R

variable {s s' : Phys} {R T F : Multiset ℕ} {p q : ℕ}

theorem okPage.lt (h : okPage p) : p < 2 ^ 56 := by
  have := h.2.2
  simp only [PHYSTOP, KERNBASE] at this
  omega

theorem okPage.pos (h : okPage p) : 0 < p := by
  have := h.2.1
  have := Image.base_le
  simp only [KERNBASE] at this
  omega

theorem okPage.index_ne (hp : okPage p) (hq : okPage q) (h : p ≠ q) : p / 4096 ≠ q / 4096 := by
  have := hp.1
  have := hq.1
  omega

/-! ## The allocator's functions -/

namespace Alloc

theorem ok (h : Alloc s R) (hp : p ∈ R) : okPage p := h.mem_ok p hp

theorem count_ok (h : Alloc s R) (hp : okPage p) : s.pte_count (p / 4096) = R.count p := h.cnt_eq p hp

theorem count_eq (h : Alloc s R) (hp : p ∈ R) : s.pte_count (p / 4096) = R.count p := h.cnt_mem hp

theorem count_free (h : Alloc s R) (hp : p ∈ s.freelist) : s.pte_count (p / 4096) = 0 := h.cnt_free hp

theorem setPte (h : Alloc s R) (a : ℕ) (e : Pte) : Alloc (s.setPte a e) R := h

theorem memset (h : Alloc s R) (a n : ℕ) (c : UInt8) : Alloc (s.memset a n c) R := h

theorem memmove (h : Alloc s R) (a n : ℕ) (src : ℕ → UInt8) : Alloc (s.memmove a n src) R := h

end Alloc

/-- `kalloc` fails on an empty free list only; else the page it returns had no reference. -/
theorem kalloc_spec (h : Alloc s R) :
    (s.freelist = [] ∧ kalloc s = (none, s)) ∨
    ∃ p s', kalloc s = (some p, s') ∧ okPage p ∧ p ∉ R ∧ Alloc s' (p ::ₘ R) ∧
      ∀ q, okPage q → q ≠ p → PageEq s.mem s'.mem q := by
  cases hf : s.freelist with
  | nil => exact Or.inl ⟨rfl, by simp [kalloc, hf]⟩
  | cons p next =>
    refine Or.inr ⟨p, _, by simp only [kalloc, hf]; rfl, ?_⟩
    unfold Alloc at h
    rw [hf] at h
    obtain ⟨hok, hpR⟩ := (h.free_iff p).mp List.mem_cons_self
    refine ⟨hok, hpR, h.alloc (by decide) ?_ ?_, fun q hq hne => pageEq_fill hok.1 hq.1 hne⟩
    · simp [Phys.set_count, Phys.memset, int32]
    · intro x hx hne
      simp [Phys.set_count, Phys.memset, hx.index_ne hok hne]

/-- `kfree` takes back one reference; a page that keeps a reference keeps its contents. -/
theorem kfree_spec (h : Alloc s (p ::ₘ R)) :
    ∃ s', kfree p s = .ok s' ∧ Alloc s' R ∧ ∀ q ∈ R, PageEq s.mem s'.mem q := by
  have hok : okPage p := h.ok (Multiset.mem_cons_self p R)
  have hcnt : s.pte_count (p / 4096) = (R.count p : ℤ) + 1 := by
    rw [h.count_eq (Multiset.mem_cons_self p R), Multiset.count_cons_self]; push_cast; rfl
  have hlim : R.count p + 1 < 2147483648 := by
    have := h.lt_lim p
    rwa [Multiset.count_cons_self] at this
  have hguard : ¬ (p % PGSIZE ≠ 0 ∨ p < Image.kend ∨ PHYSTOP ≤ p) := by
    have := hok.2.2
    rintro (h1 | h1 | h1)
    · exact h1 hok.1
    · exact absurd hok.2.1 (by omega)
    · omega
  have hdec : (s.dec_count p).pte_count (p / 4096) = s.pte_count (p / 4096) - 1 := by
    simp only [Phys.dec_count, Phys.set_count, if_true]
    rw [show p / PGSIZE = p / 4096 from rfl, hcnt]
    exact int32_of_lt (by omega) (by omega)
  have hother : ∀ x, okPage x → x ≠ p →
      (s.dec_count p).pte_count (x / 4096) = s.pte_count (x / 4096) := by
    intro x hx hne
    simp [Phys.dec_count, Phys.set_count, hx.index_ne hok hne]
  unfold kfree
  rw [if_neg hguard]
  by_cases hp : p ∈ R
  · have hpos := Multiset.count_pos.mpr hp
    have hgt : 0 < (s.dec_count p).pte_count (p / PGSIZE) := by
      rw [show p / PGSIZE = p / 4096 from rfl, hdec, hcnt]; omega
    simp only [hgt, if_true]
    exact ⟨_, rfl, h.release hp hdec hother, fun q _ => PageEq.refl _ q⟩
  · have h0 := Multiset.count_eq_zero.mpr hp
    have hgt : ¬ 0 < (s.dec_count p).pte_count (p / PGSIZE) := by
      rw [show p / PGSIZE = p / 4096 from rfl, hdec, hcnt]; omega
    simp only [hgt, if_false]
    refine ⟨_, rfl, h.release_last hp hdec hother, fun q hq => ?_⟩
    exact pageEq_fill hok.1 (h.ok (Multiset.mem_cons_of_mem hq)).1 (fun he => hp (he ▸ hq))

/-- One more reference to a page in use, as long as its counter does not overflow. -/
theorem safe_inc_count_spec (h : Alloc s R) (hp : p ∈ R) (hlim : R.count p + 1 < intLim) :
    Alloc (s.safe_inc_count p) (p ::ₘ R) := by
  have hok := h.ok hp
  refine h.share hp hlim ?_ ?_
  · simp only [Phys.safe_inc_count, Phys.inc_count, Phys.set_count, if_true]
    have hcnt := h.count_eq hp
    have hlim : R.count p + 1 < 2147483648 := hlim
    rw [show p / PGSIZE = p / 4096 from rfl, hcnt]
    exact int32_of_lt (by omega) (by omega)
  · intro x hx hne
    simp [Phys.safe_inc_count, Phys.inc_count, Phys.set_count, hx.index_ne hok hne]

/-! ## Boot -/

/-- After `n` rounds of `freerange` from `p` on, the pages below the current one are free and their
counters are 0. -/
theorem freerangeLoop_spec (n p : ℕ) (s : Phys) (hp : p % 4096 = 0) (hk : Image.kend ≤ p)
    (hn : p + n * 4096 ≤ PHYSTOP) (hnd : s.freelist.Nodup)
    (hf : ∀ x, x ∈ s.freelist ↔ okPage x ∧ x < p) (hc : ∀ x ∈ s.freelist, s.pte_count (x / 4096) = 0) :
    ∃ s', freerangeLoop n p s = .ok s' ∧ s'.freelist.Nodup ∧
      (∀ x, x ∈ s'.freelist ↔ okPage x ∧ x < p + n * 4096) ∧
      ∀ x ∈ s'.freelist, s'.pte_count (x / 4096) = 0 := by
  induction n generalizing p s with
  | zero => exact ⟨s, rfl, hnd, by simpa using hf, hc⟩
  | succ n ih =>
    have hfree : kfree p (s.set_count p 1) =
        .ok { ((s.set_count p 1).dec_count p).memset p PGSIZE 1 with freelist := p :: s.freelist } := by
      have hguard : ¬ (p % PGSIZE ≠ 0 ∨ p < Image.kend ∨ PHYSTOP ≤ p) := by
        rintro (h1 | h1 | h1)
        · exact h1 hp
        · omega
        · omega
      simp [kfree, hguard, Phys.dec_count, Phys.set_count, Phys.memset, int32]
    obtain ⟨s', hs', hnd', hf', hc'⟩ := ih (p + 4096)
      { ((s.set_count p 1).dec_count p).memset p PGSIZE 1 with freelist := p :: s.freelist }
      (by omega) (by omega) (by omega)
      (List.nodup_cons.mpr ⟨fun h => absurd ((hf p).mp h).2 (lt_irrefl p), hnd⟩) (fun x => by
        simp only [List.mem_cons, hf x]
        constructor
        · rintro (rfl | ⟨h1, h2⟩)
          · exact ⟨⟨hp, hk, by omega⟩, by omega⟩
          · exact ⟨h1, by omega⟩
        · rintro ⟨h1, h2⟩
          have := h1.1
          by_cases hx : x < p
          · exact Or.inr ⟨h1, hx⟩
          · exact Or.inl (by omega))
      (fun x hx => by
        simp only [Phys.dec_count, Phys.set_count, Phys.memset, PGSIZE]
        by_cases hxp : x / 4096 = p / 4096
        · simp [hxp, int32]
        · rcases List.mem_cons.mp hx with rfl | hx
          · exact absurd rfl hxp
          · rw [if_neg hxp, if_neg hxp]
            exact hc x hx)
    refine ⟨s', ?_, hnd', fun x => ?_, hc'⟩
    · simp only [freerangeLoop, hfree]; exact hs'
    · rw [hf' x, show p + 4096 + n * 4096 = p + (n + 1) * 4096 by ring]

/-- After `kinit` every page is free. -/
theorem kinit_spec (mem : ByteStore) : ∃ s, kinit mem = .ok s ∧ Alloc s 0 := by
  have hb := Image.base_le
  have hk := Image.kend_le
  simp only [KERNBASE, PHYSTOP] at hb hk
  have hup : PGROUNDUP Image.kend = (Image.kend + 4095) / 4096 * 4096 := by
    unfold PGROUNDUP uint64; simp only [PGSIZE]; omega
  obtain ⟨s, hs, hnd, hf, hc⟩ := freerangeLoop_spec ((PHYSTOP - PGROUNDUP Image.kend) / 4096)
    (PGROUNDUP Image.kend) { mem := mem, freelist := [], pte_count := fun _ => 0 }
    (by omega) (by omega) (by simp only [PHYSTOP, KERNBASE]; omega) List.nodup_nil (fun x => by
      simp only [List.not_mem_nil, false_iff, not_and, not_lt]
      rintro ⟨h1, h2, -⟩
      omega)
    (fun x hx => absurd hx List.not_mem_nil)
  refine ⟨s, hs, Counted.nil hnd (fun x => ?_) hc (by decide)⟩
  rw [hf x]
  constructor
  · exact fun h => h.1
  · rintro ⟨h1, h2, h3⟩
    refine ⟨⟨h1, h2, h3⟩, ?_⟩
    simp only [PHYSTOP, KERNBASE] at h3 ⊢
    omega

/-! ## Owned pages -/

/-- The references are `T + F`, and the pages of `T` have no other reference. -/
structure Owns (s : Phys) (T F : Multiset ℕ) : Prop where
  alloc : Alloc s (T + F)
  nodup : T.Nodup
  disj : Disjoint T F

namespace Owns

theorem ok_left (h : Owns s T F) (hp : p ∈ T) : okPage p := h.alloc.ok (Multiset.mem_add.mpr (Or.inl hp))

theorem ok_right (h : Owns s T F) (hp : p ∈ F) : okPage p := h.alloc.ok (Multiset.mem_add.mpr (Or.inr hp))

theorem ne (h : Owns s T F) (hp : p ∈ T) (hq : q ∈ F) : q ≠ p :=
  fun he => Multiset.disjoint_left.mp h.disj hp (he ▸ hq)

/-- Splitting the owned pages: the rest joins the frame. -/
theorem split {T₁ T₂ : Multiset ℕ} (h : Owns s (T₁ + T₂) F) : Owns s T₁ (T₂ + F) := by
  obtain ⟨h1, -, h3⟩ := Multiset.nodup_add.mp h.nodup
  refine ⟨by rw [← add_assoc]; exact h.alloc, h1, Multiset.disjoint_left.mpr fun hp hp' => ?_⟩
  rcases Multiset.mem_add.mp hp' with hp' | hp'
  · exact Multiset.disjoint_left.mp h3 hp hp'
  · exact Multiset.disjoint_left.mp h.disj (Multiset.mem_add.mpr (Or.inl hp)) hp'

/-- Joining owned pages that were framed. -/
theorem join {T₁ T₂ : Multiset ℕ} (h : Owns s T₁ (T₂ + F)) (hnd : T₂.Nodup) (hd : Disjoint T₂ F) :
    Owns s (T₁ + T₂) F := by
  have hd' := h.disj
  refine ⟨by rw [add_assoc]; exact h.alloc, Multiset.nodup_add.mpr ⟨h.nodup, hnd, ?_⟩, ?_⟩
  · exact Multiset.disjoint_left.mpr fun hp hp' =>
      Multiset.disjoint_left.mp hd' hp (Multiset.mem_add.mpr (Or.inl hp'))
  · refine Multiset.disjoint_left.mpr fun hp hp' => ?_
    rcases Multiset.mem_add.mp hp with hp | hp
    · exact Multiset.disjoint_left.mp hd' hp (Multiset.mem_add.mpr (Or.inr hp'))
    · exact Multiset.disjoint_left.mp hd hp hp'

theorem setPte (h : Owns s T F) (a : ℕ) (e : Pte) : Owns (s.setPte a e) T F := ⟨h.1, h.2, h.3⟩

theorem memset (h : Owns s T F) (a n : ℕ) (c : UInt8) : Owns (s.memset a n c) T F := ⟨h.1, h.2, h.3⟩

theorem memmove (h : Owns s T F) (a n : ℕ) (src : ℕ → UInt8) : Owns (s.memmove a n src) T F :=
  ⟨h.1, h.2, h.3⟩

/-- A page from `kalloc` is owned. -/
theorem kalloc (h : Owns s T F) :
    (s.freelist = [] ∧ kalloc s = (none, s)) ∨
    ∃ p s', Xv6.kalloc s = (some p, s') ∧ okPage p ∧ p ∉ T ∧ p ∉ F ∧ Owns s' (p ::ₘ T) F ∧
      ∀ q, okPage q → q ≠ p → PageEq s.mem s'.mem q := by
  rcases kalloc_spec h.alloc with h0 | ⟨p, s', hk, hok, hp, hA, hE⟩
  · exact Or.inl h0
  · have hpT : p ∉ T := fun h' => hp (Multiset.mem_add.mpr (Or.inl h'))
    have hpF : p ∉ F := fun h' => hp (Multiset.mem_add.mpr (Or.inr h'))
    refine Or.inr ⟨p, s', hk, hok, hpT, hpF, ⟨by rwa [Multiset.cons_add], ?_, ?_⟩, hE⟩
    · exact Multiset.nodup_cons.mpr ⟨hpT, h.nodup⟩
    · refine Multiset.disjoint_left.mpr fun hx hx' => ?_
      rcases Multiset.mem_cons.mp hx with rfl | hx
      · exact hpF hx'
      · exact Multiset.disjoint_left.mp h.disj hx hx'

end Owns

end Xv6
