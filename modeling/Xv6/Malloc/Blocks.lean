import Xv6.Lib.Chain
import Xv6.Lib.Tiles

/-!
# Blocks — the free memory as a list of blocks

A block is the address of its header and its size in units of sixteen bytes.  `release` puts a block in
its place in an ordered list and joins it with its neighbours; `carve` takes one from the end of a block.
-/

namespace Xv6.Umalloc

open Tiles Chain

/-- The bytes of a block, its header among them. -/
def bytes (b : ℕ × ℕ) : ℕ × ℕ := (b.1, 16 * b.2)

/-- `y` is above `x`, and its header is not in it. -/
def Upto (x y : ℕ × ℕ) : Prop := x.1 + 16 ≤ y.1 ∧ x.1 + 16 * x.2 ≤ y.1

/-- `y` is above `x`, with a gap between the two. -/
def Before (x y : ℕ × ℕ) : Prop := x.1 + 16 ≤ y.1 ∧ x.1 + 16 * x.2 < y.1

/-- Put `b` before the blocks of `l`: it swallows the first one if that is next to it. -/
def join (b : ℕ × ℕ) : List (ℕ × ℕ) → List (ℕ × ℕ)
  | [] => [b]
  | c :: l => if b.1 + 16 * b.2 = c.1 then (b.1, (b.2 + c.2) % 2 ^ 32) :: l else b :: c :: l

/-- Put `b` in its place among the blocks of `l`. -/
def release (b : ℕ × ℕ) : List (ℕ × ℕ) → List (ℕ × ℕ)
  | [] => [b]
  | c :: l => if b.1 < c.1 then join b (c :: l) else join c (release b l)

/-- What is left of `b` when its last `n` units are taken. -/
def carve (n : ℕ) (b : ℕ × ℕ) : List (ℕ × ℕ) := if b.2 = n then [] else [(b.1, b.2 - n)]

/-- The last `n` units of `b`. -/
def carved (n : ℕ) (b : ℕ × ℕ) : ℕ × ℕ := (b.1 + 16 * (b.2 - n), n)

/-- The blocks of `l` do not fill a range of `2 ^ 32` units. -/
def Room (l : List (ℕ × ℕ)) : Prop :=
  ∀ a n, (∀ x, a ≤ x → x < a + 16 * n → 0 < cover (l.map bytes) x) → n < 2 ^ 32

variable {b c x : ℕ × ℕ} {l l' l₁ l₂ : List (ℕ × ℕ)} {n z y : ℕ}

theorem Before.upto (h : Before x b) : Upto x b := ⟨h.1, Nat.le_of_lt h.2⟩

theorem Room.mono (h : Room l) (hl : ∀ x, cover (l'.map bytes) x ≤ cover (l.map bytes) x) : Room l' :=
  fun a n hx => h a n fun x h₁ h₂ => Nat.lt_of_lt_of_le (hx x h₁ h₂) (hl x)

/-! ### Joining -/

theorem first_join : first z (join b l) = b.1 := by
  cases l with
  | nil => rfl
  | cons c l =>
    rw [join]
    by_cases h : b.1 + 16 * b.2 = c.1
    · rw [if_pos h, first]
    · rw [if_neg h, first]

theorem join_ne_nil : join b l ≠ [] := by
  intro h
  have h₁ := first_join (z := b.1 + 1) (b := b) (l := l)
  rw [h, first] at h₁
  omega

/-- A block that is not next to what follows stays as it is. -/
theorem join_of_ne (hne : b.1 + 16 * b.2 ≠ first z l) : join b l = b :: l := by
  cases l with
  | nil => rfl
  | cons c l =>
    rw [first] at hne
    rw [join, if_neg hne]

/-- Joining makes no new addresses. -/
theorem mem_join (h : x ∈ join b l) : x.1 = b.1 ∨ ∃ c ∈ l, x = c := by
  cases l with
  | nil =>
    rw [join, List.mem_singleton] at h
    exact .inl (by rw [h])
  | cons c l =>
    rw [join] at h
    by_cases he : b.1 + 16 * b.2 = c.1
    · rw [if_pos he] at h
      rcases List.mem_cons.mp h with rfl | h
      · exact .inl rfl
      · exact .inr ⟨x, List.mem_cons_of_mem c h, rfl⟩
    · rw [if_neg he] at h
      rcases List.mem_cons.mp h with rfl | h
      · exact .inl rfl
      · exact .inr ⟨x, h, rfl⟩

/-- Two blocks next to each other have less than `2 ^ 32` units together. -/
theorem Room.add_lt (h : Room (b :: c :: l)) (he : b.1 + 16 * b.2 = c.1) : b.2 + c.2 < 2 ^ 32 := by
  refine h b.1 _ fun y h₁ h₂ => ?_
  rw [List.map_cons, List.map_cons, cover_cons, cover_cons]
  by_cases hb : y < b.1 + 16 * b.2
  · rw [if_pos (c := Tiles.Within (bytes b) y) ⟨h₁, hb⟩]
    omega
  · rw [if_pos (c := Tiles.Within (bytes c) y) ⟨by simp only [bytes]; omega, by simp only [bytes]; omega⟩]
    omega

theorem cover_join (h : Room (b :: l)) :
    cover ((join b l).map bytes) y = cover ((b :: l).map bytes) y := by
  cases l with
  | nil => rfl
  | cons c l =>
    rw [join]
    by_cases he : b.1 + 16 * b.2 = c.1
    · have hlt := h.add_lt he
      rw [if_pos he, Nat.mod_eq_of_lt hlt, List.map_cons, List.map_cons, List.map_cons]
      simp only [bytes, ← he]
      rw [Nat.mul_add, cover_cut]
    · rw [if_neg he]

theorem join_before (h : Room (b :: l)) (hl : l.Pairwise Before) (hb : ∀ c ∈ l, Upto b c) :
    (join b l).Pairwise Before := by
  cases l with
  | nil => exact List.pairwise_singleton _ _
  | cons c l =>
    obtain ⟨hc, hl'⟩ := List.pairwise_cons.mp hl
    have hbc := hb c List.mem_cons_self
    rw [join]
    by_cases he : b.1 + 16 * b.2 = c.1
    · have hlt := h.add_lt he
      rw [if_pos he, Nat.mod_eq_of_lt hlt]
      refine List.pairwise_cons.mpr ⟨fun d hd => ?_, hl'⟩
      have := hc d hd
      simp only [Before, Upto] at this hbc ⊢
      omega
    · rw [if_neg he]
      refine List.pairwise_cons.mpr ⟨fun d hd => ?_, hl⟩
      have hbd := hb d hd
      rcases List.mem_cons.mp hd with rfl | hd
      · simp only [Before, Upto] at hbd ⊢
        omega
      · have := hc d hd
        simp only [Before, Upto] at this hbc hbd ⊢
        omega

theorem join_pos (h : Room (b :: l)) (hl : ∀ c ∈ l, 0 < c.2) (hb : 0 < b.2) :
    ∀ c ∈ join b l, 0 < c.2 := by
  cases l with
  | nil => simpa [join] using hb
  | cons c l =>
    rw [join]
    intro d hd
    by_cases he : b.1 + 16 * b.2 = c.1
    · have hlt := h.add_lt he
      rw [if_pos he, Nat.mod_eq_of_lt hlt] at hd
      rcases List.mem_cons.mp hd with rfl | hd
      · exact Nat.lt_of_lt_of_le hb (Nat.le_add_right _ _)
      · exact hl d (List.mem_cons_of_mem c hd)
    · rw [if_neg he] at hd
      rcases List.mem_cons.mp hd with rfl | hd
      · exact hb
      · exact hl d hd

/-- A block that is joined does not get smaller. -/
theorem exists_le_join (h : Room (b :: l)) (hx : x ∈ b :: l) : ∃ d ∈ join b l, x.2 ≤ d.2 := by
  cases l with
  | nil => exact ⟨x, hx, le_rfl⟩
  | cons c l =>
    rw [join]
    by_cases he : b.1 + 16 * b.2 = c.1
    · have hlt := h.add_lt he
      rw [if_pos he, Nat.mod_eq_of_lt hlt]
      rcases List.mem_cons.mp hx with rfl | hx
      · exact ⟨_, List.mem_cons_self, Nat.le_add_right _ _⟩
      rcases List.mem_cons.mp hx with rfl | hx
      · exact ⟨_, List.mem_cons_self, Nat.le_add_left _ _⟩
      · exact ⟨x, List.mem_cons_of_mem _ hx, le_rfl⟩
    · rw [if_neg he]
      exact ⟨x, hx, le_rfl⟩

/-! ### Releasing -/

theorem mem_release (h : x ∈ release b l) : x.1 = b.1 ∨ ∃ c ∈ l, x.1 = c.1 := by
  induction l generalizing x with
  | nil =>
    rw [release, List.mem_singleton] at h
    exact .inl (by rw [h])
  | cons c l ih =>
    rw [release] at h
    by_cases hlt : b.1 < c.1
    · rw [if_pos hlt] at h
      rcases mem_join h with hx | ⟨d, hd, rfl⟩
      · exact .inl hx
      · exact .inr ⟨x, hd, rfl⟩
    · rw [if_neg hlt] at h
      rcases mem_join h with hx | ⟨d, hd, rfl⟩
      · exact .inr ⟨c, List.mem_cons_self, hx⟩
      · rcases ih hd with hx | ⟨e, he, hx⟩
        · exact .inl hx
        · exact .inr ⟨e, List.mem_cons_of_mem c he, hx⟩

theorem Room.skip (h : Room (b :: c :: l)) : Room (b :: l) := by
  refine h.mono fun x => ?_
  simp only [List.map_cons, cover_cons]
  omega

theorem Room.swap (h : Room (b :: c :: l))
    (hl : ∀ x, cover (l'.map bytes) x = cover ((b :: l).map bytes) x) : Room (c :: l') := by
  refine h.mono fun x => ?_
  have := hl x
  simp only [List.map_cons, cover_cons] at this ⊢
  omega

theorem cover_release (h : Room (b :: l)) (y : ℕ) :
    cover ((release b l).map bytes) y = cover ((b :: l).map bytes) y := by
  induction l generalizing y with
  | nil => rfl
  | cons c l ih =>
    have ih := ih h.skip
    rw [release]
    by_cases hlt : b.1 < c.1
    · rw [if_pos hlt, cover_join h]
    · have := ih y
      rw [if_neg hlt, cover_join (h.swap ih)]
      simp only [List.map_cons, cover_cons] at this ⊢
      omega

/-- **The blocks stay in order, with a gap between any two.** -/
theorem release_before (h : Room (b :: l)) (hl : l.Pairwise Before)
    (hb : ∀ c ∈ l, Upto c b ∨ Upto b c) : (release b l).Pairwise Before := by
  induction l with
  | nil => exact List.pairwise_singleton _ _
  | cons c l ih =>
    obtain ⟨hc, hl'⟩ := List.pairwise_cons.mp hl
    have hbc := hb c List.mem_cons_self
    rw [release]
    by_cases hlt : b.1 < c.1
    · rw [if_pos hlt]
      refine join_before h hl fun d hd => ?_
      refine (hb d hd).resolve_left fun hdb => ?_
      rcases List.mem_cons.mp hd with rfl | hd
      · have := hdb.1
        omega
      · have h₁ := (hc d hd).1
        have h₂ := hdb.1
        omega
    · have hcb : Upto c b := hbc.resolve_right fun h' => by have := h'.1; omega
      rw [if_neg hlt]
      refine join_before (h.swap (cover_release h.skip))
        (ih h.skip hl' fun d hd => hb d (List.mem_cons_of_mem c hd)) fun e he => ?_
      rcases mem_release he with hx | ⟨d, hd, hx⟩
      · rw [Upto, hx]
        exact hcb
      · rw [Upto, hx]
        exact (hc d hd).upto

theorem release_pos (h : Room (b :: l)) (hl : ∀ c ∈ l, 0 < c.2) (hb : 0 < b.2) :
    ∀ c ∈ release b l, 0 < c.2 := by
  induction l with
  | nil => simpa [release] using hb
  | cons c l ih =>
    rw [release]
    by_cases hlt : b.1 < c.1
    · rw [if_pos hlt]
      exact join_pos h hl hb
    · rw [if_neg hlt]
      exact join_pos (h.swap (cover_release h.skip))
        (ih h.skip fun d hd => hl d (List.mem_cons_of_mem c hd)) (hl c List.mem_cons_self)

theorem exists_le_release (h : Room (b :: l)) : ∃ d ∈ release b l, b.2 ≤ d.2 := by
  induction l with
  | nil => exact ⟨b, List.mem_cons_self, le_rfl⟩
  | cons c l ih =>
    rw [release]
    by_cases hlt : b.1 < c.1
    · rw [if_pos hlt]
      exact exists_le_join h List.mem_cons_self
    · obtain ⟨d, hd, hle⟩ := ih h.skip
      obtain ⟨e, he, hle'⟩ := exists_le_join (h.swap (cover_release h.skip)) (List.mem_cons_of_mem c hd)
      rw [if_neg hlt]
      exact ⟨e, he, Nat.le_trans hle hle'⟩

/-- The place of `b` is behind the last block that is below it. -/
theorem exists_place (hl : (c :: l).Pairwise Before) (hb : ∀ d ∈ c :: l, Upto d b ∨ Upto b d)
    (hc : Upto c b) :
    ∃ l₁ q l₂, c :: l = l₁ ++ q :: l₂ ∧ Upto q b ∧ ∀ d ∈ l₂, Upto b d := by
  induction l generalizing c with
  | nil => exact ⟨[], c, [], rfl, hc, fun d hd => absurd hd List.not_mem_nil⟩
  | cons d l ih =>
    obtain ⟨-, hl⟩ := List.pairwise_cons.mp hl
    rcases hb d (by simp) with hd | hd
    · obtain ⟨l₁, q, l₂, he, hq, h₂⟩ := ih hl (fun e he => hb e (List.mem_cons_of_mem c he)) hd
      exact ⟨c :: l₁, q, l₂, by rw [he, List.cons_append], hq, h₂⟩
    · refine ⟨[], c, d :: l, rfl, hc, fun e he => ?_⟩
      rcases List.mem_cons.mp he with rfl | he
      · exact hd
      · refine (hb e (by simp [he])).resolve_left fun heb => ?_
        have h₁ := ((List.pairwise_cons.mp hl).1 e he).1
        have h₂ := heb.1
        have h₃ := hd.1
        omega

/-- `b` is joined with the block before it and the one after it. -/
theorem release_append (hl : (l₁ ++ c :: l₂).Pairwise Before) (hc : c.1 < b.1)
    (hb : ∀ d ∈ l₂, b.1 < d.1) : release b (l₁ ++ c :: l₂) = l₁ ++ join c (join b l₂) := by
  induction l₁ with
  | nil =>
    rw [List.nil_append, List.nil_append, release, if_neg (Nat.not_lt.mpr (Nat.le_of_lt hc))]
    cases l₂ with
    | nil => rfl
    | cons d l₂ => rw [release, if_pos (hb d List.mem_cons_self)]
  | cons a l₁ ih =>
    rw [List.cons_append] at hl
    obtain ⟨ha, hl⟩ := List.pairwise_cons.mp hl
    have hac := ha c (by simp)
    have hne : a.1 + 16 * a.2 ≠ first c.1 (l₁ ++ join c (join b l₂)) := by
      rw [first_append, first_join]
      cases l₁ with
      | nil => exact Nat.ne_of_lt hac.2
      | cons e l₁ => exact Nat.ne_of_lt (ha e (by simp)).2
    rw [List.cons_append, release, if_neg (by have := hac.1; omega), ih hl, join_of_ne hne,
      List.cons_append]

/-- The empty block at the start joins nothing. -/
theorem release_base {base : ℕ} (hb : base < b.1) (hl : ∀ c ∈ l, base < c.1) :
    release b ((base, 0) :: l) = (base, 0) :: release b l := by
  have hne : base + 16 * 0 ≠ first b.1 (release b l) := by
    cases hr : release b l with
    | nil => exact Nat.ne_of_lt hb
    | cons d l' =>
      have hd : d ∈ release b l := by
        rw [hr]
        exact List.mem_cons_self
      rcases mem_release hd with hx | ⟨c, hc, hx⟩
      · rw [first, hx]
        exact Nat.ne_of_lt hb
      · rw [first, hx]
        exact Nat.ne_of_lt (hl c hc)
  rw [release, if_neg (Nat.not_lt.mpr (Nat.le_of_lt hb)), join_of_ne hne]

/-! ### Carving -/

theorem cover_carve (hn : n ≤ b.2) :
    cover ((carve n b ++ carved n b :: l).map bytes) y = cover ((b :: l).map bytes) y := by
  rw [carve, carved]
  by_cases he : b.2 = n
  · rw [if_pos he, ← he, Nat.sub_self]
    rfl
  · have hb : bytes b = (b.1, 16 * (b.2 - n) + 16 * n) := by
      rw [bytes]
      congr 1
      omega
    rw [if_neg he, List.map_append, List.map_cons, List.map_cons (l := l), List.map_cons (l := l), hb,
      cover_cut]
    rfl

theorem mem_carve (h : x ∈ carve n b) (hn : n ≤ b.2) : x.1 = b.1 ∧ x.2 ≤ b.2 ∧ 0 < x.2 := by
  rw [carve] at h
  by_cases he : b.2 = n
  · rw [if_pos he] at h
    exact absurd h List.not_mem_nil
  · rw [if_neg he, List.mem_singleton] at h
    subst h
    exact ⟨rfl, Nat.sub_le _ _, by omega⟩

theorem carve_before (hn : n ≤ b.2) (hl : (l₁ ++ b :: l₂).Pairwise Before) :
    (l₁ ++ (carve n b ++ l₂)).Pairwise Before := by
  obtain ⟨h₁, h₂, h₁₂⟩ := List.pairwise_append.mp hl
  obtain ⟨hb, h₂⟩ := List.pairwise_cons.mp h₂
  have hc : (carve n b).Pairwise Before := by
    rw [carve]
    by_cases he : b.2 = n
    · rw [if_pos he]
      exact List.Pairwise.nil
    · rw [if_neg he]
      exact List.pairwise_singleton _ _
  refine List.pairwise_append.mpr ⟨h₁, List.pairwise_append.mpr ⟨hc, h₂, ?_⟩, ?_⟩
  · intro x hx d hd
    obtain ⟨hx₁, hx₂, -⟩ := mem_carve hx hn
    have := hb d hd
    simp only [Before] at this ⊢
    omega
  · intro x hx d hd
    rcases List.mem_append.mp hd with hd | hd
    · have := h₁₂ x hx b List.mem_cons_self
      rw [Before, (mem_carve hd hn).1]
      exact this
    · exact h₁₂ x hx d (List.mem_cons_of_mem b hd)

end Xv6.Umalloc
