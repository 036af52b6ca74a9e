import Mathlib.Computability.Language

/-!
# Letters — words of one letter, repeated and followed by others

`letter p` is the language of the one-letter words whose letter has `p`.  The lemmas say which words are in
a concatenation that begins with it, with its star, or with any word: what a matcher that reads letter by
letter decides.
-/

namespace Language

open scoped Computability

variable {α : Type*} {p : α → Prop} {l m : Language α} {a : α} {w : List α}

def letter (p : α → Prop) : Language α := {w | ∃ a, p a ∧ w = [a]}

theorem nil_mem_letter_mul : [] ∉ letter p * m := by
  rintro ⟨x, ⟨a, -, rfl⟩, y, -, hxy⟩
  cases hxy

theorem cons_mem_letter_mul : a :: w ∈ letter p * m ↔ p a ∧ w ∈ m := by
  constructor
  · rintro ⟨x, ⟨b, hb, rfl⟩, y, hy, hxy⟩
    cases hxy
    exact ⟨hb, hy⟩
  · rintro ⟨ha, hw⟩
    exact append_mem_mul (a := [a]) ⟨a, ha, rfl⟩ hw

/-- No repetition, or one more. -/
theorem mem_kstar_mul : w ∈ l∗ * m ↔ w ∈ m ∨ w ∈ l * (l∗ * m) := by
  rw [← mul_assoc]
  nth_rewrite 1 [← one_add_self_mul_kstar_eq_kstar]
  rw [add_mul, one_mul, mem_add]

theorem nil_mem_kstar_mul : [] ∈ (letter p)∗ * m ↔ [] ∈ m := by
  rw [mem_kstar_mul]
  exact or_iff_left nil_mem_letter_mul

theorem cons_mem_kstar_mul :
    a :: w ∈ (letter p)∗ * m ↔ a :: w ∈ m ∨ (p a ∧ w ∈ (letter p)∗ * m) := by
  rw [mem_kstar_mul, cons_mem_letter_mul]

/-- Any word in front. -/
theorem mem_top_mul : w ∈ (⊤ : Language α) * m ↔ ∃ u v, u ++ v = w ∧ v ∈ m := by
  rw [mem_mul]
  exact ⟨fun ⟨u, _, v, hv, h⟩ => ⟨u, v, h, hv⟩, fun ⟨u, v, h, hv⟩ => ⟨u, trivial, v, hv, h⟩⟩

theorem nil_mem_top_mul : [] ∈ (⊤ : Language α) * m ↔ [] ∈ m := by
  rw [mem_top_mul]
  constructor
  · rintro ⟨u, v, huv, hv⟩
    rwa [(List.append_eq_nil_iff.mp huv).2] at hv
  · exact fun h => ⟨[], [], rfl, h⟩

theorem cons_mem_top_mul : a :: w ∈ (⊤ : Language α) * m ↔ a :: w ∈ m ∨ w ∈ (⊤ : Language α) * m := by
  rw [mem_top_mul, mem_top_mul]
  constructor
  · rintro ⟨_ | ⟨b, u⟩, v, huv, hv⟩
    · rw [List.nil_append] at huv
      exact Or.inl (huv ▸ hv)
    · rw [List.cons_append, List.cons.injEq] at huv
      exact Or.inr ⟨u, v, huv.2, hv⟩
  · rintro (h | ⟨u, v, huv, hv⟩)
    · exact ⟨[], a :: w, rfl, h⟩
    · exact ⟨a :: u, v, by rw [List.cons_append, huv], hv⟩

end Language
