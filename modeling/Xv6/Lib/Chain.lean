import Mathlib.Data.List.Basic
import Mathlib.Data.Nat.Find
import Mathlib.Data.Nat.Notation
import Mathlib.Logic.Function.Iterate

/-!
# Chain — singly linked lists of nodes with a value

`next` leads from node to node and `val` is what a node holds.  `Linked next val l z`: `next` leads
through the nodes of `l`, which hold the values given there, and from the last one to `z`.  A ring is a
list that leads back to its first node; from each of its nodes `next` comes to every other one.
-/

namespace Chain

variable {α β : Type*}

/-- The first node of `l`, or `z` if there is none. -/
def first (z : α) : List (α × β) → α
  | [] => z
  | b :: _ => b.1

def Linked (next : α → α) (val : α → β) : List (α × β) → α → Prop
  | [], _ => True
  | b :: l, z => (next b.1 = first z l ∧ val b.1 = b.2) ∧ Linked next val l z

variable {next next' : α → α} {val val' : α → β} {l l₁ l₂ : List (α × β)} {b : α × β} {p q z : α}

theorem first_append : first z (l₁ ++ l₂) = first (first z l₂) l₁ := by
  cases l₁ with
  | nil => rfl
  | cons b l₁ => rfl

theorem first_mem (h : l ≠ []) : first z l ∈ l.map Prod.fst := by
  cases l with
  | nil => exact absurd rfl h
  | cons b l => exact List.mem_cons_self

theorem linked_append :
    Linked next val (l₁ ++ l₂) z ↔ Linked next val l₁ (first z l₂) ∧ Linked next val l₂ z := by
  induction l₁ with
  | nil => simp [Linked]
  | cons b l₁ ih =>
    rw [List.cons_append, Linked, Linked, ih, first_append, and_assoc, and_assoc, and_assoc]

namespace Linked

/-- Only what is in the nodes matters. -/
theorem congr (h : Linked next val l z)
    (hl : ∀ b ∈ l, next' b.1 = next b.1 ∧ val' b.1 = val b.1) : Linked next' val' l z := by
  induction l with
  | nil => trivial
  | cons b l ih =>
    obtain ⟨⟨hn, hv⟩, h⟩ := h
    obtain ⟨hn', hv'⟩ := hl b List.mem_cons_self
    exact ⟨⟨hn'.trans hn, hv'.trans hv⟩, ih h fun c hc => hl c (List.mem_cons_of_mem b hc)⟩

theorem val_eq (h : Linked next val l z) (hb : b ∈ l) : val b.1 = b.2 := by
  obtain ⟨l₁, l₂, rfl⟩ := List.append_of_mem hb
  exact (linked_append.mp h).2.1.2

theorem next_eq (h : Linked next val (l₁ ++ b :: l₂) z) : next b.1 = first z l₂ :=
  (linked_append.mp h).2.1.1

/-- `next` leads over the nodes of a first part to the rest. -/
theorem iterate (h : Linked next val (l₁ ++ l₂) z) :
    next^[l₁.length] (first z (l₁ ++ l₂)) = first z l₂ := by
  induction l₁ with
  | nil => rfl
  | cons b l₁ ih =>
    obtain ⟨⟨hn, -⟩, h⟩ := h
    rw [List.length_cons, Function.iterate_succ_apply, List.cons_append, first, hn]
    exact ih h

/-! ### Rings -/

variable (h : Linked next val (b :: l) b.1)
include h

theorem next_mem (hp : p ∈ (b :: l).map Prod.fst) : next p ∈ (b :: l).map Prod.fst := by
  obtain ⟨c, hc, rfl⟩ := List.mem_map.mp hp
  obtain ⟨l₁, l₂, he⟩ := List.append_of_mem hc
  rw [he] at h
  rw [h.next_eq]
  by_cases hl : l₂ = []
  · rw [hl]
    exact List.mem_cons_self
  · have hm : first b.1 l₂ ∈ l₂.map Prod.fst := first_mem hl
    rw [he, List.map_append, List.map_cons]
    exact List.mem_append_right _ (List.mem_cons_of_mem _ hm)

theorem iterate_mem (hp : p ∈ (b :: l).map Prod.fst) (k : ℕ) :
    next^[k] p ∈ (b :: l).map Prod.fst := by
  induction k generalizing p with
  | zero => exact hp
  | succ k ih => exact ih (h.next_mem hp)

/-- `next` comes from each node to every other one. -/
theorem reach (hp : p ∈ (b :: l).map Prod.fst) (hq : q ∈ (b :: l).map Prod.fst) :
    ∃ k, next^[k] p = q := by
  -- from `p` to the end, which is the first node, and from there to `q`
  have hend : ∃ k, next^[k] p = b.1 := by
    obtain ⟨c, hc, rfl⟩ := List.mem_map.mp hp
    obtain ⟨l₁, l₂, he⟩ := List.append_of_mem hc
    rw [he, linked_append] at h
    have h₂ : Linked next val (c :: l₂ ++ []) b.1 := by
      rw [List.append_nil]
      exact h.2
    exact ⟨_, h₂.iterate⟩
  obtain ⟨c, hc, rfl⟩ := List.mem_map.mp hq
  obtain ⟨l₁, l₂, he⟩ := List.append_of_mem hc
  obtain ⟨k, hk⟩ := hend
  have hi : next^[l₁.length] b.1 = c.1 := by
    rw [he] at h
    have := h.iterate
    rwa [← he] at this
  exact ⟨l₁.length + k, by rw [Function.iterate_add_apply, hk, hi]⟩

/-- A search that starts at any node stops, if there is a node to stop at. -/
theorem search {P : α → Prop} [DecidablePred P] (hp : p ∈ (b :: l).map Prod.fst)
    (hq : q ∈ (b :: l).map Prod.fst) (hP : P q) :
    ∃ k, P (next^[k] p) ∧ ∀ j < k, ¬ P (next^[j] p) := by
  have hex : ∃ k, P (next^[k] p) := by
    obtain ⟨k, hk⟩ := h.reach hp hq
    exact ⟨k, by rwa [hk]⟩
  exact ⟨Nat.find hex, Nat.find_spec hex, fun j hj => Nat.find_min hex hj⟩

/-- A search that starts behind `p` meets such a node before it is back at `p`. -/
theorem search_around {P : α → Prop} [DecidablePred P] (hp : p ∈ (b :: l).map Prod.fst)
    (hq : q ∈ (b :: l).map Prod.fst) (hP : P q) :
    ∃ k, P (next^[k + 1] p) ∧ ∀ j < k, ¬ P (next^[j + 1] p) ∧ next^[j + 1] p ≠ p := by
  obtain ⟨k, hk, hj⟩ := h.search (h.next_mem hp) hq hP
  refine ⟨k, hk, fun j hjk => ⟨hj j hjk, fun hback => hj (k - j - 1) (by omega) ?_⟩⟩
  -- the way from `p` back to `p` could have been left out
  have he : next^[k + 1] p = next^[k - j - 1 + 1] p := by
    have hk' : k + 1 = k - j - 1 + 1 + (j + 1) := by omega
    rw [hk', Function.iterate_add_apply _ _ (j + 1), hback]
  have hk' : P (next^[k + 1] p) := hk
  rw [he] at hk'
  exact hk'

end Linked

end Chain
