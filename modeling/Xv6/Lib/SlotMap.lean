import Mathlib.Data.List.Basic

/-!
# SlotMap — a finite map kept in slots

A slot is empty or holds a key and its value.  If no two of the first `n` slots hold the same key, they
are a finite map: `find` finds the slot of a key, a new key goes to any empty slot, and a key is removed
by emptying its slot.
-/

namespace SlotMap

variable {K V : Type*} [DecidableEq K] {slots slots' : ℕ → Option (K × V)} {n n' i : ℕ} {k k' : K} {v : V}

/-- The value of slot `i` if it holds the key `k`. -/
def at? (slots : ℕ → Option (K × V)) (k : K) (i : ℕ) : Option (ℕ × V) :=
  (slots i).bind fun kv => if kv.1 = k then some (i, kv.2) else none

/-- The first of the `n` slots with the key `k`, and its value. -/
def find (slots : ℕ → Option (K × V)) (n : ℕ) (k : K) : Option (ℕ × V) :=
  (List.range n).findSome? (at? slots k)

/-- No key is in two slots. -/
def Distinct (slots : ℕ → Option (K × V)) (n : ℕ) : Prop :=
  ∀ i < n, ∀ j < n, ∀ k v w, slots i = some (k, v) → slots j = some (k, w) → i = j

theorem at?_eq_some {j : ℕ} : at? slots k i = some (j, v) ↔ i = j ∧ slots i = some (k, v) := by
  unfold at?
  cases h : slots i with
  | none => simp
  | some kv =>
    obtain ⟨k', v'⟩ := kv
    rw [Option.bind_some]
    by_cases hk : k' = k
    · rw [if_pos hk]
      simp [hk]
    · rw [if_neg hk]
      simp [hk]

theorem find_eq_none : find slots n k = none ↔ ∀ i < n, ∀ v, slots i ≠ some (k, v) := by
  unfold find
  rw [List.findSome?_eq_none_iff]
  constructor
  · intro h i hi v hs
    have hnone := h i (List.mem_range.mpr hi)
    rw [at?_eq_some.mpr ⟨rfl, hs⟩] at hnone
    cases hnone
  · intro h i hi
    cases hat : at? slots k i with
    | none => rfl
    | some x =>
      obtain ⟨j, v⟩ := x
      exact absurd (at?_eq_some.mp hat).2 (h i (List.mem_range.mp hi) v)

theorem find_congr (h : ∀ i < n, slots' i = slots i) : find slots' n k = find slots n k := by
  unfold find
  rw [← List.head?_filterMap, ← List.head?_filterMap]
  refine congrArg List.head? (List.filterMap_congr fun i hi => ?_)
  rw [at?, at?, h i (List.mem_range.mp hi)]

theorem find_some (h : find slots n k = some (i, v)) : i < n ∧ slots i = some (k, v) := by
  obtain ⟨j, hj, hat⟩ := List.exists_of_findSome?_eq_some h
  obtain ⟨rfl, hs⟩ := at?_eq_some.mp hat
  exact ⟨List.mem_range.mp hj, hs⟩

/-- **The slot of a key is found.** -/
theorem Distinct.find_eq_some (hd : Distinct slots n) :
    find slots n k = some (i, v) ↔ i < n ∧ slots i = some (k, v) := by
  refine ⟨find_some, fun ⟨hi, hs⟩ => ?_⟩
  cases hf : find slots n k with
  | none => exact absurd hs (find_eq_none.mp hf i hi v)
  | some x =>
    obtain ⟨j, w⟩ := x
    obtain ⟨hj, hs'⟩ := find_some hf
    obtain rfl := hd i hi j hj k v w hs hs'
    rw [hs] at hs'
    injection hs' with hs'
    injection hs' with _ hv
    rw [hv]

/-- What is put into slot `i` does not have the key of another slot. -/
theorem Distinct.set (hd : Distinct slots n) (hrest : ∀ j < n', j ≠ i → j < n ∧ slots' j = slots j)
    (hnew : ∀ k v, slots' i = some (k, v) → find slots n k = none) : Distinct slots' n' := by
  have hkey : ∀ j < n', j ≠ i → ∀ k v w, slots' i = some (k, v) → slots' j ≠ some (k, w) := by
    intro j hj hji k v w hi hs
    obtain ⟨hjn, hj'⟩ := hrest j hj hji
    exact find_eq_none.mp (hnew k v hi) j hjn w (hj'.symm.trans hs)
  intro j hj j' hj' k v w hs hs'
  by_cases h1 : j = i <;> by_cases h2 : j' = i
  · exact h1.trans h2.symm
  · exact absurd hs' (hkey j' hj' h2 k v w (h1 ▸ hs))
  · exact absurd hs (hkey j hj h1 k w v (h2 ▸ hs'))
  · obtain ⟨hjn, he⟩ := hrest j hj h1
    obtain ⟨hjn', he'⟩ := hrest j' hj' h2
    exact hd j hjn j' hjn' k v w (he ▸ hs) (he' ▸ hs')

/-- The slots after a new key was put into slot `i`. -/
structure Put (slots slots' : ℕ → Option (K × V)) (n n' i : ℕ) (k : K) (v : V) : Prop where
  free : i < n → slots i = none
  new : slots' i = some (k, v)
  rest : ∀ j < n', j ≠ i → slots' j = slots j
  size : ∀ j, j < n' ↔ j < n ∨ j = i

theorem Put.distinct (hp : Put slots slots' n n' i k v) (hd : Distinct slots n)
    (habs : find slots n k = none) : Distinct slots' n' := by
  refine hd.set (fun j hj hji => ⟨((hp.size j).mp hj).resolve_right hji, hp.rest j hj hji⟩) fun k' v' h => ?_
  rw [hp.new] at h
  injection h with h
  injection h with hk
  exact hk ▸ habs

/-- **The new key is there, and every other key is where it was.** -/
theorem Put.find (hp : Put slots slots' n n' i k v) (hd : Distinct slots n)
    (habs : find slots n k = none) :
    find slots' n' k' = if k' = k then some (i, v) else find slots n k' := by
  have hd' := hp.distinct hd habs
  by_cases hk : k' = k
  · rw [if_pos hk, hk]
    exact hd'.find_eq_some.mpr ⟨(hp.size i).mpr (Or.inr rfl), hp.new⟩
  · rw [if_neg hk]
    refine Option.ext fun x => ?_
    obtain ⟨j, w⟩ := x
    rw [hd'.find_eq_some, hd.find_eq_some]
    constructor
    · rintro ⟨hj, hs⟩
      have hji : j ≠ i := by
        rintro rfl
        rw [hp.new] at hs
        injection hs with hs
        injection hs with h
        exact hk h.symm
      exact ⟨((hp.size j).mp hj).resolve_right hji, by rwa [hp.rest j hj hji] at hs⟩
    · rintro ⟨hj, hs⟩
      have hj' := (hp.size j).mpr (Or.inl hj)
      have hji : j ≠ i := by
        rintro rfl
        rw [hp.free hj] at hs
        cases hs
      exact ⟨hj', by rwa [hp.rest j hj' hji]⟩

/-- The slots after slot `i` was emptied. -/
structure Cleared (slots slots' : ℕ → Option (K × V)) (n i : ℕ) : Prop where
  empty : slots' i = none
  rest : ∀ j < n, j ≠ i → slots' j = slots j

theorem Cleared.distinct (hc : Cleared slots slots' n i) (hd : Distinct slots n) :
    Distinct slots' n := by
  refine hd.set (fun j hj hji => ⟨hj, hc.rest j hj hji⟩) fun k v h => ?_
  rw [hc.empty] at h
  cases h

/-- **Exactly the key of the slot is gone.** -/
theorem Cleared.find (hc : Cleared slots slots' n i) (hd : Distinct slots n) (hi : i < n)
    (hs : slots i = some (k, v)) : find slots' n k' = if k' = k then none else find slots n k' := by
  have hd' := hc.distinct hd
  by_cases hk : k' = k
  · rw [if_pos hk, hk]
    refine find_eq_none.mpr fun j hj w hs' => ?_
    by_cases hji : j = i
    · rw [hji, hc.empty] at hs'
      cases hs'
    · rw [hc.rest j hj hji] at hs'
      exact hji (hd j hj i hi k w v hs' hs)
  · rw [if_neg hk]
    refine Option.ext fun x => ?_
    obtain ⟨j, w⟩ := x
    rw [hd'.find_eq_some, hd.find_eq_some]
    refine and_congr_right fun hj => ?_
    by_cases hji : j = i
    · rw [hji, hc.empty, hs]
      constructor
      · intro h
        cases h
      · intro h
        injection h with h
        injection h with h
        exact absurd h.symm hk
    · rw [hc.rest j hj hji]

end SlotMap
