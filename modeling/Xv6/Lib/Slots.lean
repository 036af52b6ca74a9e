import Mathlib.Algebra.BigOperators.Ring.Finset
import Mathlib.Algebra.Order.BigOperators.Group.Finset
import Mathlib.Data.Fintype.Prod
import Mathlib.Data.Multiset.Count

/-!
# Slots — references held in a table

A table `T` has a row of slots for each of finitely many owners; a slot is empty or refers to an
object.  `refs T` is the multiset of the objects referred to, one copy for every slot.
-/

namespace Slots

variable {A B F : Type*} [Fintype A] [Fintype B] [DecidableEq A] [DecidableEq B]
variable {T : A → B → Option F} {a : A} {b : B} {f : F} {v : Option F}

/-- Overwrite slot `b` of `a`. -/
def set (T : A → B → Option F) (a : A) (b : B) (v : Option F) : A → B → Option F :=
  Function.update T a (Function.update (T a) b v)

omit [Fintype A] [Fintype B] in
@[simp] theorem set_self : set T a b v a b = v := by simp [set]

omit [Fintype A] [Fintype B] in
theorem set_of_ne {a' : A} {b' : B} (h : a' ≠ a ∨ b' ≠ b) : set T a b v a' b' = T a' b' := by
  by_cases ha : a' = a
  · subst ha
    rw [set, Function.update_self, Function.update_of_ne (h.resolve_left (not_not.mpr rfl))]
  · rw [set, Function.update_of_ne ha]

omit [Fintype A] [Fintype B] in
/-- A slot that is filled and emptied again. -/
theorem set_set_eq (h : T a b = none) : set (set T a b v) a b none = T := by
  funext a' b'
  by_cases hab : a' = a ∧ b' = b
  · rw [hab.1, hab.2, set_self, h]
  · have hne : a' ≠ a ∨ b' ≠ b := by
      by_contra hc
      push Not at hc
      exact hab hc
    rw [set_of_ne hne, set_of_ne hne]

omit [Fintype A] [Fintype B] in
theorem set_comm {b' : B} {v' : Option F} (hb : b ≠ b') :
    set (set T a b v) a b' v' = set (set T a b' v') a b v := by
  simp only [set, Function.update_self, Function.update_idem]
  rw [Function.update_comm hb]

/-- What one slot refers to. -/
def ref : Option F → Multiset F
  | none => 0
  | some f => {f}

omit [DecidableEq A] [DecidableEq B] in
/-- The objects referred to. -/
@[irreducible] def refs (T : A → B → Option F) : Multiset F := ∑ x : A × B, ref (T x.1 x.2)

/-- The references outside one slot. -/
def rest (T : A → B → Option F) (a : A) (b : B) : Multiset F :=
  ∑ x ∈ (Finset.univ : Finset (A × B)).erase (a, b), ref (T x.1 x.2)

theorem refs_eq (T : A → B → Option F) (a : A) (b : B) : refs T = ref (T a b) + rest T a b := by
  rw [refs]
  exact (Finset.add_sum_erase _ (fun x : A × B => ref (T x.1 x.2)) (Finset.mem_univ (a, b))).symm

theorem rest_set : rest (set T a b v) a b = rest T a b := by
  refine Finset.sum_congr rfl fun x hx => ?_
  have hne : x ≠ (a, b) := (Finset.mem_erase.mp hx).1
  rw [set_of_ne]
  by_contra h
  push Not at h
  exact hne (Prod.ext h.1 h.2)

/-- **Filling** an empty slot. -/
theorem refs_fill (h : T a b = none) : refs (set T a b (some f)) = f ::ₘ refs T := by
  rw [refs_eq _ a b, rest_set, set_self, refs_eq T a b, h, ref, ref, zero_add,
    Multiset.singleton_add]

/-- **Clearing** a slot. -/
theorem refs_clear (h : T a b = some f) : refs T = f ::ₘ refs (set T a b none) := by
  rw [refs_eq T a b, h, refs_eq (set T a b none) a b, rest_set, set_self, ref, ref, zero_add,
    Multiset.singleton_add]

theorem mem_refs (h : T a b = some f) : f ∈ refs T := by
  rw [refs_clear h]
  exact Multiset.mem_cons_self f _

omit [DecidableEq A] [DecidableEq B] in
theorem card_refs_le (T : A → B → Option F) :
    Multiset.card (refs T) ≤ Fintype.card A * Fintype.card B := by
  have hle : ∀ x ∈ (Finset.univ : Finset (A × B)), Multiset.card (ref (T x.1 x.2)) ≤ 1 := by
    intro x _
    cases T x.1 x.2 with
    | none => exact Nat.zero_le 1
    | some f => exact le_refl 1
  have h := Finset.sum_le_card_nsmul _ _ 1 hle
  rw [refs, Multiset.card_sum]
  simpa [Fintype.card_prod] using h

omit [DecidableEq A] [DecidableEq B] in
/-- The number of references to an object is the number of its slots. -/
theorem count_refs [DecidableEq F] (T : A → B → Option F) (f : F) : (refs T).count f =
    ((Finset.univ : Finset (A × B)).filter fun x => T x.1 x.2 = some f).card := by
  rw [refs, Multiset.count_sum', Finset.card_filter]
  refine Finset.sum_congr rfl fun x _ => ?_
  cases T x.1 x.2 with
  | none => rfl
  | some g => simp only [ref, Multiset.count_singleton, Option.some.injEq, eq_comm]

end Slots
