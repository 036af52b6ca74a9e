import Mathlib.Data.Nat.Notation
import Mathlib.Data.List.Nodup
import Mathlib.Logic.Function.Basic
import Mathlib.Logic.Relation

/-!
# SpinLock — who holds which lock

`table l` is the holder of lock `l`, and `held c` lists the locks that holder `c` believes to have.

* `Agrees`: the two tell the same, and no lock is held twice; kept by acquiring and releasing.
* `no_cycle`: if everyone waits only for locks of a higher rank than those it holds, nobody waits
  for itself, directly or through others.
-/

namespace SpinLock

variable {C Λ : Type*} {table : Λ → Option C} {held held' : C → List Λ} {l l' : Λ} {c c' : C}

/-- The table and the lists of the holders agree. -/
structure Agrees (table : Λ → Option C) (held : C → List Λ) : Prop where
  iff : ∀ l c, table l = some c ↔ l ∈ held c
  nodup : ∀ c, (held c).Nodup

/-- **Exclusion**: a lock has one holder. -/
theorem Agrees.exclusive (h : Agrees table held) (hc : l ∈ held c) (hc' : l ∈ held c') : c = c' := by
  rw [← h.iff] at hc hc'
  rw [hc] at hc'
  exact Option.some.inj hc'

/-- A free lock is on no list. -/
theorem Agrees.free (h : Agrees table held) (hl : table l = none) (c : C) : l ∉ held c := by
  rw [← h.iff, hl]
  exact fun he => by cases he

/-- Nobody's list changes, up to order. -/
theorem Agrees.perm (h : Agrees table held) (hp : ∀ c, (held' c).Perm (held c)) :
    Agrees table held' := by
  refine ⟨fun l c => ?_, fun c => ?_⟩
  · rw [h.iff, (hp c).mem_iff]
  · rw [(hp c).nodup_iff]
    exact h.nodup c

variable [DecidableEq Λ]

/-- `c` takes a free lock. -/
theorem Agrees.acquire (h : Agrees table held) (hl : table l = none)
    (hc : (held' c).Perm (l :: held c)) (ho : ∀ c', c' ≠ c → (held' c').Perm (held c')) :
    Agrees (Function.update table l (some c)) held' := by
  have hnot := h.free hl
  refine ⟨fun l' c' => ?_, fun c' => ?_⟩
  · by_cases hc' : c' = c
    · subst hc'
      rw [hc.mem_iff, List.mem_cons]
      by_cases hll : l' = l
      · simp [hll]
      · rw [Function.update_of_ne hll, h.iff]
        simp [hll]
    · rw [(ho c' hc').mem_iff]
      by_cases hll : l' = l
      · subst hll
        rw [Function.update_self]
        exact ⟨fun he => absurd (Option.some.inj he).symm hc', fun hm => absurd hm (hnot c')⟩
      · rw [Function.update_of_ne hll, h.iff]
  · by_cases hc' : c' = c
    · subst hc'
      rw [hc.nodup_iff, List.nodup_cons]
      exact ⟨hnot c', h.nodup c'⟩
    · rw [(ho c' hc').nodup_iff]
      exact h.nodup c'

/-- `c` gives a lock back. -/
theorem Agrees.release (h : Agrees table held) (hc : (held c).Perm (l :: held' c))
    (ho : ∀ c', c' ≠ c → (held' c').Perm (held c')) :
    Agrees (Function.update table l none) held' := by
  have hmem : l ∈ held c := hc.mem_iff.mpr (List.mem_cons_self ..)
  have hnd := (hc.nodup_iff.mp (h.nodup c))
  rw [List.nodup_cons] at hnd
  refine ⟨fun l' c' => ?_, fun c' => ?_⟩
  · by_cases hll : l' = l
    · subst hll
      rw [Function.update_self]
      refine ⟨fun he => (by cases he), fun hm => ?_⟩
      by_cases hc' : c' = c
      · subst hc'
        exact absurd hm hnd.1
      · exact absurd (h.exclusive ((ho c' hc').mem_iff.mp hm) hmem) hc'
    · rw [Function.update_of_ne hll, h.iff]
      by_cases hc' : c' = c
      · subst hc'
        rw [hc.mem_iff, List.mem_cons]
        simp [hll]
      · rw [(ho c' hc').mem_iff]
  · by_cases hc' : c' = c
    · subst hc'
      exact hnd.2
    · rw [(ho c' hc').nodup_iff]
      exact h.nodup c'

/-! ## Deadlock -/

omit [DecidableEq Λ]

/-- `c` waits for a lock that `c'` holds. -/
def Waits (table : Λ → Option C) (wants : C → Λ → Prop) (c c' : C) : Prop :=
  ∃ l, wants c l ∧ table l = some c'

/-- **No deadlock** under a ranking of the locks. -/
theorem no_cycle {wants : C → Λ → Prop} (rank : Λ → ℕ)
    (hrank : ∀ c c' l l', wants c l → table l = some c' → table l' = some c → rank l' < rank l) :
    ¬ Relation.TransGen (Waits table wants) c c := by
  have key : ∀ d, Relation.TransGen (Waits table wants) c d →
      ∃ l, table l = some d ∧ ∀ l', table l' = some c → rank l' < rank l := by
    intro d h
    induction h with
    | single h =>
      obtain ⟨l, hw, hl⟩ := h
      exact ⟨l, hl, fun l' hl' => hrank _ _ l l' hw hl hl'⟩
    | tail _ h ih =>
      obtain ⟨l, hl, hlt⟩ := ih
      obtain ⟨m, hw, hm⟩ := h
      exact ⟨m, hm, fun l' hl' => Nat.lt_trans (hlt l' hl') (hrank _ _ m l hw hm hl)⟩
  intro h
  obtain ⟨l, hl, hlt⟩ := key c h
  exact absurd (hlt l hl) (Nat.lt_irrefl _)

end SpinLock
