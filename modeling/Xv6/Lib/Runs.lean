import Mathlib.Data.Nat.Notation
import Mathlib.Logic.Relation
import Mathlib.Tactic.SplitIfs

/-!
# Runs — transition systems with fallible labelled steps

`step s l` is `none` when the label is not enabled in `s`, an error when the system stops, and the
next state otherwise.  `Steps step P s t`: a run from `s` to `t` whose labels all meet `P`.
-/

namespace Runs

variable {S L E : Type*} (step : S → L → Option (Except E S)) (P : S → L → Prop)

/-- One step of a run, with a label that meets `P`. -/
def Next (s t : S) : Prop := ∃ l, P s l ∧ step s l = some (.ok t)

/-- The runs whose labels all meet `P`. -/
def Steps : S → S → Prop := Relation.ReflTransGen (Next step P)

variable {step P} {P' : S → L → Prop} {s t u : S} {l : L} {I : S → Prop}

theorem Steps.refl (s : S) : Steps step P s s := Relation.ReflTransGen.refl

theorem Steps.snoc (h : Steps step P s t) (hP : P t l) (hl : step t l = some (.ok u)) :
    Steps step P s u := Relation.ReflTransGen.tail h ⟨l, hP, hl⟩

theorem Steps.trans (h : Steps step P s t) (h' : Steps step P t u) : Steps step P s u :=
  Relation.ReflTransGen.trans h h'

theorem Steps.mono (hP : ∀ s l, P s l → P' s l) (h : Steps step P s t) : Steps step P' s t := by
  refine Relation.ReflTransGen.mono (fun s t hn => ?_) _ _ h
  obtain ⟨l, hl, hs⟩ := hn
  exact ⟨l, hP s l hl, hs⟩

/-- **Invariants**: what every step preserves holds of every state of a run. -/
theorem Steps.invariant (h : Steps step P s t) (h0 : I s)
    (hstep : ∀ s l t, I s → P s l → step s l = some (.ok t) → I t) : I t := by
  induction h with
  | refl => exact h0
  | tail _ hn ih =>
    obtain ⟨l, hP, hl⟩ := hn
    exact hstep _ l _ ih hP hl

/-- The first `n` steps of a run, with the labels `ls` and the states `ss`. -/
def Path (step : S → L → Option (Except E S)) (P : S → L → Prop) (n : ℕ) (ls : ℕ → L) (ss : ℕ → S) : Prop :=
  ∀ k < n, P (ss k) (ls k) ∧ step (ss k) (ls k) = some (.ok (ss (k + 1)))

section Path

variable {n k : ℕ} {ls : ℕ → L} {ss : ℕ → S}

theorem Path.steps (h : Path step P n ls ss) (hk : k ≤ n) : Steps step P (ss 0) (ss k) := by
  induction k with
  | zero => exact Steps.refl _
  | succ k ih =>
    obtain ⟨hP, hl⟩ := h k hk
    exact (ih (Nat.le_of_succ_le hk)).snoc hP hl

theorem Path.mono (h : Path step P n ls ss) (hP : ∀ k < n, P (ss k) (ls k) → P' (ss k) (ls k)) :
    Path step P' n ls ss := fun k hk => ⟨hP k hk (h k hk).1, (h k hk).2⟩

/-- **Forward simulation**: where every step is matched by a step of another system, the run is matched
step by step. -/
theorem Path.simulate {A : Type*} {R : S → A → Prop} {T : L → S × A → S × A → Prop} {a : A}
    (h : Path step P n ls ss) (h0 : R (ss 0) a)
    (hstep : ∀ s l t a, R s a → P s l → step s l = some (.ok t) → ∃ b, T l (s, a) (t, b) ∧ R t b) :
    ∃ as : ℕ → A, as 0 = a ∧ (∀ k < n, T (ls k) (ss k, as k) (ss (k + 1), as (k + 1))) ∧
      ∀ k ≤ n, R (ss k) (as k) := by
  induction n with
  | zero =>
    refine ⟨fun _ => a, rfl, fun k hk => absurd hk (Nat.not_lt_zero k), fun k hk => ?_⟩
    rw [Nat.le_zero.mp hk]
    exact h0
  | succ n ih =>
    obtain ⟨as, ha, hT, hR⟩ := ih fun k hk => h k (Nat.lt_succ_of_lt hk)
    obtain ⟨hP, hl⟩ := h n (Nat.lt_succ_self n)
    obtain ⟨b, hb, hRb⟩ := hstep _ _ _ _ (hR n (Nat.le_refl n)) hP hl
    -- the run is continued by `b`
    refine ⟨fun k => if k ≤ n then as k else b, ?_, fun k hk => ?_, fun k hk => ?_⟩
    · dsimp only
      rw [if_pos (Nat.zero_le n), ha]
    · dsimp only
      obtain hlt | rfl := Nat.lt_succ_iff_lt_or_eq.mp hk
      · rw [if_pos (Nat.le_of_lt hlt), if_pos (Nat.succ_le_of_lt hlt)]
        exact hT k hlt
      · rw [if_pos (Nat.le_refl k), if_neg (Nat.not_succ_le_self k)]
        exact hb
    · dsimp only
      by_cases hle : k ≤ n
      · rw [if_pos hle]
        exact hR k hle
      · rw [if_neg hle, Nat.le_antisymm hk (Nat.lt_of_not_le hle)]
        exact hRb

end Path

/-- Run the labels `ls`, each of which must meet `P` and succeed. -/
def exec (step : S → L → Option (Except E S)) (P : S → L → Prop) [∀ s l, Decidable (P s l)] :
    S → List L → Option S
  | s, [] => some s
  | s, l :: ls =>
    if P s l then
      match step s l with
      | some (.ok t) => exec step P t ls
      | _ => none
    else none

theorem Steps.of_exec [∀ s l, Decidable (P s l)] {ls : List L} (h : exec step P s ls = some t) :
    Steps step P s t := by
  induction ls generalizing s with
  | nil => cases h; exact Steps.refl _
  | cons l ls ih =>
    rw [exec] at h
    split_ifs at h with hP
    cases hl : step s l with
    | none => rw [hl] at h; cases h
    | some r =>
      cases r with
      | error e => rw [hl] at h; cases h
      | ok u =>
        rw [hl] at h
        exact ((Steps.refl s).snoc hP hl).trans (ih h)

/-- The states of a run of the labels `ls`; the label `l` is for what is not in the list. -/
theorem Path.of_exec [∀ s l, Decidable (P s l)] {ls : List L} (l : L) (h : exec step P s ls = some t) :
    ∃ ss : ℕ → S, ss 0 = s ∧ ss ls.length = t ∧ Path step P ls.length (fun k => ls.getD k l) ss := by
  induction ls generalizing s with
  | nil =>
    cases h
    exact ⟨fun _ => t, rfl, rfl, fun k hk => absurd hk (Nat.not_lt_zero k)⟩
  | cons l' ls ih =>
    rw [exec] at h
    split_ifs at h with hP
    cases hl : step s l' with
    | none => rw [hl] at h; cases h
    | some r =>
      cases r with
      | error e => rw [hl] at h; cases h
      | ok u =>
        rw [hl] at h
        obtain ⟨ss, h0, hn, hpath⟩ := ih h
        refine ⟨fun k => k.casesOn s ss, rfl, hn, fun k hk => ?_⟩
        cases k with
        | zero => exact ⟨hP, hl.trans (by rw [← h0])⟩
        | succ k => exact hpath k (Nat.lt_of_succ_lt_succ hk)

/-- **Termination**: where every step makes a measure smaller, runs are no longer than the measure. -/
theorem exec_length_le [∀ s l, Decidable (P s l)] {m : S → ℕ} {ls : List L} (h0 : I s)
    (hstep : ∀ s l t, I s → P s l → step s l = some (.ok t) → I t ∧ m t < m s)
    (h : exec step P s ls = some t) : ls.length ≤ m s := by
  induction ls generalizing s with
  | nil => exact Nat.zero_le _
  | cons l ls ih =>
    rw [exec] at h
    split_ifs at h with hP
    cases hl : step s l with
    | none => rw [hl] at h; cases h
    | some r =>
      cases r with
      | error e => rw [hl] at h; cases h
      | ok u =>
        rw [hl] at h
        obtain ⟨hI, hm⟩ := hstep s l u h0 hP hl
        exact Nat.le_trans (Nat.succ_le_succ (ih hI h)) hm

/-- A run that ends in a state with a property that can be evaluated. -/
theorem Steps.of_any [∀ s l, Decidable (P s l)] {Q : S → Prop} [DecidablePred Q] (ls : List L)
    (h : (exec step P s ls).any (fun t => decide (Q t)) = true) : ∃ t, Steps step P s t ∧ Q t := by
  cases ht : exec step P s ls with
  | none =>
    rw [ht] at h
    cases h
  | some t =>
    rw [ht, Option.any_some] at h
    exact ⟨t, Steps.of_exec ht, of_decide_eq_true h⟩

/-- A call returns, and its result passes the test `p`. -/
def okWith {A : Type*} (p : A → Bool) : Except E A → Bool
  | .ok a => p a
  | .error _ => false

theorem okWith_iff {A : Type*} {p : A → Bool} {x : Except E A} :
    okWith p x = true ↔ ∃ a, x = .ok a ∧ p a = true := by
  cases x with
  | ok a => simp [okWith]
  | error e => simp [okWith]

end Runs
