import Mathlib.Data.List.Basic
import Mathlib.Data.Nat.ModEq
import Mathlib.Data.Nat.Notation

/-!
# Ring — queues in circular buffers with wrapping counters

A buffer of `cap` cells with a read and a write counter that count modulo `wrap`, where `cap`
divides `wrap`.  `Holds cap wrap data r w n q`: `n` elements have been taken out so far and the
buffer holds the queue `q`.  The rules are `push` (in two steps: `poke`
and `advance`), `pop` and `unpush`; `eq_iff` and `full_iff` say what
comparing the counters tells.
-/

namespace Ring

variable {α : Type*}

/-- The buffer holds the queue `q`, after `n` elements have been taken out. -/
structure Holds (cap wrap : ℕ) (data : ℕ → α) (r w n : ℕ) (q : List α) : Prop where
  read : r = n % wrap
  write : w = (n + q.length) % wrap
  le : q.length ≤ cap
  cell : ∀ k, (h : k < q.length) → data ((n + k) % cap) = q.get ⟨k, h⟩

variable {cap wrap r w n : ℕ} {data : ℕ → α} {q : List α} {x : α}

/-- Distances below `wrap` are told apart. -/
theorem mod_add_inj {a b : ℕ} (ha : a < wrap) (hb : b < wrap) (h : (n + a) % wrap = (n + b) % wrap) :
    a = b := by
  have h' : a % wrap = b % wrap := Nat.ModEq.add_left_cancel' n h
  rwa [Nat.mod_eq_of_lt ha, Nat.mod_eq_of_lt hb] at h'

/-- A counter that has been moved forward and back. -/
theorem back_succ {m : ℕ} (hw : 0 < wrap) : (wrap - 1 + (m + 1) % wrap) % wrap = m % wrap := by
  rw [Nat.add_mod_mod, show wrap - 1 + (m + 1) = m + wrap by omega, Nat.add_mod_right]

namespace Holds

theorem empty : Holds cap wrap data 0 0 0 ([] : List α) := by
  refine ⟨(Nat.zero_mod _).symm, (Nat.zero_mod _).symm, Nat.zero_le _, fun k h => ?_⟩
  exact absurd h (Nat.not_lt_zero k)

/-- The counters are equal exactly if the queue is empty. -/
theorem eq_iff (h : Holds cap wrap data r w n q) (hlt : cap < wrap) : r = w ↔ q = [] := by
  rw [h.read, h.write]
  constructor
  · intro he
    have h0 : 0 = q.length := mod_add_inj (n := n) (by omega) (lt_of_le_of_lt h.le hlt) he
    exact List.length_eq_zero_iff.mp h0.symm
  · rintro rfl
    rfl

/-- The write counter is `cap` ahead exactly if the buffer is full. -/
theorem full_iff (h : Holds cap wrap data r w n q) (hlt : cap < wrap) :
    w = (r + cap) % wrap ↔ q.length = cap := by
  rw [h.read, h.write, Nat.mod_add_mod]
  constructor
  · intro he
    exact mod_add_inj (n := n) (lt_of_le_of_lt h.le hlt) hlt he
  · intro he
    rw [he]

/-- How far the write counter is ahead. -/
theorem ahead (h : Holds cap wrap data r w n q) (hlt : cap < wrap) :
    (w + wrap - r) % wrap = q.length := by
  have hr : r < wrap := by
    rw [h.read]
    exact Nat.mod_lt _ (by omega)
  have hsum : (w + wrap - r + r) % wrap = (q.length + r) % wrap := by
    rw [Nat.sub_add_cancel (by omega), Nat.add_mod_right, h.write, h.read, Nat.mod_mod,
      Nat.add_mod_mod, add_comm]
  have := Nat.ModEq.add_right_cancel' r hsum
  rwa [Nat.ModEq, Nat.mod_eq_of_lt (lt_of_le_of_lt h.le hlt)] at this

/-- The cell at the write counter is not in the queue. -/
theorem poke (h : Holds cap wrap data r w n q) (hdvd : cap ∣ wrap) (hq : q.length < cap) :
    Holds cap wrap (fun i => if i = w % cap then x else data i) r w n q := by
  have hw : w % cap = (n + q.length) % cap := by rw [h.write, Nat.mod_mod_of_dvd _ hdvd]
  refine ⟨h.read, h.write, h.le, fun k hk => ?_⟩
  rw [if_neg]
  · exact h.cell k hk
  · rw [hw]
    intro he
    exact (Nat.ne_of_lt hk) (mod_add_inj (by omega) hq he)

/-- The cell at the write counter joins the queue. -/
theorem advance (h : Holds cap wrap data r w n q) (hdvd : cap ∣ wrap) (hq : q.length < cap)
    (hx : data (w % cap) = x) : Holds cap wrap data r ((w + 1) % wrap) n (q ++ [x]) := by
  refine ⟨h.read, ?_, by rw [List.length_append, List.length_singleton]; omega, fun k hk => ?_⟩
  · rw [h.write, Nat.mod_add_mod, List.length_append, List.length_singleton, add_assoc]
  · rw [List.length_append, List.length_singleton] at hk
    by_cases hkq : k = q.length
    · subst hkq
      rw [h.write, Nat.mod_mod_of_dvd _ hdvd] at hx
      simp [hx]
    · have hlt : k < q.length := by omega
      simp only [List.get_eq_getElem, List.getElem_append_left hlt]
      exact h.cell k hlt

/-- **Putting an element in** at the write counter. -/
theorem push (h : Holds cap wrap data r w n q) (hdvd : cap ∣ wrap) (hq : q.length < cap) :
    Holds cap wrap (fun i => if i = w % cap then x else data i) r ((w + 1) % wrap) n (q ++ [x]) :=
  (h.poke hdvd hq).advance hdvd hq (if_pos rfl)

/-- **Taking an element out** at the read counter. -/
theorem pop (h : Holds cap wrap data r w n (x :: q)) (hdvd : cap ∣ wrap) :
    data (r % cap) = x ∧ Holds cap wrap data ((r + 1) % wrap) w (n + 1) q := by
  have hle := h.le
  rw [List.length_cons] at hle
  refine ⟨?_, ?_, ?_, by omega, fun k hk => ?_⟩
  · rw [h.read, Nat.mod_mod_of_dvd _ hdvd]
    exact h.cell 0 (by rw [List.length_cons]; omega)
  · rw [h.read, Nat.mod_add_mod]
  · rw [h.write, List.length_cons, add_assoc n 1, add_comm 1]
  · have := h.cell (k + 1) (by rw [List.length_cons]; omega)
    rwa [add_assoc, add_comm 1 k]

/-- The front part of the queue, up to a counter on the way. -/
theorem front {q' : List α} (h : Holds cap wrap data r w n (q ++ q')) :
    Holds cap wrap data r ((n + q.length) % wrap) n q := by
  have hle := h.le
  rw [List.length_append] at hle
  refine ⟨h.read, rfl, by omega, fun k hk => ?_⟩
  have hcell := h.cell k (by rw [List.length_append]; omega)
  simp only [List.get_eq_getElem, List.getElem_append_left hk] at hcell ⊢
  exact hcell

/-- **Taking the last element back out** at the write counter. -/
theorem unpush (h : Holds cap wrap data r w n (q ++ [x])) (hdvd : cap ∣ wrap) (hw : 0 < wrap) :
    data ((wrap - 1 + w) % wrap % cap) = x ∧
      Holds cap wrap data r ((wrap - 1 + w) % wrap) n q := by
  have hwrite := h.write
  rw [List.length_append, List.length_singleton, ← add_assoc] at hwrite
  rw [hwrite, back_succ hw]
  refine ⟨?_, h.front⟩
  have hcell := h.cell q.length (by rw [List.length_append, List.length_singleton]; omega)
  rw [Nat.mod_mod_of_dvd _ hdvd, hcell]
  simp

/-- The queue, cell by cell. -/
theorem contents (h : Holds cap wrap data r w n q) (hdvd : cap ∣ wrap) :
    (List.range q.length).map (fun k => data ((r + k) % cap)) = q := by
  refine List.ext_getElem (by simp) fun k h1 h2 => ?_
  have hcell := h.cell k h2
  rw [List.getElem_map, List.getElem_range, h.read, Nat.add_mod, Nat.mod_mod_of_dvd _ hdvd,
    ← Nat.add_mod]
  exact hcell

end Holds

end Ring
