import Xv6.Log.Control

/-!
# Reserve — is the log space that `begin_op` reserves enough?

`begin_op` admits operations as long as `LOGSIZE` blocks suffice, `MAXOPBLOCKS` for each.  The log
area has `sb.nlog = LOGSIZE` blocks, one of which is the header, and `log_write` panics once the
group has named `sb.nlog - 1` blocks, before it looks for absorption.

* `panics_iff`: in every run a step panics exactly when it is a `log_write` into such a group.
* `full_house`: three operations of `MAXOPBLOCKS` blocks each get there.
-/

namespace Xv6

/-- The distinct blocks that the group in progress has named. -/
def LogSys.groupBlocks (s : LogSys) : Finset ℕ := (s.group.map Prod.fst).toFinset

/-- Every operation names at most `MAXOPBLOCKS` distinct blocks. -/
def Within (s : LogSys) : LogOp → Prop
  | .log_write p b _ => (insert b (s.named p)).card ≤ MAXOPBLOCKS
  | _ => True

instance (s : LogSys) : (l : LogOp) → Decidable (Within s l)
  | .log_write p b _ => inferInstanceAs (Decidable ((insert b (s.named p)).card ≤ MAXOPBLOCKS))
  | .begin_op _ | .end_op _ | .bread _ | .recycle _ | .advance | .crash =>
    inferInstanceAs (Decidable True)

/-- The label calls `log_write` when the group has named `sb.nlog - 1` blocks. -/
def Overfull (sb : superblock) (s : LogSys) (l : LogOp) : Prop :=
  ∃ p b data, l = .log_write p b data ∧ p ∈ s.ops ∧ Home sb b ∧ sb.nlog - 1 ≤ s.groupBlocks.card

section

variable {sb : superblock} {s : LogSys} {p b : ℕ} {data : Block}

theorem Ctl.begin_op_ok (l : Except Panic LogSys) (hl : logStep sb s (.begin_op p) = some l) :
    ∃ t, l = .ok t := by
  simp only [logStep] at hl
  split_ifs at hl
  cases hb : Xv6.begin_op s.log with
  | none => rw [hb] at hl; cases hl
  | some log => rw [hb] at hl; cases hl; exact ⟨_, rfl⟩

/-- `end_op` never finds a commit in progress. -/
theorem Ctl.end_op_ok (h : Ctl sb s) {e : Panic} :
    logStep sb s (.end_op p) ≠ some (.error e) := by
  intro hl
  simp only [logStep, Xv6.end_op] at hl
  split_ifs at hl with hp hc
  · exact (h.committing.mp hc).2 (h.running_of_mem hp)
  all_goals cases hl

/-- `log_write` panics exactly when the group fills the log. -/
theorem Ctl.log_write_panics_iff (h : Ctl sb s) (hn : sb.nlog = LOGSIZE) (hp : p ∈ s.ops)
    (hb : Home sb b) : (∃ e, logStep sb s (.log_write p b data) = some (.error e)) ↔
      sb.nlog - 1 ≤ s.groupBlocks.card := by
  have hrun := h.running_of_mem hp
  have hcard : s.log.lh.n = s.groupBlocks.card := h.n_eq (by rw [hrun]; rfl)
  have hsize := (h.params (by rw [hrun]; exact Phase.noConfusion)).2
  have hpos := Finset.card_pos.mpr ⟨p, hp⟩
  have hout := h.out
  simp only [logStep, hp, hb, and_self, if_true]
  by_cases hfull : LOGSIZE ≤ s.log.lh.n ∨ s.log.size - 1 ≤ s.log.lh.n
  · refine ⟨fun _ => ?_, fun _ => ⟨_, by simp only [Xv6.log_write, hfull, if_true]; rfl⟩⟩
    rw [hsize, hn] at hfull
    rw [hn, ← hcard]
    simp only [LOGSIZE] at hfull ⊢
    omega
  · have h1 : ¬ s.log.outstanding < 1 := by omega
    refine ⟨?_, fun hle => absurd (Or.inr (by rwa [hsize, hcard])) hfull⟩
    rintro ⟨e, he⟩
    simp only [Xv6.log_write, hfull, h1, if_false] at he
    split_ifs at he <;> cases he

/-- **In every run a step panics exactly when it is a `log_write` into a full group.** -/
theorem panics_iff {P : LogSys → LogOp → Prop} {disk : ℕ → Block} {gs : List (List Write)}
    (hn : sb.nlog = LOGSIZE) (h : Runs.Steps (logStep sb) P (boot disk gs) s) (l : LogOp) :
    (∃ e, logStep sb s l = some (.error e)) ↔ Overfull sb s l := by
  have hc : Ctl sb s := Ctl.steps h (Ctl.boot disk gs)
  constructor
  · rintro ⟨e, he⟩
    cases l with
    | begin_op p =>
      obtain ⟨t, ht⟩ := Ctl.begin_op_ok _ he
      cases ht
    | end_op p => exact absurd he hc.end_op_ok
    | log_write p b data =>
      have hen : p ∈ s.ops ∧ Home sb b := by
        by_contra hen
        simp [logStep, hen] at he
      exact ⟨p, b, data, rfl, hen.1, hen.2, (hc.log_write_panics_iff hn hen.1 hen.2).mp ⟨e, he⟩⟩
    | bread b => cases he
    | recycle b => simp only [logStep] at he; split_ifs at he; cases he
    | advance =>
      simp only [logStep] at he
      cases ha : advance sb s <;> rw [ha] at he <;> cases he
    | crash => cases he
  · rintro ⟨p, b, data, rfl, hp, hb, hle⟩
    exact (hc.log_write_panics_iff hn hp hb).mpr hle

end

/-! ## A full house -/

/-- Boot, admit three operations and let them name 29 different blocks. -/
def fullHouse : List LogOp :=
  [.advance, .advance, .advance, .begin_op 0, .begin_op 1, .begin_op 2] ++
    (List.range 29).map (fun i => .log_write (i / 10) (100 + i) (fun _ => 0))

theorem fullHouse_run : ∃ s, Runs.Steps (logStep mkfsSb) Within (boot (fun _ _ => 0) []) s ∧
    Within s (.log_write 2 129 (fun _ => 0)) ∧
    logStep mkfsSb s (.log_write 2 129 (fun _ => 0)) = some (.error "too big a transaction") := by
  have h : ((Runs.exec (logStep mkfsSb) Within (boot (fun _ _ => 0) []) fullHouse).map fun s =>
      decide (Within s (.log_write 2 129 (fun _ => 0)) ∧ 2 ∈ s.ops ∧ LOGSIZE - 1 ≤ s.log.lh.n ∧
        s.log.size = LOGSIZE)) = some true := by decide +kernel
  obtain ⟨s, hs, hb⟩ := Option.map_eq_some_iff.mp h
  obtain ⟨hw, hops, hn, hsize⟩ := of_decide_eq_true hb
  have hhome : Home mkfsSb 129 := by decide
  refine ⟨s, Runs.Steps.of_exec hs, hw, ?_⟩
  simp only [logStep, hops, hhome, and_self, if_true, Xv6.log_write, hsize, hn, or_true]

/-- **The reservation is too small**: operations within `MAXOPBLOCKS` reach the panic. -/
theorem full_house : ¬ ∀ sb disk s l, sb.nlog = LOGSIZE →
    Runs.Steps (logStep sb) Within (boot disk []) s → Within s l →
    ∀ e, logStep sb s l ≠ some (.error e) := by
  intro hclaim
  obtain ⟨s, hs, hw, he⟩ := fullHouse_run
  exact hclaim mkfsSb _ s _ rfl hs hw _ he

/-- The full house is overfull. -/
theorem full_house_overfull : ∃ s, Runs.Steps (logStep mkfsSb) Within (boot (fun _ _ => 0) []) s ∧
    Overfull mkfsSb s (.log_write 2 129 (fun _ => 0)) := by
  obtain ⟨s, hs, -, he⟩ := fullHouse_run
  exact ⟨s, hs, (panics_iff rfl hs _).mp ⟨_, he⟩⟩

end Xv6
