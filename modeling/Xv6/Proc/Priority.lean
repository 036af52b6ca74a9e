import Mathlib.Tactic.Linarith
import Xv6.Mem.Alloc
import Xv6.Proc.Selection
import Xv6.Proc.Table

/-!
# Priority — what the tick handler computes, and what `set_priority` does

* `Rated p`: `rbi` and `dp` are what the counters and the static priority call for.
* `TakesEffect i t old new r S T`: the call of process `i` that gives `t` the priority `new`.
-/

namespace Xv6

/-! ## The tick handler -/

section

variable {p : Proc} {S : Sys} {j : Fin NPROC} {x d : ℤ}

/-- The product of `50` and the recent behaviour, over the integers. -/
def Proc.weight (p : Proc) : ℤ := 50 * (3 * p.rntime - p.stime - p.wtime)

/-- `rbi`, over the integers. -/
def Proc.behaviour (p : Proc) : ℤ :=
  if p.rntime = 0 ∧ p.stime = 0 ∧ p.wtime = 0 then 25
  else max 0 (p.weight.tdiv (p.rntime + p.stime + p.wtime + 1))

/-- The priorities are as specified, and the divisor was not zero. -/
structure Rated (p : Proc) : Prop where
  rbi : (p.rbi : ℤ) = p.behaviour
  rbi_lt : p.rbi < 150
  dp : p.dp = min 100 (p.sp + p.rbi)
  sp_le : p.sp ≤ p.dp
  dp_le : p.dp ≤ 100
  den : int32 (p.rntime + p.stime + p.wtime + 1) ≠ 0

theorem max_tdiv (hd : 0 < d) : max 0 (x.tdiv d) = max 0 x / d := by
  by_cases hx : 0 ≤ x
  · rw [Int.tdiv_eq_ediv_of_nonneg hx, max_eq_right hx, max_eq_right (Int.ediv_nonneg hx hd.le)]
  · have hn : 0 ≤ (-x).tdiv d := Int.tdiv_nonneg (by omega) hd.le
    rw [Int.neg_tdiv] at hn
    rw [max_eq_left (by omega), max_eq_left (by omega), Int.zero_ediv]

/-- **Wrap-around shows in the quotient** unless the product fits, or wraps from below to something
less than the divisor. -/
theorem int32_quotient_iff (hd : 0 < d) (hd' : d < 2 ^ 31) :
    max 0 (int32 x) / d = max 0 x / d ↔
      (-2 ^ 31 ≤ x ∧ x < 2 ^ 31) ∨ (x < -2 ^ 31 ∧ int32 x < d) := by
  rcases lt_or_ge x (-2 ^ 31) with hlo | hlo
  · -- the right quotient is zero
    have hx : max 0 x = 0 := max_eq_left (by omega)
    rw [hx, Int.zero_ediv, Int.ediv_eq_iff_of_pos hd]
    have := le_max_left 0 (int32 x)
    have := le_max_right 0 (int32 x)
    constructor
    · intro h
      exact Or.inr ⟨hlo, by omega⟩
    · rintro (h | ⟨-, h⟩)
      · omega
      · have hm : max 0 (int32 x) < d := max_lt hd h
        omega
  · rcases lt_or_ge x (2 ^ 31) with hhi | hhi
    · rw [int32_of_lt (by omega) (by omega)]
      exact ⟨fun _ => Or.inl ⟨hlo, hhi⟩, fun _ => rfl⟩
    · -- the code divides something smaller by at least `d`
      have hx : max 0 x = x := max_eq_right (by omega)
      have hy : max 0 (int32 x) + d ≤ x := by
        unfold int32
        omega
      constructor
      · intro h
        have h1 := Int.ediv_mul_le (max 0 (int32 x)) hd.ne'
        have h2 := Int.lt_ediv_add_one_mul_self x hd
        rw [h, hx] at h1
        rw [add_mul, one_mul] at h2
        omega
      · rintro (h | ⟨h, -⟩) <;> omega

/-- What the 32-bit expressions come to. -/
theorem Proc.rate_rbi (h : p.rntime + p.stime + p.wtime < 2 ^ 31 - 1)
    (hne : ¬ (p.rntime = 0 ∧ p.stime = 0 ∧ p.wtime = 0)) :
    (p.rate.rbi : ℤ) = max 0 (int32 p.weight) / (p.rntime + p.stime + p.wtime + 1) := by
  have hden : int32 (p.rntime + p.stime + p.wtime + 1) = p.rntime + p.stime + p.wtime + 1 :=
    int32_of_lt (by omega) (by omega)
  have hnum : int32 (int32 (3 * p.rntime - p.stime - p.wtime) * 50) = int32 p.weight := by
    unfold int32 weight
    omega
  set d : ℤ := p.rntime + p.stime + p.wtime + 1 with hd
  set y := int32 p.weight with hy
  have hd0 : 0 < d := by omega
  have hy2 : y < 2 ^ 31 ∧ -2 ^ 31 ≤ y := by
    rw [hy]
    unfold int32
    omega
  have hq0 : 0 ≤ max 0 y / d := Int.ediv_nonneg (le_max_left _ _) hd0.le
  have hqle : max 0 y / d ≤ max 0 y := Int.ediv_le_self _ (le_max_left _ _)
  have hq : divInt y d = y.tdiv d := by
    unfold divInt
    rw [if_neg hd0.ne']
    have h1 : (y.tdiv d).natAbs ≤ y.natAbs := Int.natAbs_tdiv_le_natAbs y d
    rcases eq_or_ne (y.tdiv d) (2 ^ 31) with he | he
    · have hm := max_tdiv (x := y) hd0
      omega
    · exact int32_of_lt (by omega) (by omega)
  have hmax : (if 0 > y.tdiv d then 0 else y.tdiv d) = max 0 y / d := by
    rw [← max_tdiv hd0]
    split_ifs <;> omega
  have hrbi : p.rate.rbi = ((max 0 y / d) % 2 ^ 32).toNat := by
    unfold rate
    dsimp only
    rw [if_neg fun hz => hne ⟨hz.1, hz.2.2, hz.2.1⟩, hden, hnum, hq, hmax]
  rw [hrbi]
  omega

/-- **When the tick handler meets the specification**, one process. -/
theorem Proc.rate_rated_iff (h : p.rntime + p.stime + p.wtime < 2 ^ 31 - 1) (hsp : p.sp ≤ 100) :
    Rated p.rate ↔ (-2 ^ 31 ≤ p.weight ∧ p.weight < 2 ^ 31) ∨
      (p.weight < -2 ^ 31 ∧ int32 p.weight ≤ p.rntime + p.stime + p.wtime) := by
  have hb : p.rate.behaviour = p.behaviour := rfl
  have hdp : p.rate.dp = if 100 < (p.sp + p.rate.rbi) % 2 ^ 32 then 100
    else (p.sp + p.rate.rbi) % 2 ^ 32 := rfl
  have hmain : (p.rate.rbi : ℤ) = p.behaviour ↔ (-2 ^ 31 ≤ p.weight ∧ p.weight < 2 ^ 31) ∨
      (p.weight < -2 ^ 31 ∧ int32 p.weight ≤ p.rntime + p.stime + p.wtime) := by
    by_cases hz : p.rntime = 0 ∧ p.stime = 0 ∧ p.wtime = 0
    · obtain ⟨hR, hS, hW⟩ := hz
      have hr : p.rate.rbi = 25 := by simp [rate, hR, hS, hW]
      have hw : p.weight = 0 := by simp [weight, hR, hS, hW]
      simp [hr, behaviour, hR, hS, hW, hw]
    · rw [Proc.rate_rbi h hz, behaviour, if_neg hz, max_tdiv (by omega),
        int32_quotient_iff (by omega) (by omega), Int.lt_add_one_iff]
  constructor
  · intro hr
    exact hmain.mp (hr.rbi.trans hb)
  · intro hc
    have hrbi := hmain.mpr hc
    have hlt : p.rate.rbi < 150 := by
      by_cases hz : p.rntime = 0 ∧ p.stime = 0 ∧ p.wtime = 0
      · rw [behaviour, if_pos hz] at hrbi
        omega
      · rw [behaviour, if_neg hz, max_tdiv (by omega)] at hrbi
        have : max 0 p.weight / (p.rntime + p.stime + p.wtime + 1) < 150 := by
          rw [Int.ediv_lt_iff_lt_mul (by omega)]
          unfold weight
          omega
        omega
    have hsum : (p.sp + p.rate.rbi) % 2 ^ 32 = p.sp + p.rate.rbi := Nat.mod_eq_of_lt (by omega)
    rw [hsum] at hdp
    have hmin : p.rate.dp = min 100 (p.sp + p.rate.rbi) := by
      rw [hdp]
      split_ifs <;> omega
    have hsp' : p.rate.sp = p.sp := rfl
    refine ⟨hrbi.trans hb.symm, hlt, hmin, ?_, ?_, ?_⟩
    · omega
    · omega
    · show int32 (p.rntime + p.stime + p.wtime + 1) ≠ 0
      rw [int32_of_lt (by omega) (by omega)]
      omega

theorem Times.update_state (p : Times) : p.update.state = p.state := by
  unfold Times.update
  split <;> simp_all

/-- A process after a tick: its times are counted on, its priorities are computed, and `wakeup` may
have changed its state. -/
theorem clockintr_proc (me : Option (Fin NPROC)) (h : (S.proc j).state ≠ .UNUSED) :
    (clockintr me S).proc j =
      { ({ S.proc j with toTimes := (S.proc j).toTimes.update } : Proc).rate with
        state := ((clockintr me S).proc j).state } := by
  have hu : (S.proc j).toTimes.update.state ≠ .UNUSED := by rwa [Times.update_state]
  exact (wakeup_proc me _ _ j).trans
    (congrArg (fun q : Proc => { q with state := ((clockintr me S).proc j).state }) (if_neg hu))

/-- **The tick handler's arithmetic.**  With the counters as they are after the tick, `rbi` and `dp`
are as specified exactly if the product fits in an `int`, or is below the range and wraps to at most
the sum of the counters. -/
theorem clockintr_rated_iff (me : Option (Fin NPROC)) (S : Sys) (j : Fin NPROC) (p : Proc)
    (hp : p = (clockintr me S).proc j) (hused : (S.proc j).state ≠ .UNUSED)
    (hsum : p.rntime + p.stime + p.wtime < 2 ^ 31 - 1) (hsp : p.sp ≤ 100) :
    Rated p ↔ (-2 ^ 31 ≤ p.weight ∧ p.weight < 2 ^ 31) ∨
      (p.weight < -2 ^ 31 ∧ int32 p.weight ≤ p.rntime + p.stime + p.wtime) := by
  set q : Proc := { S.proc j with toTimes := (S.proc j).toTimes.update }
  have hq : p = { q.rate with state := p.state } := by
    rw [hp]
    exact clockintr_proc me hused
  have hw : p.weight = q.weight := by rw [hq]; rfl
  have hR : p.rntime = q.rntime := by rw [hq]; rfl
  have hS : p.stime = q.stime := by rw [hq]; rfl
  have hW : p.wtime = q.wtime := by rw [hq]; rfl
  have hs : p.sp = q.sp := by rw [hq]; rfl
  have hr : Rated p ↔ Rated q.rate := by
    rw [hq]
    exact ⟨fun h => ⟨h.1, h.2, h.3, h.4, h.5, h.6⟩, fun h => ⟨h.1, h.2, h.3, h.4, h.5, h.6⟩⟩
  rw [hr, hw, hR, hS, hW]
  exact Proc.rate_rated_iff (by omega) (by omega)

/-- A process that has waited for a long time. -/
def longWait (wtime : ℕ) : Sys :=
  (Sys.boot smallPhys).set 0 { Proc.zero.fresh 0 with state := .RUNNABLE, pid := 1, wtime := wtime }

theorem clockintr_rated_longWait : Rated ((clockintr none (longWait 9)).proc 0) :=
  (clockintr_rated_iff none (longWait 9) 0 _ rfl (by decide) (by decide) (by decide)).mpr
    (Or.inl ⟨by decide, by decide⟩)

/-- After 50 million ticks of waiting, `50 * num` has wrapped to a positive number. -/
theorem clockintr_wraps :
    (((clockintr none (longWait 49999999)).proc 0).rntime = 0 ∧
      ((clockintr none (longWait 49999999)).proc 0).stime = 0 ∧
      ((clockintr none (longWait 49999999)).proc 0).wtime = 50000000 ∧
      ((clockintr none (longWait 49999999)).proc 0).sp = 50 ∧
      ((clockintr none (longWait 49999999)).proc 0).behaviour = 0 ∧
      ((clockintr none (longWait 49999999)).proc 0).rbi = 35) ∧
    ¬ Rated ((clockintr none (longWait 49999999)).proc 0) := by
  have h : ((clockintr none (longWait 49999999)).proc 0).behaviour = 0 ∧
      ((clockintr none (longWait 49999999)).proc 0).rbi = 35 := by decide +kernel
  refine ⟨⟨by decide, by decide, by decide, by decide, h⟩, fun hr => ?_⟩
  have := hr.rbi
  rw [h.1, h.2] at this
  omega

end

/-! ## `set_priority` -/

section

variable {S T : Sys} {i j t : Fin NPROC} {pid priority r : ℤ}

theorem sys_set_priority_range (h : priority < 0 ∨ 100 < priority) :
    sys_set_priority i pid priority S = (-1, S) := by
  unfold sys_set_priority
  rw [if_pos h]

/-- The call finds process `j`. -/
theorem sys_set_priority_found (h0 : 0 ≤ priority) (h1 : priority ≤ 100)
    (hj : findProc (fun j => (S.proc j).pid = pid) = some j) :
    ∃ T, sys_set_priority i pid priority S = (int32 (S.proc j).sp, T) ∧
      (priority < int32 (S.proc j).sp → T = yield i (S.set j { S.proc j with sp := priority.toNat })) ∧
      (¬ priority < int32 (S.proc j).sp → T = S.set j { S.proc j with sp := priority.toNat }) := by
  unfold sys_set_priority
  rw [if_neg (by omega), hj]
  dsimp only
  by_cases h : priority < int32 (S.proc j).sp
  · rw [if_pos h]
    exact ⟨_, rfl, fun _ => rfl, fun hn => absurd h hn⟩
  · rw [if_neg h]
    exact ⟨_, rfl, fun hp => absurd hp h, fun _ => rfl⟩

/-- The call finds nothing, and writes behind the table. -/
theorem sys_set_priority_none (h0 : 0 ≤ priority) (h1 : priority ≤ 100)
    (hn : findProc (fun j => (S.proc j).pid = pid) = none) :
    ∃ T, sys_set_priority i pid priority S = (int32 S.past, T) ∧ T.past = priority.toNat := by
  unfold sys_set_priority
  rw [if_neg (by omega), hn]
  dsimp only
  by_cases h : priority < int32 S.past
  · rw [if_pos h]
    exact ⟨_, rfl, rfl⟩
  · rw [if_neg h]
    exact ⟨_, rfl, rfl⟩

/-- `yield` changes the state of the caller only. -/
theorem yield_proc (i j : Fin NPROC) (S : Sys) :
    (yield i S).proc j = { S.proc j with
      state := if j = i then .RUNNABLE else (S.proc j).state } := by
  unfold yield
  by_cases hj : j = i
  · subst hj
    rw [Sys.set_self, if_pos rfl]
  · rw [Sys.set_ne hj, if_neg hj]

/-- Priorities in the range are never taken for an error. -/
theorem sys_set_priority_ne (h0 : 0 ≤ priority) (h1 : priority ≤ 100) :
    sys_set_priority i pid priority S ≠ (-1, S) := by
  intro he
  have hold : ∀ x : ℕ, x = priority.toNat → int32 x ≠ -1 := by
    rintro x rfl
    rw [int32_of_lt (by omega) (by omega)]
    omega
  cases hf : findProc (fun j => (S.proc j).pid = pid) with
  | none =>
    obtain ⟨T, hT, hp⟩ := sys_set_priority_none (i := i) h0 h1 hf
    obtain ⟨hr, rfl⟩ := Prod.mk.inj (hT.symm.trans he)
    exact hold _ hp hr
  | some j =>
    obtain ⟨T, hT, hy, hn⟩ := sys_set_priority_found (i := i) h0 h1 hf
    obtain ⟨hr, hTS⟩ := Prod.mk.inj (hT.symm.trans he)
    have hp : (T.proc j).sp = priority.toNat := by
      by_cases h : priority < int32 (S.proc j).sp
      · rw [hy h, yield_proc, Sys.set_self]
      · rw [hn h, Sys.set_self]
    rw [hTS] at hp
    exact hold _ hp hr

/-- **`set_priority` is an error without effect** exactly if the priority is out of range, whatever
the pid; else it writes to what the search has ended at. -/
theorem set_priority_error_iff (S : Sys) (i : Fin NPROC) (pid priority : ℤ) :
    sys_set_priority i pid priority S = (-1, S) ↔ priority < 0 ∨ 100 < priority := by
  constructor
  · intro he
    by_contra hn
    exact sys_set_priority_ne (by omega) (by omega) he
  · exact sys_set_priority_range

/-- No process has pid 99: the call of the first process returns 0 and writes behind the table.
With pid 0 it writes to a free slot. -/
theorem set_priority_unknown : ∃ S,
    @Runs.Steps _ _ _ (@Sys.step smallImage) (fun _ _ => True) (Sys.boot smallPhys) S ∧
      (S.proc 0).state = .RUNNING ∧ (∀ j, (S.proc j).state ≠ .UNUSED → (S.proc j).pid ≠ 99) ∧
      (∀ j, (S.proc j).state ≠ .UNUSED → (S.proc j).pid ≠ 0) ∧
      (S.past = 0 ∧ (sys_set_priority 0 99 10 S).1 = 0 ∧ (sys_set_priority 0 99 10 S).2.past = 10) ∧
      (S.proc 1).sp = 0 ∧ (sys_set_priority 0 0 10 S).1 = 0 ∧
        ((sys_set_priority 0 0 10 S).2.proc 1).sp = 10 := by
  let _ := smallImage
  obtain ⟨S, hS, hrun, h99, h0, hpast, hslot⟩ := Runs.Steps.of_any (P := fun _ _ => True)
    (Q := fun S : Sys => (S.proc 0).state = .RUNNING ∧
      (∀ j, (S.proc j).state ≠ .UNUSED → (S.proc j).pid ≠ 99) ∧
      (∀ j, (S.proc j).state ≠ .UNUSED → (S.proc j).pid ≠ 0) ∧
      (S.past = 0 ∧ (sys_set_priority 0 99 10 S).1 = 0 ∧ (sys_set_priority 0 99 10 S).2.past = 10) ∧
      (S.proc 1).sp = 0 ∧ (sys_set_priority 0 0 10 S).1 = 0 ∧
        ((sys_set_priority 0 0 10 S).2.proc 1).sp = 10)
    [.userinit, .run 0]
    (by decide +kernel : (Runs.exec Sys.step (fun _ _ => True) (Sys.boot smallPhys) _).any _ = true)
  exact ⟨S, hS, hrun, h99, h0, hpast, hslot⟩

/-- **What the call should do**: process `i` gives process `t` the priority `new`, is told the old
one, and yields to a round of the scheduler that goes by the new `dp` if the priority has risen. -/
structure TakesEffect (i t : Fin NPROC) (new : ℕ) (r : ℤ) (S T : Sys) : Prop where
  old : r = int32 (S.proc t).sp
  sp : (T.proc t).sp = new
  rbi : (T.proc t).rbi = PBS_DEF_RBI
  dp : (T.proc t).dp = min 100 (new + PBS_DEF_RBI)
  others : ∀ j ≠ t, T.proc j = S.proc j ∨
    (j = i ∧ (new : ℤ) < r ∧ T.proc j = { S.proc j with state := .RUNNABLE })
  resched : (new : ℤ) < r → (T.proc i).state = .RUNNABLE ∧
    ∃ s, scan (.idle T.proc) = .ok s ∧ s.highest = choice
      (Function.update T.proc t { T.proc t with dp := min 100 (new + PBS_DEF_RBI) })
      (List.finRange NPROC)

/-- A call that gives `t` the priority and leaves the others alone, up to the yield. -/
theorem TakesEffect.of_set {U : Sys} (hother : ∀ j ≠ t, U.proc j = S.proc j)
    (ht : U.proc t = { S.proc t with sp := priority.toNat }) (h0 : 0 ≤ priority)
    (hold : r = int32 (S.proc t).sp) (hy : priority < r → T = yield i U)
    (hn : ¬ priority < r → T = U) (hrbi : (S.proc t).rbi = PBS_DEF_RBI)
    (hdp : (S.proc t).dp = min 100 (priority.toNat + PBS_DEF_RBI)) :
    TakesEffect i t priority.toNat r S T := by
  have hnew : ((priority.toNat : ℕ) : ℤ) = priority := Int.toNat_of_nonneg h0
  have hT : ∀ j, T.proc j = { U.proc j with state := (T.proc j).state } := by
    intro j
    by_cases h : priority < r
    · rw [hy h, yield_proc]
    · rw [hn h]
  have hTdp : (T.proc t).dp = min 100 (priority.toNat + PBS_DEF_RBI) := by rw [hT t, ht, ← hdp]
  refine ⟨hold, ?_, ?_, hTdp, ?_, ?_⟩
  · rw [hT t, ht]
  · rw [hT t, ht]
    exact hrbi
  · intro j hj
    by_cases h : priority < r
    · by_cases hji : j = i
      · refine Or.inr ⟨hji, by rwa [hnew], ?_⟩
        rw [hy h, yield_proc, if_pos hji, hother j hj]
      · left
        rw [hy h, yield_proc, if_neg hji, hother j hj]
    · left
      rw [hn h, hother j hj]
  · intro h
    obtain ⟨s, hs, hscan⟩ := scan_spec T.proc
    refine ⟨?_, s, hs, ?_⟩
    · rw [hy (by rwa [hnew] at h), yield_proc, if_pos rfl]
    · have he : ({ T.proc t with dp := min 100 (priority.toNat + PBS_DEF_RBI) } : Proc) = T.proc t := by
        rw [← hTdp]
      rw [he, Function.update_eq_self]
      exact hscan.highest

/-- **When `set_priority` takes effect**: `rbi` and `dp` have their new values already, and the search
stops at the process, or at another with the same pid where nothing changes. -/
theorem set_priority_takes_effect_iff (S : Sys) (i t : Fin NPROC) (priority : ℤ)
    (h0 : 0 ≤ priority) (h1 : priority ≤ 100) :
    TakesEffect i t priority.toNat (sys_set_priority i (S.proc t).pid priority S).1 S
        (sys_set_priority i (S.proc t).pid priority S).2 ↔
      ((S.proc t).rbi = PBS_DEF_RBI ∧ (S.proc t).dp = min 100 (priority.toNat + PBS_DEF_RBI)) ∧
        ∃ k, findProc (fun j => (S.proc j).pid = (S.proc t).pid) = some k ∧
          (k = t ∨ ((S.proc k).sp = priority.toNat ∧ (S.proc t).sp = priority.toNat)) := by
  obtain ⟨k, hk⟩ : ∃ k, findProc (fun j => (S.proc j).pid = (S.proc t).pid) = some k := by
    cases hf : findProc (fun j => (S.proc j).pid = (S.proc t).pid) with
    | some k => exact ⟨k, rfl⟩
    | none =>
      have := findProc_none hf t
      simp at this
  obtain ⟨T, hT, hy, hn⟩ := sys_set_priority_found (i := i) h0 h1 hk
  rw [hT]
  set U := S.set k { S.proc k with sp := priority.toNat } with hU
  have hUo : ∀ j ≠ k, U.proc j = S.proc j := fun j hj => Sys.set_ne hj
  have hUk : U.proc k = { S.proc k with sp := priority.toNat } := Sys.set_self
  constructor
  · intro h
    have hTU : ∀ j, T.proc j = { U.proc j with state := (T.proc j).state } := by
      intro j
      by_cases hlt : priority < int32 (S.proc k).sp
      · rw [hy hlt, yield_proc]
      · rw [hn hlt]
    by_cases hkt : k = t
    · subst hkt
      have hrbi := h.rbi
      have hdp := h.dp
      rw [hTU k, hUk] at hrbi hdp
      exact ⟨⟨hrbi, hdp⟩, k, hk, Or.inl rfl⟩
    · have hrbi := h.rbi
      have hdp := h.dp
      have hsp := h.sp
      rw [hTU t, hUo t (Ne.symm hkt)] at hrbi hdp hsp
      have hspk : (T.proc k).sp = priority.toNat := by rw [hTU k, hUk]
      refine ⟨⟨hrbi, hdp⟩, k, hk, Or.inr ⟨?_, hsp⟩⟩
      rcases h.others k hkt with he | ⟨-, -, he⟩
      · rwa [he] at hspk
      · rwa [he] at hspk
  · rintro ⟨⟨hrbi, hdp⟩, k', hk', hc⟩
    obtain rfl : k = k' := Option.some.inj (hk.symm.trans hk')
    rcases hc with rfl | ⟨hspk, hspt⟩
    · exact .of_set hUo hUk h0 rfl hy hn hrbi hdp
    · have hUS : ∀ j, U.proc j = S.proc j := by
        intro j
        by_cases hj : j = k
        · rw [hj, hUk, ← hspk]
        · exact hUo j hj
      refine .of_set (fun j _ => hUS j) ?_ h0 ?_ hy hn hrbi hdp
      · rw [hUS t, ← hspt]
      · rw [hspk, hspt]

/-- A process of low priority. -/
def lowPriority : Sys :=
  (longWait 9).set 0 { (longWait 9).proc 0 with state := .RUNNING, sp := 90, dp := 100 }

/-- It gets a better one, and yields. -/
theorem set_priority_takes_effect_better :
    (lowPriority.proc 0).sp = 90 ∧ (sys_set_priority 0 1 80 lowPriority).1 = 90 ∧
    ((sys_set_priority 0 1 80 lowPriority).2.proc 0).sp = 80 ∧
    TakesEffect 0 0 80 (sys_set_priority 0 1 80 lowPriority).1 lowPriority
      (sys_set_priority 0 1 80 lowPriority).2 := by
  have h := (set_priority_takes_effect_iff lowPriority 0 0 80 (by decide) (by decide)).mpr
    ⟨⟨by decide, by decide⟩, 0, by decide, Or.inl rfl⟩
  exact ⟨rfl, h.old.trans (by decide), h.sp.trans (by decide), h⟩

/-- The first process gives itself the priority 10, and is scheduled with the `dp` of priority 50. -/
theorem set_priority_stale : ∃ S,
    @Runs.Steps _ _ _ (@Sys.step smallImage) (fun _ _ => True) (Sys.boot smallPhys) S ∧
      (S.proc 0).state = .RUNNING ∧ (S.proc 0).pid = 1 ∧ (S.proc 0).sp = 50 ∧
      ((sys_set_priority 0 1 10 S).2.proc 0).sp = 10 ∧
      ((sys_set_priority 0 1 10 S).2.proc 0).dp = 75 ∧
      ¬ TakesEffect 0 0 10 (sys_set_priority 0 1 10 S).1 S (sys_set_priority 0 1 10 S).2 := by
  let _ := smallImage
  obtain ⟨S, hS, hrun, hpid, hsp, hsp', hdp⟩ := Runs.Steps.of_any (P := fun _ _ => True)
    (Q := fun S : Sys => (S.proc 0).state = .RUNNING ∧ (S.proc 0).pid = 1 ∧ (S.proc 0).sp = 50 ∧
      ((sys_set_priority 0 1 10 S).2.proc 0).sp = 10 ∧
      ((sys_set_priority 0 1 10 S).2.proc 0).dp = 75)
    [.userinit, .run 0]
    (by decide +kernel : (Runs.exec Sys.step (fun _ _ => True) (Sys.boot smallPhys) _).any _ = true)
  refine ⟨S, hS, hrun, hpid, hsp, hsp', hdp, fun h => ?_⟩
  have := h.dp
  rw [hdp] at this
  exact absurd this (by decide)

end

end Xv6
