import Mathlib.Data.List.FinRange
import Mathlib.Data.List.MinMax
import Mathlib.Data.Prod.Lex
import Xv6.Kernel.Scheduler

/-!
# Selection — what the scheduler picks, and which locks it keeps

`choice table l` is the first of the least `RUNNABLE` processes among `l`.  `Scanned table l s`: the
loop has gone through the processes `l` and is in state `s`; each of their locks was taken once, and
released once except that of `highest`.
-/

namespace Xv6

variable {n : ℕ} {table : Fin n → Proc} {l : List (Fin n)} {s t : Scan n} {c : SchedCpu n}
  {i p : Fin n}

/-! ### The order -/

/-- What the scheduler compares, in this order. -/
def Proc.key (p : Proc) : ℕ ×ₗ ℕ ×ₗ ℕ := toLex (p.dp, toLex (p.num_sch, p.ctime))

theorem Proc.before_iff (p q : Proc) : p.before q q.dp ↔ p.key < q.key := by
  unfold Proc.before Proc.key
  rw [Prod.Lex.toLex_lt_toLex, Prod.Lex.toLex_lt_toLex]
  constructor
  · rintro (h | ⟨h, h'⟩ | ⟨h, h', h''⟩)
    · exact Or.inl h
    · exact Or.inr ⟨h, Or.inl h'⟩
    · exact Or.inr ⟨h, Or.inr ⟨h', h''⟩⟩
  · rintro (h | ⟨h, h' | ⟨h', h''⟩⟩)
    · exact Or.inl h
    · exact Or.inr (Or.inl ⟨h, h'⟩)
    · exact Or.inr (Or.inr ⟨h, h', h''⟩)

/-- The first of the least processes that can run. -/
def choice (table : Fin n → Proc) (l : List (Fin n)) : Option (Fin n) :=
  (l.filter fun i => (table i).state = .RUNNABLE).argmin fun i => (table i).key

@[simp] theorem choice_nil : choice table [] = none := rfl

theorem choice_concat_of_not (hp : (table p).state ≠ .RUNNABLE) :
    choice table (l ++ [p]) = choice table l := by
  simp [choice, List.filter_append, hp]

theorem choice_concat (hp : (table p).state = .RUNNABLE) :
    choice table (l ++ [p]) = match choice table l with
      | none => some p
      | some q => if (table p).key < (table q).key then some p else some q := by
  have hl : (l ++ [p]).filter (fun i => (table i).state = .RUNNABLE) =
      l.filter (fun i => (table i).state = .RUNNABLE) ++ [p] := by
    simp [List.filter_append, hp]
  unfold choice
  rw [hl, List.argmin_concat]
  cases List.argmin (fun i => (table i).key) (l.filter fun i => (table i).state = .RUNNABLE) <;> rfl

theorem mem_of_choice (h : choice table l = some i) : i ∈ l ∧ (table i).state = .RUNNABLE := by
  have hi := List.argmin_mem h
  simpa using hi

theorem choice_eq_none (h : choice table l = none) (hi : i ∈ l) : (table i).state ≠ .RUNNABLE := by
  intro hr
  have hl := List.argmin_eq_none.mp h
  have hm : i ∈ l.filter fun i => (table i).state = .RUNNABLE := by simp [hi, hr]
  rw [hl] at hm
  cases hm

/-- **The choice from a whole table** is the first of the least. -/
theorem choice_finRange (h : choice table (List.finRange n) = some i) :
    (∀ j, (table j).state = .RUNNABLE → (table i).key ≤ (table j).key) ∧
      ∀ j < i, (table j).state = .RUNNABLE → (table i).key < (table j).key := by
  obtain ⟨-, hle, hfirst⟩ := List.argmin_eq_some_iff.mp h
  have hmem : ∀ j, (table j).state = .RUNNABLE →
      j ∈ (List.finRange n).filter fun i => (table i).state = .RUNNABLE := by
    intro j hj
    simp [hj]
  refine ⟨fun j hj => hle j (hmem j hj), fun j hji hj => ?_⟩
  by_contra hlt
  have hij := hfirst j (hmem j hj) (not_lt.mp hlt)
  -- positions in the filtered list are in the order of the table
  have hsorted : ((List.finRange n).filter fun i => (table i).state = .RUNNABLE).Pairwise (· < ·) :=
    (List.pairwise_lt_finRange n).filter _
  have hi' := List.idxOf_lt_length_of_mem (hmem i (mem_of_choice h).2)
  have hj' := List.idxOf_lt_length_of_mem (hmem j hj)
  rcases hij.lt_or_eq with hlt' | heq
  · have := List.pairwise_iff_getElem.mp hsorted _ _ hi' hj' hlt'
    rw [List.getElem_idxOf, List.getElem_idxOf] at this
    exact absurd (this.trans hji) (lt_irrefl _)
  · have := List.idxOf_inj (hmem i (mem_of_choice h).2) |>.mp heq
    exact absurd hji (this ▸ lt_irrefl _)

/-! ### The locks of the loop -/

namespace SchedCpu

/-- With the lock of process `i`. -/
def take (c : SchedCpu n) (i : Fin n) : SchedCpu n :=
  { c with held := Function.update c.held i true, ops := c.ops ++ [.acquire i] }

/-- Without the lock of process `i`. -/
def give (c : SchedCpu n) (i : Fin n) : SchedCpu n :=
  { c with held := Function.update c.held i false, ops := c.ops ++ [.release i] }

@[simp] theorem take_table : (c.take i).table = c.table := rfl

@[simp] theorem give_table : (c.give i).table = c.table := rfl

@[simp] theorem take_held : (c.take i).held = Function.update c.held i true := rfl

@[simp] theorem give_held : (c.give i).held = Function.update c.held i false := rfl

@[simp] theorem take_ops : (c.take i).ops = c.ops ++ [.acquire i] := rfl

@[simp] theorem give_ops : (c.give i).ops = c.ops ++ [.release i] := rfl

theorem acquire_ok (h : c.held i = false) : c.acquire i = .ok (c.take i) := by
  unfold acquire take
  rw [if_neg (by simp [h])]

theorem release_ok (h : c.held i = true) : c.release i = .ok (c.give i) := by
  unfold release give
  rw [if_pos h]

end SchedCpu

/-- The loop has gone through the processes `l`. -/
structure Scanned (table : Fin n → Proc) (l : List (Fin n)) (s : Scan n) : Prop where
  same : s.cpu.table = table
  highest : s.highest = choice table l
  min_dp : ∀ h, s.highest = some h → s.min_dp = (table h).dp
  held : ∀ i, s.cpu.held i = decide (s.highest = some i)
  acquired : ∀ i, s.cpu.ops.count (.acquire i) = l.count i
  released : ∀ i, s.cpu.ops.count (.release i) + (if s.highest = some i then 1 else 0) = l.count i
  swtch : ∀ i, s.cpu.ops.count (.swtch i) = 0

theorem Scanned.start (table : Fin n → Proc) :
    Scanned table [] { cpu := .idle table, highest := none, min_dp := 100 } := by
  refine ⟨rfl, rfl, ?_, ?_, ?_, ?_, ?_⟩ <;> simp [SchedCpu.idle]

/-- The lock of a process that the loop has not come to is free. -/
theorem Scanned.free (h : Scanned table l s) (hp : p ∉ l) : s.cpu.held p = false := by
  rw [h.held p]
  by_contra hh
  have hs : s.highest = some p := by simpa using hh
  rw [h.highest] at hs
  exact hp (mem_of_choice hs).1

/-- An iteration that keeps `highest` has taken the lock and given it back. -/
theorem Scanned.skip (h : Scanned table l s) (hp : p ∉ l)
    (hc : choice table (l ++ [p]) = choice table l) :
    Scanned table (l ++ [p]) { s with cpu := (s.cpu.take p).give p } := by
  refine ⟨h.same, h.highest.trans hc.symm, h.min_dp, ?_, ?_, ?_, ?_⟩
  · intro i
    by_cases hi : i = p
    · subst hi
      simpa [h.held i] using (h.free hp)
    · simp [hi, h.held i]
  · intro i
    simp [List.count_append, h.acquired i, List.count_cons]
  · intro i
    have hr := h.released i
    simp only [List.count_append, List.count_cons] at hr ⊢
    by_cases hi : p = i <;> simp [hi] <;> omega
  · intro i
    simp [List.count_append, h.swtch i]

/-- An iteration that takes the first process that can run keeps its lock. -/
theorem Scanned.first (h : Scanned table l s) (hn : s.highest = none)
    (hc : choice table (l ++ [p]) = some p) :
    Scanned table (l ++ [p])
      { cpu := s.cpu.take p, highest := some p, min_dp := (table p).dp } := by
  refine ⟨h.same, hc.symm, ?_, ?_, ?_, ?_, ?_⟩
  · rintro q ⟨⟩
    rfl
  · intro i
    by_cases hi : i = p
    · simp [hi]
    · simp [hi, h.held i, hn, Ne.symm hi]
  · intro i
    simp [List.count_append, h.acquired i, List.count_cons]
  · intro i
    have hr := h.released i
    simp only [List.count_append, List.count_cons, hn] at hr ⊢
    by_cases hi : p = i <;> simp [hi] at hr ⊢ <;> omega
  · intro i
    simp [List.count_append, h.swtch i]

/-- An iteration that replaces `highest` gives the lock of the old one back. -/
theorem Scanned.replace {q : Fin n} (h : Scanned table l s) (hp : p ∉ l) (hq : s.highest = some q)
    (hc : choice table (l ++ [p]) = some p) :
    Scanned table (l ++ [p])
      { cpu := (s.cpu.take p).give q, highest := some p, min_dp := (table p).dp } := by
  have hql : q ∈ l := (mem_of_choice (h.highest.symm.trans hq)).1
  have hqp : q ≠ p := fun he => hp (he ▸ hql)
  refine ⟨h.same, hc.symm, ?_, ?_, ?_, ?_, ?_⟩
  · rintro r ⟨⟩
    rfl
  · intro i
    by_cases hi : i = q
    · simp [hi, hqp.symm]
    · by_cases hip : i = p
      · simp [hip, hqp.symm]
      · simp [hi, hip, h.held i, hq, Ne.symm hi, Ne.symm hip]
  · intro i
    simp [List.count_append, h.acquired i, List.count_cons]
  · intro i
    have hr := h.released i
    simp only [List.count_append, List.count_cons, hq] at hr ⊢
    by_cases hi : q = i
    · have hip : p ≠ i := fun he => hqp (hi.trans he.symm)
      simp [hi, hip] at hr ⊢
      omega
    · by_cases hip : p = i <;> simp [hi, hip] at hr ⊢ <;> omega
  · intro i
    simp [List.count_append, h.swtch i]

/-- **One iteration**: no lock is taken twice or given back unheld. -/
theorem Scanned.step (h : Scanned table l s) (hp : p ∉ l) :
    ∃ t, s.step p = .ok t ∧ Scanned table (l ++ [p]) t := by
  have hfree := h.free hp
  unfold Scan.step
  rw [SchedCpu.acquire_ok hfree]
  simp only [bind, Except.bind, pure, Except.pure]
  rw [SchedCpu.release_ok (by simp), SchedCpu.take_table, h.same]
  by_cases hr : (table p).state = .RUNNABLE
  · rw [if_neg (by simp [hr])]
    have hc := choice_concat (l := l) hr
    cases hs : s.highest with
    | none =>
      rw [← h.highest, hs] at hc
      exact ⟨_, rfl, h.first hs hc⟩
    | some q =>
      rw [← h.highest, hs] at hc
      have hqp : q ≠ p := by
        rintro rfl
        exact hp (mem_of_choice (h.highest.symm.trans hs)).1
      simp only
      rw [h.min_dp q hs]
      by_cases hb : (table p).before (table q) (table q).dp
      · rw [if_pos hb, SchedCpu.release_ok (by simp [hqp, h.held q, hs])]
        simp only [if_pos ((Proc.before_iff _ _).mp hb)] at hc
        exact ⟨_, rfl, h.replace hp hs hc⟩
      · rw [if_neg hb]
        simp only [if_neg (fun hk => hb ((Proc.before_iff _ _).mpr hk))] at hc
        have hk := h.skip hp (hc.trans (h.highest.symm.trans hs).symm)
        rw [hs, h.min_dp q hs] at hk
        exact ⟨_, rfl, hk⟩
  · rw [if_pos hr]
    exact ⟨_, rfl, h.skip hp (choice_concat_of_not hr)⟩

theorem Scanned.foldlM : ∀ {k l : List (Fin n)} {s : Scan n}, Scanned table l s → (l ++ k).Nodup →
    ∃ t, k.foldlM Scan.step s = .ok t ∧ Scanned table (l ++ k) t
  | [], l, s, h, _ => ⟨s, rfl, by simpa using h⟩
  | p :: k, l, s, h, hn => by
    have hp : p ∉ l := fun hl => (List.disjoint_of_nodup_append hn) hl (by simp)
    obtain ⟨t, ht, hst⟩ := h.step hp
    obtain ⟨u, hu, hsu⟩ := hst.foldlM (k := k) (by simpa using hn)
    refine ⟨u, ?_, by simpa using hsu⟩
    simp only [List.foldlM_cons, ht]
    exact hu

/-- **The whole loop.** -/
theorem scan_spec (table : Fin n → Proc) :
    ∃ s, scan (.idle table) = .ok s ∧ Scanned table (List.finRange n) s := by
  simpa [scan] using (Scanned.start table).foldlM (k := List.finRange n)
    (by simpa using List.nodup_finRange n)

/-! ### The round -/

/-- Every lock is free after the round, was taken once and released once. -/
structure Balanced (o : Option (Fin n)) (c : SchedCpu n) : Prop where
  held : ∀ i, c.held i = false
  acquired : ∀ i, c.ops.count (.acquire i) = 1
  released : ∀ i, c.ops.count (.release i) = 1
  swtch : ∀ i, c.ops.count (.swtch i) = if o = some i then 1 else 0

theorem Scanned.round (h : Scanned table (List.finRange n) s) (hs : scan (.idle table) = .ok s)
    (turn : Fin n → (Fin n → Proc) → Fin n → Proc) :
    ∃ t, schedulerRound turn (.idle table) = .ok t ∧ Balanced s.highest t := by
  have hcount : ∀ i : Fin n, (List.finRange n).count i = 1 := fun i =>
    List.count_eq_one_of_mem (List.nodup_finRange n) (List.mem_finRange i)
  unfold schedulerRound
  rw [hs]
  simp only [bind, Except.bind, pure, Except.pure]
  cases hh : s.highest with
  | none =>
    refine ⟨_, rfl, ?_, ?_, ?_, ?_⟩ <;> intro i
    · simpa [hh] using h.held i
    · rw [h.acquired i, hcount i]
    · simpa [hh, hcount i] using h.released i
    · simpa using h.swtch i
  | some q =>
    have hq : s.cpu.held q = true := by simp [h.held q, hh]
    simp only [SchedCpu.swtch]
    rw [SchedCpu.release_ok (by exact hq)]
    refine ⟨_, rfl, ?_, ?_, ?_, ?_⟩ <;> intro i
    · by_cases hi : i = q
      · simp [hi]
      · simp [hi, h.held i, hh, Ne.symm hi]
    · simp [List.count_append, h.acquired i, hcount i]
    · have hr := h.released i
      rw [hcount i, hh] at hr
      by_cases hi : q = i <;> simp [hi, List.count_append] at hr ⊢ <;> omega
    · by_cases hi : q = i <;> simp [hi, List.count_append, h.swtch i]

/-- **The scheduler picks the first of the least processes in the order of `dp`, `num_sch` and
`ctime`**, holds its lock and no other when it switches, and leaves no lock behind. -/
theorem scheduler_selects (table : Fin n → Proc) (turn : Fin n → (Fin n → Proc) → Fin n → Proc) :
    ∃ s t, scan (.idle table) = .ok s ∧ schedulerRound turn (.idle table) = .ok t ∧
      s.cpu.table = table ∧
      ((∃ i, (table i).state = .RUNNABLE) → ∃ highest, s.highest = some highest ∧
        (table highest).state = .RUNNABLE ∧
        (∀ i, (table i).state = .RUNNABLE → (table highest).key ≤ (table i).key) ∧
        (∀ i < highest, (table i).state = .RUNNABLE → (table highest).key < (table i).key) ∧
        ∀ i, s.cpu.held i = true ↔ i = highest) ∧
      ((∀ i, (table i).state ≠ .RUNNABLE) → s.highest = none ∧ ∀ i, s.cpu.held i = false) ∧
      (∀ i, t.held i = false) ∧
      (∀ i, t.ops.count (.acquire i) = 1 ∧ t.ops.count (.release i) = 1) ∧
      ∀ i, t.ops.count (.swtch i) = if s.highest = some i then 1 else 0 := by
  obtain ⟨s, hs, h⟩ := scan_spec table
  obtain ⟨t, ht, hb⟩ := h.round hs turn
  refine ⟨s, t, hs, ht, h.same, ?_, ?_, hb.held, fun i => ⟨hb.acquired i, hb.released i⟩, hb.swtch⟩
  · rintro ⟨i, hi⟩
    cases hh : s.highest with
    | none => exact absurd hi (choice_eq_none (h.highest.symm.trans hh) (List.mem_finRange i))
    | some q =>
      have hc := h.highest.symm.trans hh
      refine ⟨q, rfl, (mem_of_choice hc).2, (choice_finRange hc).1, (choice_finRange hc).2, ?_⟩
      intro j
      rw [h.held j, hh]
      simp [eq_comm]
  · intro hn
    have hh : s.highest = none := by
      rw [Option.eq_none_iff_forall_ne_some]
      intro q hq
      exact hn q (mem_of_choice (h.highest.symm.trans hq)).2
    refine ⟨hh, fun i => ?_⟩
    simp [h.held i, hh]

end Xv6
