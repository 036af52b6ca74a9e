import Mathlib.Data.Finset.Dedup
import Xv6.Kernel.Log

/-!
# Control — what the log's fields say about a run

`Ctl`: the counter of outstanding operations, the flag `committing` and the header in memory agree
with the operations in progress, the phase and the group in progress.  Every step keeps it
(`Ctl.step`), so it holds in every state of a run (`Ctl.steps`).
-/

namespace Xv6

/-! ## Headers -/

section Header

variable {lh : LogHeader} {b : ℕ}

@[simp] theorem LogHeader.length_blocks (lh : LogHeader) : lh.blocks.length = lh.n := by
  simp [LogHeader.blocks]

theorem LogHeader.mem_blocks : b ∈ lh.blocks ↔ ∃ i < lh.n, lh.block i = b := by
  simp [LogHeader.blocks]

theorem LogHeader.blocks_of_n_eq_zero (h : lh.n = 0) : lh.blocks = [] := by
  simp [LogHeader.blocks, h]

theorem LogHeader.blocks_congr {n : ℕ} {f g : ℕ → ℕ} (h : ∀ i < n, f i = g i) :
    (LogHeader.mk n f).blocks = (LogHeader.mk n g).blocks :=
  List.map_congr_left fun i hi => h i (List.mem_range.mp hi)

theorem LogHeader.getElem_blocks {i : ℕ} (h : i < lh.blocks.length) :
    lh.blocks[i] = lh.block i := by
  simp [LogHeader.blocks]

/-- Appending a block number. -/
theorem LogHeader.blocks_append :
    (LogHeader.mk (lh.n + 1) (Function.update lh.block lh.n b)).blocks = lh.blocks ++ [b] := by
  have h : (List.range lh.n).map (Function.update lh.block lh.n b) = lh.blocks :=
    List.map_congr_left fun i hi =>
      Function.update_of_ne (List.mem_range.mp hi).ne _ _
  simp only [LogHeader.blocks, List.range_succ, List.map_append, List.map_cons, List.map_nil,
    Function.update_self]
  rw [h]
  rfl

/-- Storing a block number where it is already. -/
theorem LogHeader.blocks_absorb {i : ℕ} (h : i = lh.blocks.idxOf b) (hi : i < lh.n) :
    (LogHeader.mk lh.n (Function.update lh.block i b)).blocks = lh.blocks := by
  refine LogHeader.blocks_congr fun j _ => ?_
  by_cases hj : j = i
  · subst hj
    have hlt : lh.blocks.idxOf b < lh.blocks.length := by rw [← h, length_blocks]; exact hi
    rw [Function.update_self, ← getElem_blocks (by rw [length_blocks]; exact hi)]
    simp only [h, List.getElem_idxOf hlt]
  · exact Function.update_of_ne hj _ _

end Header

/-- What a successful `log_write` does. -/
theorem log_write_ok {b : ℕ} {log log' : Log} {s s' : Bufs}
    (h : log_write b log s = .ok (log', s')) :
    log.lh.n < LOGSIZE ∧ log.lh.n + 1 < log.size ∧ log' = { log with lh := log'.lh } ∧
      ((b ∈ log.lh.blocks ∧ log'.lh.blocks = log.lh.blocks ∧ s' = s) ∨
        (b ∉ log.lh.blocks ∧ log'.lh.blocks = log.lh.blocks ++ [b] ∧ s' = s.bpin b)) := by
  unfold log_write at h
  split_ifs at h with h1 h2
  rw [not_or, not_le, not_le] at h1
  have hle := List.idxOf_le_length (a := b) (l := log.lh.blocks)
  rw [LogHeader.length_blocks] at hle
  simp only at h
  split_ifs at h with h3
  · obtain ⟨rfl, rfl⟩ := Prod.mk.inj (Except.ok.inj h)
    refine ⟨h1.1, by omega, rfl, Or.inr ⟨?_, ?_, rfl⟩⟩
    · rw [← LogHeader.length_blocks, List.idxOf_eq_length_iff] at h3
      exact h3
    · simp only [h3]
      exact LogHeader.blocks_append
  · obtain ⟨rfl, rfl⟩ := Prod.mk.inj (Except.ok.inj h)
    have hlt : log.lh.blocks.idxOf b < log.lh.n := by omega
    refine ⟨h1.1, by omega, rfl, Or.inl ⟨?_, LogHeader.blocks_absorb rfl hlt, rfl⟩⟩
    rw [← List.idxOf_lt_length_iff, LogHeader.length_blocks]
    exact hlt

/-- What a successful `end_op` does: it leaves, or starts a commit, which is empty or not. -/
theorem end_op_cases {sb : superblock} {s s' : LogSys} {p : ℕ}
    (h : logStep sb s (.end_op p) = some (.ok s')) : p ∈ s.ops ∧ s.log.committing = false ∧
      ((s.log.outstanding ≠ 1 ∧ s' = { s with
          log := { s.log with outstanding := s.log.outstanding - 1 }, ops := s.ops.erase p }) ∨
        (s.log.outstanding = 1 ∧ 0 < s.log.lh.n ∧ s' = { s with
          log := { s.log with outstanding := 0, committing := true }, ops := s.ops.erase p,
          phase := .write_log 0 }) ∨
        (s.log.outstanding = 1 ∧ s.log.lh.n = 0 ∧ s' = { s with
          log := { s.log with outstanding := 0, committing := true }, ops := s.ops.erase p,
          phase := .finish })) := by
  simp only [logStep, end_op] at h
  split_ifs at h with hp hc h0 <;> try cases h
  · have h1 : s.log.outstanding = 1 := by omega
    refine ⟨hp, by simpa using hc, Or.inr ?_⟩
    by_cases hn : 0 < s.log.lh.n
    · exact Or.inl ⟨h1, hn, by simp [hn, h0]⟩
    · exact Or.inr ⟨h1, by omega, by simp [hn, h0]⟩
  · exact ⟨hp, by simpa using hc, Or.inl ⟨by omega, by simp⟩⟩

/-! ## Control state -/

/-- The group in progress is being collected or copied to the log. -/
def Phase.gathering : Phase → Bool
  | .running | .write_log _ | .write_head => true
  | _ => false

/-- The header in memory has been reset. -/
def Phase.reset : Phase → Bool
  | .recover_clear | .clear | .finish => true
  | _ => false

structure Ctl (sb : superblock) (s : LogSys) : Prop where
  out : s.log.outstanding = s.ops.card
  idle : s.phase ≠ .running → s.ops = ∅
  committing : s.log.committing = true ↔ s.phase.up = true ∧ s.phase ≠ .running
  params : s.phase ≠ .initlog → s.log.start = sb.logstart ∧ s.log.size = sb.nlog
  gather : s.phase.gathering = true →
    s.log.lh.blocks.Nodup ∧ ∀ b, b ∈ s.log.lh.blocks ↔ b ∈ s.group.map Prod.fst
  empty : s.phase.gathering = false → s.group = []
  reset : s.phase.reset = true → s.log.lh.n = 0

namespace Ctl

variable {sb : superblock} {s s' : LogSys} {p b : ℕ} {data : Block}

theorem boot (disk : ℕ → Block) (gs : List (List Write)) : Ctl sb (boot disk gs) where
  out := rfl
  idle := fun _ => rfl
  committing := by simp [Xv6.boot, Log.zero, Phase.up]
  params := fun h => absurd rfl h
  gather := fun h => absurd h (by simp [Xv6.boot, Phase.gathering])
  empty := fun _ => rfl
  reset := fun h => absurd h (by simp [Xv6.boot, Phase.reset])

theorem running_of_mem (h : Ctl sb s) (hp : p ∈ s.ops) : s.phase = .running := by
  by_contra hne
  rw [h.idle hne] at hp
  exact absurd hp (Finset.notMem_empty p)

/-- The header counts the blocks that the group has named. -/
theorem n_eq (h : Ctl sb s) (hg : s.phase.gathering = true) :
    s.log.lh.n = (s.group.map Prod.fst).toFinset.card := by
  obtain ⟨hnd, hmem⟩ := h.gather hg
  rw [← LogHeader.length_blocks, ← List.toFinset_card_of_nodup hnd]
  congr 1
  ext b
  simp only [List.mem_toFinset, hmem b]

theorem begin_op (h : Ctl sb s) (hs : logStep sb s (.begin_op p) = some (.ok s')) : Ctl sb s' := by
  simp only [logStep] at hs
  split_ifs at hs with hp
  unfold Xv6.begin_op at hs
  split_ifs at hs with h1 h2
  cases hs
  have hrun : s.phase = .running := by
    by_contra hne
    exact h1 (h.committing.mpr ⟨hp.1, hne⟩)
  refine ⟨?_, fun hne => absurd hrun hne, h.committing, h.params, h.gather, h.empty, h.reset⟩
  simp [Finset.card_insert_of_notMem hp.2, h.out]

theorem log_write (h : Ctl sb s) (hs : logStep sb s (.log_write p b data) = some (.ok s')) :
    Ctl sb s' := by
  simp only [logStep] at hs
  split_ifs at hs with hp
  have hrun := h.running_of_mem hp.1
  cases hw : Xv6.log_write b s.log (s.bufs.setData b data) with
  | error e => rw [hw] at hs; cases hs
  | ok r =>
    obtain ⟨log, bufs⟩ := r
    rw [hw] at hs
    cases hs
    obtain ⟨-, -, hlog, hblocks⟩ := log_write_ok hw
    obtain ⟨hnd, hmem⟩ := h.gather (by rw [hrun]; rfl)
    have hout : log.outstanding = s.log.outstanding := by rw [hlog]
    have hcom : log.committing = s.log.committing := by rw [hlog]
    have hstart : log.start = s.log.start := by rw [hlog]
    have hsize : log.size = s.log.size := by rw [hlog]
    refine ⟨hout.trans h.out, h.idle, by rw [hcom]; exact h.committing,
      fun hi => by rw [hstart, hsize]; exact h.params hi, fun _ => ?_,
      fun hg => absurd hg (by simp [hrun, Phase.gathering]),
      fun hz => absurd hz (by simp [hrun, Phase.reset])⟩
    rcases hblocks with ⟨hb, hbs, -⟩ | ⟨hb, hbs, -⟩
    · refine ⟨hbs ▸ hnd, fun x => ?_⟩
      rw [hbs, hmem x, List.map_append, List.mem_append]
      refine ⟨Or.inl, fun hx => hx.elim id fun hx => ?_⟩
      have : x = b := by simpa using hx
      exact this ▸ (hmem b).mp hb
    · rw [hbs]
      refine ⟨List.nodup_append.mpr ⟨hnd, List.nodup_singleton b, ?_⟩, fun x => ?_⟩
      · intro a ha c hc
        rw [List.mem_singleton.mp hc]
        exact fun hab => hb (hab ▸ ha)
      · rw [List.map_append, List.mem_append, List.mem_append, hmem x]
        rfl

theorem end_op (h : Ctl sb s) (hs : logStep sb s (.end_op p) = some (.ok s')) : Ctl sb s' := by
  obtain ⟨hp, hcom, hcases⟩ := end_op_cases hs
  have hrun := h.running_of_mem hp
  have hcard := Finset.card_erase_of_mem hp
  have hpos := Finset.card_pos.mpr ⟨p, hp⟩
  have hout := h.out
  obtain ⟨hnd, hmem⟩ := h.gather (by rw [hrun]; rfl)
  have hpar := h.params (by rw [hrun]; exact Phase.noConfusion)
  rcases hcases with ⟨h1, rfl⟩ | ⟨h1, hn, rfl⟩ | ⟨h1, hn, rfl⟩
  · refine ⟨?_, fun hne => absurd hrun hne, h.committing, fun _ => hpar, fun _ => ⟨hnd, hmem⟩,
      h.empty, h.reset⟩
    simp only [hcard]
    omega
  · have hops : s.ops.erase p = ∅ := Finset.card_eq_zero.mp (by omega)
    exact ⟨by simp [hops], fun _ => hops, by simp [Phase.up], fun _ => hpar, fun _ => ⟨hnd, hmem⟩,
      fun hg => absurd hg (by simp [Phase.gathering]), fun hz => absurd hz (by simp [Phase.reset])⟩
  · have hops : s.ops.erase p = ∅ := Finset.card_eq_zero.mp (by omega)
    refine ⟨by simp [hops], fun _ => hops, by simp [Phase.up], fun _ => hpar,
      fun hg => absurd hg (by simp [Phase.gathering]), fun _ => ?_, fun _ => hn⟩
    have hb := LogHeader.blocks_of_n_eq_zero hn
    rw [hb] at hmem
    exact List.map_eq_nil_iff.mp (List.eq_nil_iff_forall_not_mem.mpr fun b hb' =>
      List.not_mem_nil ((hmem b).mpr hb'))

/-- The fields that the commit thread leaves alone, and those that follow from the next phase. -/
theorem next (h : Ctl sb s) (hne : s.phase ≠ .running) (hops : s'.ops = s.ops)
    (hout : s'.log.outstanding = s.log.outstanding) (hcom : s'.log.committing = true ↔
      s'.phase.up = true ∧ s'.phase ≠ .running)
    (hpar : s'.log.start = sb.logstart ∧ s'.log.size = sb.nlog)
    (hg : s'.phase.gathering = true → s'.log.lh.blocks.Nodup ∧
      ∀ b, b ∈ s'.log.lh.blocks ↔ b ∈ s'.group.map Prod.fst)
    (he : s'.phase.gathering = false → s'.group = [])
    (hr : s'.phase.reset = true → s'.log.lh.n = 0) : Ctl sb s' :=
  ⟨by rw [hout, hops]; exact h.out, fun _ => hops.trans (h.idle hne), hcom, fun _ => hpar, hg, he, hr⟩

theorem gather_nil {lh : LogHeader} {gs : List Write} (hn : lh.n = 0) (hgs : gs = []) :
    lh.blocks.Nodup ∧ ∀ b, b ∈ lh.blocks ↔ b ∈ gs.map Prod.fst := by
  rw [LogHeader.blocks_of_n_eq_zero hn, hgs]
  exact ⟨List.nodup_nil, fun b => Iff.rfl⟩

theorem advance (h : Ctl sb s) (hs : logStep sb s .advance = some (.ok s')) : Ctl sb s' := by
  simp only [logStep] at hs
  cases ha : Xv6.advance sb s with
  | none => rw [ha] at hs; cases hs
  | some t =>
    rw [ha] at hs
    cases hs
    have hcom := h.committing
    have hpar := h.params
    have hgather := h.gather
    have hempty := h.empty
    have hreset := h.reset
    unfold Xv6.advance at ha
    cases hph : s.phase <;> rw [hph] at ha hcom hpar hgather hempty hreset
    case running => cases ha
    all_goals have hne : s.phase ≠ .running := by rw [hph]; exact Phase.noConfusion
    case initlog =>
      cases ha
      exact h.next hne rfl rfl (by simpa [read_head, Phase.up] using hcom) ⟨rfl, rfl⟩
        (fun hx => absurd hx (by simp [Phase.gathering])) (fun _ => hempty rfl)
        (fun hx => absurd hx (by simp [Phase.reset]))
    all_goals replace hpar := hpar (by exact Phase.noConfusion)
    case recover_install tail =>
      simp only at ha
      split_ifs at ha <;> cases ha
      · exact h.next hne rfl rfl (by simpa [Phase.up] using hcom) hpar
          (fun hx => absurd hx (by simp [Phase.gathering])) (fun _ => hempty rfl)
          (fun hx => absurd hx (by simp [Phase.reset]))
      · exact h.next hne rfl rfl (by simpa [Phase.up] using hcom) hpar
          (fun hx => absurd hx (by simp [Phase.gathering])) (fun _ => hempty rfl) (fun _ => rfl)
    case recover_clear =>
      cases ha
      exact h.next hne rfl rfl (by simpa [Phase.up] using hcom) hpar
        (fun _ => gather_nil (hreset rfl) (hempty rfl))
        (fun hx => absurd hx (by simp [Phase.gathering]))
        (fun hx => absurd hx (by simp [Phase.reset]))
    case write_log tail =>
      simp only at ha
      split_ifs at ha <;> cases ha
      · exact h.next hne rfl rfl (by simpa [Phase.up] using hcom) hpar (fun _ => hgather rfl)
          (fun hx => absurd hx (by simp [Phase.gathering]))
          (fun hx => absurd hx (by simp [Phase.reset]))
      · exact h.next hne rfl rfl (by simpa [Phase.up] using hcom) hpar (fun _ => hgather rfl)
          (fun hx => absurd hx (by simp [Phase.gathering]))
          (fun hx => absurd hx (by simp [Phase.reset]))
    case write_head =>
      cases ha
      exact h.next hne rfl rfl (by simpa [Phase.up] using hcom) hpar
        (fun hx => absurd hx (by simp [Phase.gathering])) (fun _ => rfl)
        (fun hx => absurd hx (by simp [Phase.reset]))
    case install_trans tail =>
      simp only at ha
      split_ifs at ha <;> cases ha
      · exact h.next hne rfl rfl (by simpa [Phase.up] using hcom) hpar
          (fun hx => absurd hx (by simp [Phase.gathering])) (fun _ => hempty rfl)
          (fun hx => absurd hx (by simp [Phase.reset]))
      · exact h.next hne rfl rfl (by simpa [Phase.up] using hcom) hpar
          (fun hx => absurd hx (by simp [Phase.gathering])) (fun _ => hempty rfl) (fun _ => rfl)
    case clear =>
      cases ha
      exact h.next hne rfl rfl (by simpa [Phase.up] using hcom) hpar
        (fun hx => absurd hx (by simp [Phase.gathering])) (fun _ => hempty rfl) (fun _ => hreset rfl)
    case finish =>
      cases ha
      exact h.next hne rfl rfl (by simp) hpar (fun _ => gather_nil (hreset rfl) (hempty rfl))
        (fun hx => absurd hx (by simp [Phase.gathering]))
        (fun hx => absurd hx (by simp [Phase.reset]))

/-- **Every step keeps the control state.** -/
theorem step (h : Ctl sb s) {l : LogOp} (hs : logStep sb s l = some (.ok s')) : Ctl sb s' := by
  cases l with
  | begin_op p => exact h.begin_op hs
  | log_write p b data => exact h.log_write hs
  | end_op p => exact h.end_op hs
  | bread b => cases hs; exact ⟨h.1, h.2, h.3, h.4, h.5, h.6, h.7⟩
  | recycle b =>
    simp only [logStep] at hs
    split_ifs at hs
    cases hs
    exact ⟨h.1, h.2, h.3, h.4, h.5, h.6, h.7⟩
  | advance => exact h.advance hs
  | crash => cases hs; exact Ctl.boot _ _

theorem steps {P : LogSys → LogOp → Prop} (h : Runs.Steps (logStep sb) P s s') (h0 : Ctl sb s) :
    Ctl sb s' := h.invariant h0 fun _ _ _ hi _ hs => hi.step hs

end Ctl

end Xv6
