import Xv6.Kernel.Pipe
import Xv6.Lib.Ring
import Xv6.Lib.Runs

/-!
# PipeFifo — a pipe is a lossless FIFO

The ring buffer of a pipe holds exactly the bytes that writes have stored and reads have not
delivered yet (`Fifo`); every critical section keeps that, however the counters wrap.  `pipe_fifo`
is the result for all runs.
-/

namespace Xv6

/-- The ring buffer holds what is stored and not delivered yet. -/
def Fifo (pi : Pipe) (stored delivered : List UInt8) : Prop :=
  ∃ q, stored = delivered ++ q ∧
    Ring.Holds PIPESIZE (2 ^ 32) pi.data pi.nread pi.nwrite delivered.length q

namespace Fifo

variable {pi pi' : Pipe} {stored delivered bytes : List UInt8} {ch : UInt8}

theorem alloc (data : ℕ → UInt8) : Fifo (Pipe.alloc data) [] [] := ⟨[], rfl, Ring.Holds.empty⟩

theorem empty_iff (h : Fifo pi stored delivered) : pi.nread = pi.nwrite ↔ delivered = stored := by
  obtain ⟨q, rfl, hq⟩ := h
  rw [hq.eq_iff (by decide)]
  simp

theorem put (h : Fifo pi stored delivered) (ch : UInt8) (hfull : pi.full = false) :
    Fifo (pi.put ch) (stored ++ [ch]) delivered := by
  obtain ⟨q, rfl, hq⟩ := h
  have hne : q.length ≠ PIPESIZE := by
    rw [Ne, ← hq.full_iff (by decide)]
    exact beq_eq_false_iff_ne.mp hfull
  exact ⟨q ++ [ch], List.append_assoc _ _ _, hq.push (by decide) (lt_of_le_of_ne hq.le hne)⟩

theorem get (h : Fifo pi stored delivered) (hne : pi.nread ≠ pi.nwrite) :
    Fifo pi.get.2 stored (delivered ++ [pi.get.1]) := by
  obtain ⟨q, rfl, hq⟩ := h
  cases q with
  | nil => exact absurd ((hq.eq_iff (by decide)).mpr rfl) hne
  | cons x q =>
    obtain ⟨hx, hpop⟩ := hq.pop (by decide)
    refine ⟨q, ?_, ?_⟩
    · rw [show pi.get.1 = x from hx, List.append_assoc]
      rfl
    · rw [List.length_append, List.length_singleton]
      exact hpop

theorem congr (h : Fifo pi stored delivered) (hd : pi'.data = pi.data) (hr : pi'.nread = pi.nread)
    (hw : pi'.nwrite = pi.nwrite) : Fifo pi' stored delivered := by
  obtain ⟨q, hq, hh⟩ := h
  refine ⟨q, hq, ?_⟩
  rw [hd, hr, hw]
  exact hh

end Fifo

section Sections

variable {pi pi' : Pipe} {stored delivered bytes : List UInt8} {killed : Bool} {src : ℕ → UInt8}
  {left i j : ℕ} {e : Section} {n : ℤ}

/-- The loop of `pipewrite` stores its bytes at the end of the queue. -/
theorem pipewriteLoop_fifo (h : Fifo pi stored delivered)
    (hw : pipewriteLoop killed src left i pi = (e, j, bytes, pi')) :
    Fifo pi' (stored ++ bytes) delivered := by
  induction left generalizing i pi stored bytes with
  | zero =>
    cases hw
    rw [List.append_nil]
    exact h
  | succ left ih =>
    unfold pipewriteLoop at hw
    split_ifs at hw with hk hfull
    · cases hw
      rw [List.append_nil]
      exact h
    · cases hw
      rw [List.append_nil]
      exact h
    · cases hl : pipewriteLoop killed src left (i + 1) (pi.put (src i)) with
      | mk e' x =>
        obtain ⟨j', bytes', pi₁⟩ := x
        rw [hl] at hw
        cases hw
        have := ih (h.put (src i) (by simpa using hfull)) hl
        rwa [List.append_assoc] at this

/-- The copy loop of `piperead` delivers its bytes from the front of the queue. -/
theorem pipereadLoop_fifo (h : Fifo pi stored delivered)
    (hr : pipereadLoop left pi = (bytes, pi')) : Fifo pi' stored (delivered ++ bytes) := by
  induction left generalizing pi delivered bytes with
  | zero =>
    cases hr
    rw [List.append_nil]
    exact h
  | succ left ih =>
    unfold pipereadLoop at hr
    split_ifs at hr with hempty
    · cases hr
      rw [List.append_nil]
      exact h
    · cases hl : pipereadLoop left pi.get.2 with
      | mk bytes' pi₁ =>
        rw [hl] at hr
        cases hr
        have := ih (h.get hempty) hl
        rwa [List.append_assoc] at this

theorem pipereadSection_fifo (h : Fifo pi stored delivered)
    (hr : pipereadSection killed n pi = (e, bytes, pi')) : Fifo pi' stored (delivered ++ bytes) := by
  unfold pipereadSection at hr
  split_ifs at hr with hwait hk
  · cases hr
    rw [List.append_nil]
    exact h
  · cases hr
    rw [List.append_nil]
    exact h
  · cases hr
    exact pipereadLoop_fifo h rfl

/-- A read of a positive count returns `0` only at the end of the stream. -/
theorem pipereadSection_zero (hn : 0 < n) (hr : pipereadSection killed n pi = (.ret 0, bytes, pi')) :
    pi'.writeopen = false ∧ pi'.nread = pi'.nwrite := by
  unfold pipereadSection at hr
  split_ifs at hr with hwait hk
  · cases hr
  · cases hr
  · obtain ⟨left, hleft⟩ : ∃ left, n.toNat = left + 1 := ⟨n.toNat - 1, by omega⟩
    rw [hleft, pipereadLoop] at hr
    split_ifs at hr with hempty
    · cases hr
      exact ⟨by simpa [hempty] using hwait, hempty⟩
    · -- a byte is delivered
      have h0 := congrArg Prod.fst hr
      simp only [List.length_cons, Section.ret.injEq] at h0
      omega

/-- The loop of `pipewrite` stores `src i` to `src (j - 1)`, and it returns the count only after all. -/
theorem pipewriteLoop_bytes (hw : pipewriteLoop killed src left i pi = (e, j, bytes, pi')) :
    i ≤ j ∧ j ≤ i + left ∧ bytes = (List.range' i (j - i)).map src ∧
      (e = .sleep ∨ e = .ret (-1) ∨ (j = i + left ∧ e = .ret j)) := by
  induction left generalizing i pi bytes with
  | zero =>
    cases hw
    exact ⟨le_rfl, le_rfl, by rw [Nat.sub_self]; rfl, Or.inr (Or.inr ⟨rfl, rfl⟩)⟩
  | succ left ih =>
    unfold pipewriteLoop at hw
    split_ifs at hw with hk hfull
    · cases hw
      exact ⟨le_rfl, Nat.le_add_right _ _, by rw [Nat.sub_self]; rfl, Or.inr (Or.inl rfl)⟩
    · cases hw
      exact ⟨le_rfl, Nat.le_add_right _ _, by rw [Nat.sub_self]; rfl, Or.inl rfl⟩
    · cases hl : pipewriteLoop killed src left (i + 1) (pi.put (src i)) with
      | mk e' x =>
        obtain ⟨j', bytes', pi₁⟩ := x
        rw [hl] at hw
        cases hw
        obtain ⟨hle, hle', hbytes, he⟩ := ih hl
        refine ⟨by omega, by omega, ?_, ?_⟩
        · rw [hbytes, show j - i = (j - (i + 1)) + 1 by omega, List.range'_succ, List.map_cons]
        · rwa [show i + (left + 1) = i + 1 + left by omega]

theorem pipereadLoop_length (hr : pipereadLoop left pi = (bytes, pi')) : bytes.length ≤ left := by
  induction left generalizing pi bytes with
  | zero =>
    cases hr
    exact le_rfl
  | succ left ih =>
    unfold pipereadLoop at hr
    split_ifs at hr with hempty
    · cases hr
      exact Nat.zero_le _
    · cases hl : pipereadLoop left pi.get.2 with
      | mk bytes' pi₁ =>
        rw [hl] at hr
        cases hr
        exact Nat.succ_le_succ (ih hl)

/-- A read returns how many bytes it has delivered. -/
theorem pipereadSection_count {r : ℤ} (hr : pipereadSection killed n pi = (.ret r, bytes, pi')) :
    (r = -1 ∧ bytes = []) ∨ (r = bytes.length ∧ bytes.length ≤ n.toNat) := by
  unfold pipereadSection at hr
  split_ifs at hr with hwait hk
  · cases hr
    exact Or.inl ⟨rfl, rfl⟩
  · cases hr
  · cases hr
    exact Or.inr ⟨rfl, pipereadLoop_length rfl⟩

end Sections

/-! ## The steps -/

section Steps

variable {s t : PipeSys} {p q : ℕ} {n : ℤ} {src : ℕ → UInt8} {i : ℕ} {l : PipeOp}

theorem PipeCall.wakeReader_write {c : PipeCall} {a : Bool} (h : c.wakeReader = .write n src i a) :
    c = .write n src i a := by
  cases c with
  | write => exact h
  | _ => cases h

theorem PipeCall.wakeWriter_write {c : PipeCall} {a : Bool} (h : c.wakeWriter = .write n src i a) :
    ∃ a', c = .write n src i a' := by
  cases c with
  | write n' src' i' a' =>
    cases h
    exact ⟨a', rfl⟩
  | _ => cases h

/-- What a critical section of `pipewrite` does. -/
theorem run_write (hc : s.call p = .write n src i false) (hl : pipeStep s (.run p) = some (.ok t)) :
    ∃ e j bytes, pipewriteLoop (s.killed p) src (n.toNat - i) i s.pipe = (e, j, bytes, t.pipe) ∧
      t.stored = s.stored ++ bytes ∧ t.wrote = Function.update s.wrote p (s.wrote p ++ bytes) ∧
      t.delivered = s.delivered ∧
      (∀ r, e = .ret r → t.call p = .done r) ∧ (e = .sleep → t.call p = .write n src j true) ∧
      ∀ q ≠ p, t.call q = s.call q ∨ t.call q = (s.call q).wakeReader := by
  simp only [pipeStep, runSection, hc] at hl
  cases hw : pipewriteLoop (s.killed p) src (n.toNat - i) i s.pipe with
  | mk e x =>
    obtain ⟨j, bytes, pi⟩ := x
    rw [hw] at hl
    cases e with
    | sleep =>
      cases hl
      refine ⟨_, _, _, rfl, rfl, rfl, rfl, fun r hr => (by cases hr), fun _ => by simp,
        fun q hq => Or.inr (by simp [hq])⟩
    | ret r =>
      simp only at hl
      split_ifs at hl with hr
      · cases hl
        refine ⟨_, _, _, rfl, rfl, rfl, rfl, fun r' hr' => ?_, fun h => (by cases h),
          fun q hq => Or.inl (by simp [hq])⟩
        cases hr'
        simp
      · cases hl
        refine ⟨_, _, _, rfl, rfl, rfl, rfl, fun r' hr' => ?_, fun h => (by cases h),
          fun q hq => Or.inr (by simp [hq])⟩
        cases hr'
        simp

/-- What a critical section of `piperead` does. -/
theorem run_read (hc : s.call p = .read n false) (hl : pipeStep s (.run p) = some (.ok t)) :
    ∃ e bytes, pipereadSection (s.killed p) n s.pipe = (e, bytes, t.pipe) ∧
      t.delivered = s.delivered ++ bytes ∧ t.stored = s.stored ∧ t.wrote = s.wrote ∧
      (∀ r, e = .ret r → t.call p = .done r) ∧ (e = .sleep → t.call p = .read n true) ∧
      ∀ q ≠ p, t.call q = s.call q ∨ t.call q = (s.call q).wakeWriter := by
  simp only [pipeStep, runSection, hc] at hl
  cases hr : pipereadSection (s.killed p) n s.pipe with
  | mk e x =>
    obtain ⟨bytes, pi⟩ := x
    rw [hr] at hl
    cases e with
    | sleep =>
      cases hl
      refine ⟨_, _, rfl, rfl, rfl, rfl, fun r hr => (by cases hr), fun _ => by simp,
        fun q hq => Or.inl (by simp [hq])⟩
    | ret r =>
      simp only at hl
      split_ifs at hl with hr
      · cases hl
        refine ⟨_, _, rfl, rfl, rfl, rfl, fun r' hr' => ?_, fun h => (by cases h),
          fun q hq => Or.inl (by simp [hq])⟩
        cases hr'
        simp
      · cases hl
        refine ⟨_, _, rfl, rfl, rfl, rfl, fun r' hr' => ?_, fun h => (by cases h),
          fun q hq => Or.inr (by simp [hq])⟩
        cases hr'
        simp

/-- A process that runs is in one of the two. -/
theorem run_cases (hl : pipeStep s (.run p) = some (.ok t)) :
    (∃ n src i, s.call p = .write n src i false) ∨ ∃ n, s.call p = .read n false := by
  simp only [pipeStep, runSection] at hl
  split at hl
  · next n src i hc => exact Or.inl ⟨n, src, i, hc⟩
  · next n hc => exact Or.inr ⟨n, hc⟩
  · cases hl

/-- At index `i` a call has stored exactly `src 0`, …, `src (i - 1)`, in this order. -/
structure Stored (s : PipeSys) : Prop where
  index : ∀ p n src i a, s.call p = .write n src i a → i ≤ n.toNat ∧ s.wrote p = (List.range i).map src
  part : ∀ p, (s.wrote p).Sublist s.stored

theorem Stored.init {data : ℕ → UInt8} : Stored (PipeSys.init data) :=
  ⟨fun _ _ _ _ _ hc => (by cases hc), fun _ => List.Sublist.refl _⟩

/-- A step of the others, with wakeups. -/
theorem Stored.frame (h : Stored s) (hstored : t.stored = s.stored) (hwrote : t.wrote = s.wrote)
    (hcall : ∀ q n src i a, t.call q = .write n src i a → ∃ a', s.call q = .write n src i a') : Stored t where
  index := fun q n src i a hq => by
    obtain ⟨a', hq'⟩ := hcall q n src i a hq
    rw [hwrote]
    exact h.index q n src i a' hq'
  part := fun q => by
    rw [hwrote, hstored]
    exact h.part q

/-- One step of `pipewrite`: the call goes on from index `i` to `j`. -/
theorem Stored.write (h : Stored s) (hc : s.call p = .write n src i false)
    (hl : pipeStep s (.run p) = some (.ok t)) :
    ∃ j, i ≤ j ∧ j ≤ n.toNat ∧ t.stored = s.stored ++ (List.range' i (j - i)).map src ∧
      t.wrote p = (List.range j).map src ∧
      (t.call p = .write n src j true ∨ t.call p = .done (-1) ∨ (j = n.toNat ∧ t.call p = .done j)) := by
  obtain ⟨e, j, bytes, hw, hstored, hwrote, -, hret, hsleep, -⟩ := run_write hc hl
  obtain ⟨hle, hle', hbytes, he⟩ := pipewriteLoop_bytes hw
  obtain ⟨hin, hpre⟩ := h.index p n src i false hc
  refine ⟨j, hle, by omega, by rw [hstored, hbytes], ?_, ?_⟩
  · have hrange : List.range' 0 i ++ List.range' i (j - i) = List.range' 0 j := by
      have := List.range'_append_1 (s := 0) (m := i) (n := j - i)
      rwa [Nat.zero_add, Nat.add_sub_cancel' hle] at this
    rw [hwrote, Function.update_self, hpre, hbytes, ← List.map_append, List.range_eq_range',
      List.range_eq_range', hrange]
  · obtain he | he | ⟨hj, he⟩ := he
    · exact Or.inl (hsleep he)
    · exact Or.inr (Or.inl (hret _ he))
    · exact Or.inr (Or.inr ⟨by omega, hret _ he⟩)

/-- The step in which process `p` runs `pipewrite`. -/
theorem Stored.run_write (h : Stored s) (hc : s.call p = .write n src i false)
    (hl : pipeStep s (.run p) = some (.ok t)) : Stored t := by
  obtain ⟨j, hle, hj, hstored, hself, hend⟩ := h.write hc hl
  obtain ⟨-, -, bytes, -, hbytes, hwrote, -, -, -, hothers⟩ := Xv6.run_write hc hl
  refine ⟨fun q n' src' i' a hq => ?_, fun q => ?_⟩
  · by_cases hqp : q = p
    · subst hqp
      obtain hend | hend | ⟨-, hend⟩ := hend
      · rw [hend] at hq
        cases hq
        exact ⟨hj, hself⟩
      · rw [hend] at hq
        cases hq
      · rw [hend] at hq
        cases hq
    · rw [hwrote, Function.update_of_ne hqp]
      obtain hq' | hq' := hothers q hqp
      · exact h.index q n' src' i' a (hq'.symm.trans hq)
      · exact h.index q n' src' i' a (PipeCall.wakeReader_write (hq'.symm.trans hq))
  · rw [hwrote, hbytes]
    by_cases hqp : q = p
    · rw [hqp, Function.update_self]
      exact (h.part p).append (List.Sublist.refl _)
    · rw [Function.update_of_ne hqp]
      exact (h.part q).trans (List.sublist_append_left _ _)

theorem Stored.run_read (h : Stored s) (hc : s.call p = .read n false)
    (hl : pipeStep s (.run p) = some (.ok t)) : Stored t := by
  obtain ⟨e, bytes, -, -, hstored, hwrote, hret, hsleep, hothers⟩ := Xv6.run_read hc hl
  refine h.frame hstored hwrote fun q n' src' i' a hq => ?_
  by_cases hqp : q = p
  · subst hqp
    cases e with
    | sleep =>
      rw [hsleep rfl] at hq
      cases hq
    | ret r =>
      rw [hret r rfl] at hq
      cases hq
  · obtain hq' | hq' := hothers q hqp
    · exact ⟨a, hq'.symm.trans hq⟩
    · exact PipeCall.wakeWriter_write (hq'.symm.trans hq)

theorem Stored.step (h : Stored s) (hl : pipeStep s l = some (.ok t)) : Stored t := by
  cases l with
  | pipewrite p n src =>
    simp only [pipeStep] at hl
    have hnew : ∀ u : PipeSys, u = { s with call := Function.update s.call p (.write n src 0 false)
                                            wrote := Function.update s.wrote p [] } → Stored u := by
      rintro u rfl
      refine ⟨fun q n' src' i' a hq => ?_, fun q => ?_⟩
      · dsimp only at hq ⊢
        by_cases hqp : q = p
        · rw [hqp, Function.update_self] at hq ⊢
          cases hq
          exact ⟨Nat.zero_le _, rfl⟩
        · rw [Function.update_of_ne hqp] at hq ⊢
          exact h.index q n' src' i' a hq
      · dsimp only
        by_cases hqp : q = p
        · rw [hqp, Function.update_self]
          exact List.nil_sublist _
        · rw [Function.update_of_ne hqp]
          exact h.part q
    split at hl
    · exact hnew t (Except.ok.inj (Option.some.inj hl)).symm
    · exact hnew t (Except.ok.inj (Option.some.inj hl)).symm
    · cases hl
  | piperead p n =>
    simp only [pipeStep] at hl
    have hnew : ∀ u : PipeSys, u = { s with call := Function.update s.call p (.read n false) } →
        Stored u := by
      rintro u rfl
      refine h.frame rfl rfl fun q n' src' i' a hq => ?_
      dsimp only at hq
      by_cases hqp : q = p
      · rw [hqp, Function.update_self] at hq
        cases hq
      · rw [Function.update_of_ne hqp] at hq
        exact ⟨a, hq⟩
    split at hl
    · exact hnew t (Except.ok.inj (Option.some.inj hl)).symm
    · exact hnew t (Except.ok.inj (Option.some.inj hl)).symm
    · cases hl
  | run p =>
    obtain ⟨n, src, i, hc⟩ | ⟨n, hc⟩ := run_cases hl
    · exact h.run_write hc hl
    · exact h.run_read hc hl
  | kill p =>
    cases hl
    refine h.frame rfl rfl fun q n src i a hq => ?_
    dsimp only at hq
    by_cases hqp : q = p
    · rw [hqp, Function.update_self] at hq
      obtain ⟨a', hq⟩ := PipeCall.wakeWriter_write hq
      exact ⟨a', hqp ▸ PipeCall.wakeReader_write hq⟩
    · rw [Function.update_of_ne hqp] at hq
      exact ⟨a, hq⟩
  | pipeclose writable =>
    simp only [pipeStep] at hl
    split_ifs at hl
    · cases hl
      exact h.frame rfl rfl fun q n src i a hq => ⟨a, PipeCall.wakeReader_write hq⟩
    · cases hl
      exact h.frame rfl rfl fun q n src i a hq => PipeCall.wakeWriter_write hq

/-- One step keeps the queue. -/
theorem pipeStep_fifo (h : Fifo s.pipe s.stored s.delivered) (hl : pipeStep s l = some (.ok t)) :
    Fifo t.pipe t.stored t.delivered := by
  cases l with
  | pipewrite p n src =>
    simp only [pipeStep] at hl
    split at hl <;> cases hl <;> exact h
  | piperead p n =>
    simp only [pipeStep] at hl
    split at hl <;> cases hl <;> exact h
  | run p =>
    obtain ⟨n, src, i, hc⟩ | ⟨n, hc⟩ := run_cases hl
    · obtain ⟨e, j, bytes, hw, hstored, -, hdelivered, -⟩ := run_write hc hl
      rw [hstored, hdelivered]
      exact pipewriteLoop_fifo h hw
    · obtain ⟨e, bytes, hr, hdelivered, hstored, -⟩ := run_read hc hl
      rw [hstored, hdelivered]
      exact pipereadSection_fifo h hr
  | kill p => cases hl; exact h
  | pipeclose writable =>
    simp only [pipeStep] at hl
    split_ifs at hl <;> cases hl <;> exact h.congr rfl rfl rfl

end Steps

/-- What is promised of a pipe: the bytes delivered are a prefix of the bytes stored, and the counters say
how many there are in between; these are the bytes of the calls of `pipewrite`, each of which has stored its
bytes in order up to its index, and all of them when it returns their number; and a read returns how many it
has delivered, `0` only at the end. -/
structure InOrder (s : PipeSys) : Prop where
  prefix_stored : s.delivered <+: s.stored
  counters : (s.pipe.nwrite + 2 ^ 32 - s.pipe.nread) % 2 ^ 32 ≤ PIPESIZE ∧
    s.stored.length = s.delivered.length + (s.pipe.nwrite + 2 ^ 32 - s.pipe.nread) % 2 ^ 32
  part : ∀ p, (s.wrote p).Sublist s.stored
  index : ∀ p n src i asleep, s.call p = .write n src i asleep →
    i ≤ n.toNat ∧ s.wrote p = (List.range i).map src
  write : ∀ p n src i t, s.call p = .write n src i false → pipeStep s (.run p) = some (.ok t) →
    ∃ j, i ≤ j ∧ j ≤ n.toNat ∧ t.stored = s.stored ++ (List.range' i (j - i)).map src ∧
      t.wrote p = (List.range j).map src ∧
      (t.call p = .write n src j true ∨ t.call p = .done (-1) ∨ (j = n.toNat ∧ t.call p = .done j))
  read : ∀ p n r t, s.call p = .read n false → pipeStep s (.run p) = some (.ok t) → t.call p = .done r →
    ∃ bytes, t.delivered = s.delivered ++ bytes ∧
      ((r = -1 ∧ bytes = []) ∨ (r = bytes.length ∧ bytes.length ≤ n.toNat)) ∧
      (0 < n → r = 0 → t.pipe.writeopen = false ∧ t.delivered = t.stored)

/-- **A pipe is a lossless FIFO** in every run, whatever the number of bytes. -/
theorem pipe_fifo {P : PipeSys → PipeOp → Prop} {data : ℕ → UInt8} {s : PipeSys}
    (h : Runs.Steps pipeStep P (PipeSys.init data) s) : InOrder s := by
  obtain ⟨hf, hs⟩ : Fifo s.pipe s.stored s.delivered ∧ Stored s :=
    h.invariant (I := fun s => Fifo s.pipe s.stored s.delivered ∧ Stored s) ⟨Fifo.alloc data, .init⟩
      fun _ _ _ hi _ hl => ⟨pipeStep_fifo hi.1 hl, hi.2.step hl⟩
  obtain ⟨q, hq, hh⟩ := hf
  refine ⟨⟨q, hq.symm⟩, ?_, hs.part, hs.index, fun p n src i t hc hl => hs.write hc hl,
    fun p n r t hc hl ht => ?_⟩
  · rw [hh.ahead (by decide), hq, List.length_append]
    exact ⟨hh.le, rfl⟩
  · obtain ⟨e, bytes, hr, hdelivered, -, -, hret, hsleep, -⟩ := run_read hc hl
    cases e with
    | sleep =>
      rw [hsleep rfl] at ht
      cases ht
    | ret r' =>
      rw [hret r' rfl] at ht
      cases ht
      refine ⟨bytes, hdelivered, pipereadSection_count hr, fun hn h0 => ?_⟩
      subst h0
      obtain ⟨h1, h2⟩ := pipereadSection_zero hn hr
      exact ⟨h1, (pipeStep_fifo ⟨q, hq, hh⟩ hl).empty_iff.mp h2⟩

/-- Process 0 writes two bytes, and a read of process 1 for five gets them. -/
theorem pipe_fifo_twoBytes : ∃ s, Runs.exec pipeStep (fun _ _ => True) (PipeSys.init fun _ => 0)
      [.pipewrite 0 2 (fun i => UInt8.ofNat (104 + i)), .run 0, .piperead 1 5, .run 1] = some s ∧
    (s.wrote 0, s.stored, s.delivered) = ([104, 105], [104, 105], [104, 105]) ∧ InOrder s := by
  have h : ((Runs.exec pipeStep (fun _ _ => True) (PipeSys.init fun _ => 0)
      [.pipewrite 0 2 (fun i => UInt8.ofNat (104 + i)), .run 0, .piperead 1 5, .run 1]).map
        fun s => (s.wrote 0, s.stored, s.delivered)) = some ([104, 105], [104, 105], [104, 105]) := by decide
  obtain ⟨s, hs, hb⟩ := Option.map_eq_some_iff.mp h
  exact ⟨s, hs, hb, pipe_fifo (Runs.Steps.of_exec hs)⟩

end Xv6
