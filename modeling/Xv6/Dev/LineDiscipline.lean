import Xv6.Kernel.Console
import Xv6.Lib.Ring
import Xv6.Lib.Runs

/-!
# LineDiscipline — console reads deliver the edited lines

The reference editor keeps the committed stream and the line being typed as lists.  The console
refines it (`Cons.Refines`): the ring holds what is committed and not taken yet, followed by the line.
A character does in the ring what it does in the editor (`Refines.type`), and a read takes characters
from the front (`Refines.read`).
-/

namespace Xv6

/-! ## The reference editor -/

/-- What has been committed so far, the line being typed, and how much of the stream is taken. -/
structure Editor where
  stream : List UInt8
  line : List UInt8
  taken : ℕ

namespace Editor

def init : Editor := { stream := [], line := [], taken := 0 }

/-- The part of the stream that is still to be read. -/
def pending (ed : Editor) : List UInt8 := ed.stream.drop ed.taken

/-- What the buffer has to keep. -/
def size (ed : Editor) : ℕ := ed.pending.length + ed.line.length

/-- Append a character to the line; a newline, an end of file or a full buffer commits it. -/
def append (ed : Editor) (c : UInt8) : Editor :=
  if c = newline ∨ c = C 'D' ∨ ed.size + 1 = INPUT_BUF_SIZE then
    { ed with stream := ed.stream ++ (ed.line ++ [c]), line := [] }
  else { ed with line := ed.line ++ [c] }

/-- A character is typed. -/
def type (ed : Editor) (c : UInt8) : Editor :=
  if c = C 'P' then ed
  else if c = C 'U' then { ed with line := [] }
  else if c = C 'H' ∨ c = 0x7f then { ed with line := ed.line.dropLast }
  else if c ≠ 0 ∧ ed.size < INPUT_BUF_SIZE then
    ed.append (if c = '\r'.toUInt8 then newline else c)
  else ed

/-- The editor after characters have been typed and taken. -/
def run (input : List (UInt8 ⊕ ℕ)) : Editor :=
  input.foldl (fun ed a => a.elim ed.type fun k => { ed with taken := ed.taken + k }) init

theorem run_append (input : List (UInt8 ⊕ ℕ)) (a : UInt8 ⊕ ℕ) :
    run (input ++ [a]) =
      a.elim (run input).type fun k => { run input with taken := (run input).taken + k } := by
  rw [run, List.foldl_append]
  rfl

end Editor

/-! ## The ring -/

/-- The ring holds the rest of the stream and the line. -/
structure Cons.Refines (s : Cons) (ed : Editor) : Prop where
  ring : Ring.Holds INPUT_BUF_SIZE (2 ^ 32) s.buf s.r s.e ed.taken (ed.pending ++ ed.line)
  write : s.w = (ed.taken + ed.pending.length) % 2 ^ 32
  taken : ed.taken ≤ ed.stream.length
  line : newline ∉ ed.line

namespace Cons.Refines

variable {s : Cons} {ed : Editor} {l : List UInt8} {c : UInt8} {left : ℕ}

theorem init (buf : ℕ → UInt8) : (Cons.init buf).Refines Editor.init :=
  ⟨Ring.Holds.empty, rfl, le_refl 0, List.not_mem_nil⟩

theorem size_le (h : s.Refines ed) : ed.size ≤ INPUT_BUF_SIZE := by
  have := h.ring.le
  rwa [List.length_append] at this

theorem used_eq (h : s.Refines ed) : s.used = ed.size := by
  have := h.ring.ahead (by decide)
  rwa [List.length_append] at this

/-- The characters that reads can take. -/
theorem front (h : s.Refines ed) :
    Ring.Holds INPUT_BUF_SIZE (2 ^ 32) s.buf s.r s.w ed.taken ed.pending := by
  rw [h.write]
  exact h.ring.front

theorem read_eq_write (h : s.Refines ed) : s.r = s.w ↔ ed.pending = [] :=
  h.front.eq_iff (by decide)

/-- How far the edit index is ahead of the write index. -/
theorem edit_sub (h : s.Refines ed) : (s.e + 2 ^ 32 - s.w) % 2 ^ 32 = ed.line.length := by
  have hle := h.size_le
  have he := h.ring.write
  have hw := h.write
  rw [List.length_append] at he
  unfold Editor.size INPUT_BUF_SIZE at hle
  omega

theorem edit_eq_write (h : s.Refines ed) : s.e = s.w ↔ ed.line = [] := by
  have hsub := h.edit_sub
  rw [← List.length_eq_zero_iff, ← hsub]
  have he : s.e < 2 ^ 32 := by
    rw [h.ring.write]
    exact Nat.mod_lt _ (Nat.two_pow_pos 32)
  have hw : s.w < 2 ^ 32 := by
    rw [h.write]
    exact Nat.mod_lt _ (Nat.two_pow_pos 32)
  omega

/-- **Erasing** the last character of the line. -/
theorem unput (h : s.Refines { ed with line := l ++ [c] }) :
    s.buf (s.unput.e % INPUT_BUF_SIZE) = c ∧ s.unput.Refines { ed with line := l } := by
  have hring := h.ring
  rw [← List.append_assoc] at hring
  obtain ⟨hc, hring⟩ := hring.unpush (by decide) (by decide)
  exact ⟨hc, hring, h.write, h.taken, fun hm => h.line (List.mem_append_left _ hm)⟩

/-- **Killing** the line. -/
theorem killLine (h : s.Refines ed) (hl : ed.line.length = left) :
    (s.killLine left).Refines { ed with line := [] } := by
  induction left generalizing s ed with
  | zero =>
    obtain hnil := List.length_eq_zero_iff.mp hl
    rw [Cons.killLine, ← hnil]
    exact h
  | succ left ih =>
    obtain ⟨l, c, hlc⟩ : ∃ l c, ed.line = l ++ [c] := by
      rcases List.eq_nil_or_concat ed.line with h0 | h0
      · rw [h0] at hl
        cases hl
      · obtain ⟨l, c, h0⟩ := h0
        exact ⟨l, c, by rw [h0, List.concat_eq_append]⟩
    have hne : s.e ≠ s.w := by
      rw [Ne, h.edit_eq_write, hlc]
      exact List.append_ne_nil_of_right_ne_nil l (List.cons_ne_nil c [])
    obtain ⟨hc, hun⟩ := unput (l := l) (c := c) (s := s) (by rw [← hlc]; exact h)
    have hcn : c ≠ newline := by
      rintro rfl
      exact h.line (by rw [hlc]; exact List.mem_append_right l List.mem_cons_self)
    rw [Cons.killLine, if_pos ⟨hne, by rw [hc]; exact hcn⟩]
    refine @ih _ { ed with line := l } hun ?_
    rw [hlc, List.length_append, List.length_singleton] at hl
    exact Nat.succ_inj.mp hl

/-- **Storing** a character. -/
theorem append (h : s.Refines ed) (hroom : ed.size < INPUT_BUF_SIZE) (c : UInt8) :
    (if c = newline ∨ c = C 'D' ∨ (s.put c).used = INPUT_BUF_SIZE
      then { s.put c with w := (s.put c).e } else s.put c).Refines (ed.append c) := by
  have hring := h.ring.push (x := c) (by decide) (by rw [List.length_append]; exact hroom)
  rw [List.append_assoc] at hring
  have hlen : (s.put c).used = ed.size + 1 := by
    have := hring.ahead (by decide)
    rw [← List.append_assoc, List.length_append, List.length_append] at this
    exact this
  rw [hlen, Editor.append]
  split_ifs with hcommit
  · have hpend : Editor.pending { ed with stream := ed.stream ++ (ed.line ++ [c]), line := [] }
        = ed.pending ++ (ed.line ++ [c]) := List.drop_append_of_le_length h.taken
    refine ⟨?_, ?_, ?_, List.not_mem_nil⟩
    · rw [hpend, List.append_nil]
      exact hring
    · rw [hpend]
      exact hring.write
    · rw [List.length_append]
      exact h.taken.trans (Nat.le_add_right _ _)
  · refine ⟨hring, h.write, h.taken, fun hm => ?_⟩
    rcases List.mem_append.mp hm with hm | hm
    · exact h.line hm
    · exact hcommit (.inl (List.mem_singleton.mp hm).symm)

/-- **A character typed** has the same effect on the ring as on the lists. -/
theorem type (h : s.Refines ed) (c : UInt8) : (consoleintr c s).Refines (ed.type c) := by
  unfold consoleintr Editor.type
  by_cases hP : c = C 'P'
  · rw [if_pos hP, if_pos hP]
    exact h
  rw [if_neg hP, if_neg hP]
  by_cases hU : c = C 'U'
  · rw [if_pos hU, if_pos hU, h.edit_sub]
    exact h.killLine rfl
  rw [if_neg hU, if_neg hU]
  by_cases hH : c = C 'H' ∨ c = 0x7f
  · rw [if_pos hH, if_pos hH]
    rcases List.eq_nil_or_concat ed.line with h0 | ⟨l, x, hlx⟩
    · rw [if_neg (not_not.mpr (h.edit_eq_write.mpr h0)), h0, List.dropLast_nil, ← h0]
      exact h
    · rw [List.concat_eq_append] at hlx
      rw [if_pos, hlx, List.dropLast_concat]
      · exact (unput (l := l) (c := x) (by rw [← hlx]; exact h)).2
      · rw [Ne, h.edit_eq_write, hlx]
        exact List.append_ne_nil_of_right_ne_nil l (List.cons_ne_nil x [])
  rw [if_neg hH, if_neg hH, h.used_eq]
  by_cases hst : c ≠ 0 ∧ ed.size < INPUT_BUF_SIZE
  · rw [if_pos hst, if_pos hst]
    exact h.append hst.2 _
  · rw [if_neg hst, if_neg hst]
    exact h

/-- **Taking** a character. -/
theorem get {rest : List UInt8} (h : s.Refines ed) (hp : ed.pending = c :: rest) :
    s.get.1 = c ∧ s.get.2.Refines { ed with taken := ed.taken + 1 } ∧
      Editor.pending { ed with taken := ed.taken + 1 } = rest := by
  have hring := h.ring
  rw [hp, List.cons_append] at hring
  obtain ⟨hc, hring⟩ := hring.pop (by decide)
  have hrest : Editor.pending { ed with taken := ed.taken + 1 } = rest := by
    rw [Editor.pending, ← List.drop_drop]
    show List.drop 1 ed.pending = rest
    rw [hp]
    rfl
  have hlt : ed.taken < ed.stream.length := by
    have hlen := congrArg List.length hp
    rw [Editor.pending, List.length_drop, List.length_cons] at hlen
    omega
  refine ⟨hc, ⟨?_, ?_, hlt, h.line⟩, hrest⟩
  · rw [hrest]
    exact hring
  · rw [hrest]
    have hw := h.write
    rw [hp, List.length_cons] at hw
    show s.w = (ed.taken + 1 + rest.length) % 2 ^ 32
    rw [hw, add_assoc, add_comm 1]

/-- A character that is taken and put back. -/
theorem unget_get (h : s.Refines ed) : s.get.2.unget = s := by
  have hr : (2 ^ 32 - 1 + (s.r + 1) % 2 ^ 32) % 2 ^ 32 = s.r := by
    rw [Ring.back_succ (by decide), h.ring.read, Nat.mod_mod]
  exact congrArg (fun r => { s with r := r }) hr

end Cons.Refines

/-! ## Reads -/

/-- Neither a newline nor an end of file. -/
def OneLine (l : List UInt8) : Prop := ∀ c ∈ l, c ≠ newline ∧ c ≠ C 'D'

/-- How a critical section of a read that has `n` of `target` bytes to go ends, when `pending` is
there to be read: the section's end, the bytes to go then, and the characters taken. -/
inductive ReadEnd (killed : Bool) (target : ℕ) (n : ℕ) (pending : List UInt8) :
    Section → ℕ → List UInt8 → Prop where
  | full (l : List UInt8) (hl : OneLine l) (hn : l.length = n) :
    ReadEnd killed target n pending (.ret target) 0 l
  | empty (m : ℕ) (hl : OneLine pending) (hn : pending.length + m = n) (hm : 0 < m) :
    ReadEnd killed target n pending (if killed then .ret (-1) else .sleep) m pending
  | newline (l : List UInt8) (m : ℕ) (hl : OneLine l) (hn : l.length + 1 + m = n) :
    ReadEnd killed target n pending (.ret (target - m)) m (l ++ [Xv6.newline])
  /-- the end of file stays where it is -/
  | saved (l : List UInt8) (m : ℕ) (hl : OneLine l) (hp : l ++ [C 'D'] <+: pending)
      (hn : l.length + m = n) (hm : m < target) :
    ReadEnd killed target n pending (.ret (target - m)) m l
  | eof (hn : n = target) (hm : 0 < n) : ReadEnd killed target n pending (.ret 0) n [C 'D']

theorem OneLine.cons {c : UInt8} {l : List UInt8} (hl : OneLine l) (hn : c ≠ newline) (hd : c ≠ C 'D') :
    OneLine (c :: l) := by
  intro x hx
  rcases List.mem_cons.mp hx with rfl | hx
  · exact ⟨hn, hd⟩
  · exact hl x hx

theorem OneLine.nil : OneLine [] := fun _ hc => absurd hc List.not_mem_nil

/-- One more character in front. -/
theorem ReadEnd.cons {killed : Bool} {target n m : ℕ} {pending taken : List UInt8} {e : Section}
    {c : UInt8} (h : ReadEnd killed target n pending e m taken) (ht : n < target)
    (hn : c ≠ Xv6.newline) (hd : c ≠ C 'D') :
    ReadEnd killed target (n + 1) (c :: pending) e m (c :: taken) := by
  cases h with
  | full _ hl hlen => exact .full _ (hl.cons hn hd) (congrArg Nat.succ hlen)
  | empty m hl hlen hm => exact .empty m (hl.cons hn hd) (by rw [List.length_cons]; omega) hm
  | newline l m hl hlen =>
    exact .newline (c :: l) m (hl.cons hn hd) (by rw [List.length_cons]; omega)
  | saved _ m hl hp hlen hm =>
    exact .saved _ m (hl.cons hn hd) (List.cons_prefix_cons.mpr ⟨rfl, hp⟩)
      (by rw [List.length_cons]; omega) hm
  | eof he hm => omega

/-- **A critical section of a read** takes characters from the front of what is pending, up to the
end of the line. -/
theorem Cons.Refines.read {s s' : Cons} {ed : Editor} {killed : Bool} {target n m : ℕ} {e : Section}
    {taken : List UInt8} (h : s.Refines ed) (hn : n ≤ target)
    (hr : consoleread killed target n s = (e, m, taken, s')) :
    s'.Refines { ed with taken := ed.taken + taken.length } ∧ taken <+: ed.pending ∧
      ReadEnd killed target n ed.pending e m taken := by
  induction n generalizing s ed e m taken s' with
  | zero =>
    cases hr
    exact ⟨h, List.nil_prefix, .full [] OneLine.nil rfl⟩
  | succ n ih =>
    rw [consoleread] at hr
    by_cases hempty : s.r = s.w
    · have hp := h.read_eq_write.mp hempty
      rw [if_pos hempty] at hr
      have hend : ReadEnd killed target (n + 1) [] (if killed then .ret (-1) else .sleep) (n + 1) [] :=
        .empty (n + 1) OneLine.nil (Nat.zero_add _) (Nat.succ_pos n)
      rw [hp]
      cases killed <;> cases hr <;> exact ⟨h, List.nil_prefix, hend⟩
    rw [if_neg hempty] at hr
    obtain ⟨c, rest, hp⟩ : ∃ c rest, ed.pending = c :: rest :=
      List.exists_cons_of_ne_nil fun h0 => hempty (h.read_eq_write.mpr h0)
    obtain ⟨hc, hget, hrest⟩ := h.get hp
    have hun := h.unget_get
    cases hg : s.get with
    | mk c' s₁ =>
      rw [hg] at hc hget hun
      obtain rfl : c' = c := hc
      dsimp only at hget hun
      simp only [hg] at hr
      rw [hp]
      split_ifs at hr with hd hsave hnl
      · -- the end of file is saved
        cases hr
        rw [hun]
        exact ⟨h, List.nil_prefix, .saved [] (n + 1) OneLine.nil
          (List.cons_prefix_cons.mpr ⟨hd.symm, List.nil_prefix⟩) (Nat.zero_add _) hsave⟩
      · cases hr
        have htarget : n + 1 = target := by omega
        have hzero : ((target : ℤ) - (n + 1 : ℕ)) = 0 := by omega
        rw [hzero, hd]
        exact ⟨hget, List.cons_prefix_cons.mpr ⟨rfl, List.nil_prefix⟩, .eof htarget (Nat.succ_pos n)⟩
      · cases hr
        rw [hnl]
        exact ⟨hget, List.cons_prefix_cons.mpr ⟨rfl, List.nil_prefix⟩,
          .newline [] n OneLine.nil (by rw [List.length_nil]; omega)⟩
      · cases hl : consoleread killed target n s₁ with
        | mk e' x =>
          obtain ⟨m', taken', s₂⟩ := x
          rw [hl] at hr
          cases hr
          obtain ⟨h1, h2, h3⟩ := ih hget (by omega) hl
          rw [hrest] at h2 h3
          refine ⟨?_, List.cons_prefix_cons.mpr ⟨rfl, h2⟩, h3.cons (by omega) hnl hd⟩
          have hlen : ed.taken + (c' :: taken').length = ed.taken + 1 + taken'.length := by
            rw [List.length_cons]
            omega
          rw [hlen]
          exact h1

/-! ## Every run -/

/-- The characters in the ring between the read and the write index. -/
def Cons.committed (s : Cons) : List UInt8 :=
  (List.range ((s.w + 2 ^ 32 - s.r) % 2 ^ 32)).map fun k => s.buf ((s.r + k) % INPUT_BUF_SIZE)

theorem Cons.Refines.committed_eq {s : Cons} {ed : Editor} (h : s.Refines ed) :
    s.committed = ed.pending := by
  rw [Cons.committed, h.front.ahead (by decide)]
  exact h.front.contents (by decide)

theorem Editor.taken_type (ed : Editor) (c : UInt8) : (ed.type c).taken = ed.taken := by
  unfold Editor.type Editor.append
  split_ifs <;> rfl

/-- Typing only adds to the stream. -/
theorem Editor.stream_type (ed : Editor) (c : UInt8) : ed.stream <+: (ed.type c).stream := by
  unfold Editor.type Editor.append
  split_ifs
  all_goals first
    | exact List.prefix_rfl
    | exact List.prefix_append _ _

/-- The ring refines the editor, and the reads have got what was taken. -/
structure ConsSys.Ok (s : ConsSys) : Prop where
  refines : s.cons.Refines (Editor.run s.input)
  got : s.got = (Editor.run s.input).stream.take (Editor.run s.input).taken
  left : ∀ p target n asleep, s.call p = .read target n asleep → n ≤ target

theorem ConsCall.wake_eq_read {c : ConsCall} {target n : ℕ} {asleep : Bool}
    (h : c.wake = .read target n asleep) : ∃ a, c = .read target n a := by
  cases c with
  | read target' n' a =>
    cases h
    exact ⟨a, rfl⟩
  | idle => cases h
  | done r => cases h

namespace ConsSys.Ok

variable {s t : ConsSys} {p target n : ℕ}

theorem init (buf : ℕ → UInt8) : (ConsSys.init buf).Ok :=
  ⟨Cons.Refines.init buf, rfl, fun _ _ _ _ h => nomatch h⟩

theorem committed_append (h : s.Ok) : s.got ++ s.cons.committed = (Editor.run s.input).stream := by
  rw [h.got, h.refines.committed_eq, Editor.pending, List.take_append_drop]

/-- A character arrives. -/
theorem consoleintr (h : s.Ok) {c : UInt8} (hs : consStep s (.consoleintr c) = some (.ok t)) :
    t.Ok ∧ s.cons.committed <+: t.cons.committed := by
  cases hs
  have hrun : Editor.run (s.input ++ [.inl c]) = (Editor.run s.input).type c := Editor.run_append _ _
  have hrefines := h.refines.type c
  obtain ⟨x, hx⟩ := Editor.stream_type (Editor.run s.input) c
  have htaken := Editor.taken_type (Editor.run s.input) c
  refine ⟨⟨?_, ?_, fun p target n asleep hp => ?_⟩, ?_⟩
  · rw [hrun]
    exact hrefines
  · rw [hrun, htaken, ← hx, List.take_append_of_le_length h.refines.taken]
    exact h.got
  · dsimp only at hp
    split_ifs at hp
    · exact h.left p target n asleep hp
    · obtain ⟨a, ha⟩ := ConsCall.wake_eq_read hp
      exact h.left p target n a ha
  · rw [h.refines.committed_eq, hrefines.committed_eq, Editor.pending, Editor.pending, htaken, ← hx,
      List.drop_append_of_le_length h.refines.taken]
    exact List.prefix_append _ _

/-- A critical section of a read. -/
theorem read (h : s.Ok) (hp : s.call p = .read target n false) :
    ∃ e m taken t, consStep s (.run p) = some (.ok t) ∧ t.Ok ∧
      t.call p = (match e with | .sleep => .read target m true | .ret r => .done r) ∧
      t.got = s.got ++ taken ∧ s.cons.committed = taken ++ t.cons.committed ∧
      ReadEnd (s.killed p) target n s.cons.committed e m taken := by
  cases hr : Xv6.consoleread (s.killed p) target n s.cons with
  | mk e x =>
    obtain ⟨m, taken, cons⟩ := x
    obtain ⟨hcons, ⟨rest, hrest⟩, hend⟩ := h.refines.read (h.left p target n false hp) hr
    have hrun : Editor.run (s.input ++ [.inr taken.length]) =
        { Editor.run s.input with taken := (Editor.run s.input).taken + taken.length } :=
      Editor.run_append _ _
    have hpend : Editor.pending
        { Editor.run s.input with taken := (Editor.run s.input).taken + taken.length } = rest := by
      rw [Editor.pending, ← List.drop_drop]
      show List.drop taken.length (Editor.run s.input).pending = rest
      rw [← hrest, List.drop_left]
    have hm : m ≤ target := by
      have hn := h.left p target n false hp
      cases hend <;> omega
    refine ⟨e, m, taken, _, by simp only [consStep, hp, hr]; rfl, ⟨?_, ?_, ?_⟩,
      Function.update_self _ _ _, rfl, ?_, ?_⟩
    · rw [hrun]
      exact hcons
    · rw [hrun, List.take_add]
      show s.got ++ taken = _ ++ (Editor.run s.input).pending.take taken.length
      rw [← h.got, ← hrest, List.take_left]
    · intro q target' m' asleep hq
      dsimp only at hq
      by_cases hqp : q = p
      · rw [hqp, Function.update_self] at hq
        cases e with
        | sleep => cases hq; exact hm
        | ret r => cases hq
      · rw [Function.update_of_ne hqp] at hq
        exact h.left q target' m' asleep hq
    · rw [h.refines.committed_eq, hcons.committed_eq, hpend, hrest]
    · rw [h.refines.committed_eq]
      exact hend

theorem step {l : ConsOp} (h : s.Ok) (hl : consStep s l = some (.ok t)) : t.Ok := by
  cases l with
  | consoleintr c => exact (h.consoleintr hl).1
  | consoleread p n =>
    have key : ∀ q target m asleep, Function.update s.call p (.read n.toNat n.toNat false) q
        = .read target m asleep → m ≤ target := by
      intro q target m asleep hq
      by_cases hqp : q = p
      · rw [hqp, Function.update_self] at hq
        cases hq
        exact le_refl _
      · rw [Function.update_of_ne hqp] at hq
        exact h.left q target m asleep hq
    simp only [consStep] at hl
    split at hl <;> cases hl <;> exact ⟨h.refines, h.got, key⟩
  | run p =>
    cases hp : s.call p with
    | read target n asleep =>
      cases asleep with
      | false =>
        obtain ⟨-, -, -, u, hu, hok, -⟩ := h.read hp
        rw [hu] at hl
        cases hl
        exact hok
      | true => simp only [consStep, hp] at hl; cases hl
    | idle => simp only [consStep, hp] at hl; cases hl
    | done r => simp only [consStep, hp] at hl; cases hl
  | kill p =>
    cases hl
    refine ⟨h.refines, h.got, fun q target n asleep hq => ?_⟩
    dsimp only at hq
    by_cases hqp : q = p
    · rw [hqp, Function.update_self] at hq
      obtain ⟨a, ha⟩ := ConsCall.wake_eq_read hq
      exact h.left p target n a ha
    · rw [Function.update_of_ne hqp] at hq
      exact h.left q target n asleep hq

end ConsSys.Ok

variable {s : ConsSys}

/-- **The console delivers exactly the edited lines.**  The indices stay in order, however they wrap;
typing only adds to what is committed; what reads have got, followed by what they can still get, is
the stream of the reference editor; and every critical section of a read ends as `ReadEnd` says. -/
theorem console_delivers {P : ConsSys → ConsOp → Prop} {buf : ℕ → UInt8}
    (h : Runs.Steps consStep P (ConsSys.init buf) s) :
    ((s.cons.w + 2 ^ 32 - s.cons.r) % 2 ^ 32 ≤ s.cons.used ∧ s.cons.used ≤ INPUT_BUF_SIZE) ∧
    s.got ++ s.cons.committed = (Editor.run s.input).stream ∧
    (∀ c t, consStep s (.consoleintr c) = some (.ok t) →
      s.cons.committed <+: t.cons.committed) ∧
    ∀ p target n, s.call p = .read target n false →
      ∃ e m taken t, consStep s (.run p) = some (.ok t) ∧
        t.call p = (match e with | .sleep => .read target m true | .ret r => .done r) ∧
        t.got = s.got ++ taken ∧ s.cons.committed = taken ++ t.cons.committed ∧
        ReadEnd (s.killed p) target n s.cons.committed e m taken := by
  have hok : s.Ok := h.invariant (I := ConsSys.Ok) (.init buf) fun _ _ _ hi _ hl => hi.step hl
  refine ⟨⟨?_, ?_⟩, hok.committed_append, fun c t ht => (hok.consoleintr ht).2, ?_⟩
  · rw [hok.refines.used_eq, hok.refines.front.ahead (by decide)]
    exact Nat.le_add_right _ _
  · rw [hok.refines.used_eq]
    exact hok.refines.size_le
  · intro p target n hp
    obtain ⟨e, m, taken, t, ht, -, hrest⟩ := hok.read hp
    exact ⟨e, m, taken, t, ht, hrest⟩

/-- A letter, an erased letter and a carriage return are typed, and a read gets the line. -/
theorem console_delivers_line : ∃ s : ConsSys,
    Runs.Steps consStep (fun _ _ => True) (ConsSys.init fun _ => 0) s ∧ s.got = [97, newline] ∧
    s.got ++ s.cons.committed = (Editor.run s.input).stream := by
  obtain ⟨s, hs, hgot⟩ := Runs.Steps.of_any (Q := fun s => s.got = [97, newline])
    [.consoleread 0 10, .consoleintr 97, .consoleintr 98, .consoleintr (C 'H'), .consoleintr 13,
      .run 0]
    (by decide +kernel : (Runs.exec consStep (fun _ _ => True) (ConsSys.init fun _ => 0) _).any _
      = true)
  exact ⟨s, hs, hgot, (console_delivers hs).2.1⟩

end Xv6
