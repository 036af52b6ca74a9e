import Mathlib.Algebra.BigOperators.Group.Finset.Basic
import Mathlib.Algebra.Order.BigOperators.Group.Finset
import Xv6.Kernel.Uart
import Xv6.Lib.Ring
import Xv6.Lib.Runs

/-!
# Transmit — what is written to the console arrives

`Inv`: the characters put into the buffer are those that were sent, the one in the device or on its way there, and
the queue in the buffer.  A thread sleeps only while the buffer is full, and a character waits in the buffer only
while the device is busy or an interrupt is to come; so nothing stands still before all is sent, and `measure`
falls with every step.
-/

namespace Xv6

namespace Uart

variable {s t : Uart} {a b : Agent} {c : UInt8} {cs : List UInt8} {q : List UInt8} {o : Op} {n : ℕ}

abbrev WRAP : ℕ := 2 ^ 64

/-- The characters that the thread has still to put into the buffer. -/
def Pc.rest : Pc → List UInt8
  | .acquire c cs | .check c cs | .asleep c cs => c :: cs
  | .start cs | .send _ cs => cs
  | .idle | .intr => []

/-- The character on its way to the device. -/
def Pc.sending : Pc → List UInt8
  | .send c _ => [c]
  | _ => []

/-- The thread has the lock. -/
def Pc.locked : Pc → Prop
  | .check _ _ | .start _ | .send _ _ => True
  | .idle | .acquire _ _ | .asleep _ _ | .intr => False

/-- The thread is in `uartstart`. -/
def Pc.starting : Pc → Prop
  | .start _ | .send _ _ => True
  | _ => False

theorem rest_next : (next cs).rest = cs := by
  cases cs <;> rfl

theorem next_locked (cs : List UInt8) : ¬ (next cs).locked := by
  cases cs <;> exact id

theorem next_ne_asleep {d : UInt8} {ds : List UInt8} : next cs ≠ .asleep d ds := by
  cases cs <;> exact fun h => by cases h

theorem wake_rest (pc : Pc) : pc.wake.rest = pc.rest := by
  cases pc <;> rfl

theorem wake_locked (pc : Pc) : pc.wake.locked ↔ pc.locked := by
  cases pc <;> rfl

theorem wake_ne_asleep (pc : Pc) : pc.wake ≠ .asleep c cs := by
  cases pc <;> exact fun h => by cases h

/-- What is on its way to the device. -/
def onWay (s : Uart) : List UInt8 := s.lock.elim [] fun a => (s.pc a).sending

/-- The characters that thread `a` has put into the buffer. -/
def storedBy (s : Uart) (a : Agent) : List UInt8 := (s.stored.filter fun x => x.1 = a).map Prod.snd

structure Inv (s : Uart) : Prop where
  fifo : ∃ q n, Ring.Holds UART_TX_BUF_SIZE WRAP s.buf s.r s.w n q ∧
    s.stored.map Prod.snd = s.wire ++ s.thr.toList ++ s.onWay ++ q
  holder : ∀ a, (s.pc a).locked ↔ s.lock = some a
  room : ∀ a c cs, s.pc a = .send c cs → s.thr = none
  full : ∀ a c cs, s.pc a = .asleep c cs → s.w = (s.r + UART_TX_BUF_SIZE) % WRAP
  goes : (∀ a, ¬ (s.pc a).starting) → s.w ≠ s.r → s.thr = none → s.irq = true ∨ s.pc none = .intr
  order : ∀ a, s.written a = s.storedBy a ++ (s.pc a).rest
  handler : s.written none = []

theorem Inv.init (buf : ℕ → UInt8) : Inv (init buf) where
  fifo := ⟨[], 0, Ring.Holds.empty, rfl⟩
  holder := fun _ => iff_of_false id fun h => by cases h
  room := fun _ _ _ h => by cases h
  full := fun _ _ _ h => by cases h
  goes := fun _ h => absurd rfl h
  order := fun _ => rfl
  handler := rfl

theorem goto_pc {pc : Pc} : (s.goto a pc).pc b = if b = a then pc else s.pc b := Function.update_apply _ _ _ _

theorem Inv.lock_eq (h : Inv s) (hl : (s.pc a).locked) : s.lock = some a := (h.holder a).mp hl

theorem Inv.onWay_eq (h : Inv s) (hl : (s.pc a).locked) : s.onWay = (s.pc a).sending := by
  rw [onWay, h.lock_eq hl]
  rfl

/-- No other thread has the lock. -/
theorem Inv.alone (h : Inv s) (hl : (s.pc a).locked) (hb : b ≠ a) : ¬ (s.pc b).locked := fun hl' =>
  hb (Option.some.inj ((h.lock_eq hl').symm.trans (h.lock_eq hl)))

theorem Inv.none_locked (h : Inv s) (hl : s.lock = none) : ¬ (s.pc a).locked := fun hl' => by
  rw [h.lock_eq hl'] at hl
  cases hl

theorem starting_locked {pc : Pc} (h : pc.starting) : pc.locked := by
  cases pc <;> first | exact trivial | exact h

/-! ## One step -/

/-- A thread goes on, and nothing else happens to the buffer and the device. -/
structure Goes (a : Agent) (pc : Pc) (s t : Uart) : Prop where
  pc : t.pc = Function.update s.pc a pc
  buf : t.buf = s.buf
  w : t.w = s.w
  r : t.r = s.r
  thr : t.thr = s.thr
  wire : t.wire = s.wire
  stored : t.stored = s.stored

theorem Goes.self {pc : Pc} (h : Goes a pc s t) : t.pc a = pc := by
  rw [h.pc, Function.update_self]

theorem Goes.other {pc : Pc} (h : Goes a pc s t) (hb : b ≠ a) : t.pc b = s.pc b := by
  rw [h.pc, Function.update_of_ne hb]

theorem Goes.storedBy {pc : Pc} (h : Goes a pc s t) : t.storedBy b = s.storedBy b := by
  rw [Uart.storedBy, h.stored]
  rfl

/-- What the thread has still to write is the same. -/
theorem Goes.order {pc : Pc} (h : Goes a pc s t) (hi : Inv s) (hw : t.written = s.written)
    (hrest : pc.rest = (s.pc a).rest) : ∀ b, t.written b = t.storedBy b ++ (t.pc b).rest := by
  intro b
  rw [hw, h.storedBy, hi.order b]
  by_cases hb : b = a
  · rw [hb, h.self, hrest]
  · rw [h.other hb]

theorem Goes.full {pc : Pc} (h : Goes a pc s t) (hi : Inv s)
    (hs : ∀ c cs, pc = .asleep c cs → s.w = (s.r + UART_TX_BUF_SIZE) % WRAP) :
    ∀ b c cs, t.pc b = .asleep c cs → t.w = (t.r + UART_TX_BUF_SIZE) % WRAP := by
  intro b c cs hb
  rw [h.w, h.r]
  by_cases hba : b = a
  · rw [hba, h.self] at hb
    exact hs c cs hb
  · rw [h.other hba] at hb
    exact hi.full b c cs hb

theorem Goes.room {pc : Pc} (h : Goes a pc s t) (hi : Inv s) (hs : ∀ c cs, pc ≠ .send c cs) :
    ∀ b c cs, t.pc b = .send c cs → t.thr = none := by
  intro b c cs hb
  rw [h.thr]
  by_cases hba : b = a
  · rw [hba, h.self] at hb
    exact absurd hb (hs c cs)
  · rw [h.other hba] at hb
    exact hi.room b c cs hb

/-- The lock passes to the thread, from the thread, or stays where it is. -/
theorem Goes.holder {pc : Pc} (h : Goes a pc s t) (hi : Inv s)
    (hl : t.lock = s.lock ∧ (pc.locked ↔ (s.pc a).locked) ∨ s.lock = none ∧ t.lock = some a ∧ pc.locked ∨
      s.lock = some a ∧ t.lock = none ∧ ¬ pc.locked) : ∀ b, (t.pc b).locked ↔ t.lock = some b := by
  intro b
  by_cases hb : b = a
  · rw [hb, h.self]
    obtain ⟨hl, hp⟩ | ⟨-, hl, hp⟩ | ⟨-, hl, hp⟩ := hl
    · rw [hl, hp]
      exact hi.holder a
    · exact iff_of_true hp hl
    · exact iff_of_false hp (by rw [hl]; exact fun h => by cases h)
  · rw [h.other hb]
    have hne : (some a : Option Agent) ≠ some b := fun he => hb (Option.some.inj he).symm
    obtain ⟨hl, -⟩ | ⟨hl, hl', -⟩ | ⟨hl, hl', -⟩ := hl
    · rw [hl]
      exact hi.holder b
    · rw [hl']
      exact iff_of_false (hi.none_locked hl) hne
    · rw [hl']
      refine iff_of_false (fun hlb => hne ?_) fun h => by cases h
      rw [← hl, hi.lock_eq hlb]

/-- Nothing is on its way before or after. -/
theorem Goes.fifo {pc : Pc} (h : Goes a pc s t) (hi : Inv s) (hon : t.onWay = s.onWay) :
    ∃ q n, Ring.Holds UART_TX_BUF_SIZE WRAP t.buf t.r t.w n q ∧
      t.stored.map Prod.snd = t.wire ++ t.thr.toList ++ t.onWay ++ q := by
  rw [h.buf, h.r, h.w, h.stored, h.wire, h.thr, hon]
  exact hi.fifo

/-- A thread outside `uartstart` stays outside, and the interrupt is as before. -/
theorem Goes.goes {pc : Pc} (h : Goes a pc s t) (hi : Inv s) (hs : ¬ (s.pc a).starting) (hne : s.pc a ≠ .intr)
    (hirq : t.irq = s.irq) :
    (∀ b, ¬ (t.pc b).starting) → t.w ≠ t.r → t.thr = none → t.irq = true ∨ t.pc none = .intr := by
  intro hno hwr hthr
  rw [h.w, h.r] at hwr
  rw [h.thr] at hthr
  have hno' : ∀ b, ¬ (s.pc b).starting := by
    intro b
    by_cases hb : b = a
    · rw [hb]
      exact hs
    · rw [← h.other hb]
      exact hno b
  rw [hirq]
  refine (hi.goes hno' hwr hthr).imp_right fun hn => ?_
  by_cases hb : none = a
  · rw [hb] at hn
    exact absurd hn hne
  · rw [h.other hb]
    exact hn

theorem onWay_none (hl : s.lock = none) : s.onWay = [] := by
  rw [onWay, hl]
  rfl

theorem onWay_some (hl : s.lock = some a) : s.onWay = (s.pc a).sending := by
  rw [onWay, hl]
  rfl

theorem starting_start : (Pc.start cs).starting := trivial

theorem starting_send : (Pc.send c cs).starting := trivial

/-- `acquire` in `uartputc`. -/
theorem Inv.acquire (h : Inv s) (hp : s.pc a = .acquire c cs) (hl : s.lock = none) :
    Inv { s.goto a (.check c cs) with lock := some a } := by
  have hg : Goes a (.check c cs) s { s.goto a (.check c cs) with lock := some a } :=
    ⟨rfl, rfl, rfl, rfl, rfl, rfl, rfl⟩
  refine ⟨hg.fifo h ?_, hg.holder h (.inr (.inl ⟨hl, rfl, trivial⟩)), hg.room h (fun _ _ he => by cases he),
    hg.full h (fun _ _ he => by cases he), hg.goes h ?_ ?_ rfl, hg.order h rfl ?_, h.handler⟩
  · rw [onWay_none hl, onWay_some (a := a) rfl, hg.self]
    rfl
  · rw [hp]
    exact id
  · rw [hp]
    exact fun he => by cases he
  · rw [hp]
    rfl

/-- The buffer is full. -/
theorem Inv.sleep (h : Inv s) (hp : s.pc a = .check c cs) (hw : s.w = (s.r + UART_TX_BUF_SIZE) % WRAP) :
    Inv { s.goto a (.asleep c cs) with lock := none } := by
  have hg : Goes a (.asleep c cs) s { s.goto a (.asleep c cs) with lock := none } :=
    ⟨rfl, rfl, rfl, rfl, rfl, rfl, rfl⟩
  have hlk : (s.pc a).locked := by
    rw [hp]
    trivial
  refine ⟨hg.fifo h ?_, hg.holder h (.inr (.inr ⟨h.lock_eq hlk, rfl, id⟩)), hg.room h (fun _ _ he => by cases he),
    hg.full h fun _ _ _ => hw, hg.goes h ?_ ?_ rfl, hg.order h rfl ?_, h.handler⟩
  · rw [onWay_none rfl, h.onWay_eq hlk, hp]
    rfl
  · rw [hp]
    exact id
  · rw [hp]
    exact fun he => by cases he
  · rw [hp]
    rfl

/-- `acquire` in `uartintr`. -/
theorem Inv.handle (h : Inv s) (hp : s.pc a = .intr) (hl : s.lock = none) :
    Inv { s.goto a (.start []) with lock := some a } := by
  have hg : Goes a (.start []) s { s.goto a (.start []) with lock := some a } :=
    ⟨rfl, rfl, rfl, rfl, rfl, rfl, rfl⟩
  refine ⟨hg.fifo h ?_, hg.holder h (.inr (.inl ⟨hl, rfl, trivial⟩)), hg.room h (fun _ _ he => by cases he),
    hg.full h (fun _ _ he => by cases he), fun hno => ?_, hg.order h rfl ?_, h.handler⟩
  · rw [onWay_none hl, onWay_some (a := a) rfl, hg.self]
    rfl
  · refine absurd ?_ (hno a)
    rw [hg.self]
    exact starting_start
  · rw [hp]
    rfl

/-- `uartstart` returns where the queue is empty or the device is busy. -/
theorem Inv.leave (h : Inv s) (hp : s.pc a = .start cs) (hdone : s.w ≠ s.r → s.thr ≠ none) :
    Inv (s.leave a cs) := by
  have hg : Goes a (next cs) s (s.leave a cs) := ⟨rfl, rfl, rfl, rfl, rfl, rfl, rfl⟩
  have hlk : (s.pc a).locked := by
    rw [hp]
    trivial
  refine ⟨hg.fifo h ?_, hg.holder h (.inr (.inr ⟨h.lock_eq hlk, rfl, next_locked cs⟩)), hg.room h fun c ds he => ?_,
    hg.full h fun _ _ he => absurd he next_ne_asleep, fun _ hwr hthr => absurd hthr (hdone hwr),
    hg.order h rfl ?_, h.handler⟩
  · rw [onWay_none rfl, h.onWay_eq hlk, hp]
    rfl
  · apply next_locked cs
    rw [he]
    trivial
  · rw [hp]
    exact rest_next

/-- `WriteReg(THR, c)`. -/
theorem Inv.send (h : Inv s) (hp : s.pc a = .send c cs) : Inv (s.load a c cs) := by
  have hlk : (s.pc a).locked := by
    rw [hp]
    trivial
  have hpc : ∀ b, (s.load a c cs).pc b = if b = a then .start cs else s.pc b :=
    fun b => goto_pc
  have hl : (s.load a c cs).lock = some a := h.lock_eq hlk
  have hon : (s.load a c cs).onWay = [] := by
    rw [onWay_some hl, hpc a, if_pos rfl]
    rfl
  refine ⟨?_, fun b => ?_, fun b d ds hb => ?_, fun b d ds hb => ?_, (fun _ _ hthr => by cases hthr), fun b => ?_,
    h.handler⟩
  · obtain ⟨q, n, hq, hs⟩ := h.fifo
    refine ⟨q, n, hq, hs.trans ?_⟩
    rw [h.onWay_eq hlk, hp, h.room a c cs hp, hon]
    show s.wire ++ [] ++ [c] ++ q = s.wire ++ [c] ++ [] ++ q
    rw [List.append_nil, List.append_nil]
  · rw [hpc b]
    split_ifs with hb
    · rw [hb]
      exact iff_of_true trivial hl
    · exact h.holder b
  · -- only the thread with the lock is about to send
    rw [hpc b] at hb
    split_ifs at hb with hba
    refine absurd ?_ (h.alone hlk hba)
    rw [hb]
    trivial
  · rw [hpc b] at hb
    split_ifs at hb with hba
    exact h.full b d ds hb
  · rw [hpc b]
    refine (h.order b).trans ?_
    split_ifs with hb
    · rw [hb, hp]
      rfl
    · rfl

/-! ## The buffer -/

theorem storedBy_put (b : Agent) : (s.put a c).storedBy b = s.storedBy b ++ if a = b then [c] else [] := by
  show ((s.stored ++ [(a, c)]).filter _).map _ = _
  rw [List.filter_append, List.map_append]
  congr 1
  split_ifs with hb
  · rw [List.filter_cons_of_pos (by simpa using hb)]
    rfl
  · rw [List.filter_cons_of_neg (by simpa using hb)]
    rfl

/-- A character goes into the buffer. -/
theorem Inv.put (h : Inv s) (hp : s.pc a = .check c cs) (hw : s.w ≠ (s.r + UART_TX_BUF_SIZE) % WRAP) :
    Inv ((s.put a c).goto a (.start cs)) := by
  have hlk : (s.pc a).locked := by
    rw [hp]
    trivial
  have hpc : ∀ b, ((s.put a c).goto a (.start cs)).pc b = if b = a then .start cs else s.pc b := fun b => goto_pc
  have hl : ((s.put a c).goto a (.start cs)).lock = some a := h.lock_eq hlk
  have hon : ((s.put a c).goto a (.start cs)).onWay = [] := by
    rw [onWay_some hl, hpc a, if_pos rfl]
    rfl
  refine ⟨?_, fun b => ?_, fun b d ds hb => ?_, fun b d ds hb => ?_, fun hno => ?_, fun b => ?_, h.handler⟩
  · obtain ⟨q, n, hq, hs⟩ := h.fifo
    have hlt : UART_TX_BUF_SIZE < WRAP := by norm_num
    have hroom : q.length < UART_TX_BUF_SIZE :=
      lt_of_le_of_ne hq.le fun he => hw ((hq.full_iff hlt).mpr he)
    refine ⟨q ++ [c], n, hq.push ⟨2 ^ 59, by norm_num⟩ hroom, ?_⟩
    show (s.stored ++ [(a, c)]).map Prod.snd = s.wire ++ s.thr.toList ++ _ ++ (q ++ [c])
    rw [hon, List.map_append, hs, h.onWay_eq hlk, hp, ← List.append_assoc]
    rfl
  · rw [hpc b]
    split_ifs with hb
    · rw [hb]
      exact iff_of_true trivial hl
    · exact h.holder b
  · rw [hpc b] at hb
    split_ifs at hb with hba
    exact h.room b d ds hb
  · -- nobody sleeps, since there is room
    rw [hpc b] at hb
    split_ifs at hb with hba
    exact absurd (h.full b d ds hb) hw
  · refine absurd ?_ (hno a)
    rw [hpc a, if_pos rfl]
    exact starting_start
  · show s.written b = (s.put a c).storedBy b ++ _
    rw [hpc b, storedBy_put, h.order b]
    by_cases hb : b = a
    · rw [if_pos hb, if_pos hb.symm, hb, hp, List.append_assoc]
      rfl
    · rw [if_neg hb, if_neg (Ne.symm hb), List.append_nil]

/-- A character is taken from the buffer, and those that wait for room are woken. -/
theorem Inv.get (h : Inv s) (hp : s.pc a = .start cs) (hw : s.w ≠ s.r) (hthr : s.thr = none) :
    Inv (s.get a cs) := by
  have hlk : (s.pc a).locked := by
    rw [hp]
    trivial
  have hpc : ∀ b, (s.get a cs).pc b =
      if b = a then .send (s.buf (s.r % UART_TX_BUF_SIZE)) cs else (s.pc b).wake :=
    Function.update_apply (fun b => (s.pc b).wake) a _
  have hl : (s.get a cs).lock = some a := h.lock_eq hlk
  have hon : (s.get a cs).onWay = [s.buf (s.r % UART_TX_BUF_SIZE)] := by
    rw [onWay_some hl, hpc a, if_pos rfl]
    rfl
  refine ⟨?_, fun b => ?_, fun _ _ _ _ => hthr, fun b d ds hb => ?_, fun hno => ?_, fun b => ?_, h.handler⟩
  · obtain ⟨q, n, hq, hs⟩ := h.fifo
    have hlt : UART_TX_BUF_SIZE < WRAP := by norm_num
    cases q with
    | nil => exact absurd ((hq.eq_iff hlt).mpr rfl).symm hw
    | cons x q =>
      obtain ⟨hx, hq'⟩ := hq.pop ⟨2 ^ 59, by norm_num⟩
      refine ⟨q, n + 1, hq', hs.trans ?_⟩
      rw [hon, hx, h.onWay_eq hlk, hp, hthr]
      show s.wire ++ [] ++ [] ++ x :: q = s.wire ++ s.thr.toList ++ [x] ++ q
      rw [hthr, List.append_nil, List.append_nil, Option.toList_none, List.append_nil, List.append_assoc]
      rfl
  · rw [hpc b]
    split_ifs with hb
    · rw [hb]
      exact iff_of_true trivial hl
    · rw [wake_locked]
      exact h.holder b
  · rw [hpc b] at hb
    split_ifs at hb with hba
    exact absurd hb (wake_ne_asleep _)
  · refine absurd ?_ (hno a)
    rw [hpc a, if_pos rfl]
    exact starting_send
  · show s.written b = s.storedBy b ++ _
    rw [hpc b, h.order b]
    split_ifs with hb
    · rw [hb, hp]
      rfl
    · rw [wake_rest]

/-! ## Calls, the interrupt and the device -/

theorem Inv.write {p : Fin NPROC} (h : Inv s) (hp : s.pc (some p) = .idle) :
    Inv { s.goto (some p) (next cs) with
      written := Function.update s.written (some p) (s.written (some p) ++ cs) } := by
  have hg : Goes (some p) (next cs) s { s.goto (some p) (next cs) with
      written := Function.update s.written (some p) (s.written (some p) ++ cs) } :=
    ⟨rfl, rfl, rfl, rfl, rfl, rfl, rfl⟩
  have hid : ¬ (s.pc (some p)).locked := by
    rw [hp]
    exact id
  refine ⟨hg.fifo h ?_, hg.holder h (.inl ⟨rfl, iff_of_false (next_locked cs) hid⟩), hg.room h fun c ds he => ?_,
    hg.full h fun _ _ he => absurd he next_ne_asleep, hg.goes h ?_ ?_ rfl, fun b => ?_, ?_⟩
  · show (s.lock.elim [] fun b => (Function.update s.pc (some p) (next cs) b).sending) = s.onWay
    cases hl : s.lock with
    | none =>
      rw [onWay_none hl]
      rfl
    | some b =>
      rw [onWay_some hl]
      have hb : b ≠ some p := fun he => hid ((h.holder (some p)).mpr (hl.trans (congrArg some he)))
      show (Function.update s.pc (some p) (next cs) b).sending = _
      rw [Function.update_of_ne hb]
  · apply next_locked cs
    rw [he]
    trivial
  · rw [hp]
    exact id
  · rw [hp]
    exact fun he => by cases he
  · show Function.update s.written (some p) _ b = _
    rw [hg.storedBy]
    by_cases hb : b = some p
    · rw [hb, Function.update_self, hg.self, rest_next, h.order, hp, List.append_assoc]
      rfl
    · rw [Function.update_of_ne hb, hg.other hb]
      exact h.order b
  · have hne : none ≠ some p := fun he => by cases he
    show Function.update s.written (some p) (s.written (some p) ++ cs) none = _
    rw [Function.update_of_ne hne]
    exact h.handler

theorem Inv.interrupt (h : Inv s) (hp : s.pc none = .idle) : Inv { s.goto none .intr with irq := false } := by
  have hg : Goes none .intr s { s.goto none .intr with irq := false } := ⟨rfl, rfl, rfl, rfl, rfl, rfl, rfl⟩
  have hid : ¬ (s.pc none).locked := by
    rw [hp]
    exact id
  refine ⟨hg.fifo h ?_, hg.holder h (.inl ⟨rfl, iff_of_false id hid⟩), hg.room h (fun _ _ he => by cases he),
    hg.full h (fun _ _ he => by cases he), fun _ _ _ => .inr hg.self, hg.order h rfl ?_, h.handler⟩
  · show (s.lock.elim [] fun b => (Function.update s.pc none .intr b).sending) = s.onWay
    cases hl : s.lock with
    | none =>
      rw [onWay_none hl]
      rfl
    | some b =>
      rw [onWay_some hl]
      have hb : b ≠ none := fun he => hid ((h.holder none).mpr (hl.trans (congrArg some he)))
      show (Function.update s.pc none .intr b).sending = _
      rw [Function.update_of_ne hb]
  · rw [hp]
    rfl

theorem Inv.transmit (h : Inv s) (hthr : s.thr = some c) :
    Inv { s with thr := none, irq := true, wire := s.wire ++ [c] } := by
  refine ⟨?_, h.holder, fun _ _ _ _ => rfl, h.full, fun _ _ _ => .inl rfl, h.order, h.handler⟩
  obtain ⟨q, n, hq, hs⟩ := h.fifo
  refine ⟨q, n, hq, hs.trans ?_⟩
  rw [hthr]
  show s.wire ++ [c] ++ s.onWay ++ q = s.wire ++ [c] ++ [] ++ s.onWay ++ q
  rw [List.append_nil]

/-- What the steps of a thread are. -/
theorem run_cases (h : run a s = some t) :
    (∃ c cs, s.pc a = .acquire c cs ∧ s.lock = none ∧ t = { s.goto a (.check c cs) with lock := some a }) ∨
    (∃ c cs, s.pc a = .check c cs ∧ s.w = (s.r + UART_TX_BUF_SIZE) % WRAP ∧
      t = { s.goto a (.asleep c cs) with lock := none }) ∨
    (∃ c cs, s.pc a = .check c cs ∧ s.w ≠ (s.r + UART_TX_BUF_SIZE) % WRAP ∧
      t = (s.put a c).goto a (.start cs)) ∨
    (s.pc a = .intr ∧ s.lock = none ∧ t = { s.goto a (.start []) with lock := some a }) ∨
    (∃ cs, s.pc a = .start cs ∧ (s.w ≠ s.r → s.thr ≠ none) ∧ t = s.leave a cs) ∨
    (∃ cs, s.pc a = .start cs ∧ s.w ≠ s.r ∧ s.thr = none ∧ t = s.get a cs) ∨
    ∃ c cs, s.pc a = .send c cs ∧ t = s.load a c cs := by
  rw [run] at h
  cases hp : s.pc a with
  | idle => rw [hp] at h; cases h
  | asleep c cs => rw [hp] at h; cases h
  | acquire c cs =>
    simp only [hp] at h
    split_ifs at h with hl
    cases h
    exact .inl ⟨c, cs, rfl, hl, rfl⟩
  | check c cs =>
    simp only [hp] at h
    split_ifs at h with hw
    · cases h
      exact .inr (.inl ⟨c, cs, rfl, hw, rfl⟩)
    · cases h
      exact .inr (.inr (.inl ⟨c, cs, rfl, hw, rfl⟩))
  | intr =>
    simp only [hp] at h
    split_ifs at h with hl
    cases h
    exact .inr (.inr (.inr (.inl ⟨rfl, hl, rfl⟩)))
  | start cs =>
    simp only [hp] at h
    split_ifs at h with hw
    · cases h
      exact .inr (.inr (.inr (.inr (.inl ⟨cs, rfl, fun hne => absurd hw hne, rfl⟩))))
    · cases hthr : s.thr with
      | none =>
        rw [hthr] at h
        cases h
        exact .inr (.inr (.inr (.inr (.inr (.inl ⟨cs, rfl, hw, rfl, rfl⟩)))))
      | some c =>
        rw [hthr] at h
        cases h
        refine .inr (.inr (.inr (.inr (.inl ⟨cs, rfl, fun _ he => ?_, rfl⟩))))
        cases he
  | send c cs =>
    simp only [hp] at h
    cases h
    exact .inr (.inr (.inr (.inr (.inr (.inr ⟨c, cs, rfl, rfl⟩)))))

theorem Inv.run (h : Inv s) (hr : run a s = some t) : Inv t := by
  obtain ⟨c, cs, hp, hl, rfl⟩ | ⟨c, cs, hp, hw, rfl⟩ | ⟨c, cs, hp, hw, rfl⟩ | ⟨hp, hl, rfl⟩ |
    ⟨cs, hp, hdone, rfl⟩ | ⟨cs, hp, hw, hthr, rfl⟩ | ⟨c, cs, hp, rfl⟩ := run_cases hr
  · exact h.acquire hp hl
  · exact h.sleep hp hw
  · exact h.put hp hw
  · exact h.handle hp hl
  · exact h.leave hp hdone
  · exact h.get hp hw hthr
  · exact h.send hp

theorem Inv.step (h : Inv s) (hs : step s o = some (.ok t)) : Inv t := by
  cases o with
  | consolewrite p cs =>
    rw [Uart.step] at hs
    split_ifs at hs with hp
    cases hs
    exact h.write hp
  | uartintr =>
    rw [Uart.step] at hs
    split_ifs at hs with hp
    cases hs
    exact h.interrupt hp.2
  | run a =>
    obtain ⟨u, hu, hut⟩ := Option.map_eq_some_iff.mp hs
    cases hut
    exact h.run hu
  | transmit =>
    rw [Uart.step] at hs
    cases hthr : s.thr with
    | none => rw [hthr] at hs; cases hs
    | some c =>
      rw [hthr] at hs
      cases hs
      exact h.transmit hthr

theorem Inv.steps (buf : ℕ → UInt8) (h : Runs.Steps Uart.step (fun _ _ => True) (Uart.init buf) s) : Inv s :=
  h.invariant (Inv.init buf) fun _ _ _ hi _ hs => hi.step hs

/-! ## Progress -/

/-- Nothing can happen but a new call: then everything is sent. -/
theorem Inv.quiet (h : Inv s) (hno : ∀ o : Op, o.isCall = false → Uart.step s o = none) :
    s.wire = s.stored.map Prod.snd ∧ ∀ a, s.pc a = .idle := by
  have hrun : ∀ a, Uart.run a s = none := fun a => Option.map_eq_none_iff.mp (hno (.run a) rfl)
  have hlock : s.lock = none := by
    by_contra hl
    obtain ⟨a, hl⟩ := Option.ne_none_iff_exists'.mp hl
    have hlk := (h.holder a).mpr hl
    have hr := hrun a
    rw [Uart.run] at hr
    cases hp : s.pc a with
    | check c cs =>
      simp only [hp] at hr
      split_ifs at hr
    | start cs =>
      simp only [hp] at hr
      split_ifs at hr
      split at hr <;> cases hr
    | send c cs =>
      simp only [hp] at hr
      cases hr
    | idle => rw [hp] at hlk; exact hlk.elim
    | acquire c cs => rw [hp] at hlk; exact hlk.elim
    | asleep c cs => rw [hp] at hlk; exact hlk.elim
    | intr => rw [hp] at hlk; exact hlk.elim
  -- whoever is not idle waits for room
  have hpc : ∀ a, s.pc a = .idle ∨ ∃ c cs, s.pc a = .asleep c cs := by
    intro a
    have hr := hrun a
    rw [Uart.run] at hr
    cases hp : s.pc a with
    | idle => exact .inl rfl
    | asleep c cs => exact .inr ⟨c, cs, rfl⟩
    | acquire c cs =>
      simp only [hp] at hr
      rw [if_pos hlock] at hr
      cases hr
    | intr =>
      simp only [hp] at hr
      rw [if_pos hlock] at hr
      cases hr
    | check c cs => exact absurd (hp ▸ trivial) (h.none_locked (a := a) hlock)
    | start cs => exact absurd (hp ▸ trivial) (h.none_locked (a := a) hlock)
    | send c cs => exact absurd (hp ▸ trivial) (h.none_locked (a := a) hlock)
  have hthr : s.thr = none := by
    have ht := hno .transmit rfl
    rw [Uart.step] at ht
    cases hthr : s.thr with
    | none => rfl
    | some c =>
      rw [hthr] at ht
      cases ht
  have hhandler : s.pc none = .idle := by
    refine (hpc none).resolve_right fun ⟨c, cs, hp⟩ => ?_
    have ho := h.order none
    rw [h.handler, hp] at ho
    exact absurd (List.append_eq_nil_iff.mp ho.symm).2 (List.cons_ne_nil c cs)
  have hempty : s.w = s.r := by
    by_contra hw
    have hst : ∀ a, ¬ (s.pc a).starting := fun a hst => h.none_locked hlock (starting_locked hst)
    obtain hirq | hp := h.goes hst hw hthr
    · have hi := hno .uartintr rfl
      rw [Uart.step, if_pos ⟨hirq, hhandler⟩] at hi
      cases hi
    · rw [hhandler] at hp
      cases hp
  have hlt : UART_TX_BUF_SIZE < WRAP := by norm_num
  obtain ⟨q, n, hq, hs⟩ := h.fifo
  have hnil : q = [] := (hq.eq_iff hlt).mp hempty.symm
  refine ⟨?_, fun a => (hpc a).resolve_right fun ⟨c, cs, hp⟩ => ?_⟩
  · rw [hs, hthr, onWay_none hlock, hnil]
    simp
  · have hfull := (hq.full_iff hlt).mp (h.full a c cs hp)
    rw [hnil] at hfull
    cases hfull

/-! ## No run goes on for ever -/

/-- What the steps of a thread take from `work`; each of the 64 sleepers whom a character sent wakes up puts 3
back. -/
def Pc.weight : Pc → ℕ
  | .idle => 0
  | .acquire _ cs => 208 * cs.length + 211
  | .check _ cs => 208 * cs.length + 210
  | .asleep _ cs => 208 * cs.length + 208
  | .intr => 5
  | .start cs => 208 * cs.length + 4
  | .send _ cs => 208 * cs.length + 12

/-- The number of characters in the buffer. -/
def queued (s : Uart) : ℕ := (s.w + WRAP - s.r) % WRAP

def work (s : Uart) : ℕ :=
  ∑ a, (s.pc a).weight + 204 * s.queued + 7 * s.thr.toList.length + if s.irq = true then 6 else 0

theorem weight_next (cs : List UInt8) : (next cs).weight ≤ 208 * cs.length + 3 := by
  cases cs with
  | nil => exact Nat.zero_le _
  | cons c cs =>
    show 208 * cs.length + 211 ≤ _
    rw [List.length_cons]
    omega

theorem weight_wake (pc : Pc) : pc.wake.weight ≤ pc.weight + 3 := by
  cases pc with
  | asleep c cs => exact Nat.le_refl _
  | _ => exact Nat.le_add_right _ _

/-- One thread goes on. -/
theorem sum_update (f : Agent → Pc) (a : Agent) (pc : Pc) :
    ∑ b, (Function.update f a pc b).weight + (f a).weight = ∑ b, (f b).weight + pc.weight := by
  rw [← Finset.add_sum_erase _ (fun b => (Function.update f a pc b).weight) (Finset.mem_univ a),
    ← Finset.add_sum_erase _ (fun b => (f b).weight) (Finset.mem_univ a), Function.update_self]
  have he : ∑ b ∈ Finset.univ.erase a, (Function.update f a pc b).weight =
      ∑ b ∈ Finset.univ.erase a, (f b).weight :=
    Finset.sum_congr rfl fun b hb => by rw [Function.update_of_ne (Finset.ne_of_mem_erase hb)]
  rw [he]
  omega

/-- Everybody wakes up, and one thread goes on. -/
theorem sum_get (a : Agent) (pc : Pc) (hp : s.pc a = .start cs) :
    ∑ b, (Function.update (fun b => (s.pc b).wake) a pc b).weight + (s.pc a).weight ≤
      ∑ b, (s.pc b).weight + 195 + pc.weight := by
  have hw : ((s.pc a).wake).weight = (s.pc a).weight := by
    rw [hp]
    rfl
  have hsum : ∑ b, ((s.pc b).wake).weight ≤ ∑ b, (s.pc b).weight + 195 := by
    refine (Finset.sum_le_sum fun b _ => weight_wake (s.pc b)).trans_eq ?_
    rw [Finset.sum_add_distrib, Finset.sum_const, Finset.card_univ, Fintype.card_option, Fintype.card_fin]
    rfl
  have hup := sum_update (fun b => (s.pc b).wake) a pc
  simp only [hw] at hup
  omega

/-- Only a thread goes on. -/
theorem Goes.work {pc : Pc} (h : Goes a pc s t) (hirq : t.irq = s.irq) :
    t.work + (s.pc a).weight = s.work + pc.weight := by
  have hsum := sum_update s.pc a pc
  rw [Uart.work, Uart.work, queued, queued, h.pc, h.w, h.r, h.thr, hirq]
  omega

theorem Inv.queued_put (a : Agent) (c : UInt8) (h : Inv s) (hw : s.w ≠ (s.r + UART_TX_BUF_SIZE) % WRAP) :
    (s.put a c).queued = s.queued + 1 := by
  have hlt : UART_TX_BUF_SIZE < WRAP := by norm_num
  obtain ⟨q, n, hq, -⟩ := h.fifo
  have hroom : q.length < UART_TX_BUF_SIZE :=
    lt_of_le_of_ne hq.le fun he => hw ((hq.full_iff hlt).mpr he)
  have hq' := hq.push (x := c) ⟨2 ^ 59, by norm_num⟩ hroom
  have ht : (s.put a c).queued = (q ++ [c]).length := hq'.ahead hlt
  rw [ht, queued, hq.ahead hlt, List.length_append, List.length_singleton]

theorem Inv.queued_get (a : Agent) (cs : List UInt8) (h : Inv s) (hw : s.w ≠ s.r) : s.queued = (s.get a cs).queued + 1 := by
  have hlt : UART_TX_BUF_SIZE < WRAP := by norm_num
  obtain ⟨q, n, hq, -⟩ := h.fifo
  cases q with
  | nil => exact absurd ((hq.eq_iff hlt).mpr rfl).symm hw
  | cons x q =>
    obtain ⟨-, hq'⟩ := hq.pop ⟨2 ^ 59, by norm_num⟩
    have ht : (s.get a cs).queued = q.length := hq'.ahead hlt
    rw [ht, queued, hq.ahead hlt, List.length_cons]

/-- Every step of a thread takes some of the work. -/
theorem Inv.work_run (h : Inv s) (hr : Uart.run a s = some t) : t.work < s.work := by
  obtain ⟨c, cs, hp, hl, rfl⟩ | ⟨c, cs, hp, hw, rfl⟩ | ⟨c, cs, hp, hw, rfl⟩ | ⟨hp, hl, rfl⟩ |
    ⟨cs, hp, hdone, rfl⟩ | ⟨cs, hp, hw, hthr, rfl⟩ | ⟨c, cs, hp, rfl⟩ := run_cases hr
  · have hg : Goes a (.check c cs) s { s.goto a (.check c cs) with lock := some a } :=
      ⟨rfl, rfl, rfl, rfl, rfl, rfl, rfl⟩
    have hwork := hg.work rfl
    rw [hp, Pc.weight, Pc.weight] at hwork
    omega
  · have hg : Goes a (.asleep c cs) s { s.goto a (.asleep c cs) with lock := none } :=
      ⟨rfl, rfl, rfl, rfl, rfl, rfl, rfl⟩
    have hwork := hg.work rfl
    rw [hp, Pc.weight, Pc.weight] at hwork
    omega
  · have hsum := sum_update s.pc a (.start cs)
    have hq := h.queued_put a c hw
    rw [hp, Pc.weight, Pc.weight] at hsum
    show ∑ b, (Function.update s.pc a (.start cs) b).weight + 204 * (s.put a c).queued + 7 * s.thr.toList.length +
      (if s.irq = true then 6 else 0) < s.work
    rw [hq, work]
    omega
  · have hg : Goes a (.start []) s { s.goto a (.start []) with lock := some a } :=
      ⟨rfl, rfl, rfl, rfl, rfl, rfl, rfl⟩
    have hwork := hg.work rfl
    rw [hp, Pc.weight, Pc.weight, List.length_nil] at hwork
    omega
  · have hg : Goes a (next cs) s (s.leave a cs) := ⟨rfl, rfl, rfl, rfl, rfl, rfl, rfl⟩
    have hwork := hg.work rfl
    have hnext := weight_next cs
    rw [hp, Pc.weight] at hwork
    omega
  · have hsum := sum_get a (.send (s.buf (s.r % UART_TX_BUF_SIZE)) cs) hp
    have hq := h.queued_get a cs hw
    rw [hp, Pc.weight, Pc.weight] at hsum
    show ∑ b, (Function.update (fun b => (s.pc b).wake) a (.send (s.buf (s.r % UART_TX_BUF_SIZE)) cs) b).weight +
      204 * (s.get a cs).queued + 7 * s.thr.toList.length + (if s.irq = true then 6 else 0) < s.work
    rw [work, hq]
    omega
  · have hsum := sum_update s.pc a (.start cs)
    rw [hp, Pc.weight, Pc.weight] at hsum
    show ∑ b, (Function.update s.pc a (.start cs) b).weight + 204 * s.queued + 7 * (some c).toList.length +
      (if s.irq = true then 6 else 0) < s.work
    rw [work, h.room a c cs hp, Option.toList_some, Option.toList_none, List.length_singleton, List.length_nil]
    omega

/-- Every step but a new call takes some of the work. -/
theorem Inv.work_step (h : Inv s) (ho : o.isCall = false) (hs : Uart.step s o = some (.ok t)) :
    t.work < s.work := by
  cases o with
  | consolewrite p cs => cases ho
  | uartintr =>
    rw [Uart.step] at hs
    split_ifs at hs with hp
    cases hs
    have hsum := sum_update s.pc none .intr
    rw [hp.2, Pc.weight, Pc.weight] at hsum
    show ∑ b, (Function.update s.pc none .intr b).weight + 204 * s.queued + 7 * s.thr.toList.length +
      (if false = true then 6 else 0) < s.work
    rw [work, if_pos hp.1, if_neg Bool.false_ne_true]
    omega
  | run a =>
    obtain ⟨u, hu, hut⟩ := Option.map_eq_some_iff.mp hs
    cases hut
    exact h.work_run hu
  | transmit =>
    rw [Uart.step] at hs
    cases hthr : s.thr with
    | none => rw [hthr] at hs; cases hs
    | some c =>
      rw [hthr] at hs
      cases hs
      show ∑ b, (s.pc b).weight + 204 * s.queued + 7 * 0 + (if true = true then 6 else 0) < s.work
      rw [work, hthr, if_pos rfl, Option.toList_some, List.length_singleton]
      split_ifs <;> omega

/-! ## What arrives -/

/-- **The output**: in every run, the device has sent characters in the order in which they were put into the
buffer, and those of a process were put there in the order in which it wrote them, but for those that it has still
to pass on.  Without new calls only finitely many steps are possible, and where none is left, everything is sent. -/
theorem output_arrives (buf : ℕ → UInt8) (h : Runs.Steps step (fun _ _ => True) (Uart.init buf) s) :
    s.wire <+: s.stored.map Prod.snd ∧
    (∀ a, s.written a = s.storedBy a ++ (s.pc a).rest) ∧
    (∃ n, ∀ ls t, Runs.exec step (fun _ o => o.isCall = false) s ls = some t → ls.length ≤ n) ∧
    ((∀ o : Op, o.isCall = false → step s o = none) →
      s.wire = s.stored.map Prod.snd ∧ ∀ a, s.storedBy a = s.written a) := by
  have hi := Inv.steps buf h
  refine ⟨?_, hi.order, ⟨s.work, fun ls t hex => ?_⟩, fun hno => ?_⟩
  · obtain ⟨q, n, -, hs⟩ := hi.fifo
    rw [hs, List.append_assoc, List.append_assoc]
    exact List.prefix_append _ _
  · exact Runs.exec_length_le hi (fun _ _ _ hi ho hs => ⟨hi.step hs, hi.work_step ho hs⟩) hex
  · obtain ⟨hwire, hidle⟩ := hi.quiet hno
    refine ⟨hwire, fun a => ?_⟩
    rw [hi.order a, hidle a]
    exact (List.append_nil _).symm

/-- Two characters; the second is sent by the interrupt handler. -/
theorem output_arrives_two : ∃ s : Uart, Runs.Steps step (fun _ _ => True) (Uart.init fun _ => 0) s ∧
    s.wire = [72, 105] ∧ s.wire <+: s.stored.map Prod.snd := by
  let p : Fin NPROC := ⟨0, by decide⟩
  obtain ⟨s, hs, hw⟩ : ∃ s : Uart, Runs.Steps step (fun _ _ => True) (Uart.init fun _ => 0) s ∧
      s.wire = [72, 105] := Runs.Steps.of_any
    ([.consolewrite p [72, 105]] ++ List.replicate 8 (.run (some p)) ++ [.transmit, .uartintr] ++
      List.replicate 4 (.run none) ++ [.transmit]) (by decide)
  exact ⟨s, hs, hw, (output_arrives _ hs).1⟩

end Uart

end Xv6
