import Mathlib.Data.Fintype.Option
import Mathlib.Logic.Function.Basic
import Mathlib.Data.Nat.Notation
import Xv6.Kernel.Proc

/-!
# Uart — console output (`uart.c`, `console.c`)

`consolewrite` passes its characters, as far as they can be read, to `uartputc`, one after the other; `uartintr`
goes on with what is left.  Both run `uartstart` under `uart_tx_lock`.  A step is what a thread does up to the next
access to the lock or to a register of the device; the device sends the character in its holding register, and then
asks for an interrupt.  Input is left out, and so is `uartputc_sync`, with which the kernel prints messages and the
echo.
-/

namespace Xv6

abbrev UART_TX_BUF_SIZE : ℕ := 32

namespace Uart

/-- Where a thread is; `cs` are the characters that it has still to pass to `uartputc`. -/
inductive Pc where
  | idle
  /-- `acquire` in `uartputc(c)` -/
  | acquire (c : UInt8) (cs : List UInt8)
  /-- `uartputc(c)` before the test whether the buffer is full -/
  | check (c : UInt8) (cs : List UInt8)
  | asleep (c : UInt8) (cs : List UInt8)
  /-- `acquire` in `uartintr` -/
  | intr
  /-- the loop of `uartstart` -/
  | start (cs : List UInt8)
  /-- `uartstart` before `WriteReg(THR, c)` -/
  | send (c : UInt8) (cs : List UInt8)
  deriving DecidableEq

/-- `wakeup(&uart_tx_r)`. -/
def Pc.wake : Pc → Pc
  | .asleep c cs => .acquire c cs
  | pc => pc

/-- `consolewrite` before its next character. -/
def next : List UInt8 → Pc
  | [] => .idle
  | c :: cs => .acquire c cs

/-- A process, or the interrupt handler. -/
abbrev Agent : Type := Option (Fin NPROC)

end Uart

open Uart in
/-- The buffer, the lock, the device and the threads.  `wire` are the characters that the device has sent; the
histories are the characters that have been put into the buffer, and those that each process has written. -/
structure Uart where
  buf : ℕ → UInt8
  w : ℕ
  r : ℕ
  lock : Option Agent
  pc : Agent → Pc
  thr : Option UInt8
  irq : Bool
  wire : List UInt8
  stored : List (Agent × UInt8)
  written : Agent → List UInt8

namespace Uart

def init (buf : ℕ → UInt8) : Uart :=
  { buf := buf, w := 0, r := 0, lock := none, pc := fun _ => .idle, thr := none, irq := false, wire := [],
    stored := [], written := fun _ => [] }

def goto (s : Uart) (a : Agent) (pc : Pc) : Uart := { s with pc := Function.update s.pc a pc }

/-- `uartstart` returns, and the lock is released. -/
def leave (s : Uart) (a : Agent) (cs : List UInt8) : Uart := { s.goto a (next cs) with lock := none }

/-- `uart_tx_buf[uart_tx_w++ % UART_TX_BUF_SIZE] = c`. -/
def put (s : Uart) (a : Agent) (c : UInt8) : Uart :=
  { s with buf := fun i => if i = s.w % UART_TX_BUF_SIZE then c else s.buf i, w := (s.w + 1) % 2 ^ 64,
           stored := s.stored ++ [(a, c)] }

/-- `c = uart_tx_buf[uart_tx_r++ % UART_TX_BUF_SIZE]`, and the wakeup. -/
def get (s : Uart) (a : Agent) (cs : List UInt8) : Uart :=
  { s with r := (s.r + 1) % 2 ^ 64,
           pc := Function.update (fun b => (s.pc b).wake) a (.send (s.buf (s.r % UART_TX_BUF_SIZE)) cs) }

/-- `WriteReg(THR, c)`. -/
def load (s : Uart) (a : Agent) (c : UInt8) (cs : List UInt8) : Uart := { s.goto a (.start cs) with thr := some c }

/-- The next step of a thread. -/
def run (a : Agent) (s : Uart) : Option Uart :=
  match s.pc a with
  | .idle | .asleep _ _ => none
  | .acquire c cs => if s.lock = none then some { s.goto a (.check c cs) with lock := some a } else none
  | .intr => if s.lock = none then some { s.goto a (.start []) with lock := some a } else none
  | .check c cs =>
    if s.w = (s.r + UART_TX_BUF_SIZE) % 2 ^ 64 then some { s.goto a (.asleep c cs) with lock := none }
    else some ((s.put a c).goto a (.start cs))
  | .start cs =>
    if s.w = s.r then some (s.leave a cs)
    else
      match s.thr with
      | some _ => some (s.leave a cs)
      | none => some (s.get a cs)
  | .send c cs => some (s.load a c cs)

inductive Op where
  | consolewrite (p : Fin NPROC) (cs : List UInt8)
  | uartintr
  | run (a : Agent)
  /-- the device sends a character -/
  | transmit

def Op.isCall : Op → Bool
  | .consolewrite _ _ => true
  | _ => false

def step (s : Uart) : Op → Option (Except String Uart)
  | .consolewrite p cs =>
    if s.pc (some p) = .idle then
      some (.ok { s.goto (some p) (next cs) with
        written := Function.update s.written (some p) (s.written (some p) ++ cs) })
    else none
  | .uartintr =>
    if s.irq = true ∧ s.pc none = .idle then some (.ok { s.goto none .intr with irq := false }) else none
  | .run a => (run a s).map .ok
  | .transmit =>
    match s.thr with
    | some c => some (.ok { s with thr := none, irq := true, wire := s.wire ++ [c] })
    | none => none

end Uart

end Xv6
