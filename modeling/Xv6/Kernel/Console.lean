import Mathlib.Data.Nat.ModEq
import Xv6.Kernel.Pipe
import Xv6.Kernel.Riscv

/-!
# Console — console input (`console.c`)

`consoleintr` runs under `cons.lock` for every character that arrives.  `consoleread` holds the lock
but while it sleeps, so a call is a sequence of critical sections.  `either_copyout` succeeds: the
buffers are accessible.  The echo on the screen and the process list of control-P are left out.
-/

namespace Xv6

abbrev INPUT_BUF_SIZE : ℕ := 128

/-- Control-`x`. -/
def C (x : Char) : UInt8 := x.toUInt8 - '@'.toUInt8

def newline : UInt8 := '\n'.toUInt8

/-- `cons`, without its lock. -/
structure Cons where
  buf : ℕ → UInt8
  r : ℕ
  w : ℕ
  e : ℕ

namespace Cons

def init (buf : ℕ → UInt8) : Cons := { buf := buf, r := 0, w := 0, e := 0 }

/-- `c = cons.buf[cons.r++ % INPUT_BUF_SIZE]`: the character and the console afterwards. -/
def get (s : Cons) : UInt8 × Cons :=
  (s.buf (s.r % INPUT_BUF_SIZE), { s with r := (s.r + 1) % 2 ^ 32 })

/-- `cons.r--`. -/
def unget (s : Cons) : Cons := { s with r := (2 ^ 32 - 1 + s.r) % 2 ^ 32 }

/-- `cons.buf[cons.e++ % INPUT_BUF_SIZE] = c`. -/
def put (s : Cons) (c : UInt8) : Cons :=
  { s with buf := fun k => if k = s.e % INPUT_BUF_SIZE then c else s.buf k,
           e := (s.e + 1) % 2 ^ 32 }

/-- `cons.e--`. -/
def unput (s : Cons) : Cons := { s with e := (2 ^ 32 - 1 + s.e) % 2 ^ 32 }

/-- `cons.e - cons.r`. -/
def used (s : Cons) : ℕ := (s.e + 2 ^ 32 - s.r) % 2 ^ 32

/-- The loop of control-U, which ends after `cons.e - cons.w` rounds at the latest. -/
def killLine : ℕ → Cons → Cons
  | 0, s => s
  | left + 1, s =>
    if s.e ≠ s.w ∧ s.buf (s.unput.e % INPUT_BUF_SIZE) ≠ newline then killLine left s.unput else s

end Cons

/-- A character arrives. -/
def consoleintr (c : UInt8) (s : Cons) : Cons :=
  if c = C 'P' then s
  else if c = C 'U' then s.killLine ((s.e + 2 ^ 32 - s.w) % 2 ^ 32)
  else if c = C 'H' ∨ c = 0x7f then if s.e ≠ s.w then s.unput else s
  else if c ≠ 0 ∧ s.used < INPUT_BUF_SIZE then
    let c := if c = '\r'.toUInt8 then newline else c
    let s := s.put c
    if c = newline ∨ c = C 'D' ∨ s.used = INPUT_BUF_SIZE then { s with w := s.e } else s
  else s

/-- A critical section of `consoleread`, which has `n` of its `target` bytes still to go: how it
ends, the bytes to go then, the characters it has taken, and the console. -/
def consoleread (killed : Bool) (target : ℕ) : ℕ → Cons → Section × ℕ × List UInt8 × Cons
  | 0, s => (.ret target, 0, [], s)
  | n + 1, s =>
    if s.r = s.w then
      if killed then (.ret (-1), n + 1, [], s) else (.sleep, n + 1, [], s)
    else
      let (c, s) := s.get
      if c = C 'D' then
        -- end of file, saved for the next read if this one has something to return
        if n + 1 < target then (.ret (target - (n + 1 : ℕ)), n + 1, [], s.unget)
        else (.ret (target - (n + 1 : ℕ)), n + 1, [c], s)
      else if c = newline then (.ret (target - n), n, [c], s)
      else
        let (e, m, taken, s) := consoleread killed target n s
        (e, m, c :: taken, s)

/-! ## Any number of readers -/

/-- Where a process is; `asleep` is cleared by a wakeup. -/
inductive ConsCall where
  | idle
  | read (target n : ℕ) (asleep : Bool)
  | done (r : ℤ)

/-- `wakeup(&cons.r)`. -/
def ConsCall.wake : ConsCall → ConsCall
  | .read target n _ => .read target n false
  | c => c

/-- The console and the calls of the processes on it, with two histories: the characters that have
arrived or been taken so far, and what the reads have got: each byte delivered, and `C 'D'` for each
read that found an end of file. -/
structure ConsSys where
  cons : Cons
  call : ℕ → ConsCall
  killed : ℕ → Bool
  input : List (UInt8 ⊕ ℕ)
  got : List UInt8

inductive ConsOp where
  | consoleintr (c : UInt8)
  | consoleread (p : ℕ) (n : ℤ)
  | run (p : ℕ)
  | kill (p : ℕ)

def ConsSys.init (buf : ℕ → UInt8) : ConsSys :=
  { cons := Cons.init buf, call := fun _ => .idle, killed := fun _ => false, input := [], got := [] }

/-- One step.  A call can begin when the process has none under way. -/
def consStep (s : ConsSys) : ConsOp → Option (Except Panic ConsSys)
  | .consoleintr c =>
    let cons := consoleintr c s.cons
    -- `wakeup` comes with a new write index
    some (.ok { s with cons := cons, input := s.input ++ [.inl c],
                       call := if cons.w = s.cons.w then s.call else fun q => (s.call q).wake })
  | .consoleread p n =>
    match s.call p with
    | .idle | .done _ =>
      some (.ok { s with call := Function.update s.call p (.read n.toNat n.toNat false) })
    | _ => none
  | .run p =>
    match s.call p with
    | .read target n false =>
      let (e, m, taken, cons) := consoleread (s.killed p) target n s.cons
      let c := match e with
        | .sleep => .read target m true
        | .ret r => .done r
      some (.ok { s with cons := cons, input := s.input ++ [.inr taken.length],
                         got := s.got ++ taken, call := Function.update s.call p c })
    | _ => none
  | .kill p =>
    -- a sleeper is made runnable
    some (.ok { s with killed := Function.update s.killed p true,
                       call := Function.update s.call p (s.call p).wake })

end Xv6
