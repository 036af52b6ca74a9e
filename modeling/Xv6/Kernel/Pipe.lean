import Mathlib.Algebra.Group.Nat.Defs
import Mathlib.Data.Int.Notation
import Mathlib.Data.List.Basic
import Mathlib.Data.Nat.Notation
import Mathlib.Logic.Function.Basic

/-!
# Pipe — pipes (`pipe.c`)

`pipewrite` and `piperead` hold `pi->lock` but while they sleep, so a call is a sequence of critical
sections: one ends where the call sleeps or returns, the next begins when it has been woken up and
has the lock again.  `copyin` and `copyout` succeed: user buffers are accessible.  That the page of
the pipe is freed once both ends are closed is left out: a call keeps its end open.
-/

namespace Xv6

abbrev PIPESIZE : ℕ := 512

/-- `struct pipe`, without its lock. -/
structure Pipe where
  data : ℕ → UInt8
  nread : ℕ
  nwrite : ℕ
  readopen : Bool
  writeopen : Bool

namespace Pipe

/-- After `pipealloc`, in a page with the contents `data`. -/
def alloc (data : ℕ → UInt8) : Pipe :=
  { data := data, nread := 0, nwrite := 0, readopen := true, writeopen := true }

/-- `pi->data[pi->nwrite++ % PIPESIZE] = ch`. -/
def put (pi : Pipe) (ch : UInt8) : Pipe :=
  { pi with data := fun k => if k = pi.nwrite % PIPESIZE then ch else pi.data k,
            nwrite := (pi.nwrite + 1) % 2 ^ 32 }

/-- `ch = pi->data[pi->nread++ % PIPESIZE]`: the byte and the pipe afterwards. -/
def get (pi : Pipe) : UInt8 × Pipe :=
  (pi.data (pi.nread % PIPESIZE), { pi with nread := (pi.nread + 1) % 2 ^ 32 })

/-- `pi->nwrite == pi->nread + PIPESIZE`. -/
def full (pi : Pipe) : Bool := pi.nwrite == (pi.nread + PIPESIZE) % 2 ^ 32

end Pipe

/-- How a critical section of `pipewrite` or `piperead` ends. -/
inductive Section where
  | sleep
  | ret (r : ℤ)

/-- The loop of `pipewrite` from index `i` on, `left` bytes to go: how it ends, the index, the bytes
it has stored, and the pipe. -/
def pipewriteLoop (killed : Bool) (src : ℕ → UInt8) : ℕ → ℕ → Pipe → Section × ℕ × List UInt8 × Pipe
  | 0, i, pi => (.ret i, i, [], pi)
  | left + 1, i, pi =>
    if pi.readopen = false ∨ killed then (.ret (-1), i, [], pi)
    else if pi.full then (.sleep, i, [], pi)
    else
      let (e, j, bytes, pi) := pipewriteLoop killed src left (i + 1) (pi.put (src i))
      (e, j, src i :: bytes, pi)

/-- The copy loop of `piperead`, `left` bytes to go: the bytes delivered, and the pipe. -/
def pipereadLoop : ℕ → Pipe → List UInt8 × Pipe
  | 0, pi => ([], pi)
  | left + 1, pi =>
    if pi.nread = pi.nwrite then ([], pi)
    else
      let (bytes, pi') := pipereadLoop left pi.get.2
      (pi.get.1 :: bytes, pi')

/-- A critical section of `piperead`: how it ends, the bytes delivered, and the pipe. -/
def pipereadSection (killed : Bool) (n : ℤ) (pi : Pipe) : Section × List UInt8 × Pipe :=
  if pi.nread = pi.nwrite ∧ pi.writeopen then
    if killed then (.ret (-1), [], pi) else (.sleep, [], pi)
  else
    let (bytes, pi) := pipereadLoop n.toNat pi
    (.ret bytes.length, bytes, pi)

/-! ## Any number of calls on one pipe -/

/-- Where a process is; `asleep` is cleared by a wakeup. -/
inductive PipeCall where
  | idle
  | write (n : ℤ) (src : ℕ → UInt8) (i : ℕ) (asleep : Bool)
  | read (n : ℤ) (asleep : Bool)
  | done (r : ℤ)

namespace PipeCall

/-- `wakeup(&pi->nwrite)`. -/
def wakeWriter : PipeCall → PipeCall
  | .write n src i _ => .write n src i false
  | c => c

/-- `wakeup(&pi->nread)`. -/
def wakeReader : PipeCall → PipeCall
  | .read n _ => .read n false
  | c => c

end PipeCall

/-- A pipe, the calls of the processes on it, and histories: the bytes that writes have stored, those of
them that are from the last `pipewrite` of each process, and the bytes that reads have delivered. -/
structure PipeSys where
  pipe : Pipe
  call : ℕ → PipeCall
  killed : ℕ → Bool
  stored : List UInt8
  wrote : ℕ → List UInt8
  delivered : List UInt8

inductive PipeOp where
  | pipewrite (p : ℕ) (n : ℤ) (src : ℕ → UInt8)
  | piperead (p : ℕ) (n : ℤ)
  | run (p : ℕ)
  | kill (p : ℕ)
  | pipeclose (writable : Bool)

/-- A new pipe. -/
def PipeSys.init (data : ℕ → UInt8) : PipeSys :=
  { pipe := Pipe.alloc data, call := fun _ => .idle, killed := fun _ => false, stored := [],
    wrote := fun _ => [], delivered := [] }

/-- Process `p` runs one critical section of its call. -/
def runSection (p : ℕ) (s : PipeSys) : Option PipeSys :=
  match s.call p with
  | .write n src i false =>
    let (e, j, bytes, pi) := pipewriteLoop (s.killed p) src (n.toNat - i) i s.pipe
    let s := { s with pipe := pi, stored := s.stored ++ bytes,
                      wrote := Function.update s.wrote p (s.wrote p ++ bytes) }
    match e with
    | .sleep =>
      some { s with call := Function.update (fun q => (s.call q).wakeReader) p (.write n src j true) }
    | .ret r =>
      -- `return -1` does not wake the readers up
      if r = -1 then some { s with call := Function.update s.call p (.done r) }
      else some { s with call := Function.update (fun q => (s.call q).wakeReader) p (.done r) }
  | .read n false =>
    let (e, bytes, pi) := pipereadSection (s.killed p) n s.pipe
    let s := { s with pipe := pi, delivered := s.delivered ++ bytes }
    match e with
    | .sleep => some { s with call := Function.update s.call p (.read n true) }
    | .ret r =>
      if r = -1 then some { s with call := Function.update s.call p (.done r) }
      else some { s with call := Function.update (fun q => (s.call q).wakeWriter) p (.done r) }
  | _ => none

/-- One step.  A call can begin when the process has none under way. -/
def pipeStep (s : PipeSys) : PipeOp → Option (Except String PipeSys)
  | .pipewrite p n src =>
    match s.call p with
    | .idle | .done _ =>
      some (.ok { s with call := Function.update s.call p (.write n src 0 false),
                         wrote := Function.update s.wrote p [] })
    | _ => none
  | .piperead p n =>
    match s.call p with
    | .idle | .done _ => some (.ok { s with call := Function.update s.call p (.read n false) })
    | _ => none
  | .run p => (runSection p s).map .ok
  | .kill p =>
    -- a sleeper is made runnable
    some (.ok { s with killed := Function.update s.killed p true,
                       call := Function.update s.call p (s.call p).wakeReader.wakeWriter })
  | .pipeclose writable =>
    if writable then
      some (.ok { s with pipe := { s.pipe with writeopen := false },
                         call := fun q => (s.call q).wakeReader })
    else
      some (.ok { s with pipe := { s.pipe with readopen := false },
                         call := fun q => (s.call q).wakeWriter })

end Xv6
