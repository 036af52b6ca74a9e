import Mathlib.Data.Nat.Notation
import Mathlib.Logic.Function.Basic
import Xv6.Kernel.Proc

/-!
# Clock — the tick counter and the times of processes (`trap.c`, `proc.c`)

`clockintr` advances `ticks` and then takes each process lock once (`update_time`); other CPUs read
`ticks` without `tickslock` in the meantime.  A step is the part of a function that runs under one
process lock, or the increment of `ticks`.  The times are `uint`s.
-/

namespace Xv6

/-- `scan` is the slot that `update_time` comes to next, if a tick is under way. -/
structure ClockSys where
  ticks : ℕ
  scan : Option ℕ
  proc : Fin NPROC → Times

inductive ClockOp where
  | tick
  | update_time
  | allocproc (i : Fin NPROC)
  | fork (i : Fin NPROC)
  | schedule (i : Fin NPROC)
  | yield (i : Fin NPROC)
  | sleep (i : Fin NPROC)
  | wakeup (i : Fin NPROC)
  | exit (i : Fin NPROC)
  | freeproc (i : Fin NPROC)

namespace ClockSys

def boot : ClockSys := { ticks := 0, scan := none, proc := fun _ => Times.zero }

def set (s : ClockSys) (i : Fin NPROC) (p : Times) : ClockSys :=
  { s with proc := Function.update s.proc i p }

/-- Process `i` goes from one of the states `f` to the entry `p`. -/
def move (s : ClockSys) (i : Fin NPROC) (f : List procstate) (p : Times) :
    Option (Except String ClockSys) :=
  if (s.proc i).state ∈ f then some (.ok (s.set i p)) else none

end ClockSys

open ClockSys in
def clockStep (s : ClockSys) : ClockOp → Option (Except String ClockSys)
  | .tick =>
    match s.scan with
    | none => some (.ok { s with ticks := Times.inc s.ticks, scan := some 0 })
    | some _ => none
  | .update_time =>
    match s.scan with
    | none => none
    | some j =>
      if h : j < NPROC then
        some (.ok { s.set ⟨j, h⟩ (s.proc ⟨j, h⟩).update with scan := some (j + 1) })
      else some (.ok { s with scan := none })
  | .allocproc i =>
    move s i [.UNUSED] { s.proc i with state := .USED, rtime := 0, etime := 0, ctime := s.ticks,
                                       rntime := 0, stime := 0, wtime := 0 }
  | .fork i => move s i [.USED] { s.proc i with state := .RUNNABLE }
  | .schedule i => move s i [.RUNNABLE] { s.proc i with state := .RUNNING, rntime := 0, stime := 0 }
  | .yield i => move s i [.RUNNING] { s.proc i with state := .RUNNABLE }
  | .sleep i => move s i [.RUNNING] { s.proc i with state := .SLEEPING }
  | .wakeup i => move s i [.SLEEPING] { s.proc i with state := .RUNNABLE }
  | .exit i => move s i [.RUNNING] { s.proc i with state := .ZOMBIE, etime := s.ticks }
  | .freeproc i =>
    move s i [.USED, .ZOMBIE] { s.proc i with state := .UNUSED, rntime := 0, stime := 0, wtime := 0 }

end Xv6
