import Xv6.Kernel.Proc

/-!
# Scheduler — one round of `scheduler` with `PBS` (`proc.c`)

A CPU goes through a process table of any length, with `p->lock` of one process kept over the
iterations.  `SchedCpu` is what this CPU sees: the table, the process locks it holds, `c->proc`, and the
operations on process locks that it has made.
-/

namespace Xv6

variable {n : ℕ}

/-- What `scheduler` does to process locks. -/
inductive SchedOp (n : ℕ) where
  | acquire (i : Fin n)
  | release (i : Fin n)
  | swtch (i : Fin n)
  deriving DecidableEq

structure SchedCpu (n : ℕ) where
  table : Fin n → Proc
  held : Fin n → Bool
  proc : Option (Fin n)
  ops : List (SchedOp n)

namespace SchedCpu

/-- A CPU without process locks, before a round. -/
def idle (table : Fin n → Proc) : SchedCpu n :=
  { table := table, held := fun _ => false, proc := none, ops := [] }

def acquire (i : Fin n) (c : SchedCpu n) : Except Panic (SchedCpu n) :=
  if c.held i then .error "acquire"
  else .ok { c with held := Function.update c.held i true, ops := c.ops ++ [.acquire i] }

def release (i : Fin n) (c : SchedCpu n) : Except Panic (SchedCpu n) :=
  if c.held i then
    .ok { c with held := Function.update c.held i false, ops := c.ops ++ [.release i] }
  else .error "release"

/-- `turn` is what becomes of the table until process `i` switches back; `sched` has it hold its own
lock then, and no other. -/
def swtch (turn : Fin n → (Fin n → Proc) → Fin n → Proc) (i : Fin n) (c : SchedCpu n) : SchedCpu n :=
  { c with table := turn i c.table, ops := c.ops ++ [.swtch i] }

end SchedCpu

/-- The comparison of `scheduler`. -/
def Proc.before (p highest : Proc) (min_dp : ℕ) : Prop :=
  p.dp < min_dp ∨ (p.dp = min_dp ∧ p.num_sch < highest.num_sch) ∨
    (p.dp = min_dp ∧ p.num_sch = highest.num_sch ∧ p.ctime < highest.ctime)

instance (p highest : Proc) (min_dp : ℕ) : Decidable (p.before highest min_dp) :=
  inferInstanceAs (Decidable (_ ∨ _))

/-- The local variables of the loop.  `min_dp` is an `int`, but only compared with a `uint`. -/
structure Scan (n : ℕ) where
  cpu : SchedCpu n
  highest : Option (Fin n)
  min_dp : ℕ

/-- One iteration of the loop. -/
def Scan.step (s : Scan n) (p : Fin n) : Except Panic (Scan n) := do
  let c ← s.cpu.acquire p
  if (c.table p).state ≠ .RUNNABLE then
    return { s with cpu := ← c.release p }
  else match s.highest with
    | none => return { cpu := c, highest := some p, min_dp := (c.table p).dp }
    | some highest =>
      if (c.table p).before (c.table highest) s.min_dp then
        return { cpu := ← c.release highest, highest := some p, min_dp := (c.table p).dp }
      else return { s with cpu := ← c.release p }

/-- The loop over the table. -/
def scan (c : SchedCpu n) : Except Panic (Scan n) :=
  (List.finRange n).foldlM Scan.step { cpu := c, highest := none, min_dp := 100 }

/-- What `scheduler` assigns to the process it has chosen. -/
def Proc.dispatch (p : Proc) : Proc :=
  { p with state := .RUNNING, rntime := 0, stime := 0, num_sch := Times.inc p.num_sch }

/-- One round of the endless loop. -/
def schedulerRound (turn : Fin n → (Fin n → Proc) → Fin n → Proc) (c : SchedCpu n) :
    Except Panic (SchedCpu n) := do
  let s ← scan c
  match s.highest with
  | none => return s.cpu
  | some highest =>
    let c := s.cpu
    let table := Function.update c.table highest (c.table highest).dispatch
    let c := { c with table := table, proc := some highest }.swtch turn highest
    { c with proc := none }.release highest

end Xv6
