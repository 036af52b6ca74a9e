import Xv6.Kernel.InodeOps
import Xv6.Kernel.Log

/-!
# Journal — the file system on its log (`fs.c`, `log.c`)

The calls of the inode layer, by any number of processes, over the machine of `log.c`.  A call that changes
the disk runs between `begin_op` and `end_op` of its process.  A crash takes the inode table with it, and
there is no file system until recovery is over.

* The buffers that a call has passed to `log_write` are those at its end: nobody sees them in between.
* `durable` is history that no step reads: the file system when the header of the last group was written.
-/

namespace Xv6

/-- What the calls since `s` have passed to `log_write`, the first one first. -/
def Fs.writes (s s' : Fs) : List Write :=
  (s'.logged.take (s'.logged.length - s.logged.length)).reverse.map fun b => (b, s'.blocks b)

/-- `iinit`: the inode table of a machine that has just been switched on. -/
def Volume.iinit (blocks : ℕ → Block) : Volume :=
  { inode := fun _ =>
      { dev := 0, inum := 0, ref := 0, lock := none, valid := false, d := dinode.zero }
    fs := { blocks := blocks, logged := [] } }

structure Journal where
  vol : Option Volume
  sys : LogSys
  durable : Fs

/-- The calls of `log_write` by process `p`. -/
def logWrites (sb : superblock) (p : ℕ) : List Write → LogSys → Option (Except Panic LogSys)
  | [], s => some (.ok s)
  | (b, data) :: ws, s =>
    match logStep sb s (.log_write p b data) with
    | some (.ok s) => logWrites sb p ws s
    | r => r

namespace Journal

inductive Op where
  | call (p : ℕ) (o : InodeOp)
  | begin_op (p : ℕ)
  | end_op (p : ℕ)
  | bread (b : ℕ)
  | recycle (b : ℕ)
  | advance
  | crash

/-- The machine before its first boot. -/
def start (disk : ℕ → Block) : Journal :=
  { vol := none, sys := boot disk [], durable := { blocks := disk, logged := [] } }

/-- A step of the log alone. -/
def withLog (s : Journal) : Option (Except Panic LogSys) → Option (Except Panic Journal) :=
  Option.map (Except.map fun sys => { s with sys := sys })

variable (sb : superblock)

/-- The file system after the thread that commits or recovers has gone from `s` to `sys`. -/
def advanced (s : Journal) (sys : LogSys) : Journal :=
  match s.sys.phase, s.vol with
  | .recover_clear, _ => { s with vol := some (Volume.iinit fun b => (sys.bufs.bread b).1), sys := sys }
  | .write_head, some v => { s with sys := sys, durable := v.fs }
  | _, _ => { s with sys := sys }

def step (s : Journal) : Op → Option (Except Panic Journal)
  | .call p o =>
    match s.vol with
    | none => none
    | some v =>
      match v.step sb o with
      | none => none
      | some (.error e) => some (.error e)
      | some (.ok v') =>
        (logWrites sb p (v.fs.writes v'.fs) s.sys).map
          (Except.map fun sys => { s with vol := some v', sys := sys })
  | .begin_op p => s.withLog (logStep sb s.sys (.begin_op p))
  | .end_op p => s.withLog (logStep sb s.sys (.end_op p))
  | .bread b => s.withLog (logStep sb s.sys (.bread b))
  | .recycle b => s.withLog (logStep sb s.sys (.recycle b))
  | .advance => (logStep sb s.sys .advance).map (Except.map fun sys => s.advanced sys)
  | .crash => (logStep sb s.sys .crash).map (Except.map fun sys => { s with vol := none, sys := sys })

end Journal

end Xv6
