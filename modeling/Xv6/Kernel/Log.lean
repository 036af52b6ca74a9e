import Mathlib.Data.Finset.Card
import Mathlib.Data.List.Nodup
import Xv6.Kernel.Bio
import Xv6.Lib.Replay
import Xv6.Lib.Runs

/-!
# Log — the redo log (`log.c`)

The functions of `log.c`, and the machine `LogSys` that runs them: any number of file-system
operations (`begin_op`, `log_write`, `end_op`), one thread that commits or recovers with one disk
write a step, readers that fill the buffer cache, recycled buffers, and crashes at any moment.

* A buffer is locked from its modification until `log_write` has returned, so the label `log_write`
  carries the new data of the buffer.
* `group` and `committed` are history that no step reads: the writes of the group in progress and
  the groups whose header write has completed.
-/

namespace Xv6

abbrev MAXOPBLOCKS : ℕ := 10
abbrev LOGSIZE : ℕ := MAXOPBLOCKS * 3

/-- The superblock that `mkfs` writes. -/
def mkfsSb : superblock :=
  { magic := 0x10203040, size := 2000, nblocks := 1954, ninodes := 200, nlog := LOGSIZE,
    logstart := 2, inodestart := 32, bmapstart := 45 }

structure LogHeader where
  n : ℕ
  block : ℕ → ℕ

/-- The block numbers in use. -/
def LogHeader.blocks (lh : LogHeader) : List ℕ := (List.range lh.n).map lh.block

structure Log where
  start : ℕ
  size : ℕ
  outstanding : ℤ
  committing : Bool
  lh : LogHeader

/-- The zero-initialised `log`. -/
def Log.zero : Log :=
  { start := 0, size := 0, outstanding := 0, committing := false, lh := ⟨0, fun _ => 0⟩ }

/-! ## The functions of `log.c` -/

/-- One round of `install_trans`: copy log block `tail` to its home location. -/
def install_trans (recovering : Bool) (tail : ℕ) (log : Log) (s : Bufs) : Bufs :=
  let (lbuf, s) := s.bread (log.start + tail + 1)
  let (_, s) := s.bread (log.lh.block tail)
  let s := s.bwrite (log.lh.block tail) lbuf
  if recovering = false then s.bunpin (log.lh.block tail) else s

/-- The header that the block `d` holds.  A negative `n` makes no rounds, like `0`. -/
def diskHeader (d : Block) : LogHeader :=
  { n := (int32 (d.load 0 4)).toNat, block := fun i => d.load (4 + 4 * i) 4 }

def read_head (log : Log) (s : Bufs) : Log × Bufs :=
  let (buf, s) := s.bread log.start
  let lh := diskHeader buf
  ({ log with lh := ⟨lh.n, fun i => if i < lh.n then lh.block i else log.lh.block i⟩ }, s)

/-- The first `n` rounds of the loop of `write_head`. -/
def putBlocks (block : ℕ → ℕ) : ℕ → Block → Block
  | 0, d => d
  | n + 1, d => (putBlocks block n d).store (4 + 4 * n) 4 (block n)

def write_head (log : Log) (s : Bufs) : Bufs :=
  let (buf, s) := s.bread log.start
  s.bwrite log.start (putBlocks log.lh.block log.lh.n (buf.store 0 4 log.lh.n))

/-- `begin_op`; `none` while it sleeps. -/
def begin_op (log : Log) : Option Log :=
  if log.committing then none
  else if LOGSIZE < log.lh.n + (log.outstanding + 1) * MAXOPBLOCKS then none
  else some { log with outstanding := log.outstanding + 1 }

/-- `end_op` up to the commit; the flag is `do_commit`. -/
def end_op (log : Log) : Except Panic (Bool × Log) :=
  let log := { log with outstanding := log.outstanding - 1 }
  if log.committing then .error "log.committing"
  else if log.outstanding = 0 then .ok (true, { log with committing := true })
  else .ok (false, log)

/-- One round of `write_log`: copy block `tail` of the group from the cache to the log. -/
def write_log (tail : ℕ) (log : Log) (s : Bufs) : Bufs :=
  let (_, s) := s.bread (log.start + tail + 1)
  let (src, s) := s.bread (log.lh.block tail)
  s.bwrite (log.start + tail + 1) src

/-- `log_write` on the buffer of block `b`. -/
def log_write (b : ℕ) (log : Log) (s : Bufs) : Except Panic (Log × Bufs) :=
  if LOGSIZE ≤ log.lh.n ∨ log.size - 1 ≤ log.lh.n then .error "too big a transaction"
  else if log.outstanding < 1 then .error "log_write outside of trans"
  else
    let i := log.lh.blocks.idxOf b
    let block := Function.update log.lh.block i b
    if i = log.lh.n then .ok ({ log with lh := ⟨log.lh.n + 1, block⟩ }, s.bpin b)
    else .ok ({ log with lh := ⟨log.lh.n, block⟩ }, s)

/-! ## The machine -/

/-- Where the thread that recovers or commits is. -/
inductive Phase where
  | initlog
  | recover_install (tail : ℕ)
  | recover_clear
  | running
  | write_log (tail : ℕ)
  | write_head
  | install_trans (tail : ℕ)
  | clear
  | finish
  deriving DecidableEq

/-- A write of a block. -/
abbrev Write := ℕ × Block

structure LogSys where
  bufs : Bufs
  log : Log
  phase : Phase
  /-- The operations between `begin_op` and `end_op`, with the blocks each has named. -/
  ops : Finset ℕ
  named : ℕ → Finset ℕ
  group : List Write
  committed : List (List Write)

inductive LogOp where
  | begin_op (p : ℕ)
  | log_write (p b : ℕ) (data : Block)
  | end_op (p : ℕ)
  | bread (b : ℕ)
  | recycle (b : ℕ)
  | advance
  | crash

/-- A block number that file-system code logs: a `uint` outside the log area. -/
def Home (sb : superblock) (b : ℕ) : Prop :=
  b < 2 ^ 32 ∧ (b < sb.logstart ∨ sb.logstart + sb.nlog ≤ b)

instance (sb : superblock) (b : ℕ) : Decidable (Home sb b) := inferInstanceAs (Decidable (_ ∧ _))

/-- The machine after a reset. -/
def boot (disk : ℕ → Block) (committed : List (List Write)) : LogSys :=
  { bufs := Bufs.binit disk, log := Log.zero, phase := .initlog, ops := ∅, named := fun _ => ∅,
    group := [], committed := committed }

/-- One step of the thread in `initlog` or `commit`. -/
def advance (sb : superblock) (s : LogSys) : Option LogSys :=
  match s.phase with
  | .running => none
  | .initlog =>
    let (log, bufs) := read_head { s.log with start := sb.logstart, size := sb.nlog } s.bufs
    some { s with log := log, bufs := bufs, phase := .recover_install 0 }
  | .recover_install tail =>
    if tail < s.log.lh.n then
      some { s with bufs := install_trans true tail s.log s.bufs,
                    phase := .recover_install (tail + 1) }
    else some { s with log := { s.log with lh := ⟨0, s.log.lh.block⟩ }, phase := .recover_clear }
  | .recover_clear => some { s with bufs := write_head s.log s.bufs, phase := .running }
  | .write_log tail =>
    if tail < s.log.lh.n then
      some { s with bufs := write_log tail s.log s.bufs, phase := .write_log (tail + 1) }
    else some { s with phase := .write_head }
  | .write_head =>
    some { s with bufs := write_head s.log s.bufs, phase := .install_trans 0,
                  group := [], committed := s.committed ++ [s.group] }
  | .install_trans tail =>
    if tail < s.log.lh.n then
      some { s with bufs := install_trans false tail s.log s.bufs,
                    phase := .install_trans (tail + 1) }
    else some { s with log := { s.log with lh := ⟨0, s.log.lh.block⟩ }, phase := .clear }
  | .clear => some { s with bufs := write_head s.log s.bufs, phase := .finish }
  | .finish => some { s with log := { s.log with committing := false }, phase := .running }

/-- Recovery is over: `begin_op` can be called. -/
def Phase.up : Phase → Bool
  | .initlog | .recover_install _ | .recover_clear => false
  | _ => true

def logStep (sb : superblock) (s : LogSys) : LogOp → Option (Except Panic LogSys)
  | .begin_op p =>
    if s.phase.up ∧ p ∉ s.ops then
      match begin_op s.log with
      | none => none
      | some log =>
        some (.ok { s with log := log, ops := insert p s.ops, named := Function.update s.named p ∅ })
    else none
  | .log_write p b data =>
    if p ∈ s.ops ∧ Home sb b then
      match log_write b s.log (s.bufs.setData b data) with
      | .error e => some (.error e)
      | .ok (log, bufs) =>
        some (.ok { s with log := log, bufs := bufs, group := s.group ++ [(b, data)],
                           named := Function.update s.named p (insert b (s.named p)) })
    else none
  | .end_op p =>
    if p ∈ s.ops then
      match end_op s.log with
      | .error e => some (.error e)
      | .ok (do_commit, log) =>
        some (.ok { s with log := log, ops := s.ops.erase p,
                           phase := if do_commit = false then s.phase
                             else if 0 < log.lh.n then .write_log 0 else .finish })
    else none
  | .bread b => some (.ok { s with bufs := (s.bufs.bread b).2 })
  | .recycle b => if s.bufs.refcnt b = 0 then some (.ok { s with bufs := s.bufs.recycle b }) else none
  | .advance =>
    match advance sb s with
    | none => none
    | some s => some (.ok s)
  | .crash => some (.ok (boot s.bufs.disk s.committed))

end Xv6
