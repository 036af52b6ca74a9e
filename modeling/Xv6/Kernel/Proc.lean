import Mathlib.Data.Fintype.Basic
import Mathlib.Logic.Function.Basic
import Xv6.Kernel.Cow

/-!
# Proc — the process table (`proc.c`, `sysproc.c`, `trap.c`)

`Sys` is physical memory with the process table; a `struct proc *` is an index of the table.  A
system call of process `i` is one step, so locks and kernel threads do not appear; `wait` is `none`
where the caller goes to sleep.  The table lies in kernel memory, apart from the pages of `Phys`.
-/

namespace Xv6

abbrev NPROC : ℕ := 64
abbrev NOFILE : ℕ := 16
abbrev PBS_DEF_SP : ℕ := 50
abbrev PBS_DEF_RBI : ℕ := 25
abbrev PBS_DEF_DP : ℕ := PBS_DEF_SP + PBS_DEF_RBI

instance : NeZero NPROC := ⟨by decide⟩

inductive procstate where
  | UNUSED | USED | SLEEPING | RUNNABLE | RUNNING | ZOMBIE
  deriving DecidableEq

/-- Spinlocks that users of `sleep` hold; `buf` and `inode` are those inside sleep-locks. -/
inductive Spin where
  | tickslock | cons | uart_tx_lock | vdisk_lock | log
  | pipe (n : ℕ) | buf (n : ℕ) | inode (n : ℕ)
  deriving DecidableEq

/-- What a process sleeps on: the `n`-th channel that lock `k` protects, or a process (`wait`). -/
inductive Chan where
  | proc (i : Fin NPROC)
  | of (k : Spin) (n : ℕ)
  deriving DecidableEq

/-- The fields of `struct proc` that the clock is about. -/
structure Times where
  state : procstate
  rtime : ℕ
  ctime : ℕ
  etime : ℕ
  rntime : ℕ
  stime : ℕ
  wtime : ℕ

namespace Times

/-- A slot that was never used. -/
def zero : Times :=
  { state := .UNUSED, rtime := 0, ctime := 0, etime := 0, rntime := 0, stime := 0, wtime := 0 }

/-- `x++` on a `uint`. -/
def inc (x : ℕ) : ℕ := (x + 1) % 2 ^ 32

/-- One round of `update_time`. -/
def update (p : Times) : Times :=
  match p.state with
  | .RUNNING => { p with rntime := inc p.rntime, rtime := inc p.rtime }
  | .SLEEPING => { p with stime := inc p.stime }
  | .RUNNABLE => { p with wtime := inc p.wtime }
  | _ => p

/-- The waiting time that `waitx` reports: `etime - ctime - rtime`. -/
def waited (p : Times) : ℕ := (2 ^ 32 + (2 ^ 32 + p.etime - p.ctime) % 2 ^ 32 - p.rtime) % 2 ^ 32

end Times

/-- `struct proc`.  Open files and the current directory are numbers of table entries. -/
structure Proc extends Times where
  chan : Option Chan
  killed : Bool
  xstate : ℤ
  pid : ℤ
  parent : Option (Fin NPROC)
  sz : ℕ
  pagetable : ℕ
  trapframe : ℕ
  ofile : Fin NOFILE → Option ℕ
  cwd : Option ℕ
  name : List UInt8
  num_sch : ℕ
  sp : ℕ
  rbi : ℕ
  dp : ℕ

/-- A slot after `procinit`. -/
def Proc.zero : Proc :=
  { Times.zero with chan := none, killed := false, xstate := 0, pid := 0, parent := none, sz := 0,
                    pagetable := 0, trapframe := 0, ofile := fun _ => none, cwd := none, name := [],
                    num_sch := 0, sp := 0, rbi := 0, dp := 0 }

/-- The assignments of `freeproc`; it leaves the open files and the current directory alone. -/
def Proc.free (p : Proc) : Proc :=
  { p with trapframe := 0, pagetable := 0, sz := 0, pid := 0, parent := none, name := [],
           chan := none, killed := false, xstate := 0, state := .UNUSED, rntime := 0, stime := 0,
           wtime := 0, sp := PBS_DEF_SP, rbi := PBS_DEF_RBI, dp := PBS_DEF_DP, num_sch := 0 }

/-- The times and priorities that `allocproc` sets. -/
def Proc.fresh (p : Proc) (ticks : ℕ) : Proc :=
  { p with rtime := 0, etime := 0, ctime := ticks, rntime := 0, stime := 0, wtime := 0,
           num_sch := 0, sp := PBS_DEF_SP, rbi := PBS_DEF_RBI, dp := PBS_DEF_DP }

/-- `past` is the word behind the table, where `proc[NPROC].sp` would be; `held` are the pages of
callers of `kalloc` other than the functions below. -/
structure Sys where
  phys : Phys
  proc : Fin NPROC → Proc
  initproc : Option (Fin NPROC)
  nextpid : ℤ
  ticks : ℕ
  past : ℕ
  held : Multiset ℕ

namespace Sys

/-- After `kinit` and `procinit`. -/
def boot (phys : Phys) : Sys :=
  { phys := phys, proc := fun _ => Proc.zero, initproc := none, nextpid := 1, ticks := 0, past := 0,
    held := 0 }

/-- Assign to fields of process `i`. -/
def set (S : Sys) (i : Fin NPROC) (p : Proc) : Sys := { S with proc := Function.update S.proc i p }

end Sys

namespace Phys

/-- Assign to a `uint64` at address `a`. -/
def setWord (s : Phys) (a x : ℕ) : Phys := { s with mem := s.mem.store a 8 x }

end Phys

/-- Offsets of the fields of `struct trapframe`. -/
abbrev TF_EPC : ℕ := 24
abbrev TF_SP : ℕ := 48
abbrev TF_A0 : ℕ := 112
abbrev TF_A1 : ℕ := 120
abbrev TF_SIZE : ℕ := 288

/-- The sum of a `uint64` and an `int`, as a `uint64`. -/
def addInt (sz : ℕ) (n : ℤ) : ℕ := ((sz + n) % 2 ^ 64).toNat

/-- The four bytes of an `int`. -/
def intBytes (x : ℤ) (i : ℕ) : UInt8 := UInt8.ofNat ((x % 2 ^ 32).toNat / 256 ^ i)

variable [Image]

/-! ## Page tables of processes -/

/-- An empty page table with trampoline and trapframe, `0` if memory is short. -/
def proc_pagetable (trapframe : ℕ) (s : Phys) : Except Panic (ℕ × Phys) :=
  match uvmcreate s with
  | (none, s) => .ok (0, s)
  | (some pagetable, s) => do
    let (r, s) ← mappages pagetable TRAMPOLINE PGSIZE Image.trampoline (PTE_R ||| PTE_X) s
    if r < 0 then
      let s ← uvmfree pagetable 0 s
      return (0, s)
    else
      let (r, s) ← mappages pagetable TRAPFRAME PGSIZE trapframe (PTE_R ||| PTE_W) s
      if r < 0 then
        let s ← uvmunmap pagetable TRAMPOLINE 1 false s
        let s ← uvmfree pagetable 0 s
        return (0, s)
      else return (pagetable, s)

def proc_freepagetable (pagetable sz : ℕ) (s : Phys) : Except Panic Phys := do
  let s ← uvmunmap pagetable TRAMPOLINE 1 false s
  let s ← uvmunmap pagetable TRAPFRAME 1 false s
  uvmfree pagetable sz s

/-! ## Allocation -/

def freeproc (i : Fin NPROC) (S : Sys) : Except Panic Sys := do
  let p := S.proc i
  let s ← (if p.trapframe ≠ 0 then kfree p.trapframe S.phys else .ok S.phys : Except Panic Phys)
  let s ← (if p.pagetable ≠ 0 then proc_freepagetable p.pagetable p.sz s else .ok s :
    Except Panic Phys)
  return { S with phys := s }.set i p.free

/-- The first process with the property, in the order of the table. -/
def findProc (f : Fin NPROC → Bool) : Option (Fin NPROC) := (List.finRange NPROC).find? f

/-- A process with trapframe and page table, `none` for the null pointer. -/
def allocproc (S : Sys) : Except Panic (Option (Fin NPROC) × Sys) :=
  match findProc fun i => (S.proc i).state = .UNUSED with
  | none => .ok (none, S)
  | some i =>
    let p := { S.proc i with pid := S.nextpid, state := .USED }
    let S := { S with nextpid := int32 (S.nextpid + 1) }
    match kalloc S.phys with
    | (none, s) => do
      let S ← freeproc i ({ S with phys := s }.set i { p with trapframe := 0 })
      return (none, S)
    | (some trapframe, s) => do
      let p := { p with trapframe := trapframe }
      let (pagetable, s) ← proc_pagetable trapframe s
      let S := { S with phys := s }.set i { p with pagetable := pagetable }
      if pagetable = 0 then
        let S ← freeproc i S
        return (none, S)
      else return (some i, S.set i ((S.proc i).fresh S.ticks))

/-- The inode of the root directory, the first that is looked up. -/
abbrev ROOTINODE : ℕ := 0

/-- `user/initcode.S`, assembled. -/
def initcode : List UInt8 :=
  [0x17, 0x05, 0x00, 0x00, 0x13, 0x05, 0x45, 0x02,
   0x97, 0x05, 0x00, 0x00, 0x93, 0x85, 0x35, 0x02,
   0x93, 0x08, 0x70, 0x00, 0x73, 0x00, 0x00, 0x00,
   0x93, 0x08, 0x20, 0x00, 0x73, 0x00, 0x00, 0x00,
   0xef, 0xf0, 0x9f, 0xff, 0x2f, 0x69, 0x6e, 0x69,
   0x74, 0x00, 0x00, 0x24, 0x00, 0x00, 0x00, 0x00,
   0x00, 0x00, 0x00, 0x00]

/-- The name `initcode` of the first process. -/
def initname : List UInt8 := [105, 110, 105, 116, 99, 111, 100, 101]

/-- The first user process, with the program `initcode`. -/
def userinit (S : Sys) : Except Panic Sys := do
  let (o, S) ← allocproc S
  match o with
  | none => .error "userinit: null pointer"
  | some i =>
    let p := S.proc i
    match kalloc S.phys with
    | (none, _) => .error "uvmfirst: null pointer"
    | (some mem, s) => do
      let (r, s) ← mappages p.pagetable 0 PGSIZE mem (PTE_W ||| PTE_R ||| PTE_X ||| PTE_U)
        (s.memset mem PGSIZE 0)
      let s := s.memmove mem initcode.length (fun k => initcode.getD k 0)
      let s := (s.setWord (p.trapframe + TF_EPC) 0).setWord (p.trapframe + TF_SP) PGSIZE
      -- `uvmfirst` does not look at the result of `mappages`: on failure it still holds the page
      let held := if r < 0 then mem ::ₘ S.held else S.held
      return { S with phys := s, initproc := some i, held := held }.set i
        { p with sz := PGSIZE, name := initname, cwd := some ROOTINODE, state := .RUNNABLE }

/-! ## Scheduling -/

/-- `scheduler` switches to process `i`, and `sleep` tidies up. -/
def run (i : Fin NPROC) (S : Sys) : Sys :=
  S.set i { S.proc i with state := .RUNNING, rntime := 0, stime := 0,
                          num_sch := Times.inc (S.proc i).num_sch, chan := none }

def yield (i : Fin NPROC) (S : Sys) : Sys := S.set i { S.proc i with state := .RUNNABLE }

def sleep (i : Fin NPROC) (chan : Chan) (S : Sys) : Sys :=
  S.set i { S.proc i with chan := some chan, state := .SLEEPING }

/-- `me` is `myproc()`. -/
def wakeup (me : Option (Fin NPROC)) (chan : Option Chan) (S : Sys) : Sys :=
  { S with proc := fun j =>
      if some j ≠ me ∧ (S.proc j).state = .SLEEPING ∧ (S.proc j).chan = chan then
        { S.proc j with state := .RUNNABLE }
      else S.proc j }

/-- A quotient of two `int`s; the hardware's result of a division by zero is `-1`. -/
def divInt (a b : ℤ) : ℤ := if b = 0 then -1 else int32 (a.tdiv b)

/-- The new `rbi` and `dp` that `clockintr` computes. -/
def Proc.rate (p : Proc) : Proc :=
  let rbi : ℤ :=
    if p.rntime = 0 ∧ p.wtime = 0 ∧ p.stime = 0 then PBS_DEF_RBI
    else
      let num := int32 (3 * p.rntime - p.stime - p.wtime)
      let den := int32 (p.rntime + p.stime + p.wtime + 1)
      if 0 > divInt (int32 (num * 50)) den then 0 else divInt (int32 (num * 50)) den
  let p := { p with rbi := (rbi % 2 ^ 32).toNat }
  { p with dp := if 100 < (p.sp + p.rbi) % 2 ^ 32 then 100 else (p.sp + p.rbi) % 2 ^ 32 }

/-- `clockintr` with `update_time`; `me` is the process that was interrupted. -/
def clockintr (me : Option (Fin NPROC)) (S : Sys) : Sys :=
  let S := { S with ticks := Times.inc S.ticks }
  let S := { S with proc := fun j => { S.proc j with toTimes := (S.proc j).toTimes.update } }
  let S := { S with proc := fun j =>
    if (S.proc j).state = .UNUSED then S.proc j else (S.proc j).rate }
  wakeup me (some (.of .tickslock 0)) S

/-! ## System calls -/

def growproc (i : Fin NPROC) (n : ℤ) (S : Sys) : Except Panic (ℤ × Sys) :=
  let p := S.proc i
  if 0 < n then do
    let (sz, s) ← uvmalloc p.pagetable p.sz (addInt p.sz n) PTE_W S.phys
    if sz = 0 then return (-1, { S with phys := s })
    else return (0, { S with phys := s }.set i { p with sz := sz })
  else if n < 0 then do
    let (sz, s) ← uvmdealloc p.pagetable p.sz (addInt p.sz n) S.phys
    return (0, { S with phys := s }.set i { p with sz := sz })
  else .ok (0, S)

def fork (i : Fin NPROC) (S : Sys) : Except Panic (ℤ × Sys) := do
  let (o, S) ← allocproc S
  match o with
  | none => return (-1, S)
  | some j =>
    let p := S.proc i
    let np := S.proc j
    let (r, s) ← uvmcopy p.pagetable np.pagetable p.sz S.phys
    if r < 0 then
      let S ← freeproc j { S with phys := s }
      return (-1, S)
    else
      let s := s.memmove np.trapframe TF_SIZE (fun k => s.mem (p.trapframe + k))
      let s := s.setWord (np.trapframe + TF_A0) 0
      return (np.pid, { S with phys := s }.set j
        { np with sz := p.sz, ofile := p.ofile, cwd := p.cwd, name := p.name, parent := some i,
                  state := .RUNNABLE })

/-- Pass the children of `i` to init. -/
def reparent (i : Fin NPROC) (S : Sys) : Sys :=
  let T := { S with proc := fun j =>
    if (S.proc j).parent = some i then { S.proc j with parent := S.initproc } else S.proc j }
  if (findProc fun j => (S.proc j).parent = some i).isSome then
    wakeup (some i) (S.initproc.map .proc) T
  else T

def exit (i : Fin NPROC) (status : ℤ) (S : Sys) : Except Panic Sys :=
  if S.initproc = some i then .error "init exiting"
  else
    let S := S.set i { S.proc i with ofile := fun _ => none, cwd := none }
    let S := reparent i S
    let S := wakeup (some i) ((S.proc i).parent.map .proc) S
    .ok (S.set i { S.proc i with xstate := status, state := .ZOMBIE, etime := S.ticks })

/-- The first child of `i` that has exited. -/
def zombieChild (i : Fin NPROC) (S : Sys) : Option (Fin NPROC) :=
  findProc fun j => (S.proc j).parent = some i ∧ (S.proc j).state = .ZOMBIE

/-- One round of the loop of `wait` or `waitx`; `none` where the caller sleeps. -/
def waitRound (i : Fin NPROC) (addr : ℕ) (S : Sys) : Except Panic (Option (ℤ × Sys)) :=
  match zombieChild i S with
  | some j => do
    let pp := S.proc j
    let (r, s) ← (if addr ≠ 0 then
        copyout (S.proc i).pagetable addr (intBytes pp.xstate) 4 S.phys
      else .ok (0, S.phys) : Except Panic (ℤ × Phys))
    if r < 0 then return some (-1, { S with phys := s })
    else
      let S ← freeproc j { S with phys := s }
      return some (pp.pid, S)
  | none =>
    match findProc fun j => (S.proc j).parent = some i with
    | none => .ok (some (-1, S))
    | some _ => if (S.proc i).killed then .ok (some (-1, S)) else .ok none

def wait (i : Fin NPROC) (addr : ℕ) (S : Sys) : Except Panic (Option (ℤ × Sys)) :=
  waitRound i addr S

/-- `wtime` and `rtime` are what the pointers refer to. -/
def waitx (i : Fin NPROC) (addr wtime rtime : ℕ) (S : Sys) :
    Except Panic (Option ((ℤ × ℕ × ℕ) × Sys)) := do
  let times := match zombieChild i S with
    | some j => ((S.proc j).waited, (S.proc j).rtime)
    | none => (wtime, rtime)
  match ← waitRound i addr S with
  | none => return none
  | some (r, S) => return some ((r, times), S)

/-- `wtime` and `rtime` are the values of the uninitialised local variables. -/
def sys_waitx (i : Fin NPROC) (addr addr1 addr2 wtime rtime : ℕ) (S : Sys) :
    Except Panic (Option (ℤ × Sys)) := do
  match ← waitx i addr wtime rtime S with
  | none => return none
  | some ((ret, wtime, rtime), S) =>
    let p := S.proc i
    let (r, s) ← copyout p.pagetable addr1 (intBytes wtime) 4 S.phys
    if r < 0 then return some (-1, { S with phys := s })
    else
      let (r, s) ← copyout p.pagetable addr2 (intBytes rtime) 4 s
      if r < 0 then return some (-1, { S with phys := s })
      else return some (ret, { S with phys := s })

def kill (pid : ℤ) (S : Sys) : ℤ × Sys :=
  match findProc fun j => (S.proc j).pid = pid with
  | some j =>
    let p := { S.proc j with killed := true }
    (0, S.set j { p with state := if p.state = .SLEEPING then .RUNNABLE else p.state })
  | none => (-1, S)

/-- When no process has the pid, the loop ends at `proc[NPROC]`. -/
def sys_set_priority (i : Fin NPROC) (pid priority : ℤ) (S : Sys) : ℤ × Sys :=
  if priority < 0 ∨ 100 < priority then (-1, S)
  else
    let (old_sp, S) := match findProc fun j => (S.proc j).pid = pid with
      | some j => (int32 (S.proc j).sp, S.set j { S.proc j with sp := priority.toNat })
      | none => (int32 S.past, { S with past := priority.toNat })
    if priority < old_sp then (old_sp, yield i S) else (old_sp, S)

end Xv6
