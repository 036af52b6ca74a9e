import Xv6.Kernel.Exec

/-!
# System — the running system

An event is a system call, a store by user code, an interrupt or a decision of the scheduler, taken
as one step.  A process makes system calls and stores while it is `RUNNING`.  Integer arguments go
through an `int` (`argint`).
-/

namespace Xv6

/-- A call of process `i`. -/
inductive Call where
  | fork
  | exit (status : ℤ)
  | wait (addr : ℕ)
  | waitx (addr addr1 addr2 wtime rtime : ℕ)
  | kill (pid : ℤ)
  | set_priority (pid priority : ℤ)
  | sbrk (n : ℤ)
  | exec (upath uargv : ℕ) (namei : List UInt8 → Option Inode)
  /-- the kernel writes to user memory: `read`, `fstat`, `pipe` -/
  | copyout (dstva : ℕ) (bytes : List UInt8)
  /-- user code stores a byte -/
  | store (va : ℕ) (b : UInt8)
  | sleep (chan : Chan)
  | yield
  /-- `open`, `dup`, `pipe` and `close` -/
  | setFile (fd : Fin NOFILE) (f : Option ℕ)
  | chdir (ip : ℕ)
  /-- a byte of the trapframe: saved registers and return values -/
  | setFrame (off : ℕ) (b : UInt8)

inductive Event where
  | userinit
  | run (i : Fin NPROC)
  | wakeup (chan : Chan)
  | clockintr (me : Option (Fin NPROC))
  /-- another owner of pages takes one, writes to it and gives it back -/
  | kalloc
  | write (pa off : ℕ) (b : UInt8)
  | kfree (pa : ℕ)
  | call (i : Fin NPROC) (c : Call)

variable [Image]

namespace Sys

/-- The caller sleeps where `wait` does not return. -/
def orSleep (i : Fin NPROC) (S : Sys) : Option (ℤ × Sys) → Sys
  | some (_, S) => S
  | none => sleep i (.proc i) S

/-- What a call leaves behind. -/
def call (i : Fin NPROC) (S : Sys) : Call → Except Panic Sys
  | .fork => (fork i S).map Prod.snd
  | .exit status => exit i (int32 status) S
  | .wait addr => (wait i addr S).map (orSleep i S)
  | .waitx addr addr1 addr2 wtime rtime =>
    (sys_waitx i addr addr1 addr2 wtime rtime S).map (orSleep i S)
  | .kill pid => .ok (kill (int32 pid) S).2
  | .set_priority pid priority => .ok (sys_set_priority i (int32 pid) (int32 priority) S).2
  | .sbrk n => (growproc i (int32 n) S).map Prod.snd
  | .exec upath uargv namei => (sys_exec i upath uargv namei S).map Prod.snd
  | .copyout dstva bytes =>
    (Xv6.copyout (S.proc i).pagetable dstva (fun k => bytes.getD k 0) bytes.length S.phys).map
      fun r => { S with phys := r.2 }
  | .store va b =>
    (userStore (S.proc i).pagetable va b S.phys).map fun r => { S with phys := r.2 }
  | .sleep chan => .ok (Xv6.sleep i chan S)
  | .yield => .ok (Xv6.yield i S)
  | .setFile fd f => .ok (S.set i { S.proc i with ofile := Function.update (S.proc i).ofile fd f })
  | .chdir ip => .ok (S.set i { S.proc i with cwd := some ip })
  | .setFrame off b =>
    .ok { S with phys := S.phys.memmove ((S.proc i).trapframe + off % PGSIZE) 1 fun _ => b }

def step (S : Sys) : Event → Option (Except Panic Sys)
  | .userinit => if S.initproc = none then some (Xv6.userinit S) else none
  | .run i => if (S.proc i).state = .RUNNABLE then some (.ok (Xv6.run i S)) else none
  | .wakeup chan => some (.ok (Xv6.wakeup none (some chan) S))
  | .clockintr me => some (.ok (Xv6.clockintr me S))
  | .kalloc =>
    match Xv6.kalloc S.phys with
    | (none, s) => some (.ok { S with phys := s })
    | (some pa, s) => some (.ok { S with phys := s, held := pa ::ₘ S.held })
  | .write pa off b =>
    if pa ∈ S.held then some (.ok { S with phys := S.phys.memmove (pa + off % PGSIZE) 1 fun _ => b })
    else none
  | .kfree pa =>
    if pa ∈ S.held then
      some ((Xv6.kfree pa S.phys).map fun s => { S with phys := s, held := S.held.erase pa })
    else none
  | .call i c => if (S.proc i).state = .RUNNING then some (S.call i c) else none

end Sys

/-! ## A small machine -/

/-- The allocator of this machine has 16 pages. -/
@[reducible] def smallImage : Image :=
  { kend := PHYSTOP - 16 * PGSIZE, trampoline := KERNBASE, base_le := by decide, kend_le := by decide,
    trampoline_lt := by decide }

/-- Its memory after `kinit`. -/
def smallPhys : Phys :=
  match @kinit smallImage fun _ => 0 with
  | .ok s => s
  | .error _ => { mem := fun _ => 0, freelist := [], pte_count := fun _ => 0 }

end Xv6
