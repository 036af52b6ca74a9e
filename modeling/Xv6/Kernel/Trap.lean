import Xv6.Kernel.Proc

/-!
# Trap — traps from user space (`trap.c`)

`uservec` jumps to `usertrap` with the user's `ra` still loaded, so that a return of `usertrap` goes
wherever the user program's `ra` points.
-/

namespace Xv6

/-- Offsets of the fields of `struct trapframe` that `usertrapret` writes. -/
abbrev TF_KERNEL_SATP : ℕ := 0
abbrev TF_KERNEL_SP : ℕ := 8
abbrev TF_KERNEL_TRAP : ℕ := 16
abbrev TF_KERNEL_HARTID : ℕ := 32

/-- How `usertrap` is left. -/
inductive TrapExit where
  /-- `usertrapret` enters the user program at `sepc` -/
  | usertrapret (sepc : ℕ)
  /-- `exit(status)`, which does not return -/
  | exit (status : ℤ)
  /-- `return` -/
  | returned
  deriving DecidableEq

/-- What `usertrapret` takes from registers, `p->kstack` and the linker. -/
structure KernelRegs where
  satp : ℕ
  kstack : ℕ
  usertrap : ℕ
  tp : ℕ

section

variable (k : KernelRegs) (i : Fin NPROC)

/-- Assign to a word of the trapframe of process `i`. -/
def Sys.setFrame (S : Sys) (i : Fin NPROC) (off x : ℕ) : Sys :=
  { S with phys := S.phys.setWord ((S.proc i).trapframe + off) x }

def usertrapret (S : Sys) : TrapExit × Sys :=
  let S := S.setFrame i TF_KERNEL_SATP k.satp
  let S := S.setFrame i TF_KERNEL_SP (k.kstack + PGSIZE)
  let S := S.setFrame i TF_KERNEL_TRAP k.usertrap
  let S := S.setFrame i TF_KERNEL_HARTID k.tp
  (.usertrapret (S.phys.mem.load ((S.proc i).trapframe + TF_EPC) 8), S)

/-- The end of `usertrap`, where its branches meet. -/
def usertrapEnd (which_dev : ℕ) (S : Sys) : TrapExit × Sys :=
  if (S.proc i).killed then (.exit (-1), S)
  else usertrapret k i (if which_dev = 2 then yield i S else S)

variable [Image]

/-- A trap of process `i` from user mode; `syscall` and `devintr` are what these functions do. -/
def usertrap (syscall : Sys → Except Panic Sys) (devintr : Sys → ℕ × Sys) (scause sepc stval : ℕ)
    (S : Sys) : Except Panic (TrapExit × Sys) :=
  let S := S.setFrame i TF_EPC sepc
  if scause = 8 then
    if (S.proc i).killed then .ok (.exit (-1), S)
    else do
      let S ← syscall (S.setFrame i TF_EPC (sepc + 4))
      return usertrapEnd k i 0 S
  else if scause = 15 then
    let pt := (S.proc i).pagetable
    let va := PGROUNDDOWN stval
    if MAXVA ≤ va then .ok (.exit (-1), S.set i { S.proc i with killed := true })
    else do
      let (r, s) ← cow_page_fault pt va S.phys
      let S := { S with phys := s }
      if r ≠ 0 then return (.returned, S)
      else return usertrapEnd k i 0 S
  else
    let (which_dev, S) := devintr S
    let S := if which_dev ≠ 0 then S else S.set i { S.proc i with killed := true }
    .ok (usertrapEnd k i which_dev S)

end

end Xv6
