import Xv6.Kernel.Cow
import Xv6.Kernel.Pipe

/-!
# PipeRead — `piperead` into a user buffer (`pipe.c`)

The last critical section of `piperead`, with the `copyout` of each byte to the page table of the
process that reads.
-/

namespace Xv6

variable [Image]

/-- The copy loop from index `i` on, `left` bytes to go: the index at which it ends, the pipe and the
memory. -/
def pipereadCopy (pagetable addr : ℕ) : ℕ → ℕ → Pipe → Phys → Except Panic (ℕ × Pipe × Phys)
  | 0, i, pi, s => .ok (i, pi, s)
  | left + 1, i, pi, s =>
    if pi.nread = pi.nwrite then .ok (i, pi, s)
    else
      let (ch, pi) := pi.get
      match copyout pagetable (uint64 (addr + i)) (fun _ => ch) 1 s with
      | .error e => .error e
      | .ok (r, s) => if r = -1 then .ok (i, pi, s) else pipereadCopy pagetable addr left (i + 1) pi s

/-- A critical section of `piperead(pi, addr, n)`: how it ends, the pipe and the memory. -/
def pipereadUser (killed : Bool) (pagetable addr : ℕ) (n : ℤ) (pi : Pipe) (s : Phys) :
    Except Panic (Section × Pipe × Phys) :=
  if pi.nread = pi.nwrite ∧ pi.writeopen then
    if killed then .ok (.ret (-1), pi, s) else .ok (.sleep, pi, s)
  else
    match pipereadCopy pagetable addr n.toNat 0 pi s with
    | .error e => .error e
    | .ok (i, pi, s) => .ok (.ret i, pi, s)

end Xv6
