import Xv6.Kernel.Proc
import Xv6.User.Umalloc

/-!
# Sbrk — `malloc` with the system call under it (`umalloc.c`, `sys_sbrk`, `growproc`)

A process of `sz` bytes owns the addresses below `sz`, and their pages are mapped; a call that writes to
another page does not return (`Halt.fault`), whatever `usertrap` makes of the fault.  `sbrk` takes an `int`:
the number of bytes that `morecore` asks for is cut to 32 bits and gets a sign.  `avail newsz` says whether
the kernel has the pages to grow to `newsz`.
-/

namespace Xv6.Umalloc

/-- The heap of a process of `sz` bytes. -/
structure Process extends Heap where
  sz : ℕ

/-- How a call ends that does not return: a loop has no fuel, or a store faults when the process has `sz`
bytes. -/
inductive Halt where
  | fuel
  | fault (sz : ℕ)

namespace Process

/-- `growproc`, as far as the size goes; `none` is an error. -/
def growproc (avail : ℕ → Bool) (sz : ℕ) (n : ℤ) : Option ℕ :=
  let newsz := addInt sz n
  if 0 < n then
    let newsz := if newsz < sz then sz else if avail newsz then newsz else 0
    if newsz = 0 then none else some newsz
  else if n < 0 then some (if sz ≤ newsz then sz else newsz)
  else some sz

/-- The answer of `sbrk`, and the size after it. -/
def sbrk (avail : ℕ → Bool) (sz n : ℕ) : Option ℕ × ℕ :=
  (growproc avail sz (int32 n)).elim (none, sz) fun newsz => (some sz, newsz)

/-- The page of the address is mapped. -/
def mapped (sz a : ℕ) : Bool := a < PGROUNDUP sz

/-- What `morecore` does with the answer of `sbrk`.  The write to `hp->s.size` is to the bytes `8 … 11`. -/
def enter (fuel : ℕ) (s : Process) (nu : ℕ) : Option ℕ × ℕ → Except Halt (ℕ × Process)
  | (none, sz) => .ok (0, ⟨s.toHeap, sz⟩)
  | (some p, sz) =>
    if mapped sz (p + 11) then
      let h := { s.toHeap with mem := setSize s.mem p nu, chunks := (p, nu * HEADER) :: s.chunks }
      match free fuel h (p + HEADER) with
      | none => .error .fuel
      | some h => .ok (h.freep, ⟨h, sz⟩)
    else .error (.fault sz)

def morecore (fuel : ℕ) (avail : ℕ → Bool) (s : Process) (nu : ℕ) : Except Halt (ℕ × Process) :=
  let nu := if nu < 4096 then 4096 else nu
  enter fuel s nu (sbrk avail s.sz (nu * HEADER))

/-- The loop of `malloc`. -/
def mallocLoop (avail : ℕ → Bool) (nunits : ℕ) : ℕ → Process → ℕ → ℕ → Except Halt (ℕ × Process)
  | 0, _, _, _ => .error .fuel
  | fuel + 1, s, prevp, p =>
    if size s.mem p ≥ nunits then
      if size s.mem p = nunits then
        .ok (p + HEADER, ⟨{ s.toHeap with mem := setPtr s.mem prevp (ptr s.mem p), freep := prevp }, s.sz⟩)
      else
        let m := setSize s.mem p (size s.mem p - nunits)
        let p := p + HEADER * size m p
        .ok (p + HEADER, ⟨{ s.toHeap with mem := setSize m p nunits, freep := prevp }, s.sz⟩)
    else if p = s.freep then do
      let r ← morecore fuel avail s nunits
      if r.1 = 0 then .ok (0, r.2) else mallocLoop avail nunits fuel r.2 r.1 (ptr r.2.mem r.1)
    else mallocLoop avail nunits fuel s p (ptr s.mem p)

def malloc (base fuel : ℕ) (avail : ℕ → Bool) (s : Process) (nbytes : ℕ) : Except Halt (ℕ × Process) :=
  let h := if s.freep = 0 then initBase base s.toHeap else s.toHeap
  mallocLoop avail (nunits nbytes) fuel ⟨h, s.sz⟩ h.freep (ptr h.mem h.freep)

end Process

end Xv6.Umalloc
