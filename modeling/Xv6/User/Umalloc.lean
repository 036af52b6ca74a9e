import Xv6.Lib.ByteStore
import Xv6.Lib.Runs

/-!
# Umalloc — `malloc` and `free` of the user library (`umalloc.c`)

A `Header *` is the address of the header, which is in the memory: `ptr` in its bytes `0 … 7`, `size` in
its bytes `8 … 11`.  `base` is the address of the static header.  A loop makes at most `fuel` rounds;
without fuel the result is `none`.  What `sbrk` answers may depend on what it has given so far.
-/

namespace Xv6.Umalloc

/-- `sizeof(Header)`. -/
abbrev HEADER : ℕ := 16

def ptr (m : ByteStore) (p : ℕ) : ℕ := m.load p 8

def size (m : ByteStore) (p : ℕ) : ℕ := m.load (p + 8) 4

def setPtr (m : ByteStore) (p v : ℕ) : ByteStore := m.store p 8 v

/-- The `uint` keeps the low 32 bits. -/
def setSize (m : ByteStore) (p v : ℕ) : ByteStore := m.store (p + 8) 4 v

/-- The memory with the static pointer; `chunks` is what `sbrk` has returned, last call first, with the
number of bytes it was asked for. -/
structure Heap where
  mem : ByteStore
  freep : ℕ
  chunks : List (ℕ × ℕ)

/-- The answer of `sbrk` to a number of bytes; `none` is `(char*)-1`. -/
abbrev Sbrk := List (ℕ × ℕ) → ℕ → Option ℕ

/-- The loop of `free`. -/
def freeLoop (m : ByteStore) (bp : ℕ) : ℕ → ℕ → Option ℕ
  | 0, _ => none
  | fuel + 1, p =>
    if bp > p ∧ bp < ptr m p then some p
    else if p ≥ ptr m p ∧ (bp > p ∨ bp < ptr m p) then some p
    else freeLoop m bp fuel (ptr m p)

def free (fuel : ℕ) (h : Heap) (ap : ℕ) : Option Heap := do
  let bp := ap - HEADER
  let p ← freeLoop h.mem bp fuel h.freep
  let m := h.mem
  let m :=
    if bp + HEADER * size m bp = ptr m p then
      let m := setSize m bp (size m bp + size m (ptr m p))
      setPtr m bp (ptr m (ptr m p))
    else setPtr m bp (ptr m p)
  let m :=
    if p + HEADER * size m p = bp then
      let m := setSize m p (size m p + size m bp)
      setPtr m p (ptr m bp)
    else setPtr m p bp
  some { h with mem := m, freep := p }

def morecore (fuel : ℕ) (sbrk : Sbrk) (h : Heap) (nu : ℕ) : Option (ℕ × Heap) :=
  let nu := if nu < 4096 then 4096 else nu
  match sbrk h.chunks (nu * HEADER) with
  | none => some (0, h)
  | some p => do
    let h ← free fuel { h with mem := setSize h.mem p nu, chunks := (p, nu * HEADER) :: h.chunks }
      (p + HEADER)
    some (h.freep, h)

/-- The loop of `malloc`. -/
def mallocLoop (sbrk : Sbrk) (nunits : ℕ) : ℕ → Heap → ℕ → ℕ → Option (ℕ × Heap)
  | 0, _, _, _ => none
  | fuel + 1, h, prevp, p =>
    if size h.mem p ≥ nunits then
      if size h.mem p = nunits then
        some (p + HEADER, { h with mem := setPtr h.mem prevp (ptr h.mem p), freep := prevp })
      else
        let m := setSize h.mem p (size h.mem p - nunits)
        let p := p + HEADER * size m p
        some (p + HEADER, { h with mem := setSize m p nunits, freep := prevp })
    else if p = h.freep then
      match morecore fuel sbrk h nunits with
      | none => none
      | some (p, h) => if p = 0 then some (0, h) else mallocLoop sbrk nunits fuel h p (ptr h.mem p)
    else mallocLoop sbrk nunits fuel h p (ptr h.mem p)

def nunits (nbytes : ℕ) : ℕ := (nbytes + HEADER - 1) / HEADER + 1

section

variable (base : ℕ)

/-- The empty list: `base.s.ptr = freep = prevp = &base; base.s.size = 0`. -/
def initBase (h : Heap) : Heap :=
  { h with mem := setSize (setPtr h.mem base base) base 0, freep := base }

def malloc (fuel : ℕ) (sbrk : Sbrk) (h : Heap) (nbytes : ℕ) : Option (ℕ × Heap) :=
  let h := if h.freep = 0 then initBase base h else h
  mallocLoop sbrk (nunits nbytes) fuel h h.freep (ptr h.mem h.freep)

/-! ## A program that uses the heap -/

/-- The heap with the blocks that `malloc` has returned and that are not freed yet, each with the number of
bytes that was asked for. -/
structure State extends Heap where
  live : List (ℕ × ℕ)

/-- What a program does: it calls `malloc` or `free`, or sets a byte. -/
inductive Op where
  | malloc (nbytes : ℕ) (sbrk : Sbrk)
  | free (ap : ℕ)
  | write (a : ℕ) (c : UInt8)

/-- One operation, with fuel for its loops.  A program frees only what is live, and it writes only to what
it has asked for. -/
def step (s : State) : ℕ × Op → Option (Except Unit State)
  | (fuel, .malloc nbytes sbrk) =>
    match malloc base fuel sbrk s.toHeap nbytes with
    | none => some (.error ())
    | some (ap, h) => some (.ok ⟨h, if ap = 0 then s.live else (ap, nbytes) :: s.live⟩)
  | (fuel, .free ap) =>
    if ap ∈ s.live.map Prod.fst then
      match free fuel s.toHeap ap with
      | none => some (.error ())
      | some h => some (.ok ⟨h, s.live.eraseP fun b => b.1 = ap⟩)
    else none
  | (_, .write a c) =>
    if ∃ b ∈ s.live, b.1 ≤ a ∧ a < b.1 + b.2 then
      some (.ok { s with mem := s.mem.blit a 1 fun _ => c })
    else none

/-- Before the first call. -/
def init (m : ByteStore) : State := ⟨⟨m, 0, []⟩, []⟩

end

end Xv6.Umalloc
