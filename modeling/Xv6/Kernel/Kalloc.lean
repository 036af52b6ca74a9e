import Xv6.Kernel.Riscv

/-!
# Kalloc — the physical page allocator (`kalloc.c`)

`kmem` is held as its free list (a list of page addresses, head first) and the array `pte_count`,
indexed by page number.  The counters are C `int`s.
-/

namespace Xv6

/-- Physical memory and `kmem`. -/
structure Phys where
  mem : ByteStore
  freelist : List ℕ
  pte_count : ℕ → ℤ

namespace Phys

/-- `memset((void*)a, c, n)`. -/
def memset (s : Phys) (a n : ℕ) (c : UInt8) : Phys := { s with mem := s.mem.fill a n c }

/-- `memmove((void*)dst, src, n)` with the bytes `src 0, …, src (n - 1)`. -/
def memmove (s : Phys) (dst n : ℕ) (src : ℕ → UInt8) : Phys :=
  { s with mem := s.mem.blit dst n src }

/-- `*pte = v`. -/
def setPte (s : Phys) (pte : ℕ) (v : Pte) : Phys := { s with mem := writePte s.mem pte v }

/-- `kmem.pte_count[pa / PGSIZE] = cnt`. -/
def set_count (s : Phys) (pa : ℕ) (cnt : ℤ) : Phys :=
  { s with pte_count := fun i => if i = pa / PGSIZE then int32 cnt else s.pte_count i }

def inc_count (s : Phys) (pa : ℕ) : Phys := s.set_count pa (s.pte_count (pa / PGSIZE) + 1)

def dec_count (s : Phys) (pa : ℕ) : Phys := s.set_count pa (s.pte_count (pa / PGSIZE) - 1)

/-- `inc_count` under `kmem.lock`. -/
def safe_inc_count (s : Phys) (pa : ℕ) : Phys := s.inc_count pa

end Phys

variable [Image]

def kfree (pa : ℕ) (s : Phys) : Except Panic Phys :=
  if pa % PGSIZE ≠ 0 ∨ pa < Image.kend ∨ PHYSTOP ≤ pa then .error "kfree"
  else
    let s := s.dec_count pa
    if 0 < s.pte_count (pa / PGSIZE) then .ok s
    else
      let s := s.memset pa PGSIZE 1
      .ok { s with freelist := pa :: s.freelist }

/-- One page of physical memory, `none` for the null pointer. -/
def kalloc (s : Phys) : Option ℕ × Phys :=
  match s.freelist with
  | [] => (none, s)
  | r :: next =>
    let s := { s with freelist := next }
    (some r, (s.memset r PGSIZE 5).set_count r 1)

/-- The loop of `freerange`: `n` pages from `p` on. -/
def freerangeLoop : ℕ → ℕ → Phys → Except Panic Phys
  | 0, _, s => .ok s
  | n + 1, p, s =>
    match kfree p (s.set_count p 1) with
    | .error e => .error e
    | .ok s => freerangeLoop n (p + PGSIZE) s

def freerange (pa_start pa_end : ℕ) (s : Phys) : Except Panic Phys :=
  let p := PGROUNDUP pa_start
  freerangeLoop ((pa_end - p) / PGSIZE) p s

/-- `kinit`, from the memory contents at boot. -/
def kinit (mem : ByteStore) : Except Panic Phys :=
  freerange Image.kend PHYSTOP { mem := mem, freelist := [], pte_count := fun _ => 0 }

end Xv6
