import Xv6.Kernel.Vm

/-!
# Cow — copy-on-write faults and the copies between kernel and user space (`trap.c`, `vm.c`)

`src` is a kernel buffer read byte by byte.  The copy loops return how many bytes were left when
they stopped, so that `0` is success; they move at least one byte a round, which bounds the rounds.
-/

namespace Xv6

variable [Image]

/-- Give the page of a copy-on-write mapping its own writable copy. -/
def cow_page_fault (pt va : ℕ) (s : Phys) : Except Panic (ℤ × Phys) :=
  if MAXVA ≤ va then .ok (-1, s)
  else
    match walk pt va false s with
    | .error e => .error e
    | .ok (none, s) => .ok (-1, s)
    | .ok (some my_pte, s) =>
      let flags := PTE_FLAGS (readPte s.mem my_pte)
      if flags.has PTE_U = false ∨ flags.has PTE_V = false ∨ flags.has PTE_COW = false then
        .ok (-1, s)
      else
        let old_pa := PTE2PA (readPte s.mem my_pte)
        if old_pa = 0 then .ok (-1, s)
        else
          let flags := (flags ||| PTE_W) &&& ~~~PTE_COW
          match kalloc s with
          | (none, s) => .ok (-1, s)
          | (some new_pa, s) =>
            let s := s.memmove new_pa PGSIZE (fun i => s.mem (old_pa + i))
            let s := s.setPte my_pte (PA2PTE new_pa ||| flags)
            match kfree old_pa s with
            | .error e => .error e
            | .ok s => .ok (0, s)

/-- The loop of `copyout`; returns the bytes left. -/
def copyoutLoop (pagetable : ℕ) : ℕ → ℕ → (ℕ → UInt8) → ℕ → Phys → Except Panic (ℕ × Phys)
  | 0, _, _, len, s => .ok (len, s)
  | rounds + 1, dstva, src, len, s =>
    if len = 0 then .ok (0, s)
    else
      let va0 := PGROUNDDOWN dstva
      if MAXVA ≤ va0 then .ok (len, s)
      else
        match walk pagetable va0 false s with
        | .error e => .error e
        | .ok (none, s) => .ok (len, s)
        | .ok (some p, s) =>
          if (readPte s.mem p).has PTE_U = false ∨ (readPte s.mem p).has PTE_V = false then
            .ok (len, s)
          else
            let fault : Except Panic (ℤ × Phys) :=
              if (PTE_FLAGS (readPte s.mem p)).has PTE_COW then cow_page_fault pagetable va0 s
              else .ok (0, s)
            match fault with
            | .error e => .error e
            | .ok (r, s) =>
              if r ≠ 0 then .ok (len, s)
              else
                let pa0 := walkaddr pagetable va0 s
                if pa0 = 0 then .ok (len, s)
                else
                  let n := min (PGSIZE - (dstva - va0)) len
                  copyoutLoop pagetable rounds (va0 + PGSIZE) (fun i => src (n + i)) (len - n)
                    (s.memmove (pa0 + (dstva - va0)) n src)

def copyout (pagetable dstva : ℕ) (src : ℕ → UInt8) (len : ℕ) (s : Phys) :
    Except Panic (ℤ × Phys) :=
  match copyoutLoop pagetable len dstva src len s with
  | .error e => .error e
  | .ok (left, s) => .ok (if left = 0 then 0 else -1, s)

/-- The loop of `copyin`; returns the bytes copied and the number left. -/
def copyinLoop (pagetable : ℕ) (s : Phys) : ℕ → ℕ → ℕ → List UInt8 × ℕ
  | 0, _, len => ([], len)
  | rounds + 1, srcva, len =>
    if len = 0 then ([], 0)
    else
      let va0 := PGROUNDDOWN srcva
      let pa0 := walkaddr pagetable va0 s
      if pa0 = 0 then ([], len)
      else
        let n := min (PGSIZE - (srcva - va0)) len
        let (rest, left) := copyinLoop pagetable s rounds (va0 + PGSIZE) (len - n)
        ((List.range n).map (fun i => s.mem (pa0 + (srcva - va0) + i)) ++ rest, left)

/-- Returns the bytes, `none` on error. -/
def copyin (pagetable srcva len : ℕ) (s : Phys) : Option (List UInt8) :=
  match copyinLoop pagetable s len srcva len with
  | (bytes, 0) => some bytes
  | (_, _ + 1) => none

/-- The bytes of `src` up to the first NUL, at most `n`, and whether there was a NUL. -/
def takeString (src : ℕ → UInt8) : ℕ → List UInt8 × Bool
  | 0 => ([], false)
  | n + 1 =>
    if src 0 = 0 then ([], true)
    else
      let (rest, got_null) := takeString (fun i => src (i + 1)) n
      (src 0 :: rest, got_null)

/-- The loop of `copyinstr`; returns the string without its NUL and whether the NUL was found. -/
def copyinstrLoop (pagetable : ℕ) (s : Phys) : ℕ → ℕ → ℕ → List UInt8 × Bool
  | 0, _, _ => ([], false)
  | rounds + 1, srcva, max =>
    if max = 0 then ([], false)
    else
      let va0 := PGROUNDDOWN srcva
      let pa0 := walkaddr pagetable va0 s
      if pa0 = 0 then ([], false)
      else
        let n := min (PGSIZE - (srcva - va0)) max
        match takeString (fun i => s.mem (pa0 + (srcva - va0) + i)) n with
        | (bytes, true) => (bytes, true)
        | (bytes, false) =>
          let (rest, got_null) := copyinstrLoop pagetable s rounds (va0 + PGSIZE) (max - n)
          (bytes ++ rest, got_null)

/-- The string at `srcva`, `none` if it is not readable or has no NUL within `max` bytes. -/
def copyinstr (pagetable srcva max : ℕ) (s : Phys) : Option (List UInt8) :=
  match copyinstrLoop pagetable s max srcva max with
  | (bytes, true) => some bytes
  | (_, false) => none

/-- What `copyinstr` has written to `dst` when it returns. -/
def copyinstrDst (pagetable srcva max : ℕ) (s : Phys) : List UInt8 :=
  match copyinstrLoop pagetable s max srcva max with
  | (bytes, true) => bytes ++ [0]
  | (bytes, false) => bytes

/-- `walkaddr` with the panic that `walk` has. -/
def walkaddrCall (pagetable va : ℕ) (s : Phys) : Except Panic ℕ :=
  if MAXVA ≤ va then .ok 0
  else
    match walk pagetable va false s with
    | .error e => .error e
    | .ok (none, _) => .ok 0
    | .ok (some pte, s) =>
      if (readPte s.mem pte).has PTE_V = false then .ok 0
      else if (readPte s.mem pte).has PTE_U = false then .ok 0
      else .ok (PTE2PA (readPte s.mem pte))

/-! ## The hardware's side

A store by user code goes through an entry with `V`, `U` and `W`; otherwise it raises a store page
fault (`scause` 15), which `usertrap` hands to `cow_page_fault`. -/

/-- The entry of `va`, `0` where a table is missing. -/
def pteOf (pagetable va : ℕ) (s : Phys) : Pte :=
  match (walkLoop va false 2 pagetable s).1 with
  | some pte => readPte s.mem pte
  | none => 0#64

def storable (pte : Pte) : Bool := pte.has PTE_V && pte.has PTE_U && pte.has PTE_W

/-- Store one byte at `va`; a fault is retried once `cow_page_fault` has returned `0`.  The flag says
whether the store went through. -/
def userStore (pagetable va : ℕ) (b : UInt8) (s : Phys) : Except Panic (Bool × Phys) :=
  if MAXVA ≤ va then .ok (false, s)
  else if storable (pteOf pagetable va s) then
    .ok (true, s.memmove (PTE2PA (pteOf pagetable va s) + va % PGSIZE) 1 (fun _ => b))
  else
    match cow_page_fault pagetable (PGROUNDDOWN va) s with
    | .error e => .error e
    | .ok (r, s) =>
      if r ≠ 0 then .ok (false, s)
      else if storable (pteOf pagetable va s) then
        .ok (true, s.memmove (PTE2PA (pteOf pagetable va s) + va % PGSIZE) 1 (fun _ => b))
      else .ok (false, s)

end Xv6
