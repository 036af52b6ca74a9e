import Xv6.Kernel.Kalloc

/-!
# Vm — page tables (`vm.c`)

A page table is the address of its root page; entries are read from and written to physical memory.
Functions that can `panic` return `Except Panic`.  The C loops are recursions on the number of
rounds that are left.  A null `pte_t *` is `none`; return codes are the C values.
-/

namespace Xv6

variable [Image]

/-- The loop of `walk`, from `level` down. -/
def walkLoop (va : ℕ) (alloc : Bool) : ℕ → ℕ → Phys → Option ℕ × Phys
  | 0, pagetable, s => (some (pagetable + 8 * PX 0 va), s)
  | level + 1, pagetable, s =>
    let pte := pagetable + 8 * PX (level + 1) va
    if (readPte s.mem pte).has PTE_V then
      walkLoop va alloc level (PTE2PA (readPte s.mem pte)) s
    else if alloc = false then (none, s)
    else
      match kalloc s with
      | (none, s) => (none, s)
      | (some page, s) =>
        walkLoop va alloc level page
          ((s.memset page PGSIZE 0).setPte pte (PA2PTE page ||| PTE_V))

/-- The address of the entry for `va`. -/
def walk (pagetable va : ℕ) (alloc : Bool) (s : Phys) : Except Panic (Option ℕ × Phys) :=
  if MAXVA ≤ va then .error "walk" else .ok (walkLoop va alloc 2 pagetable s)

/-- The physical page of the user address `va`, `0` if there is none. -/
def walkaddr (pagetable va : ℕ) (s : Phys) : ℕ :=
  if MAXVA ≤ va then 0
  else
    match (walkLoop va false 2 pagetable s).1 with
    | none => 0
    | some pte =>
      if (readPte s.mem pte).has PTE_V = false then 0
      else if (readPte s.mem pte).has PTE_U = false then 0
      else PTE2PA (readPte s.mem pte)

/-- The loop of `mappages`: this page and `n` more. -/
def mapLoop (pagetable : ℕ) (perm : Pte) : ℕ → ℕ → ℕ → Phys → Except Panic (ℤ × Phys)
  | n, a, pa, s =>
    match walk pagetable a true s with
    | .error e => .error e
    | .ok (none, s) => .ok (-1, s)
    | .ok (some pte, s) =>
      if (readPte s.mem pte).has PTE_V then .error "mappages: remap"
      else
        let s := s.setPte pte (PA2PTE pa ||| perm ||| PTE_V)
        match n with
        | 0 => .ok (0, s)
        | n + 1 => mapLoop pagetable perm n (a + PGSIZE) (pa + PGSIZE) s

def mappages (pagetable va size pa : ℕ) (perm : Pte) (s : Phys) : Except Panic (ℤ × Phys) :=
  if size = 0 then .error "mappages: size"
  else
    let a := PGROUNDDOWN va
    let last := PGROUNDDOWN (uint64 (va + size - 1))
    mapLoop pagetable perm (uint64 (2 ^ 64 + last - a) / PGSIZE) a pa s

/-- The loop of `uvmunmap`: `n` pages from `a` on. -/
def unmapLoop (pagetable : ℕ) (do_free : Bool) : ℕ → ℕ → Phys → Except Panic Phys
  | 0, _, s => .ok s
  | n + 1, a, s =>
    match walk pagetable a false s with
    | .error e => .error e
    | .ok (none, _) => .error "uvmunmap: walk"
    | .ok (some pte, s) =>
      if (readPte s.mem pte).has PTE_V = false then .error "uvmunmap: not mapped"
      else if PTE_FLAGS (readPte s.mem pte) = PTE_V then .error "uvmunmap: not a leaf"
      else if do_free then
        match kfree (PTE2PA (readPte s.mem pte)) s with
        | .error e => .error e
        | .ok s => unmapLoop pagetable do_free n (a + PGSIZE) (s.setPte pte 0#64)
      else unmapLoop pagetable do_free n (a + PGSIZE) (s.setPte pte 0#64)

def uvmunmap (pagetable va npages : ℕ) (do_free : Bool) (s : Phys) : Except Panic Phys :=
  if va % PGSIZE ≠ 0 then .error "uvmunmap: not aligned"
  else
    let last := uint64 (va + npages * PGSIZE)
    unmapLoop pagetable do_free ((last - va + PGSIZE - 1) / PGSIZE) va s

/-- An empty user page table. -/
def uvmcreate (s : Phys) : Option ℕ × Phys :=
  match kalloc s with
  | (none, s) => (none, s)
  | (some pagetable, s) => (some pagetable, s.memset pagetable PGSIZE 0)

/-- The value of an `int` made from a `uint64`, passed on as `uint64`. -/
def sextInt (x : ℕ) : ℕ :=
  if x % 2 ^ 32 < 2 ^ 31 then x % 2 ^ 32 else x % 2 ^ 32 + (2 ^ 64 - 2 ^ 32)

def uvmdealloc (pagetable oldsz newsz : ℕ) (s : Phys) : Except Panic (ℕ × Phys) :=
  if oldsz ≤ newsz then .ok (oldsz, s)
  else if PGROUNDUP newsz < PGROUNDUP oldsz then
    let npages := sextInt ((PGROUNDUP oldsz - PGROUNDUP newsz) / PGSIZE)
    match uvmunmap pagetable (PGROUNDUP newsz) npages true s with
    | .error e => .error e
    | .ok s => .ok (newsz, s)
  else .ok (newsz, s)

/-- The loop of `uvmalloc`: `n` pages from `a` on.  The flag says whether all were allocated. -/
def allocLoop (pagetable oldsz : ℕ) (xperm : Pte) : ℕ → ℕ → Phys → Except Panic (Bool × Phys)
  | 0, _, s => .ok (true, s)
  | n + 1, a, s =>
    match kalloc s with
    | (none, s) =>
      match uvmdealloc pagetable a oldsz s with
      | .error e => .error e
      | .ok (_, s) => .ok (false, s)
    | (some mem, s) =>
      match mappages pagetable a PGSIZE mem (PTE_R ||| PTE_U ||| xperm) (s.memset mem PGSIZE 0) with
      | .error e => .error e
      | .ok (r, s) =>
        if r ≠ 0 then
          match kfree mem s with
          | .error e => .error e
          | .ok s =>
            match uvmdealloc pagetable a oldsz s with
            | .error e => .error e
            | .ok (_, s) => .ok (false, s)
        else allocLoop pagetable oldsz xperm n (a + PGSIZE) s

/-- Returns the new size, or `0`. -/
def uvmalloc (pagetable oldsz newsz : ℕ) (xperm : Pte) (s : Phys) : Except Panic (ℕ × Phys) :=
  if newsz < oldsz then .ok (oldsz, s)
  else
    let oldsz := PGROUNDUP oldsz
    match allocLoop pagetable oldsz xperm ((newsz - oldsz + PGSIZE - 1) / PGSIZE) oldsz s with
    | .error e => .error e
    | .ok (true, s) => .ok (newsz, s)
    | .ok (false, s) => .ok (0, s)

/-- `freewalk` on a table of the given height: the loop over the entries from `512 - n` on. -/
def freewalkLoop (freeChild : ℕ → Phys → Except Panic Phys) (pagetable : ℕ) :
    ℕ → Phys → Except Panic Phys
  | 0, s => .ok s
  | n + 1, s =>
    let a := pagetable + 8 * (511 - n)
    let pte := readPte s.mem a
    if pte.has PTE_V && pte &&& (PTE_R ||| PTE_W ||| PTE_X) == 0#64 then
      match freeChild (PTE2PA pte) s with
      | .error e => .error e
      | .ok s => freewalkLoop freeChild pagetable n (s.setPte a 0#64)
    else if pte.has PTE_V then .error "freewalk: leaf"
    else freewalkLoop freeChild pagetable n s

/-- `freewalk`, to a recursion depth that no page table exceeds. -/
def freewalk : ℕ → ℕ → Phys → Except Panic Phys
  | 0, _, _ => .error "freewalk: recursion too deep for the model"
  | depth + 1, pagetable, s =>
    match freewalkLoop (freewalk depth) pagetable 512 s with
    | .error e => .error e
    | .ok s => kfree pagetable s

def uvmfree (pagetable sz : ℕ) (s : Phys) : Except Panic Phys :=
  if 0 < sz then
    match uvmunmap pagetable 0 (PGROUNDUP sz / PGSIZE) true s with
    | .error e => .error e
    | .ok s => freewalk 3 pagetable s
  else freewalk 3 pagetable s

/-- The loop of `uvmcopy`: `n` pages from `i` on.  `some i` is the page at which `mappages` failed. -/
def copyLoop (old new : ℕ) : ℕ → ℕ → Phys → Except Panic (Option ℕ × Phys)
  | 0, _, s => .ok (none, s)
  | n + 1, i, s =>
    match walk old i false s with
    | .error e => .error e
    | .ok (none, _) => .error "uvmcopy: pte should exist"
    | .ok (some pte, s) =>
      if (readPte s.mem pte).has PTE_V = false then .error "uvmcopy: page not present"
      else
        -- the parent's page loses write permission and is marked copy-on-write
        let s := s.setPte pte ((readPte s.mem pte &&& ~~~PTE_W) ||| PTE_COW)
        let pa := PTE2PA (readPte s.mem pte)
        let s := s.safe_inc_count pa
        match mappages new i PGSIZE pa (PTE_FLAGS (readPte s.mem pte)) s with
        | .error e => .error e
        | .ok (r, s) => if r ≠ 0 then .ok (some i, s) else copyLoop old new n (i + PGSIZE) s

def uvmcopy (old new sz : ℕ) (s : Phys) : Except Panic (ℤ × Phys) :=
  match copyLoop old new ((sz + PGSIZE - 1) / PGSIZE) 0 s with
  | .error e => .error e
  | .ok (none, s) => .ok (0, s)
  | .ok (some i, s) =>
    match uvmunmap new 0 (i / PGSIZE) true s with
    | .error e => .error e
    | .ok s => .ok (-1, s)

def uvmclear (pagetable va : ℕ) (s : Phys) : Except Panic Phys :=
  match walk pagetable va false s with
  | .error e => .error e
  | .ok (none, _) => .error "uvmclear"
  | .ok (some pte, s) => .ok (s.setPte pte (readPte s.mem pte &&& ~~~PTE_U))

end Xv6
