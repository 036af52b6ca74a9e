import Xv6.Kernel.Proc

/-!
# Exec — `exec` and `sys_exec` (`exec.c`, `sysfile.c`)

An inode is what `readi` returns for it; the program headers and the argument strings are read from
there and from user memory as in the source.  Each loop is a recursion on the rounds left.
-/

namespace Xv6

abbrev MAXARG : ℕ := 32
abbrev MAXPATH : ℕ := 128
abbrev ELF_MAGIC : ℕ := 0x464C457F
abbrev ELF_PROG_LOAD : ℕ := 1

/-- The contents of an inode: `readi off n` are the bytes read, `n` at most. -/
structure Inode where
  readi : ℕ → ℕ → List UInt8
  length_le : ∀ off n, (readi off n).length ≤ n

/-- An inode with the bytes of `file`. -/
def Inode.ofFile (file : List UInt8) : Inode :=
  { readi := fun off n => (file.drop off).take n, length_le := fun _ _ => List.length_take_le _ _ }

/-- The little-endian number in the `n` bytes at `off`. -/
def field (bytes : List UInt8) (off n : ℕ) : ℕ := ByteStore.load (fun i => bytes.getD i 0) off n

/-- The difference of two `uint64`s. -/
def sub64 (a b : ℕ) : ℕ := uint64 (2 ^ 64 + a - b)

/-- Values stored into a `uint`. -/
def uint32 (x : ℕ) : ℕ := x % 2 ^ 32

def flags2perm (flags : ℕ) : Pte :=
  (if flags.testBit 0 then PTE_X else 0#64) ||| (if flags.testBit 1 then PTE_W else 0#64)

/-- The loop of `loadseg`: `rounds` pages from offset `i` on. -/
def loadsegLoop (pagetable va : ℕ) (ip : Inode) (offset sz : ℕ) :
    ℕ → ℕ → Phys → Except Panic (ℤ × Phys)
  | 0, _, s => .ok (0, s)
  | rounds + 1, i, s =>
    let pa := walkaddr pagetable (uint64 (va + i)) s
    if pa = 0 then .error "loadseg: address should exist"
    else
      let n := if sz - i < PGSIZE then sz - i else PGSIZE
      let data := ip.readi (uint32 (offset + i)) n
      let s := s.memmove pa data.length (fun k => data.getD k 0)
      if data.length ≠ n then .ok (-1, s)
      else loadsegLoop pagetable va ip offset sz rounds (i + PGSIZE) s

def loadseg (pagetable va : ℕ) (ip : Inode) (offset sz : ℕ) (s : Phys) : Except Panic (ℤ × Phys) :=
  loadsegLoop pagetable va ip offset sz ((sz + PGSIZE - 1) / PGSIZE) 0 s

variable [Image]

/-- The loop over the program headers: `n` more, the next at `off`.  The flag says whether all went
well; the size is that of the image so far. -/
def loadLoop (pagetable : ℕ) (ip : Inode) : ℕ → ℕ → ℕ → Phys → Except Panic (Bool × ℕ × Phys)
  | 0, _, sz, s => .ok (true, sz, s)
  | n + 1, off, sz, s =>
    let ph := ip.readi off 56
    let flags := field ph 4 4
    let vaddr := field ph 16 8
    let filesz := field ph 32 8
    let memsz := field ph 40 8
    if ph.length ≠ 56 then .ok (false, sz, s)
    else if field ph 0 4 ≠ ELF_PROG_LOAD then loadLoop pagetable ip n (uint32 (off + 56)) sz s
    else if memsz < filesz ∨ uint64 (vaddr + memsz) < vaddr ∨ vaddr % PGSIZE ≠ 0 then
      .ok (false, sz, s)
    else do
      let (sz1, s) ← uvmalloc pagetable sz (uint64 (vaddr + memsz)) (flags2perm flags) s
      if sz1 = 0 then return (false, sz, s)
      else
        let (r, s) ← loadseg pagetable vaddr ip (uint32 (field ph 8 8)) (uint32 filesz) s
        if r < 0 then return (false, sz1, s)
        else loadLoop pagetable ip n (uint32 (off + 56)) sz1 s

/-- The loop that pushes the argument strings; returns the stack pointer and `ustack`. -/
def pushLoop (pagetable stackbase : ℕ) : List (List UInt8) → ℕ → List ℕ → Phys →
    Except Panic (Option (ℕ × List ℕ) × Phys)
  | [], sp, ustack, s => .ok (some (sp, ustack), s)
  | arg :: argv, sp, ustack, s =>
    if MAXARG ≤ ustack.length then .ok (none, s)
    else
      let sp := sub64 sp (arg.length + 1)
      let sp := sp - sp % 16
      if sp < stackbase then .ok (none, s)
      else do
        let (r, s) ← copyout pagetable sp (fun k => arg.getD k 0) (arg.length + 1) s
        if r < 0 then return (none, s)
        else pushLoop pagetable stackbase argv sp (ustack ++ [sp]) s

/-- The user stack: a guard page and a stack page above `sz`, and on it the arguments.  Returns the
size of the image, and the stack pointer if all went well. -/
def setupStack (pagetable sz : ℕ) (argv : List (List UInt8)) (s : Phys) :
    Except Panic (Option ℕ × ℕ × Phys) := do
  let sz := PGROUNDUP sz
  let (sz1, s) ← uvmalloc pagetable sz (uint64 (sz + 2 * PGSIZE)) PTE_W s
  if sz1 = 0 then return (none, sz, s)
  else
    let s ← uvmclear pagetable (sub64 sz1 (2 * PGSIZE)) s
    let stackbase := sub64 sz1 PGSIZE
    let (o, s) ← pushLoop pagetable stackbase argv sz1 [] s
    match o with
    | none => return (none, sz1, s)
    | some (sp, ustack) =>
      let sp := sub64 sp ((ustack.length + 1) * 8)
      let sp := sp - sp % 16
      if sp < stackbase then return (none, sz1, s)
      else
        let (r, s) ← copyout pagetable sp
          (fun k => UInt8.ofNat (ustack.getD (k / 8) 0 / 256 ^ (k % 8))) ((ustack.length + 1) * 8) s
        if r < 0 then return (none, sz1, s) else return (some sp, sz1, s)

/-- Build the new image: its page table, its size, and the stack pointer if all went well. -/
def buildImage (trapframe : ℕ) (ip : Inode) (argv : List (List UInt8)) (s : Phys) :
    Except Panic (Option ℕ × ℕ × ℕ × Phys) := do
  let elf := ip.readi 0 64
  if elf.length ≠ 64 ∨ field elf 0 4 ≠ ELF_MAGIC then return (none, 0, 0, s)
  else
    let (pagetable, s) ← proc_pagetable trapframe s
    if pagetable = 0 then return (none, 0, 0, s)
    else
      let (ok, sz, s) ← loadLoop pagetable ip (field elf 56 2) (uint32 (field elf 32 8)) 0 s
      if ok = false then return (none, pagetable, sz, s)
      else
        let (o, sz, s) ← setupStack pagetable sz argv s
        return (o, pagetable, sz, s)

/-- The part of `path` behind its last slash, at most 15 bytes of it. -/
def progname (path : List UInt8) : List UInt8 :=
  ((path.reverse.takeWhile (· ≠ 47)).reverse).take 15

/-- `namei` looks a path up in the file system. -/
def exec (i : Fin NPROC) (path : List UInt8) (argv : List (List UInt8))
    (namei : List UInt8 → Option Inode) (S : Sys) : Except Panic (ℤ × Sys) :=
  match namei path with
  | none => .ok (-1, S)
  | some ip => do
    let p := S.proc i
    let (o, pagetable, sz, s) ← buildImage p.trapframe ip argv S.phys
    match o with
    | none =>
      let s ← (if pagetable ≠ 0 then proc_freepagetable pagetable sz s else .ok s :
        Except Panic Phys)
      return (-1, { S with phys := s })
    | some sp =>
      let entry := field (ip.readi 0 64) 24 8
      let s := s.setWord (p.trapframe + TF_A1) sp
      let s := (s.setWord (p.trapframe + TF_EPC) entry).setWord (p.trapframe + TF_SP) sp
      let s ← proc_freepagetable p.pagetable p.sz s
      return (argv.length, { S with phys := s }.set i
        { p with name := progname path, pagetable := pagetable, sz := sz })

/-! ## Arguments -/

def fetchaddr (p : Proc) (addr : ℕ) (s : Phys) : Option ℕ :=
  if p.sz ≤ addr ∨ p.sz < uint64 (addr + 8) then none
  else (copyin p.pagetable addr 8 s).map fun bytes => field bytes 0 8

/-- The loop of `sys_exec` from `argv[i]` on, `n` rounds at most: the pages it has taken, with the
strings in them, and whether all went well. -/
def fetchArgs (p : Proc) (uargv : ℕ) : ℕ → ℕ → Phys → Bool × List (ℕ × List UInt8) × Phys
  | 0, _, s => (false, [], s)
  | n + 1, i, s =>
    match fetchaddr p (uint64 (uargv + 8 * i)) s with
    | none => (false, [], s)
    | some uarg =>
      if uarg = 0 then (true, [], s)
      else
        match kalloc s with
        | (none, s) => (false, [], s)
        | (some page, s) =>
          match copyinstr p.pagetable uarg PGSIZE s with
          | none => (false, [(page, [])], s)
          | some str =>
            let (ok, argv, s) := fetchArgs p uargv n (i + 1)
              (s.memmove page (str.length + 1) (fun k => str.getD k 0))
            (ok, (page, str) :: argv, s)

/-- `kfree` on each page. -/
def freePages : List ℕ → Phys → Except Panic Phys
  | [], s => .ok s
  | page :: pages, s => do
    let s ← kfree page s
    freePages pages s

def sys_exec (i : Fin NPROC) (upath uargv : ℕ) (namei : List UInt8 → Option Inode) (S : Sys) :
    Except Panic (ℤ × Sys) :=
  match copyinstr (S.proc i).pagetable upath MAXPATH S.phys with
  | none => .ok (-1, S)
  | some path => do
    let (ok, argv, s) := fetchArgs (S.proc i) uargv MAXARG 0 S.phys
    let S := { S with phys := s }
    let (r, S) ← (if ok then exec i path (argv.map Prod.snd) namei S else .ok (-1, S) :
      Except Panic (ℤ × Sys))
    let s ← freePages (argv.map Prod.fst) S.phys
    return (r, { S with phys := s })

end Xv6
