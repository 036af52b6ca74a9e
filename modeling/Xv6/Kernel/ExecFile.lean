import Xv6.Kernel.Exec
import Xv6.Kernel.Names
import Xv6.Lib.ByteSeq

/-!
# ExecFile — `exec` with the inode of the program (`exec.c`, `sysfile.c`)

`exec` locks the inode while it loads the segments, and puts it before it builds the stack, or behind
the label `bad`.
-/

namespace Xv6

/-- What `readi` reads from an inode to the kernel. -/
def Volume.contents (sb : superblock) (ip : Fin NINODE) (V : Volume) : Inode where
  readi := fun off n =>
    match V.fs.readi sb (fun _ => true) (fun _ => 0) off n (V.inode ip) with
    | .ok (r, dst, _, _) => (dst.window 0 r.toNat).take n
    | .error _ => []
  length_le := fun off n => by
    split
    · exact List.length_take_le _ _
    · exact Nat.zero_le _

variable [Image]

/-- `exec` up to the first `iunlockput`. -/
def loadElf (trapframe : ℕ) (ip : Inode) (s : Phys) : Except Panic (Bool × ℕ × ℕ × Phys) := do
  let elf := ip.readi 0 64
  if elf.length ≠ 64 ∨ field elf 0 4 ≠ ELF_MAGIC then return (false, 0, 0, s)
  else
    let (pagetable, s) ← proc_pagetable trapframe s
    if pagetable = 0 then return (false, 0, 0, s)
    else
      let (ok, sz, s) ← loadLoop pagetable ip (field elf 56 2) (uint32 (field elf 32 8)) 0 s
      return (ok, pagetable, sz, s)

/-- Behind `bad`: free the image, if there is one. -/
def freeImage (pagetable sz : ℕ) (s : Phys) : Except Panic Phys :=
  if pagetable ≠ 0 then proc_freepagetable pagetable sz s else .ok s

namespace Volume

variable (sb : superblock) (cwd : Fin NINODE) (i : Fin NPROC)

def exec (path : List UInt8) (argv : List (List UInt8)) (S : Sys) (V : Volume) :
    Except Panic (ℤ × Sys × Volume) := do
  let (found, V) ← V.namei sb i cwd path
  match found with
  | none => return (-1, S, V)
  | some ip =>
    let V ← V.ilock sb i ip
    let file := V.contents sb ip
    let p := S.proc i
    let (ok, pagetable, sz, s) ← loadElf p.trapframe file S.phys
    if ok = false then
      let s ← freeImage pagetable sz s
      let V ← V.iunlockput sb i ip
      return (-1, { S with phys := s }, V)
    else
      let V ← V.iunlockput sb i ip
      let (o, sz, s) ← setupStack pagetable sz argv s
      match o with
      | none =>
        let s ← freeImage pagetable sz s
        return (-1, { S with phys := s }, V)
      | some sp =>
        let entry := field (file.readi 0 64) 24 8
        let s := s.setWord (p.trapframe + TF_A1) sp
        let s := (s.setWord (p.trapframe + TF_EPC) entry).setWord (p.trapframe + TF_SP) sp
        let s ← proc_freepagetable p.pagetable p.sz s
        return (argv.length, { S with phys := s }.set i
          { p with name := progname path, pagetable := pagetable, sz := sz }, V)

def sys_exec (upath uargv : ℕ) (S : Sys) (V : Volume) : Except Panic (ℤ × Sys × Volume) :=
  match copyinstr (S.proc i).pagetable upath MAXPATH S.phys with
  | none => .ok (-1, S, V)
  | some path => do
    let (ok, argv, s) := fetchArgs (S.proc i) uargv MAXARG 0 S.phys
    let S := { S with phys := s }
    let (r, S, V) ← (if ok then V.exec sb cwd i path (argv.map Prod.snd) S else .ok (-1, S, V) :
      Except Panic (ℤ × Sys × Volume))
    let s ← freePages (argv.map Prod.fst) S.phys
    return (r, { S with phys := s }, V)

end Volume

end Xv6
