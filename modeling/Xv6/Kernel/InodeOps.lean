import Xv6.Kernel.Names

/-!
# InodeOps — the calls of the inode layer (`fs.c`)

One call after the other, by any number of processes.  A call that would have to wait for the lock of an
inode is not enabled; neither is one whose caller does not have the reference or the lock that it needs.
-/

namespace Xv6

inductive InodeOp where
  | iget (inum : UInt32)
  | idup (ip : Fin NINODE)
  | ilock (p : ℕ) (ip : Fin NINODE)
  | iunlock (p : ℕ) (ip : Fin NINODE)
  | iput (p : ℕ) (ip : Fin NINODE)
  | ialloc (type : Int16)
  | readi (p : ℕ) (ip : Fin NINODE) (writable : ℕ → Bool) (dst : ByteStore) (off n : UInt32)
  /-- `filewrite`: a directory cannot be opened for it -/
  | writei (p : ℕ) (ip : Fin NINODE) (src : ℕ → Option UInt8) (off n : UInt32)
  /-- `sys_open` truncates files only -/
  | itrunc (p : ℕ) (ip : Fin NINODE)
  /-- other numbers of the device and of the links, and `iupdate` -/
  | relink (p : ℕ) (ip : Fin NINODE) (major minor nlink : Int16)
  | dirlink (p : ℕ) (dp : Fin NINODE) (name : ℕ → UInt8) (inum : ℕ)
  /-- `sys_unlink` clears the entry that `dirlookup` has found -/
  | unlink (p : ℕ) (dp : Fin NINODE) (name : ℕ → UInt8)

namespace Volume

variable (sb : superblock)

def step (s : Volume) : InodeOp → Option (Except Panic Volume)
  | .iget inum => some ((s.iget ROOTDEV inum).map Prod.snd)
  | .idup ip => if 0 < (s.inode ip).ref then some (.ok (s.idup ip)) else none
  | .ilock p ip =>
    if 0 < (s.inode ip).ref ∧ (s.inode ip).lock = none then some (s.ilock sb p ip) else none
  | .iunlock p ip => if (s.inode ip).lock = some p then some (s.iunlock p ip) else none
  -- who holds the lock has a reference of its own
  | .iput p ip =>
    if 0 < (s.inode ip).ref ∧ ((s.inode ip).lock ≠ none → 1 < (s.inode ip).ref) then some (s.iput sb p ip)
    else none
  | .ialloc type =>
    if type ≠ 0 then some ((s.ialloc sb ROOTDEV type).map Prod.snd) else none
  | .readi p ip writable dst off n =>
    if (s.inode ip).lock = some p then
      some ((s.fs.readi sb writable dst off.toNat n.toNat (s.inode ip)).map fun (_, _, i, fs) => s.set ip i fs)
    else none
  | .writei p ip src off n =>
    if (s.inode ip).lock = some p ∧ (s.inode ip).d.type ≠ T_DIR then
      some ((s.fs.writei sb src off.toNat n.toNat (s.inode ip)).map fun (_, i, fs) => s.set ip i fs)
    else none
  | .itrunc p ip =>
    if (s.inode ip).lock = some p ∧ (s.inode ip).d.type ≠ T_DIR then
      some ((s.fs.itrunc sb (s.inode ip)).map fun (i, fs) => s.set ip i fs)
    else none
  | .relink p ip major minor nlink =>
    if (s.inode ip).lock = some p then
      let i := s.inode ip
      let i := { i with d := { i.d with major := major, minor := minor, nlink := nlink } }
      some (.ok ((s.setInode ip i).iupdate sb ip))
    else none
  | .dirlink p dp name inum =>
    if (s.inode dp).lock = some p ∧ (s.inode dp).d.type = T_DIR then
      some ((s.dirlink sb p dp name inum).map Prod.snd)
    else none
  | .unlink p dp name =>
    if (s.inode dp).lock = some p ∧ (s.inode dp).d.type = T_DIR then
      some ((Dir.unlink sb name { dp := s.inode dp, fs := s.fs }).map fun d => s.set dp d.dp d.fs)
    else none

end Volume

end Xv6
