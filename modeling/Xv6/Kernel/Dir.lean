import Xv6.Kernel.Fs

/-!
# Dir — directories (`fs.c`, `string.c`, `sysfile.c`)

A string is what a `char *` points to.  `dirlookup` returns the number of the inode, of which it would
get a reference, and the offset of the entry.
-/

namespace Xv6

abbrev DIRSIZ : ℕ := 14
abbrev T_DIR : Int16 := 1

def strncmp (p q : ℕ → UInt8) : ℕ → ℤ
  | 0 => 0
  | n + 1 =>
    if p 0 ≠ 0 ∧ p 0 = q 0 then strncmp (fun i => p (i + 1)) (fun i => q (i + 1)) n
    else (p 0).toNat - (q 0).toNat

/-- `strncpy` to the address `s` of `m`. -/
def strncpy (m : ByteStore) (s : ℕ) (t : ℕ → UInt8) : ℕ → ByteStore
  | 0 => m
  | n + 1 =>
    let m : ByteStore := Function.update m s (t 0)
    if t 0 ≠ 0 then strncpy m (s + 1) (fun i => t (i + 1)) n else m.fill (s + 1) n 0

/-- `struct dirent` in 16 bytes: `inum` and `name`. -/
def dirent.inum (de : ByteStore) : ℕ := de.load 0 2

def dirent.name (de : ByteStore) (i : ℕ) : UInt8 := de (2 + i)

def namecmp (s t : ℕ → UInt8) : ℤ := strncmp s t DIRSIZ

namespace Fs

/-- The loop of `dirlookup` from offset `off` on, for at most `fuel` rounds. -/
def lookupLoop (sb : superblock) (name : ℕ → UInt8) :
    ℕ → ℕ → inode → Fs → Except Panic (Option (ℕ × ℕ) × inode × Fs)
  | 0, _, dp, s => .ok (none, dp, s)
  | fuel + 1, off, dp, s =>
    if off < dp.d.size.toNat then do
      let (r, de, dp, s) ← s.readi sb (fun _ => true) (fun _ => 0) off 16 dp
      if r ≠ 16 then .error "dirlookup read"
      else if dirent.inum de = 0 then lookupLoop sb name fuel (off + 16) dp s
      else if namecmp name (dirent.name de) = 0 then .ok (some (dirent.inum de, off), dp, s)
      else lookupLoop sb name fuel (off + 16) dp s
    else .ok (none, dp, s)

/-- Look for a directory entry in a directory. -/
def dirlookup (sb : superblock) (name : ℕ → UInt8) (dp : inode) (s : Fs) :
    Except Panic (Option (ℕ × ℕ) × inode × Fs) :=
  if dp.d.type ≠ T_DIR then .error "dirlookup not DIR"
  else s.lookupLoop sb name dp.d.size.toNat 0 dp

/-- The loop of `dirlink`: the offset of the first empty entry from `off` on. -/
def emptyLoop (sb : superblock) : ℕ → ℕ → inode → Fs → Except Panic (ℕ × inode × Fs)
  | 0, off, dp, s => .ok (off, dp, s)
  | fuel + 1, off, dp, s =>
    if off < dp.d.size.toNat then do
      let (r, de, dp, s) ← s.readi sb (fun _ => true) (fun _ => 0) off 16 dp
      if r ≠ 16 then .error "dirlink read"
      else if dirent.inum de = 0 then .ok (off, dp, s)
      else emptyLoop sb fuel (off + 16) dp s
    else .ok (off, dp, s)

/-- Write a new directory entry into the directory `dp`; `de` is what its buffer held. -/
def dirlink (sb : superblock) (de : ByteStore) (name : ℕ → UInt8) (inum : ℕ) (dp : inode) (s : Fs) :
    Except Panic (ℤ × inode × Fs) := do
  let (found, dp, s) ← s.dirlookup sb name dp
  if found.isSome then .ok (-1, dp, s)
  else
    let (off, dp, s) ← s.emptyLoop sb dp.d.size.toNat 0 dp
    let de := (strncpy de 2 name DIRSIZ).store 0 2 inum
    let (r, dp, s) ← s.writei sb (fun i => some (de i)) off 16 dp
    if r ≠ 16 then .ok (-1, dp, s) else .ok (0, dp, s)

/-- `sys_unlink` clears the entry at `off`. -/
def clearEntry (sb : superblock) (off : ℕ) (dp : inode) (s : Fs) : Except Panic (inode × Fs) := do
  let (r, dp, s) ← s.writei sb (fun _ => some 0) off 16 dp
  if r ≠ 16 then .error "unlink: writei" else .ok (dp, s)

end Fs

/-- A directory and its disk. -/
structure Dir where
  dp : inode
  fs : Fs

namespace Dir

inductive Op where
  | dirlink (de : ByteStore) (name : ℕ → UInt8) (inum : ℕ)
  /-- clear the entry that `dirlookup` finds -/
  | unlink (name : ℕ → UInt8)
  /-- other processes change other blocks, and the links of the inode -/
  | others (fs : Fs) (ref : ℕ) (nlink : Int16)

/-- The entry of `name` is cleared, if there is one. -/
def unlink (sb : superblock) (name : ℕ → UInt8) (d : Dir) : Except Panic Dir := do
  let (found, dp, fs) ← d.fs.dirlookup sb name d.dp
  match found with
  | none => .ok { dp := dp, fs := fs }
  | some (_, off) =>
    let (dp, fs) ← fs.clearEntry sb off dp
    .ok { dp := dp, fs := fs }

def step (sb : superblock) (d : Dir) : Op → Option (Except Panic Dir)
  | .dirlink de name inum =>
    some ((d.fs.dirlink sb de name inum d.dp).map fun (_, dp, fs) => { dp := dp, fs := fs })
  | .unlink name => some (d.unlink sb name)
  | .others fs ref nlink =>
    some (.ok { dp := { d.dp with ref := ref, d := { d.dp.d with nlink := nlink } }, fs := fs })

end Dir

end Xv6
