import Xv6.Kernel.Fs
import Xv6.Kernel.Log

/-!
# FileIo — `fileread` and `filewrite` on a shared file (`file.c`)

Processes that share a `struct file` on an inode read and write through its offset.  What a call does
while it holds the lock of the inode is one step: all of `fileread`, and one round of the loop of
`filewrite`.  User buffers are accessible.  Other processes use other files, read this one through
files of their own, link and unlink it.
-/

namespace Xv6

/-- A call of `filewrite` that has written `i` of its `n` bytes. -/
structure WriteCall where
  id : ℕ
  src : ℕ → UInt8
  n : ℤ
  i : ℕ

/-- The bytes that one critical section has moved from or to the file at `start`. -/
structure Transfer where
  call : ℕ
  write : Bool
  start : ℕ
  data : List UInt8

/-- The offset and the inode of a `struct file`, its disk and the calls of the processes.  The histories
are the number of calls so far, the transfers in the order in which they ran, and the calls of
`filewrite` that have returned, with what they have returned. -/
structure SharedFile where
  readable : Bool
  writable : Bool
  off : ℕ
  ip : inode
  fs : Fs
  pc : ℕ → Option WriteCall
  calls : ℕ
  transfers : List Transfer
  returned : List (WriteCall × ℤ)

namespace SharedFile

/-- The most bytes that one round of `filewrite` writes. -/
abbrev maxWrite : ℕ := ((MAXOPBLOCKS - 1 - 1 - 2) / 2) * BSIZE

/-- `f->off += r` after a transfer of the `r` bytes of `data` for call `id`. -/
def advance (f : SharedFile) (id : ℕ) (write : Bool) (data : ℕ → UInt8) (r : ℤ) : SharedFile :=
  if 0 < r then
    { f with off := (f.off + r.toNat) % 2 ^ 32,
             transfers := f.transfers ++ [⟨id, write, f.off, (List.range r.toNat).map data⟩] }
  else f

/-- The call `c` of process `p` returns. -/
def ret (f : SharedFile) (p : ℕ) (c : WriteCall) (r : ℤ) : SharedFile :=
  { f with pc := Function.update f.pc p none, returned := (c, r) :: f.returned }

/-- `fileread` of `n` bytes to `dst`. -/
def fileread (sb : superblock) (dst : ByteStore) (n : ℤ) (f : SharedFile) : Except Panic SharedFile :=
  if f.readable = false then .ok f
  else do
    let (r, dst, ip, fs) ← f.fs.readi sb (fun _ => true) dst f.off (n % 2 ^ 32).toNat f.ip
    let f := { f with ip := ip, fs := fs }
    .ok { f.advance f.calls false dst r with calls := f.calls + 1 }

/-- `filewrite` by process `p` up to its loop. -/
def filewrite (p : ℕ) (src : ℕ → UInt8) (n : ℤ) (f : SharedFile) : SharedFile :=
  let c : WriteCall := { id := f.calls, src := src, n := n, i := 0 }
  let f := { f with calls := f.calls + 1 }
  if f.writable = false then f.ret p c (-1)
  else { f with pc := Function.update f.pc p (some c) }

/-- A round of the loop of `filewrite`, or the return behind it. -/
def writeRound (sb : superblock) (p : ℕ) (c : WriteCall) (f : SharedFile) : Except Panic SharedFile :=
  if c.i < c.n then do
    let n1 := min (c.n - c.i) maxWrite
    let (r, ip, fs) ← f.fs.writei sb (fun j => some (c.src (c.i + j))) f.off n1.toNat f.ip
    let f := { f with ip := ip, fs := fs }
    let f := f.advance c.id true (fun j => c.src (c.i + j)) r
    if r ≠ n1 then .ok (f.ret p c (if c.i = c.n then c.n else -1))
    else .ok { f with pc := Function.update f.pc p (some { c with i := c.i + r.toNat }) }
  else .ok (f.ret p c (if c.i = c.n then c.n else -1))

inductive Op where
  | fileread (p : ℕ) (dst : ByteStore) (n : ℤ)
  | filewrite (p : ℕ) (src : ℕ → UInt8) (n : ℤ)
  /-- the next round of the `filewrite` that `p` is in -/
  | run (p : ℕ)
  /-- another process reads the file -/
  | read (writable : ℕ → Bool) (dst : ByteStore) (off n : UInt32)
  /-- other processes change other blocks, and the links of the inode -/
  | others (fs : Fs) (ref : ℕ) (nlink : Int16)

def step (sb : superblock) (f : SharedFile) : Op → Option (Except Panic SharedFile)
  | .fileread p dst n => if f.pc p = none then some (f.fileread sb dst n) else none
  | .filewrite p src n => if f.pc p = none then some (.ok (f.filewrite p src n)) else none
  | .run p => (f.pc p).map fun c => f.writeRound sb p c
  | .read writable dst off n =>
    some ((f.fs.readi sb writable dst off.toNat n.toNat f.ip).map fun (_, _, ip, fs) =>
      { f with ip := ip, fs := fs })
  | .others fs ref nlink =>
    some (.ok { f with fs := fs, ip := { f.ip with ref := ref, d := { f.ip.d with nlink := nlink } } })

end SharedFile

end Xv6
