import Xv6.Kernel.Cow
import Xv6.Kernel.Fs

/-!
# FileCache — a file between the buffer cache and the disk

An inode with the blocks as `bread` returns them and the blocks on the disk.  Only a buffer that has been
passed to `log_write` is pinned; any other one can be recycled, and then the next `bread` returns what is
on the disk.
-/

namespace Xv6

/-- The byte at the user address `srcva + i`, `none` if its page is not mapped. -/
def userSrc (pagetable srcva : ℕ) (s : Phys) (i : ℕ) : Option UInt8 :=
  let pa0 := walkaddr pagetable (PGROUNDDOWN (srcva + i)) s
  if pa0 = 0 then none else some (s.mem (pa0 + (srcva + i) % PGSIZE))

structure FileCache where
  ip : inode
  fs : Fs
  disk : ℕ → Block

namespace FileCache

/-- `bget` recycles the buffer of block `b`, and `bread` reads the block again. -/
def recycle (c : FileCache) (b : ℕ) : FileCache := { c with fs := c.fs.setData b (c.disk b) }

/-- The last `end_op` writes the blocks in the log to the disk. -/
def commit (c : FileCache) : FileCache :=
  { c with fs := { c.fs with logged := [] },
           disk := fun b => if b ∈ c.fs.logged then c.fs.blocks b else c.disk b }

inductive Op where
  | recycle (b : ℕ)
  | commit
  /-- a process reads the file -/
  | readi (writable : ℕ → Bool) (dst : ByteStore) (off n : UInt32)
  /-- other processes change other blocks -/
  | others (fs : Fs) (disk : ℕ → Block)

def step (sb : superblock) (c : FileCache) : Op → Option (Except Panic FileCache)
  | .recycle b => if b ∈ c.fs.logged then none else some (.ok (c.recycle b))
  | .commit => some (.ok c.commit)
  | .readi writable dst off n =>
    some ((c.fs.readi sb writable dst off.toNat n.toNat c.ip).map fun (_, _, ip, fs) =>
      { c with ip := ip, fs := fs })
  | .others fs disk => some (.ok { c with fs := fs, disk := disk })

end FileCache

end Xv6
