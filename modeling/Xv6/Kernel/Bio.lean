import Mathlib.Logic.Function.Basic
import Xv6.Kernel.Riscv

/-!
# Bio — disk blocks and the buffer cache (`fs.h`, `bio.c`)

A block is its bytes at the offsets below `BSIZE`.  The buffer cache is held as the contents of the
valid buffers and, for each block, the number of pins that keep its buffer from being recycled.
-/

namespace Xv6

abbrev BSIZE : ℕ := 1024

abbrev Block := ByteStore

structure superblock where
  magic : ℕ
  size : ℕ
  nblocks : ℕ
  ninodes : ℕ
  nlog : ℕ
  logstart : ℕ
  inodestart : ℕ
  bmapstart : ℕ

/-- The disk and the buffer cache in front of it. -/
structure Bufs where
  disk : ℕ → Block
  cache : ℕ → Option Block
  refcnt : ℕ → ℕ

namespace Bufs

/-- The cache of a machine that has just been switched on. -/
def binit (disk : ℕ → Block) : Bufs := { disk := disk, cache := fun _ => none, refcnt := fun _ => 0 }

/-- `bread`: the contents of block `b`, read from the disk if it has no valid buffer. -/
def bread (s : Bufs) (b : ℕ) : Block × Bufs :=
  match s.cache b with
  | some data => (data, s)
  | none => (s.disk b, { s with cache := Function.update s.cache b (some (s.disk b)) })

/-- Overwrite the data of the buffer of block `b`. -/
def setData (s : Bufs) (b : ℕ) (data : Block) : Bufs :=
  { s with cache := Function.update s.cache b (some data) }

/-- `bwrite`: write the buffer of block `b`, which holds `data`, to the disk. -/
def bwrite (s : Bufs) (b : ℕ) (data : Block) : Bufs :=
  { s.setData b data with disk := Function.update s.disk b data }

def bpin (s : Bufs) (b : ℕ) : Bufs :=
  { s with refcnt := Function.update s.refcnt b (s.refcnt b + 1) }

def bunpin (s : Bufs) (b : ℕ) : Bufs :=
  { s with refcnt := Function.update s.refcnt b (s.refcnt b - 1) }

/-- `bget` recycles the buffer of block `b`, which nobody refers to. -/
def recycle (s : Bufs) (b : ℕ) : Bufs := { s with cache := Function.update s.cache b none }

end Bufs

end Xv6
