import Mathlib.Data.List.Basic
import Xv6.Kernel.Bio
import Xv6.Kernel.Inode
import Xv6.Lib.Bitmap

/-!
# Fs — blocks and the contents of inodes (`fs.c`)

`blocks` is what `bread` returns, `logged` the blocks that have been passed to `log_write`, the last
one first.  The functions on an inode run under its lock, on its copy of the disk inode.  A user
address range is the bytes that can be read, or the places that can be written, in it; a kernel
address range is one where every access succeeds.
-/

namespace Xv6

abbrev NINDIRECT : ℕ := 256
abbrev MAXFILE : ℕ := NDIRECT + NINDIRECT

/-- Inodes per block. -/
abbrev IPB : ℕ := 16

/-- Bitmap bits per block. -/
abbrev BPB : ℕ := 8192

/-- Block containing inode `i`. -/
def IBLOCK (i : ℕ) (sb : superblock) : ℕ := i / IPB + sb.inodestart

/-- Block of the free map containing the bit for block `b`. -/
def BBLOCK (b : ℕ) (sb : superblock) : ℕ := b / BPB + sb.bmapstart

namespace dinode

/-- `addrs[i]`. -/
def addr (d : dinode) (i : ℕ) : ℕ := if h : i < NDIRECT + 1 then (d.addrs ⟨i, h⟩).toNat else 0

def setAddr (d : dinode) (i b : ℕ) : dinode :=
  { d with addrs := fun j => if j.val = i then UInt32.ofNat b else d.addrs j }

theorem addr_setAddr {d : dinode} {i b r : ℕ} (hi : i ≤ NDIRECT) (hb : b < 2 ^ 32) :
    (d.setAddr i b).addr r = if r = i then b else d.addr r := by
  unfold addr setAddr
  by_cases hr : r < NDIRECT + 1
  · rw [dif_pos hr, dif_pos hr]
    show (if r = i then UInt32.ofNat b else d.addrs ⟨r, hr⟩).toNat = _
    split
    · exact UInt32.toNat_ofNat_of_lt' hb
    · rfl
  · rw [dif_neg hr, dif_neg hr, if_neg (by omega)]

/-- The disk inode in the 64 bytes at `a`. -/
def load (m : Block) (a : ℕ) : dinode :=
  { type := (UInt16.ofNat (m.load a 2)).toInt16, major := (UInt16.ofNat (m.load (a + 2) 2)).toInt16,
    minor := (UInt16.ofNat (m.load (a + 4) 2)).toInt16,
    nlink := (UInt16.ofNat (m.load (a + 6) 2)).toInt16, size := UInt32.ofNat (m.load (a + 8) 4),
    addrs := fun i => UInt32.ofNat (m.load (a + 12 + 4 * i) 4) }

def store (d : dinode) (m : Block) (a : ℕ) : Block :=
  let m := m.store a 2 d.type.toUInt16.toNat
  let m := m.store (a + 2) 2 d.major.toUInt16.toNat
  let m := m.store (a + 4) 2 d.minor.toUInt16.toNat
  let m := m.store (a + 6) 2 d.nlink.toUInt16.toNat
  let m := m.store (a + 8) 4 d.size.toNat
  m.blit (a + 12) 52 fun i => UInt8.ofNat (d.addr (i / 4) / 256 ^ (i % 4))

end dinode

/-- The number of the first `m` bytes that come before one that is not accessible. -/
def accessible (ok : ℕ → Bool) (m : ℕ) : ℕ := (List.range m).findIdx fun i => !ok i

/-- `either_copyin` of `m` bytes to `pos`; it copies up to the first byte that cannot be read. -/
def either_copyin (data : Block) (pos : ℕ) (src : ℕ → Option UInt8) (m : ℕ) : Bool × Block :=
  let k := accessible (fun i => (src i).isSome) m
  (k = m, data.blit pos k fun i => (src i).getD 0)

/-- `either_copyout` of `m` bytes to `pos`, up to the first place that cannot be written. -/
def either_copyout (dst : ByteStore) (writable : ℕ → Bool) (pos : ℕ) (src : ℕ → UInt8) (m : ℕ) :
    Bool × ByteStore :=
  let k := accessible (fun i => writable (pos + i)) m
  (k = m, dst.blit pos k src)

structure Fs where
  blocks : ℕ → Block
  logged : List ℕ

namespace Fs

/-- Change the data of the buffer of block `b`. -/
def setData (s : Fs) (b : ℕ) (data : Block) : Fs := { s with blocks := Function.update s.blocks b data }

/-- Change the data of the buffer of block `b` and `log_write` it. -/
def log_write (s : Fs) (b : ℕ) (data : Block) : Fs :=
  { s.setData b data with logged := b :: s.logged }

/-- Zero a block. -/
def bzero (s : Fs) (bno : ℕ) : Fs := s.log_write bno ((s.blocks bno).fill 0 BSIZE 0)

/-- Allocate a zeroed block: the first block below `sb.size` whose bit is clear, `0` if there is none. -/
def balloc (sb : superblock) (s : Fs) : ℕ × Fs :=
  match (List.range sb.size).find? fun b => !(s.blocks (BBLOCK b sb)).bit (b % BPB) with
  | some b => (b, (s.log_write (BBLOCK b sb) ((s.blocks (BBLOCK b sb)).setBit (b % BPB))).bzero b)
  | none => (0, s)

/-- Copy a modified in-memory inode to disk. -/
def iupdate (sb : superblock) (ip : inode) (s : Fs) : Fs :=
  let b := IBLOCK ip.inum.toNat sb
  s.log_write b (ip.d.store (s.blocks b) (64 * (ip.inum.toNat % IPB)))

/-- `addrs[i]`, with a block allocated for it if it is zero. -/
def blockAt (sb : superblock) (i : ℕ) (ip : inode) (s : Fs) : ℕ × inode × Fs :=
  let addr := ip.d.addr i
  if addr = 0 then
    let (addr, s) := s.balloc sb
    if addr = 0 then (0, ip, s) else (addr, { ip with d := ip.d.setAddr i addr }, s)
  else (addr, ip, s)

/-- The disk block of block `bn` of the inode, allocated if there is none; `0` if out of disk space. -/
def bmap (sb : superblock) (bn : ℕ) (ip : inode) (s : Fs) : Except Panic (ℕ × inode × Fs) :=
  if bn < NDIRECT then .ok (s.blockAt sb bn ip)
  else
    let bn := bn - NDIRECT
    if bn < NINDIRECT then
      let (ind, ip, s) := s.blockAt sb NDIRECT ip
      if ind = 0 then .ok (0, ip, s)
      else
        let addr := (s.blocks ind).load (4 * bn) 4
        if addr = 0 then
          let (addr, s) := s.balloc sb
          if addr = 0 then .ok (0, ip, s)
          else .ok (addr, ip, s.log_write ind ((s.blocks ind).store (4 * bn) 4 addr))
        else .ok (addr, ip, s)
    else .error "bmap: out of range"

/-- The loop of `readi`, for at most `fuel` rounds. -/
def readLoop (sb : superblock) (writable : ℕ → Bool) (n : ℕ) :
    ℕ → ℕ → ℕ → ByteStore → inode → Fs → Except Panic (ℤ × ByteStore × inode × Fs)
  | 0, tot, _, dst, ip, s => .ok (tot, dst, ip, s)
  | fuel + 1, tot, off, dst, ip, s =>
    if tot < n then do
      let (addr, ip, s) ← s.bmap sb (off / BSIZE) ip
      if addr = 0 then .ok (tot, dst, ip, s)
      else
        let m := min (n - tot) (BSIZE - off % BSIZE)
        let (ok, dst) := either_copyout dst writable tot (fun i => s.blocks addr (off % BSIZE + i)) m
        if ok then readLoop sb writable n fuel (tot + m) (off + m) dst ip s
        else .ok (-1, dst, ip, s)
    else .ok (tot, dst, ip, s)

/-- Read `n` bytes at `off` to `dst`. -/
def readi (sb : superblock) (writable : ℕ → Bool) (dst : ByteStore) (off n : ℕ) (ip : inode) (s : Fs) :
    Except Panic (ℤ × ByteStore × inode × Fs) :=
  let size := ip.d.size.toNat
  if size < off ∨ (off + n) % 2 ^ 32 < off then .ok (0, dst, ip, s)
  else
    let n := if size < (off + n) % 2 ^ 32 then size - off else n
    readLoop sb writable n n 0 off dst ip s

/-- The loop of `writei`, for at most `fuel` rounds.  A block that was not copied in full is not
passed to `log_write`. -/
def writeLoop (sb : superblock) (src : ℕ → Option UInt8) (n : ℕ) :
    ℕ → ℕ → ℕ → inode → Fs → Except Panic (ℕ × ℕ × inode × Fs)
  | 0, tot, off, ip, s => .ok (tot, off, ip, s)
  | fuel + 1, tot, off, ip, s =>
    if tot < n then do
      let (addr, ip, s) ← s.bmap sb (off / BSIZE) ip
      if addr = 0 then .ok (tot, off, ip, s)
      else
        let m := min (n - tot) (BSIZE - off % BSIZE)
        let (ok, data) := either_copyin (s.blocks addr) (off % BSIZE) (fun i => src (tot + i)) m
        if ok then writeLoop sb src n fuel (tot + m) (off + m) ip (s.log_write addr data)
        else .ok (tot, off, ip, s.setData addr data)
    else .ok (tot, off, ip, s)

/-- Write the `n` bytes of `src` at `off`. -/
def writei (sb : superblock) (src : ℕ → Option UInt8) (off n : ℕ) (ip : inode) (s : Fs) :
    Except Panic (ℤ × inode × Fs) :=
  if ip.d.size.toNat < off ∨ (off + n) % 2 ^ 32 < off then .ok (-1, ip, s)
  else if MAXFILE * BSIZE < (off + n) % 2 ^ 32 then .ok (-1, ip, s)
  else do
    let (tot, off, ip, s) ← writeLoop sb src n n 0 off ip s
    let ip := if ip.d.size.toNat < off then { ip with d := { ip.d with size := UInt32.ofNat off } } else ip
    .ok (tot, ip, s.iupdate sb ip)

end Fs

end Xv6
