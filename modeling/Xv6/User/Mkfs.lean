import Xv6.Kernel.Log
import Xv6.Kernel.Names

/-!
# Mkfs — the program that builds a file system (`mkfs.c`)

The image is a file of the host, of `len` blocks; the host writes what it is told to.  `xshort` and `xint` give
numbers the byte order of the disk on every host, so that `dinode.load` and `dinode.store` read and write
inodes here too.  An assertion that fails and `die` are errors.
-/

namespace Xv6

abbrev FSSIZE : ℕ := 2000
abbrev NINODES : ℕ := 200
abbrev FSMAGIC : ℕ := 0x10203040

/-- The eight fields, four bytes each. -/
def superblock.store (sb : superblock) (m : Block) : Block :=
  (((((((m.store 0 4 sb.magic).store 4 4 sb.size).store 8 4 sb.nblocks).store 12 4 sb.ninodes).store 16 4
    sb.nlog).store 20 4 sb.logstart).store 24 4 sb.inodestart).store 28 4 sb.bmapstart

/-- `readsb` of the kernel, from block 1. -/
def readsb (blocks : ℕ → Block) : superblock :=
  let data := blocks 1
  { magic := data.load 0 4, size := data.load 4 4, nblocks := data.load 8 4, ninodes := data.load 12 4,
    nlog := data.load 16 4, logstart := data.load 20 4, inodestart := data.load 24 4,
    bmapstart := data.load 28 4 }

/-- A file of the host: its name on the command line, and what one `read` after the other returns. -/
structure HostFile where
  path : List UInt8
  reads : List (List UInt8)
  read_ok : ∀ buf ∈ reads, 0 < buf.length ∧ buf.length ≤ BSIZE

/-- The image, and the counters. -/
structure Mkfs where
  blocks : ℕ → Block
  len : ℕ
  freeinode : UInt32
  freeblock : UInt32

namespace Mkfs

def nbitmap : ℕ := FSSIZE / (BSIZE * 8) + 1
def ninodeblocks : ℕ := NINODES / IPB + 1
def nlog : ℕ := LOGSIZE

/-- The blocks before the data blocks. -/
def nmeta : ℕ := 2 + nlog + ninodeblocks + nbitmap

def nblocks : ℕ := FSSIZE - nmeta

def sb : superblock :=
  { magic := FSMAGIC, size := FSSIZE, nblocks := nblocks, ninodes := NINODES, nlog := nlog, logstart := 2,
    inodestart := 2 + nlog, bmapstart := 2 + nlog + ninodeblocks }

def wsect (sec : ℕ) (buf : Block) (s : Mkfs) : Mkfs :=
  { s with blocks := Function.update s.blocks sec buf, len := max s.len (sec + 1) }

/-- There is nothing to read behind the end of the image. -/
def rsect (sec : ℕ) (s : Mkfs) : Except Panic Block :=
  if sec < s.len then .ok (s.blocks sec) else .error "read"

def winode (inum : ℕ) (ip : dinode) (s : Mkfs) : Except Panic Mkfs := do
  let bn := IBLOCK inum sb
  let buf ← s.rsect bn
  .ok (s.wsect bn (ip.store buf (64 * (inum % IPB))))

def rinode (inum : ℕ) (s : Mkfs) : Except Panic dinode := do
  let bn := IBLOCK inum sb
  let buf ← s.rsect bn
  .ok (dinode.load buf (64 * (inum % IPB)))

def ialloc (type : Int16) (s : Mkfs) : Except Panic (UInt32 × Mkfs) := do
  let inum := s.freeinode
  let s := { s with freeinode := s.freeinode + 1 }
  let s ← s.winode inum.toNat { dinode.zero with type := type, nlink := 1, size := 0 }
  .ok (inum, s)

/-- `balloc`: the first `used` blocks have been allocated. -/
def balloc (used : ℕ) (s : Mkfs) : Except Panic Mkfs :=
  if used < BSIZE * 8 then
    .ok (s.wsect sb.bmapstart ((List.range used).foldl ByteStore.setBit fun _ => 0))
  else .error "used < BSIZE*8"

/-- `addrs[i]` is given a block if it has none. -/
def fill (i : ℕ) (din : dinode) (s : Mkfs) : dinode × Mkfs :=
  if din.addr i = 0 then
    (din.setAddr i s.freeblock.toNat, { s with freeblock := s.freeblock + 1 })
  else (din, s)

/-- The block number `x` of block `fbn` of the file. -/
def blockAt (fbn : ℕ) (din : dinode) (s : Mkfs) : Except Panic (ℕ × dinode × Mkfs) :=
  if fbn < NDIRECT then
    let (din, s) := s.fill fbn din
    .ok (din.addr fbn, din, s)
  else do
    let (din, s) := s.fill NDIRECT din
    let indirect ← s.rsect (din.addr NDIRECT)
    if indirect.load (4 * (fbn - NDIRECT)) 4 = 0 then
      let indirect := indirect.store (4 * (fbn - NDIRECT)) 4 s.freeblock.toNat
      let s := { s with freeblock := s.freeblock + 1 }.wsect (din.addr NDIRECT) indirect
      .ok (indirect.load (4 * (fbn - NDIRECT)) 4, din, s)
    else .ok (indirect.load (4 * (fbn - NDIRECT)) 4, din, s)

/-- The loop of `iappend`, for at most `fuel` rounds. -/
def appendLoop : ℕ → (ℕ → UInt8) → ℕ → ℕ → dinode → Mkfs → Except Panic (ℕ × dinode × Mkfs)
  | 0, _, _, off, din, s => .ok (off, din, s)
  | fuel + 1, p, n, off, din, s =>
    if 0 < n then
      let fbn := off / BSIZE
      if fbn < MAXFILE then do
        let (x, din, s) ← s.blockAt fbn din
        let n1 := min n ((fbn + 1) * BSIZE - off)
        let buf ← s.rsect x
        let s := s.wsect x (buf.blit (off - fbn * BSIZE) n1 p)
        appendLoop fuel (fun i => p (n1 + i)) (n - n1) (off + n1) din s
      else .error "fbn < MAXFILE"
    else .ok (off, din, s)

def iappend (inum : ℕ) (p : List UInt8) (s : Mkfs) : Except Panic Mkfs := do
  let din ← s.rinode inum
  let (off, din, s) ← appendLoop p.length (fun i => p.getD i 0) p.length din.size.toNat din s
  s.winode inum { din with size := UInt32.ofNat off }

/-- The 16 bytes of a `struct dirent`; `strcpy` of `"."` and `".."` stores the same bytes as `strncpy`. -/
def direntOf (inum : ℕ) (name : List UInt8) : List UInt8 :=
  (List.range 16).map
    (strncpy (ByteStore.store (fun _ => 0) 0 2 inum) 2 (fun i => name.getD i 0) DIRSIZ)

/-- `"user/"`. -/
def user : List UInt8 := [117, 115, 101, 114, 47]

/-- The name without `"user/"`. -/
def shortname (path : List UInt8) : List UInt8 :=
  if strncmp (fun i => path.getD i 0) (fun i => user.getD i 0) 5 = 0 then path.drop 5 else path

/-- The name that the file gets, without a leading `_`. -/
def fileName (path : List UInt8) : List UInt8 :=
  if (shortname path).head? = some 95 then (shortname path).tail else shortname path

/-- One round of the loop over the files. -/
def addFile (rootino : ℕ) (f : HostFile) (s : Mkfs) : Except Panic Mkfs :=
  if 47 ∈ shortname f.path then .error "index(shortname, '/') == 0"
  else do
    let (inum, s) ← s.ialloc T_FILE
    let s ← s.iappend rootino (direntOf inum.toNat (fileName f.path))
    f.reads.foldlM (fun s buf => s.iappend inum.toNat buf) s

/-- The image before the first inode: zeroes and the superblock. -/
def zeroed : Mkfs :=
  { blocks := Function.update (fun _ _ => 0) 1 (sb.store fun _ => 0), len := FSSIZE, freeinode := 1,
    freeblock := UInt32.ofNat nmeta }

/-- Fix size of root inode dir. -/
def fixRoot (rootino : ℕ) (s : Mkfs) : Except Panic Mkfs := do
  let din ← s.rinode rootino
  s.winode rootino { din with size := UInt32.ofNat ((din.size.toNat / BSIZE + 1) * BSIZE) }

def main (files : List HostFile) : Except Panic Mkfs := do
  let (rootino, s) ← zeroed.ialloc T_DIR
  if rootino ≠ ROOTINO then .error "rootino == ROOTINO"
  else
    let s ← s.iappend rootino.toNat (direntOf rootino.toNat [46])
    let s ← s.iappend rootino.toNat (direntOf rootino.toNat [46, 46])
    let s ← files.foldlM (fun s f => s.addFile rootino.toNat f) s
    let s ← s.fixRoot rootino.toNat
    s.balloc s.freeblock.toNat

/-- A call that changes files. -/
inductive Call where
  | ialloc (type : Int16)
  | iappend (inum : ℕ) (p : List UInt8)

def call (s : Mkfs) : Call → Except Panic Mkfs
  | .ialloc type => (s.ialloc type).map Prod.snd
  | .iappend inum p => s.iappend inum p

end Mkfs

end Xv6
