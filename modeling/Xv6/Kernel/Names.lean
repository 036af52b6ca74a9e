import Xv6.Kernel.Dir

/-!
# Names — the calls that take a path (`fs.c`, `sysfile.c`)

One call after the other, by process `p` with the current directory `cwd`.  A call that would have to
wait for the lock of an inode does not return.  A path is the list of its bytes; `none` is a path that
`argstr` cannot fetch.
-/

namespace Xv6

abbrev ROOTDEV : UInt32 := 1
abbrev ROOTINO : UInt32 := 1
abbrev T_FILE : Int16 := 2
abbrev T_DEVICE : Int16 := 3

namespace Fs

/-- Free a disk block. -/
def bfree (sb : superblock) (b : ℕ) (s : Fs) : Except Panic Fs :=
  let bp := s.blocks (BBLOCK b sb)
  if bp.bit (b % BPB) = false then .error "freeing free block"
  else .ok (s.log_write (BBLOCK b sb) (bp.clearBit (b % BPB)))

/-- The first loop of `itrunc`: `n` direct blocks from `i` on. -/
def truncDirect (sb : superblock) : ℕ → ℕ → inode → Fs → Except Panic (inode × Fs)
  | 0, _, ip, s => .ok (ip, s)
  | n + 1, i, ip, s =>
    if ip.d.addr i ≠ 0 then do
      let s ← s.bfree sb (ip.d.addr i)
      truncDirect sb n (i + 1) { ip with d := ip.d.setAddr i 0 } s
    else truncDirect sb n (i + 1) ip s

/-- The second loop: `n` entries of the indirect block from `j` on. -/
def truncIndirect (sb : superblock) (ind : ℕ) : ℕ → ℕ → Fs → Except Panic Fs
  | 0, _, s => .ok s
  | n + 1, j, s =>
    let a := (s.blocks ind).load (4 * j) 4
    if a ≠ 0 then do
      let s ← s.bfree sb a
      truncIndirect sb ind n (j + 1) s
    else truncIndirect sb ind n (j + 1) s

/-- Truncate an inode. -/
def itrunc (sb : superblock) (ip : inode) (s : Fs) : Except Panic (inode × Fs) := do
  let (ip, s) ← truncDirect sb NDIRECT 0 ip s
  let ind := ip.d.addr NDIRECT
  let (ip, s) ← (if ind ≠ 0 then do
      let s ← truncIndirect sb ind NINDIRECT 0 s
      let s ← s.bfree sb ind
      return ({ ip with d := ip.d.setAddr NDIRECT 0 }, s)
    else return (ip, s) : Except Panic (inode × Fs))
  let ip := { ip with d := { ip.d with size := 0 } }
  return (ip, s.iupdate sb ip)

/-- The disk inode `inum`. -/
def dinodeAt (sb : superblock) (s : Fs) (inum : ℕ) : dinode :=
  dinode.load (s.blocks (IBLOCK inum sb)) (64 * (inum % IPB))

/-- The loop of `isdirempty` from offset `off` on, for at most `fuel` rounds. -/
def emptyDirLoop (sb : superblock) : ℕ → ℕ → inode → Fs → Except Panic (Bool × inode × Fs)
  | 0, _, dp, s => .ok (true, dp, s)
  | fuel + 1, off, dp, s =>
    if off < dp.d.size.toNat then do
      let (r, de, dp, s) ← s.readi sb (fun _ => true) (fun _ => 0) off 16 dp
      if r ≠ 16 then .error "isdirempty: readi"
      else if dirent.inum de ≠ 0 then .ok (false, dp, s)
      else emptyDirLoop sb fuel (off + 16) dp s
    else .ok (true, dp, s)

/-- Is the directory empty except for `"."` and `".."`? -/
def isdirempty (sb : superblock) (dp : inode) (s : Fs) : Except Panic (Bool × inode × Fs) :=
  emptyDirLoop sb dp.d.size.toNat 32 dp s

end Fs

/-- The inode table, and the blocks. -/
structure Volume where
  inode : Fin NINODE → inode
  fs : Fs

/-- A string as what a `char *` points to. -/
def chars (name : List UInt8) (i : ℕ) : UInt8 := name.getD i 0

/-- The next path element, at most `DIRSIZ` bytes of it, and the path behind it. -/
def skipelem (path : List UInt8) : Option (List UInt8 × List UInt8) :=
  let path := path.dropWhile (· = 47)
  if path = [] then none
  else some ((path.takeWhile (· ≠ 47)).take DIRSIZ, (path.dropWhile (· ≠ 47)).dropWhile (· = 47))

namespace Volume

/-- Change an entry of the table, and the blocks. -/
def set (s : Volume) (ip : Fin NINODE) (i : Xv6.inode) (fs : Fs) : Volume :=
  { inode := Function.update s.inode ip i, fs := fs }

/-- Change an entry of the table. -/
def setInode (s : Volume) (ip : Fin NINODE) (i : Xv6.inode) : Volume := s.set ip i s.fs

def iget (dev inum : UInt32) (s : Volume) : Except Panic (Fin NINODE × Volume) :=
  match (List.finRange NINODE).find? fun ip =>
      0 < (s.inode ip).ref ∧ (s.inode ip).dev = dev ∧ (s.inode ip).inum = inum with
  | some ip => .ok (ip, s.setInode ip { s.inode ip with ref := (s.inode ip).ref + 1 })
  | none =>
    match (List.finRange NINODE).find? fun ip => (s.inode ip).ref = 0 with
    | none => .error "iget: no inodes"
    | some ip =>
      .ok (ip, s.setInode ip { s.inode ip with dev := dev, inum := inum, ref := 1, valid := false })

def idup (ip : Fin NINODE) (s : Volume) : Volume :=
  s.setInode ip { s.inode ip with ref := (s.inode ip).ref + 1 }

variable (sb : superblock) (p : ℕ) (cwd : Fin NINODE)

def ilock (ip : Fin NINODE) (s : Volume) : Except Panic Volume :=
  let i := s.inode ip
  if i.ref < 1 then .error "ilock"
  else if i.lock ≠ none then .error "acquiresleep"
  else if i.valid then .ok (s.setInode ip { i with lock := some p })
  else
    let d := s.fs.dinodeAt sb i.inum.toNat
    if d.type = 0 then .error "ilock: no type"
    else .ok (s.setInode ip { i with lock := some p, d := d, valid := true })

def iunlock (ip : Fin NINODE) (s : Volume) : Except Panic Volume :=
  let i := s.inode ip
  if i.lock ≠ some p ∨ i.ref < 1 then .error "iunlock" else .ok (s.setInode ip { i with lock := none })

def iupdate (ip : Fin NINODE) (s : Volume) : Volume :=
  { s with fs := s.fs.iupdate sb (s.inode ip) }

/-- Drop a reference.  Waiting for the inode in the middle of it, under `itable.lock`, is a panic. -/
def iput (ip : Fin NINODE) (s : Volume) : Except Panic Volume :=
  let i := s.inode ip
  if i.ref = 1 ∧ i.valid = true ∧ i.d.nlink = 0 then
    if i.lock ≠ none then .error "sched locks"
    else do
      let (i, fs) ← s.fs.itrunc sb { i with lock := some p }
      let i := { i with d := { i.d with type := 0 } }
      let fs := fs.iupdate sb i
      return s.set ip { i with valid := false, lock := none, ref := i.ref - 1 } fs
  else return s.setInode ip { i with ref := i.ref - 1 }

def iunlockput (ip : Fin NINODE) (s : Volume) : Except Panic Volume := do
  let s ← s.iunlock p ip
  s.iput sb p ip

/-- The loop of `ialloc`: `n` inodes from `inum` on. -/
def iallocLoop (dev : UInt32) (type : Int16) :
    ℕ → ℕ → Volume → Except Panic (Option (Fin NINODE) × Volume)
  | 0, _, s => .ok (none, s)
  | n + 1, inum, s =>
    if (s.fs.dinodeAt sb inum).type = 0 then do
      let b := IBLOCK inum sb
      let fs := s.fs.log_write b
        (({ dinode.zero with type := type } : dinode).store (s.fs.blocks b) (64 * (inum % IPB)))
      let (ip, s) ← iget dev (UInt32.ofNat inum) { s with fs := fs }
      return (some ip, s)
    else iallocLoop dev type n (inum + 1) s

def ialloc (dev : UInt32) (type : Int16) (s : Volume) : Except Panic (Option (Fin NINODE) × Volume) :=
  iallocLoop sb dev type (sb.ninodes - 1) 1 s

/-- `dirlookup` with the reference that it returns. -/
def dirlookup (dp : Fin NINODE) (name : ℕ → UInt8) (s : Volume) :
    Except Panic (Option (Fin NINODE × ℕ) × Volume) := do
  let (found, i, fs) ← s.fs.dirlookup sb name (s.inode dp)
  let s := s.set dp i fs
  match found with
  | none => return (none, s)
  | some (inum, off) =>
    let (ip, s) ← s.iget (s.inode dp).dev (UInt32.ofNat inum)
    return (some (ip, off), s)

/-- Write an entry; all bytes of its buffer are set. -/
def dirlink (dp : Fin NINODE) (name : ℕ → UInt8) (inum : ℕ) (s : Volume) :
    Except Panic (ℤ × Volume) := do
  let (found, s) ← s.dirlookup sb dp name
  match found with
  | some (ip, _) =>
    let s ← s.iput sb p ip
    return (-1, s)
  | none =>
    let (off, i, fs) ← s.fs.emptyLoop sb (s.inode dp).d.size.toNat 0 (s.inode dp)
    let de := (strncpy (fun _ => 0) 2 name DIRSIZ).store 0 2 inum
    let (r, i, fs) ← fs.writei sb (fun k => some (de k)) off 16 i
    return (if r ≠ 16 then -1 else 0, s.set dp i fs)

/-- The loop of `namex`, for at most `fuel` path elements. -/
def namexLoop (nameiparent : Bool) : ℕ → List UInt8 → Fin NINODE → Volume →
    Except Panic (Option (Fin NINODE × List UInt8) × Volume)
  | 0, _, _, _ => .error "namex"
  | fuel + 1, path, ip, s =>
    match skipelem path with
    | none =>
      if nameiparent then do
        let s ← s.iput sb p ip
        return (none, s)
      else return (some (ip, []), s)
    | some (name, path) => do
      let s ← s.ilock sb p ip
      if (s.inode ip).d.type ≠ T_DIR then
        let s ← s.iunlockput sb p ip
        return (none, s)
      else if nameiparent = true ∧ path = [] then
        -- one level early
        let s ← s.iunlock p ip
        return (some (ip, name), s)
      else
        let (next, s) ← s.dirlookup sb ip (chars name)
        let s ← s.iunlockput sb p ip
        match next with
        | none => return (none, s)
        | some (next, _) => namexLoop nameiparent fuel path next s

/-- Look up a path: its inode, or the one of its parent and the last element. -/
def namex (path : List UInt8) (nameiparent : Bool) (s : Volume) :
    Except Panic (Option (Fin NINODE × List UInt8) × Volume) := do
  let (ip, s) ← (if path.head? = some 47 then s.iget ROOTDEV ROOTINO else return (cwd, s.idup cwd) :
    Except Panic (Fin NINODE × Volume))
  namexLoop sb p nameiparent (path.length + 1) path ip s

def namei (path : List UInt8) (s : Volume) : Except Panic (Option (Fin NINODE) × Volume) := do
  let (o, s) ← s.namex sb p cwd path false
  return (o.map Prod.fst, s)

def nameiparent (path : List UInt8) (s : Volume) :
    Except Panic (Option (Fin NINODE × List UInt8) × Volume) :=
  s.namex sb p cwd path true

/-- `ip->nlink += k` and `iupdate`. -/
def addLink (ip : Fin NINODE) (k : Int16) (s : Volume) : Volume :=
  let i := s.inode ip
  (s.setInode ip { i with d := { i.d with nlink := i.d.nlink + k } }).iupdate sb ip

/-- The end of `sys_link` where it has failed. -/
def linkBad (ip : Fin NINODE) (s : Volume) : Except Panic (ℤ × Volume) := do
  let s ← s.ilock sb p ip
  let s ← (s.addLink sb ip (-1)).iunlockput sb p ip
  return (-1, s)

def sys_link (old new : Option (List UInt8)) (s : Volume) : Except Panic (ℤ × Volume) :=
  match old, new with
  | some old, some new => do
    let (found, s) ← s.namei sb p cwd old
    match found with
    | none => return (-1, s)
    | some ip =>
      let s ← s.ilock sb p ip
      if (s.inode ip).d.type = T_DIR then
        let s ← s.iunlockput sb p ip
        return (-1, s)
      else
        let s ← (s.addLink sb ip 1).iunlock p ip
        let (parent, s) ← s.nameiparent sb p cwd new
        match parent with
        | none => s.linkBad sb p ip
        | some (dp, name) =>
          let s ← s.ilock sb p dp
          let (r, s) ← (if (s.inode dp).dev ≠ (s.inode ip).dev then return (-1, s)
            else s.dirlink sb p dp (chars name) (s.inode ip).inum.toNat : Except Panic (ℤ × Volume))
          let s ← s.iunlockput sb p dp
          if r < 0 then s.linkBad sb p ip
          else
            let s ← s.iput sb p ip
            return (0, s)
  | _, _ => .ok (-1, s)

/-- The end of `sys_unlink` where it has failed. -/
def unlinkBad (dp : Fin NINODE) (s : Volume) : Except Panic (ℤ × Volume) := do
  let s ← s.iunlockput sb p dp
  return (-1, s)

def sys_unlink (path : Option (List UInt8)) (s : Volume) : Except Panic (ℤ × Volume) :=
  match path with
  | none => .ok (-1, s)
  | some path => do
    let (parent, s) ← s.nameiparent sb p cwd path
    match parent with
    | none => return (-1, s)
    | some (dp, name) =>
      let s ← s.ilock sb p dp
      if namecmp (chars name) (chars [46]) = 0 ∨ namecmp (chars name) (chars [46, 46]) = 0 then
        s.unlinkBad sb p dp
      else
        let (found, s) ← s.dirlookup sb dp (chars name)
        match found with
        | none => s.unlinkBad sb p dp
        | some (ip, off) =>
          let s ← s.ilock sb p ip
          if (s.inode ip).d.nlink < 1 then .error "unlink: nlink < 1"
          else
            let (empty, s) ← (if (s.inode ip).d.type = T_DIR then do
                let (empty, i, fs) ← s.fs.isdirempty sb (s.inode ip)
                return (empty, s.set ip i fs)
              else return (true, s) : Except Panic (Bool × Volume))
            if empty = false then
              let s ← s.iunlockput sb p ip
              s.unlinkBad sb p dp
            else
              let (i, fs) ← s.fs.clearEntry sb off (s.inode dp)
              let s := s.set dp i fs
              let s := if (s.inode ip).d.type = T_DIR then s.addLink sb dp (-1) else s
              let s ← s.iunlockput sb p dp
              let s ← (s.addLink sb ip (-1)).iunlockput sb p ip
              return (0, s)

/-- The end of `create` where it has failed. -/
def createFail (dp ip : Fin NINODE) (s : Volume) : Except Panic (Option (Fin NINODE) × Volume) := do
  let i := s.inode ip
  let s := (s.setInode ip { i with d := { i.d with nlink := 0 } }).iupdate sb ip
  let s ← s.iunlockput sb p ip
  let s ← s.iunlockput sb p dp
  return (none, s)

/-- The entries that a new inode needs: `"."` and `".."` of a directory, and its own in `dp`. -/
def linkNew (dp ip : Fin NINODE) (type : Int16) (name : List UInt8) (s : Volume) :
    Except Panic (ℤ × Volume) := do
  let (r, s) ← (if type = T_DIR then do
      let (r, s) ← s.dirlink sb p ip (chars [46]) (s.inode ip).inum.toNat
      if r < 0 then return (r, s)
      else s.dirlink sb p ip (chars [46, 46]) (s.inode dp).inum.toNat
    else return (0, s) : Except Panic (ℤ × Volume))
  if r < 0 then return (r, s)
  else s.dirlink sb p dp (chars name) (s.inode ip).inum.toNat

def create (path : List UInt8) (type major minor : Int16) (s : Volume) :
    Except Panic (Option (Fin NINODE) × Volume) := do
  let (parent, s) ← s.nameiparent sb p cwd path
  match parent with
  | none => return (none, s)
  | some (dp, name) =>
    let s ← s.ilock sb p dp
    let (found, s) ← s.dirlookup sb dp (chars name)
    match found with
    | some (ip, _) =>
      let s ← s.iunlockput sb p dp
      let s ← s.ilock sb p ip
      if type = T_FILE ∧ ((s.inode ip).d.type = T_FILE ∨ (s.inode ip).d.type = T_DEVICE) then
        return (some ip, s)
      else
        let s ← s.iunlockput sb p ip
        return (none, s)
    | none =>
      let (new, s) ← s.ialloc sb (s.inode dp).dev type
      match new with
      | none =>
        let s ← s.iunlockput sb p dp
        return (none, s)
      | some ip =>
        let s ← s.ilock sb p ip
        let i := s.inode ip
        let i := { i with d := { i.d with major := major, minor := minor, nlink := 1 } }
        let (r, s) ← ((s.setInode ip i).iupdate sb ip).linkNew sb p dp ip type name
        if r < 0 then s.createFail sb p dp ip
        else
          let s := if type = T_DIR then s.addLink sb dp 1 else s
          let s ← s.iunlockput sb p dp
          return (some ip, s)

/-- `sys_mkdir` and `sys_mknod`. -/
def sysCreate (path : Option (List UInt8)) (type major minor : Int16) (s : Volume) :
    Except Panic (ℤ × Volume) :=
  match path with
  | none => .ok (-1, s)
  | some path => do
    let (new, s) ← s.create sb p cwd path type major minor
    match new with
    | none => return (-1, s)
    | some ip =>
      let s ← s.iunlockput sb p ip
      return (0, s)

def sys_mkdir (path : Option (List UInt8)) (s : Volume) : Except Panic (ℤ × Volume) :=
  s.sysCreate sb p cwd path T_DIR 0 0

def sys_mknod (path : Option (List UInt8)) (major minor : Int16) (s : Volume) :
    Except Panic (ℤ × Volume) :=
  s.sysCreate sb p cwd path T_DEVICE major minor

end Volume

end Xv6
