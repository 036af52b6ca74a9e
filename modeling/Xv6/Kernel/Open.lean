import Xv6.Kernel.File
import Xv6.Kernel.Names

/-!
# Open — `sys_open` (`sysfile.c`)

`sys_open` works on the volume, the file table and the descriptors of the caller.  `f->ip` is held as
the number of the entry of the inode table, `omode` as the bits of the `int`.
-/

namespace Xv6

abbrev NDEV : Int16 := 10

/-- The volume, and the file table with the descriptors of the processes. -/
structure OpenSys where
  vol : Volume
  sys : FileSys

namespace OpenSys

/-- `fcntl.h`, as bits of an `int`. -/
abbrev O_RDONLY : UInt32 := 0x000
abbrev O_WRONLY : UInt32 := 0x001
abbrev O_RDWR : UInt32 := 0x002
abbrev O_CREATE : UInt32 := 0x200
abbrev O_TRUNC : UInt32 := 0x400

variable (sb : superblock) (p : Fin NPROC) (cwd : Fin NINODE)

def setVol (s : OpenSys) (vol : Volume) : OpenSys := { s with vol := vol }

def setTab (s : OpenSys) (tab : Ftable) : OpenSys := { s with sys := { s.sys with tab := tab } }

def iunlockput (ip : Fin NINODE) (s : OpenSys) : Except Panic OpenSys := do
  let vol ← s.vol.iunlockput sb p ip
  return s.setVol vol

/-- Close a file; its inode is put with the last reference. -/
def fileclose (f : Fin NFILE) (s : OpenSys) : Except Panic OpenSys := do
  let ff := s.sys.tab.file f
  let tab ← s.sys.tab.fileclose f
  let s := s.setTab tab
  if ff.ref = 1 ∧ (ff.type = .FD_INODE ∨ ff.type = .FD_DEVICE) then
    let vol ← s.vol.iput sb p (⟨ff.ip % NINODE, Nat.mod_lt _ (by decide)⟩)
    return s.setVol vol
  else return s

/-- `create` or `namei`: the inode of a path, locked. -/
def openPath (path : List UInt8) (omode : UInt32) (s : Volume) :
    Except Panic (Option (Fin NINODE) × Volume) :=
  if omode &&& O_CREATE ≠ 0 then s.create sb p cwd path T_FILE 0 0
  else do
    let (found, s) ← s.namei sb p cwd path
    match found with
    | none => return (none, s)
    | some ip =>
      let s ← s.ilock sb p ip
      if (s.inode ip).d.type = T_DIR ∧ omode ≠ O_RDONLY then
        let s ← s.iunlockput sb p ip
        return (none, s)
      else return (some ip, s)

/-- `filealloc` and `fdalloc`.  On failure the file is closed again. -/
def openFile (s : OpenSys) : Except Panic (Option (Fin NFILE × Fin NOFILE) × OpenSys) :=
  match s.sys.tab.filealloc with
  | none => return (none, s)
  | some (f, tab) =>
    let s := s.setTab tab
    match s.sys.fdalloc p f with
    | none => do
      let s ← s.fileclose sb p f
      return (none, s)
    | some (fd, sys) => return (some (f, fd), { s with sys := sys })

/-- Set the fields of `struct file` for the inode `ip` with the contents `d`. -/
def setFile (f : Fin NFILE) (ip : Fin NINODE) (d : dinode) (omode : UInt32) (s : OpenSys) : OpenSys :=
  let ff := s.sys.tab.file f
  let ff := if d.type = T_DEVICE then { ff with type := .FD_DEVICE, major := d.major.toInt }
    else { ff with type := .FD_INODE, off := 0 }
  s.setTab (s.sys.tab.set f { ff with
    ip := ip, readable := omode &&& O_WRONLY = 0,
    writable := omode &&& O_WRONLY ≠ 0 ∨ omode &&& O_RDWR ≠ 0 })

/-- The rest of `sys_open` for the inode `ip`, which is locked. -/
def openInode (ip : Fin NINODE) (omode : UInt32) (s : OpenSys) : Except Panic (ℤ × OpenSys) :=
  let d := (s.vol.inode ip).d
  if d.type = T_DEVICE ∧ (d.major < 0 ∨ NDEV ≤ d.major) then do
    let s ← s.iunlockput sb p ip
    return (-1, s)
  else do
    let (file, s) ← s.openFile sb p
    match file with
    | none =>
      let s ← s.iunlockput sb p ip
      return (-1, s)
    | some (f, fd) =>
      let s := s.setFile f ip d omode
      let vol ← (if omode &&& O_TRUNC ≠ 0 ∧ d.type = T_FILE then do
          let (i, fs) ← s.vol.fs.itrunc sb (s.vol.inode ip)
          return s.vol.set ip i fs
        else return s.vol : Except Panic Volume)
      let vol ← vol.iunlock p ip
      return (fd, s.setVol vol)

def sys_open (path : Option (List UInt8)) (omode : UInt32) (s : OpenSys) : Except Panic (ℤ × OpenSys) :=
  match path with
  | none => return (-1, s)
  | some path => do
    let (found, vol) ← openPath sb p cwd path omode s.vol
    let s := s.setVol vol
    match found with
    | none => return (-1, s)
    | some ip => s.openInode sb p ip omode

end OpenSys

end Xv6
