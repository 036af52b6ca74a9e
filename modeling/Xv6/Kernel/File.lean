import Xv6.Kernel.Proc
import Xv6.Lib.Slots

/-!
# File — open files (`file.c`, `pipe.c`, `sysfile.c`)

The file table, the pipes and the descriptor tables of the processes.  A call is one step.  What the
calls find elsewhere is part of their label: the inode of a path, whether a page is free, whether user
memory can be written.  Path names, the contents of files and pipes and the current directories are
left out.
-/

namespace Xv6

abbrev NFILE : ℕ := 100

inductive FileType where
  | FD_NONE | FD_PIPE | FD_INODE | FD_DEVICE
  deriving DecidableEq

/-- `struct file`.  A pipe is the number of the allocation of its page, an inode a number. -/
structure File where
  type : FileType
  ref : ℤ
  readable : Bool
  writable : Bool
  pipe : ℕ
  ip : ℕ
  off : ℕ
  major : ℤ

/-- The ends of a `struct pipe` that are open. -/
structure PipeEnds where
  readopen : Bool
  writeopen : Bool

/-- What `namei` or `create` finds for a path, with a reference for the caller. -/
structure OpenTarget where
  ip : ℕ
  device : Bool
  major : ℤ

/-- `ftable` and the pipes, of which `pipes` have been allocated so far.  The histories count, for
each pipe, the calls of `pipeclose` for an end and of `kfree` for its page, and, for each inode, the
references that `open` has got and that were put. -/
structure Ftable where
  file : Fin NFILE → File
  pipe : ℕ → PipeEnds
  pipes : ℕ
  closed : ℕ → Bool → ℕ
  kfreed : ℕ → ℕ
  got : ℕ → ℕ
  put : ℕ → ℕ

namespace Ftable

def fileinit : Ftable :=
  { file := fun _ => { type := .FD_NONE, ref := 0, readable := false, writable := false, pipe := 0,
                       ip := 0, off := 0, major := 0 },
    pipe := fun _ => { readopen := false, writeopen := false }, pipes := 0,
    closed := fun _ _ => 0, kfreed := fun _ => 0, got := fun _ => 0, put := fun _ => 0 }

/-- Overwrite a table entry. -/
def set (s : Ftable) (f : Fin NFILE) (v : File) : Ftable :=
  { s with file := Function.update s.file f v }

def filealloc (s : Ftable) : Option (Fin NFILE × Ftable) :=
  ((List.finRange NFILE).find? fun f => (s.file f).ref = 0).map fun f =>
    (f, s.set f { s.file f with ref := 1 })

def filedup (f : Fin NFILE) (s : Ftable) : Except Panic Ftable :=
  if (s.file f).ref < 1 then .error "filedup"
  else .ok (s.set f { s.file f with ref := int32 ((s.file f).ref + 1) })

/-- `namei` or `create` gives its caller a reference to an inode. -/
def iget (ip : ℕ) (s : Ftable) : Ftable :=
  { s with got := Function.update s.got ip (s.got ip + 1) }

def iput (ip : ℕ) (s : Ftable) : Ftable :=
  { s with put := Function.update s.put ip (s.put ip + 1) }

def kfree (pi : ℕ) (s : Ftable) : Ftable :=
  { s with kfreed := Function.update s.kfreed pi (s.kfreed pi + 1) }

def pipeclose (pi : ℕ) (writable : Bool) (s : Ftable) : Ftable :=
  let e := if writable then { s.pipe pi with writeopen := false }
    else { s.pipe pi with readopen := false }
  let s := { s with pipe := Function.update s.pipe pi e,
                    closed := Function.update s.closed pi
                      (Function.update (s.closed pi) writable (s.closed pi writable + 1)) }
  if e.readopen = false ∧ e.writeopen = false then s.kfree pi else s

def fileclose (f : Fin NFILE) (s : Ftable) : Except Panic Ftable :=
  let ff := s.file f
  if ff.ref < 1 then .error "fileclose"
  else if 0 < ff.ref - 1 then .ok (s.set f { ff with ref := ff.ref - 1 })
  else
    let s := s.set f { ff with ref := 0, type := .FD_NONE }
    match ff.type with
    | .FD_PIPE => .ok (s.pipeclose ff.pipe ff.writable)
    | .FD_INODE | .FD_DEVICE => .ok (s.iput ff.ip)
    | .FD_NONE => .ok s

/-- A new pipe in a page that `kalloc` has returned, with its two files. -/
def newPipe (f0 f1 : Fin NFILE) (s : Ftable) : Ftable :=
  let pi := s.pipes
  let s := { s with pipes := pi + 1,
                    pipe := Function.update s.pipe pi { readopen := true, writeopen := true } }
  let s := s.set f0 { s.file f0 with type := .FD_PIPE, readable := true, writable := false, pipe := pi }
  s.set f1 { s.file f1 with type := .FD_PIPE, readable := false, writable := true, pipe := pi }

/-- `pipealloc`; `page` tells whether `kalloc` finds one. -/
def pipealloc (page : Bool) (s : Ftable) : Except Panic (Option (Fin NFILE × Fin NFILE) × Ftable) :=
  match s.filealloc with
  | none => .ok (none, s)
  | some (f0, s) =>
    match s.filealloc with
    | none => do
      let s ← s.fileclose f0
      pure (none, s)
    | some (f1, s) =>
      if page then .ok (some (f0, f1), s.newPipe f0 f1)
      else do
        let s ← s.fileclose f0
        let s ← s.fileclose f1
        pure (none, s)

end Ftable

/-- The file table and the processes with their descriptors. -/
structure FileSys where
  tab : Ftable
  state : Fin NPROC → procstate
  ofile : Fin NPROC → Fin NOFILE → Option (Fin NFILE)

namespace FileSys

/-- The first process, without descriptors. -/
def userinit : FileSys :=
  { tab := Ftable.fileinit, state := Function.update (fun _ => .UNUSED) 0 .RUNNING,
    ofile := fun _ _ => none }

/-- `p->ofile[fd] = f`. -/
def setFd (s : FileSys) (p : Fin NPROC) (fd : Fin NOFILE) (f : Option (Fin NFILE)) : FileSys :=
  { s with ofile := Slots.set s.ofile p fd f }

def argfd (p : Fin NPROC) (n : ℤ) (s : FileSys) : Option (Fin NOFILE × Fin NFILE) :=
  if h : 0 ≤ n ∧ n < NOFILE then
    let fd : Fin NOFILE := ⟨n.toNat, by omega⟩
    (s.ofile p fd).map fun f => (fd, f)
  else none

def fdalloc (p : Fin NPROC) (f : Fin NFILE) (s : FileSys) : Option (Fin NOFILE × FileSys) :=
  ((List.finRange NOFILE).find? fun fd => s.ofile p fd = none).map fun fd =>
    (fd, s.setFd p fd (some f))

def sys_dup (p : Fin NPROC) (n : ℤ) (s : FileSys) : Except Panic (ℤ × FileSys) :=
  match s.argfd p n with
  | none => .ok (-1, s)
  | some (_, f) =>
    match s.fdalloc p f with
    | none => .ok (-1, s)
    | some (fd, s) => do
      let tab ← s.tab.filedup f
      pure (fd, { s with tab := tab })

def sys_close (p : Fin NPROC) (n : ℤ) (s : FileSys) : Except Panic (ℤ × FileSys) :=
  match s.argfd p n with
  | none => .ok (-1, s)
  | some (fd, f) => do
    let s := s.setFd p fd none
    let tab ← s.tab.fileclose f
    pure (0, { s with tab := tab })

/-- `sys_open`; the target is missing where the path cannot be opened with this mode. -/
def sys_open (p : Fin NPROC) (target : Option OpenTarget) (omode : ℕ) (s : FileSys) :
    Except Panic (ℤ × FileSys) :=
  match target with
  | none => .ok (-1, s)
  | some t =>
    let s := { s with tab := s.tab.iget t.ip }
    match s.tab.filealloc with
    | none => .ok (-1, { s with tab := s.tab.iput t.ip })
    | some (f, tab) =>
      let s := { s with tab := tab }
      match s.fdalloc p f with
      | none => do
        let tab ← s.tab.fileclose f
        pure (-1, { s with tab := tab.iput t.ip })
      | some (fd, s) =>
        let ff := s.tab.file f
        let ff := if t.device then { ff with type := .FD_DEVICE, major := t.major }
          else { ff with type := .FD_INODE, off := 0 }
        -- `O_WRONLY` is `1`, `O_RDWR` is `2`
        let ff := { ff with ip := t.ip, readable := !omode.testBit 0,
                            writable := omode.testBit 0 || omode.testBit 1 }
        .ok (fd, { s with tab := s.tab.set f ff })

/-- `sys_pipe`; `page` is for `kalloc`, `out` for the two calls of `copyout`. -/
def sys_pipe (p : Fin NPROC) (page out : Bool) (s : FileSys) : Except Panic (ℤ × FileSys) := do
  let (r, tab) ← s.tab.pipealloc page
  let s := { s with tab := tab }
  match r with
  | none => pure (-1, s)
  | some (rf, wf) =>
    match s.fdalloc p rf with
    | none =>
      let tab ← s.tab.fileclose rf
      let tab ← tab.fileclose wf
      pure (-1, { s with tab := tab })
    | some (fd0, s) =>
      match s.fdalloc p wf with
      | none =>
        let s := s.setFd p fd0 none
        let tab ← s.tab.fileclose rf
        let tab ← tab.fileclose wf
        pure (-1, { s with tab := tab })
      | some (fd1, s) =>
        if out then pure (0, s)
        else
          let s := (s.setFd p fd0 none).setFd p fd1 none
          let tab ← s.tab.fileclose rf
          let tab ← tab.fileclose wf
          pure (-1, { s with tab := tab })

/-- The loop of `fork` over the descriptors `fds`. -/
def dupFiles (p np : Fin NPROC) : List (Fin NOFILE) → FileSys → Except Panic FileSys
  | [], s => .ok s
  | fd :: fds, s =>
    match s.ofile p fd with
    | none => dupFiles p np fds s
    | some f => do
      let tab ← s.tab.filedup f
      dupFiles p np fds ({ s with tab := tab }.setFd np fd (some f))

/-- `fork`; `memory` tells whether `allocproc` and `uvmcopy` get their pages. -/
def fork (p : Fin NPROC) (memory : Bool) (s : FileSys) : Except Panic (ℤ × FileSys) :=
  match (List.finRange NPROC).find? fun i => s.state i = .UNUSED with
  | none => .ok (-1, s)
  | some np =>
    if memory then do
      let s ← dupFiles p np (List.finRange NOFILE) s
      pure (np, { s with state := Function.update s.state np .RUNNABLE })
    else .ok (-1, s)

/-- The loop of `exit` over the descriptors `fds`. -/
def closeFiles (p : Fin NPROC) : List (Fin NOFILE) → FileSys → Except Panic FileSys
  | [], s => .ok s
  | fd :: fds, s =>
    match s.ofile p fd with
    | none => closeFiles p fds s
    | some f => do
      let tab ← s.tab.fileclose f
      closeFiles p fds ({ s with tab := tab }.setFd p fd none)

def exit (p : Fin NPROC) (s : FileSys) : Except Panic FileSys := do
  let s ← closeFiles p (List.finRange NOFILE) s
  pure { s with state := Function.update s.state p .ZOMBIE }

end FileSys

inductive FileOp where
  | sys_open (p : Fin NPROC) (target : Option OpenTarget) (omode : ℕ)
  | sys_dup (p : Fin NPROC) (n : ℤ)
  | sys_pipe (p : Fin NPROC) (page out : Bool)
  | sys_close (p : Fin NPROC) (n : ℤ)
  | fork (p : Fin NPROC) (memory : Bool)
  | exit (p : Fin NPROC)
  /-- `wait` of the parent frees the slot of `p` -/
  | freeproc (p : Fin NPROC)

/-- The process makes calls. -/
def FileSys.alive (s : FileSys) (p : Fin NPROC) : Bool :=
  s.state p ≠ .UNUSED ∧ s.state p ≠ .ZOMBIE

def fileStep (s : FileSys) : FileOp → Option (Except Panic FileSys)
  | .sys_open p target omode =>
    if s.alive p then some ((s.sys_open p target omode).map Prod.snd) else none
  | .sys_dup p n => if s.alive p then some ((s.sys_dup p n).map Prod.snd) else none
  | .sys_pipe p page out => if s.alive p then some ((s.sys_pipe p page out).map Prod.snd) else none
  | .sys_close p n => if s.alive p then some ((s.sys_close p n).map Prod.snd) else none
  | .fork p memory => if s.alive p then some ((s.fork p memory).map Prod.snd) else none
  | .exit p => if s.alive p then some (s.exit p) else none
  | .freeproc p =>
    if s.state p = .ZOMBIE then some (.ok { s with state := Function.update s.state p .UNUSED })
    else none

end Xv6
