import Mathlib.Data.Fintype.Basic
import Mathlib.Data.List.FinRange
import Mathlib.Logic.Function.Basic
import Mathlib.Data.Nat.Notation
import Xv6.Kernel.Riscv

/-!
# Inode — the inode table (`fs.c`)

Processes get, duplicate, lock, change, unlock and put inodes, and allocate new ones.  `disk` is what
`bread` returns: the inodes on disk with everything that has been logged.  `iget`, `idup` and the two
parts of `iput` run under `itable.lock`, the copying between an inode and its disk inode under the lock
of the buffer; everything between two of these is a step of its own.
-/

namespace Xv6

abbrev NDIRECT : ℕ := 12

structure dinode where
  type : Int16
  major : Int16
  minor : Int16
  nlink : Int16
  size : UInt32
  addrs : Fin (NDIRECT + 1) → UInt32
  deriving DecidableEq

/-- `memset(dip, 0, sizeof(*dip))`. -/
def dinode.zero : dinode :=
  { type := 0, major := 0, minor := 0, nlink := 0, size := 0, addrs := fun _ => 0 }

abbrev NINODE : ℕ := 50

/-- `struct inode`; `lock` is its sleep-lock, `d` the copy of the disk inode. -/
structure inode where
  dev : UInt32
  inum : UInt32
  ref : ℕ
  lock : Option ℕ
  valid : Bool
  d : dinode

namespace ITable

/-- What `iput` has to do next to free an inode. -/
inductive Stage where
  | trunc
  /-- the `iupdate` of `itrunc` -/
  | truncUpdate
  | clear
  | update
  | invalidate
  | unlock
  /-- the last part, under `itable.lock` again -/
  | put
  deriving DecidableEq

/-- The call that a process is in. -/
inductive Pc where
  | idle
  /-- `acquiresleep` in `ilock` -/
  | ilock (ip : Fin NINODE)
  /-- `ilock` with the lock -/
  | load (ip : Fin NINODE)
  /-- the loop of `ialloc` -/
  | ialloc (dev : UInt32) (type : Int16) (inum : UInt32)
  /-- `iget` at the end of `ialloc` -/
  | ialloced (dev inum : UInt32)
  | iput (ip : Fin NINODE) (stage : Stage)
  deriving DecidableEq

end ITable

/-- `itable` with the inodes on disk and the processes.  The histories are the unmatched calls of
`iget` and `idup`, each with the process that has the reference, and whether the holder of an inode has
changed it since its last `iupdate`. -/
structure ITable where
  inode : Fin NINODE → inode
  disk : UInt32 → UInt32 → dinode
  pc : ℕ → ITable.Pc
  held : List (ℕ × Fin NINODE)
  dirty : Fin NINODE → Bool

namespace ITable

/-- `iinit`. -/
def iinit (disk : UInt32 → UInt32 → dinode) : ITable :=
  { inode := fun _ => { dev := 0, inum := 0, ref := 0, lock := none, valid := false, d := dinode.zero },
    disk := disk, pc := fun _ => .idle, held := [], dirty := fun _ => false }

def setInode (s : ITable) (ip : Fin NINODE) (i : Xv6.inode) : ITable :=
  { s with inode := Function.update s.inode ip i }

def setPc (s : ITable) (p : ℕ) (pc : Pc) : ITable := { s with pc := Function.update s.pc p pc }

def setDisk (s : ITable) (dev inum : UInt32) (d : dinode) : ITable :=
  { s with disk := Function.update s.disk dev (Function.update (s.disk dev) inum d) }

/-- The disk inode that belongs to a table entry. -/
def diskOf (s : ITable) (ip : Fin NINODE) : dinode := s.disk (s.inode ip).dev (s.inode ip).inum

/-- `iget` by process `p`. -/
def iget (p : ℕ) (dev inum : UInt32) (s : ITable) : Except Panic ITable :=
  match (List.finRange NINODE).find? fun ip =>
      0 < (s.inode ip).ref ∧ (s.inode ip).dev = dev ∧ (s.inode ip).inum = inum with
  | some ip =>
    .ok { s.setInode ip { s.inode ip with ref := (s.inode ip).ref + 1 } with held := (p, ip) :: s.held }
  | none =>
    match (List.finRange NINODE).find? fun ip => (s.inode ip).ref = 0 with
    | none => .error "iget: no inodes"
    | some ip =>
      .ok { s.setInode ip { s.inode ip with dev := dev, inum := inum, ref := 1, valid := false } with
            held := (p, ip) :: s.held }

def idup (p : ℕ) (ip : Fin NINODE) (s : ITable) : ITable :=
  { s.setInode ip { s.inode ip with ref := (s.inode ip).ref + 1 } with held := (p, ip) :: s.held }

/-- `iupdate`. -/
def iupdate (ip : Fin NINODE) (s : ITable) : ITable :=
  s.setDisk (s.inode ip).dev (s.inode ip).inum (s.inode ip).d

/-- The end of `iput`. -/
def drop (p : ℕ) (ip : Fin NINODE) (s : ITable) : ITable :=
  { s.setInode ip { s.inode ip with ref := (s.inode ip).ref - 1 } with held := s.held.erase (p, ip) }

/-- `iput` up to where it releases `itable.lock`.  `acquiresleep` would sleep with that lock held. -/
def iput (p : ℕ) (ip : Fin NINODE) (s : ITable) : Except Panic ITable :=
  let i := s.inode ip
  if i.ref = 1 ∧ i.valid = true ∧ i.d.nlink = 0 then
    if i.lock = none then
      .ok ((s.setInode ip { i with lock := some p }).setPc p (.iput ip .trunc))
    else .error "sched locks"
  else .ok (s.drop p ip)

/-- The next step of process `p`; there are `ninodes` inodes. -/
def run (ninodes : UInt32) (p : ℕ) (s : ITable) : Option (Except Panic ITable) :=
  match s.pc p with
  | .idle => none
  | .ilock ip =>
    let i := s.inode ip
    if i.lock = none then some (.ok ((s.setInode ip { i with lock := some p }).setPc p (.load ip)))
    else none
  | .load ip =>
    let i := s.inode ip
    if i.valid then some (.ok (s.setPc p .idle))
    else if (s.diskOf ip).type = 0 then some (.error "ilock: no type")
    else some (.ok ((s.setInode ip { i with d := s.diskOf ip, valid := true }).setPc p .idle))
  | .ialloc dev type inum =>
    if inum < ninodes then
      if (s.disk dev inum).type = 0 then
        some (.ok ((s.setDisk dev inum { dinode.zero with type := type }).setPc p (.ialloced dev inum)))
      else some (.ok (s.setPc p (.ialloc dev type (inum + 1))))
    else some (.ok (s.setPc p .idle))
  | .ialloced dev inum => some ((s.iget p dev inum).map fun s => s.setPc p .idle)
  | .iput ip stage =>
    let i := s.inode ip
    some (.ok (match stage with
      | .trunc =>
        (s.setInode ip { i with d := { i.d with size := 0, addrs := fun _ => 0 } }).setPc p
          (.iput ip .truncUpdate)
      | .truncUpdate => (s.iupdate ip).setPc p (.iput ip .clear)
      | .clear => (s.setInode ip { i with d := { i.d with type := 0 } }).setPc p (.iput ip .update)
      | .update => (s.iupdate ip).setPc p (.iput ip .invalidate)
      | .invalidate => (s.setInode ip { i with valid := false }).setPc p (.iput ip .unlock)
      | .unlock => (s.setInode ip { i with lock := none }).setPc p (.iput ip .put)
      | .put => (s.drop p ip).setPc p .idle))

inductive Op where
  | iget (p : ℕ) (dev inum : UInt32)
  | idup (p : ℕ) (ip : Fin NINODE)
  /-- a reference goes to another process, as in `fork` -/
  | pass (p q : ℕ) (ip : Fin NINODE)
  | ilock (p : ℕ) (ip : Fin NINODE)
  /-- the holder of the lock changes the inode, but for its type -/
  | modify (p : ℕ) (ip : Fin NINODE) (d : dinode)
  | iupdate (p : ℕ) (ip : Fin NINODE)
  | iunlock (p : ℕ) (ip : Fin NINODE)
  | iput (p : ℕ) (ip : Fin NINODE)
  | ialloc (p : ℕ) (dev : UInt32) (type : Int16)
  /-- the next step of the call that `p` is in -/
  | run (p : ℕ)

/-- Process `p` has a reference that it does not need to keep an inode locked. -/
def CanPut (s : ITable) (p : ℕ) (ip : Fin NINODE) : Prop :=
  (if (s.inode ip).lock = some p then 1 else 0) < s.held.count (p, ip)

instance : Decidable (CanPut s p ip) := inferInstanceAs (Decidable (_ < _))

/-- One step.  A reference is duplicated, locked, passed on and put by a process that has it, and an
inode is changed and unlocked by the holder of its lock, who calls `iupdate` after the last change. -/
def step (ninodes : UInt32) (s : ITable) : Op → Option (Except Panic ITable)
  | .iget p dev inum => if s.pc p = .idle then some (s.iget p dev inum) else none
  | .idup p ip => if s.pc p = .idle ∧ (p, ip) ∈ s.held then some (.ok (s.idup p ip)) else none
  | .pass p q ip =>
    if s.pc p = .idle ∧ s.CanPut p ip then
      some (.ok { s with held := (q, ip) :: s.held.erase (p, ip) })
    else none
  | .ilock p ip =>
    if s.pc p = .idle ∧ (p, ip) ∈ s.held then
      if (s.inode ip).ref < 1 then some (.error "ilock") else some (.ok (s.setPc p (.ilock ip)))
    else none
  | .modify p ip d =>
    if s.pc p = .idle ∧ (s.inode ip).lock = some p ∧ d.type = (s.inode ip).d.type then
      some (.ok { s.setInode ip { s.inode ip with d := d } with dirty := Function.update s.dirty ip true })
    else none
  | .iupdate p ip =>
    if s.pc p = .idle ∧ (s.inode ip).lock = some p then
      some (.ok { s.iupdate ip with dirty := Function.update s.dirty ip false })
    else none
  | .iunlock p ip =>
    if s.pc p = .idle ∧ (s.inode ip).lock = some p ∧ s.dirty ip = false then
      if (s.inode ip).lock ≠ some p ∨ (s.inode ip).ref < 1 then some (.error "iunlock")
      else some (.ok (s.setInode ip { s.inode ip with lock := none }))
    else none
  | .iput p ip => if s.pc p = .idle ∧ s.CanPut p ip then some (s.iput p ip) else none
  | .ialloc p dev type =>
    if s.pc p = .idle ∧ type ≠ 0 then some (.ok (s.setPc p (.ialloc dev type 1))) else none
  | .run p => s.run ninodes p

end ITable

end Xv6
