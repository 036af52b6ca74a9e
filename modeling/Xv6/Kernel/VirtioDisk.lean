import Mathlib.Data.Fintype.Basic
import Mathlib.Data.List.Nodup
import Mathlib.Logic.Function.Basic
import Mathlib.Data.Nat.Notation
import Xv6.Kernel.Riscv

/-!
# VirtioDisk — the disk driver (`virtio_disk.c`)

`n` processes call `virtio_disk_rw`; the interrupt handler and the device run in between.  A call is
the steps it takes under `vdisk_lock`, with a sleep where it waits for descriptors and one where it
waits for the device.  The device works on several requests at a time.  The bytes of the blocks are
left out: a request names the buffer and the sector.
-/

namespace Xv6.VirtioDisk

abbrev NUM : ℕ := 8

abbrev VRING_DESC_F_NEXT : UInt16 := 1
abbrev VRING_DESC_F_WRITE : UInt16 := 2

abbrev VIRTIO_BLK_T_IN : ℕ := 0
abbrev VIRTIO_BLK_T_OUT : ℕ := 1

/-- What a descriptor points to: `disk.ops[i]`, the data of a buffer or `disk.info[i].status`. -/
inductive Addr where
  | null
  | op (i : ℕ)
  | data (b : ℕ)
  | status (i : ℕ)
  deriving DecidableEq

structure virtq_desc where
  addr : Addr
  len : ℕ
  flags : UInt16
  next : ℕ
  deriving DecidableEq

structure virtio_blk_req where
  type : ℕ
  reserved : ℕ
  sector : UInt64
  deriving DecidableEq

/-- What the device is asked for: to transfer a sector from or to a buffer, and where to report. -/
structure Request where
  type : ℕ
  sector : UInt64
  b : ℕ
  status : ℕ
  deriving DecidableEq

/-- A call with its chain of descriptors. -/
structure Rw where
  b : ℕ
  sector : UInt64
  write : Bool
  i : ℕ
  j : ℕ
  k : ℕ
  deriving DecidableEq

/-- Where a process is in `virtio_disk_rw`. -/
inductive Pc where
  | idle
  /-- in `acquire`, before the descriptors are allocated -/
  | start (b : ℕ) (sector : UInt64) (write : Bool)
  | alloc (b : ℕ) (sector : UInt64) (write : Bool)
  | sleepFree (b : ℕ) (sector : UInt64) (write : Bool)
  | format (r : Rw)
  | ring (r : Rw)
  | bump (r : Rw)
  | wait (r : Rw)
  | sleepBuf (r : Rw)
  /-- in `sleep`, after the wakeup -/
  | woken (r : Rw)
  deriving DecidableEq

inductive Holder (n : ℕ) where
  | proc (p : Fin n)
  | intr
  deriving DecidableEq

/-- A request that the device works on, with its number among the requests it has taken. -/
structure Job where
  serial : ℕ
  head : ℕ
  req : Request
  deriving DecidableEq

/-- `disk`, with `b->disk` of every buffer, the processes and the device. -/
structure Disk (n : ℕ) where
  desc : ℕ → virtq_desc
  avail : ℕ → ℕ
  availIdx : ℕ
  used : ℕ → ℕ
  usedIdx : ℕ
  free : ℕ → Bool
  used_idx : ℕ
  infoB : ℕ → Option ℕ
  infoStatus : ℕ → ℕ
  ops : ℕ → virtio_blk_req
  bufDisk : ℕ → Bool
  lock : Option (Holder n)
  pc : Fin n → Pc
  /-- how far the device has read the ring `avail` -/
  last : ℕ
  inflight : List Job
  /-- the requests that were published, a history -/
  made : List Request
  /-- the requests as the device has read them, a history -/
  taken : List Request
  /-- the number of the last request of a process, a history -/
  serial : Fin n → ℕ
  /-- the numbers of the requests that the device has completed, a history -/
  done : List ℕ

inductive Chan where
  | free
  | buf (b : ℕ)
  deriving DecidableEq

def Pc.wake (ch : Chan) : Pc → Pc
  | .sleepFree b sector write =>
    if ch = .free then .start b sector write else .sleepFree b sector write
  | .sleepBuf r => if ch = .buf r.b then .woken r else .sleepBuf r
  | pc => pc

namespace Disk

variable {n : ℕ}

/-- `virtio_disk_init`. -/
def virtio_disk_init : Disk n :=
  { desc := fun _ => ⟨.null, 0, 0, 0⟩, avail := fun _ => 0, availIdx := 0, used := fun _ => 0,
    usedIdx := 0, free := fun i => i < NUM, used_idx := 0, infoB := fun _ => none,
    infoStatus := fun _ => 0, ops := fun _ => ⟨0, 0, 0⟩, bufDisk := fun _ => false, lock := none,
    pc := fun _ => .idle, last := 0, inflight := [], made := [], taken := [], serial := fun _ => 0,
    done := [] }

def setPc (s : Disk n) (p : Fin n) (pc : Pc) : Disk n := { s with pc := Function.update s.pc p pc }

def wakeup (s : Disk n) (ch : Chan) : Disk n := { s with pc := fun p => (s.pc p).wake ch }

/-- `alloc_desc`, with `none` for -1. -/
def alloc_desc (s : Disk n) : Option (ℕ × Disk n) :=
  match (List.range NUM).find? s.free with
  | some i => some (i, { s with free := Function.update s.free i false })
  | none => none

def free_desc (s : Disk n) (i : ℕ) : Except Panic (Disk n) :=
  if NUM ≤ i then .error "free_desc 1"
  else if s.free i then .error "free_desc 2"
  else .ok ({ s with desc := Function.update s.desc i ⟨.null, 0, 0, 0⟩,
                     free := Function.update s.free i true }.wakeup .free)

/-- `free_chain`.  A round frees a descriptor or panics, so `NUM + 1` rounds are enough. -/
def free_chain : ℕ → Disk n → ℕ → Option (Except Panic (Disk n))
  | 0, _, _ => none
  | rounds + 1, s, i =>
    let flag := (s.desc i).flags
    let nxt := (s.desc i).next
    match s.free_desc i with
    | .error m => some (.error m)
    | .ok s => if flag &&& VRING_DESC_F_NEXT ≠ 0 then free_chain rounds s nxt else some (.ok s)

/-- The loop of `alloc3_desc`, with `left` rounds to go; `idx` has been allocated. -/
def allocDescs : ℕ → List ℕ → Disk n → Except Panic (Option (List ℕ) × Disk n)
  | 0, idx, s => .ok (some idx, s)
  | left + 1, idx, s =>
    match s.alloc_desc with
    | some (i, s) => allocDescs left (idx ++ [i]) s
    | none => (idx.foldlM free_desc s).map fun s => (none, s)

def alloc3_desc (s : Disk n) : Except Panic (Option (List ℕ) × Disk n) := allocDescs 3 [] s

/-- `b->blockno * (BSIZE / 512)`. -/
def sectorOf (blockno : UInt32) : UInt64 := (blockno * 2).toUInt64

def type (write : Bool) : ℕ := if write then VIRTIO_BLK_T_OUT else VIRTIO_BLK_T_IN

/-- Format the three descriptors. -/
def format (s : Disk n) (r : Rw) : Disk n :=
  { s with
    ops := Function.update s.ops r.i ⟨type r.write, 0, r.sector⟩,
    desc := Function.update (Function.update (Function.update s.desc
      r.i ⟨.op r.i, 16, VRING_DESC_F_NEXT, r.j⟩)
      r.j ⟨.data r.b, 1024, (if r.write then 0 else VRING_DESC_F_WRITE) ||| VRING_DESC_F_NEXT, r.k⟩)
      r.k ⟨.status r.i, 1, VRING_DESC_F_WRITE, 0⟩,
    infoStatus := Function.update s.infoStatus r.i 0xff,
    bufDisk := Function.update s.bufDisk r.b true,
    infoB := Function.update s.infoB r.i (some r.b) }

/-- The request that a call makes. -/
def request (r : Rw) : Request := ⟨type r.write, r.sector, r.b, r.i⟩

/-- The next step of process `p`. -/
def run (s : Disk n) (p : Fin n) : Option (Except Panic (Disk n)) :=
  match s.pc p with
  | .idle | .sleepFree _ _ _ | .sleepBuf _ => none
  | .start b sector write =>
    if s.lock = none then
      some (.ok ({ s with lock := some (.proc p) }.setPc p (.alloc b sector write)))
    else none
  | .alloc b sector write =>
    match s.alloc3_desc with
    | .error m => some (.error m)
    | .ok (some [i, j, k], s) => some (.ok (s.setPc p (.format ⟨b, sector, write, i, j, k⟩)))
    | .ok (_, s) => some (.ok ({ s with lock := none }.setPc p (.sleepFree b sector write)))
  | .format r => some (.ok ((s.format r).setPc p (.ring r)))
  | .ring r =>
    some (.ok ({ s with avail := Function.update s.avail (s.availIdx % NUM) r.i }.setPc p (.bump r)))
  | .bump r =>
    some (.ok ({ s with availIdx := (s.availIdx + 1) % 2 ^ 16,
                        made := s.made ++ [request r],
                        serial := Function.update s.serial p s.made.length }.setPc p (.wait r)))
  | .wait r =>
    if s.bufDisk r.b then some (.ok ({ s with lock := none }.setPc p (.sleepBuf r)))
    else
      (free_chain (NUM + 1) { s with infoB := Function.update s.infoB r.i none } r.i).map
        (·.map fun s => { s with lock := none }.setPc p .idle)
  | .woken r =>
    if s.lock = none then some (.ok ({ s with lock := some (.proc p) }.setPc p (.wait r))) else none

/-- One round of the loop of `virtio_disk_intr`, or its end. -/
def handle (s : Disk n) : Except Panic (Disk n) :=
  if s.used_idx ≠ s.usedIdx then
    let id := s.used (s.used_idx % NUM)
    if s.infoStatus id ≠ 0 then .error "virtio_disk_intr status"
    else
      match s.infoB id with
      | none => .error "kerneltrap"
      | some b =>
        .ok { { s with bufDisk := Function.update s.bufDisk b false }.wakeup (.buf b) with
              used_idx := (s.used_idx + 1) % 2 ^ 16 }
  else .ok { s with lock := none }

/-- What the device reads from the chain that begins at `head`. -/
def decode (s : Disk n) (head : ℕ) : Option Request :=
  let d0 := s.desc head
  let d1 := s.desc d0.next
  let d2 := s.desc d1.next
  if d0.flags &&& VRING_DESC_F_NEXT = 0 ∨ d1.flags &&& VRING_DESC_F_NEXT = 0 ∨
      d2.flags &&& VRING_DESC_F_NEXT ≠ 0 then none
  else
    match d0.addr, d1.addr, d2.addr with
    | .op i, .data b, .status k => some ⟨(s.ops i).type, (s.ops i).sector, b, k⟩
    | _, _, _ => none

end Disk

inductive Op (n : ℕ) where
  /-- process `p` calls `virtio_disk_rw` for buffer `b`, which is for block `blockno` -/
  | rw (p : Fin n) (b : ℕ) (blockno : UInt32) (write : Bool)
  | run (p : Fin n)
  /-- the interrupt handler acquires the lock -/
  | intr
  | handle
  /-- the device reads the next entry of the ring `avail` -/
  | consume
  /-- the device completes the `k`-th of the requests it works on -/
  | complete (k : ℕ)

namespace Disk

variable {n : ℕ}

def step (s : Disk n) : Op n → Option (Except Panic (Disk n))
  | .rw p b blockno write =>
    if s.pc p = .idle then some (.ok (s.setPc p (.start b (sectorOf blockno) write))) else none
  | .run p => s.run p
  | .intr => if s.lock = none then some (.ok { s with lock := some .intr }) else none
  | .handle => if s.lock = some .intr then some s.handle else none
  | .consume =>
    if s.last ≠ s.availIdx then
      let head := s.avail (s.last % NUM)
      (s.decode head).map fun req =>
        .ok { s with last := (s.last + 1) % 2 ^ 16,
                     inflight := s.inflight ++ [⟨s.taken.length, head, req⟩],
                     taken := s.taken ++ [req] }
    else none
  | .complete k =>
    s.inflight[k]?.map fun job =>
      .ok { s with inflight := s.inflight.eraseIdx k,
                   infoStatus := Function.update s.infoStatus job.req.status 0,
                   used := Function.update s.used (s.usedIdx % NUM) job.head,
                   usedIdx := (s.usedIdx + 1) % 2 ^ 16,
                   done := s.done ++ [job.serial] }

end Disk

end Xv6.VirtioDisk
