import Mathlib.Data.Fintype.Basic
import Xv6.Kernel.Riscv
import Xv6.Lib.Dll

/-!
# Bcache — the list of buffers (`bio.c`)

The buffers and the pointers between them.  A step is a critical section of `bcache.lock` or of a
buffer's sleep-lock, taken by any of any number of processes.
-/

namespace Xv6

abbrev NBUF : ℕ := 30

/-- `struct buf` without its lock, its list pointers and its data. -/
structure Buf where
  valid : Bool
  dev : UInt32
  blockno : UInt32
  refcnt : UInt32

/-- `bcache`: the pointers, with `none` for `&bcache.head`, and the buffers. -/
structure Bcache where
  links : Dll.Links (Fin NBUF)
  buf : Fin NBUF → Buf

namespace Bcache

/-- Overwrite the fields of buffer `b`. -/
def set (s : Bcache) (b : Fin NBUF) (v : Buf) : Bcache := { s with buf := Function.update s.buf b v }

def binit : Bcache :=
  { links := (List.finRange NBUF).foldl Dll.Links.pushFront Dll.Links.empty,
    buf := fun _ => { valid := false, dev := 0, blockno := 0, refcnt := 0 } }

/-- What `bget` does under `bcache.lock`; `none` if a search does not end. -/
def bget (dev blockno : UInt32) (s : Bcache) : Option (Except Panic (Fin NBUF × Bcache)) :=
  -- is the block already cached?
  match Dll.walk s.links.next (fun b => (s.buf b).dev == dev && (s.buf b).blockno == blockno)
      (NBUF + 1) (s.links.next none) with
  | none => none
  | some (some b) => some (.ok (b, s.set b { s.buf b with refcnt := (s.buf b).refcnt + 1 }))
  | some none =>
    -- recycle the least recently used unused buffer
    match Dll.walk s.links.prev (fun b => (s.buf b).refcnt == 0) (NBUF + 1) (s.links.prev none) with
    | none => none
    | some (some b) =>
      some (.ok (b, s.set b { valid := false, dev := dev, blockno := blockno, refcnt := 1 }))
    | some none => some (.error "bget: no buffers")

/-- What `brelse` does under `bcache.lock`. -/
def brelse (b : Fin NBUF) (s : Bcache) : Bcache :=
  let s := s.set b { s.buf b with refcnt := (s.buf b).refcnt - 1 }
  if (s.buf b).refcnt = 0 then
    -- no one is waiting for it
    { s with links := (s.links.unlink b).pushFront b }
  else s

def bpin (b : Fin NBUF) (s : Bcache) : Bcache :=
  s.set b { s.buf b with refcnt := (s.buf b).refcnt + 1 }

def bunpin (b : Fin NBUF) (s : Bcache) : Bcache :=
  s.set b { s.buf b with refcnt := (s.buf b).refcnt - 1 }

end Bcache

/-- Where a process is in a call. -/
inductive BufCall where
  | idle
  /-- `bget` is about to take the sleep-lock of `b` -/
  | bget (b : Fin NBUF)
  /-- `brelse` has given the sleep-lock of `b` back -/
  | brelse (b : Fin NBUF)

/-- The buffer cache, its sleep-locks and the calls under way, with two histories: the number of
steps so far, and when each buffer's count last went to zero in a `brelse` (`0` if it never did). -/
structure BufSys where
  bcache : Bcache
  lock : Fin NBUF → Option ℕ
  call : ℕ → BufCall
  now : ℕ
  released : Fin NBUF → ℕ

inductive BufOp where
  | bget (p : ℕ) (dev blockno : UInt32)
  | acquiresleep (p : ℕ)
  /-- the rest of `bread`: the data has come from the disk -/
  | bread (p : ℕ) (b : Fin NBUF)
  | brelse (p : ℕ) (b : Fin NBUF)
  | brelseRest (p : ℕ)
  | bpin (p : ℕ) (b : Fin NBUF)
  | bunpin (p : ℕ) (b : Fin NBUF)

def BufSys.binit : BufSys :=
  { bcache := Bcache.binit, lock := fun _ => none, call := fun _ => .idle, now := 0,
    released := fun _ => 0 }

namespace BufSys

/-- Another step has been taken. -/
def tick (s : BufSys) (bcache : Bcache) : BufSys := { s with bcache := bcache, now := s.now + 1 }

def goto (s : BufSys) (p : ℕ) (c : BufCall) : BufSys := { s with call := Function.update s.call p c }

/-- One critical section of process `p`. -/
def step (s : BufSys) : BufOp → Option (Except Panic BufSys)
  | .bget p dev blockno =>
    match s.call p with
    | .idle =>
      (s.bcache.bget dev blockno).map fun r =>
        r.map fun (b, bcache) => (s.tick bcache).goto p (.bget b)
    | _ => none
  | .acquiresleep p =>
    match s.call p with
    | .bget b =>
      if s.lock b = none then
        some (.ok ({ s.tick s.bcache with lock := Function.update s.lock b (some p) }.goto p .idle))
      else none
    | _ => none
  | .bread p b =>
    if s.lock b = some p then
      some (.ok (s.tick (s.bcache.set b { s.bcache.buf b with valid := true })))
    else none
  | .brelse p b =>
    match s.call p with
    | .idle =>
      if s.lock b = some p then
        some (.ok ({ s.tick s.bcache with lock := Function.update s.lock b none }.goto p (.brelse b)))
      else some (.error "brelse")
    | _ => none
  | .brelseRest p =>
    match s.call p with
    | .brelse b =>
      let t := (s.tick (s.bcache.brelse b)).goto p .idle
      if (t.bcache.buf b).refcnt = 0 then
        some (.ok { t with released := Function.update s.released b t.now })
      else some (.ok t)
    | _ => none
  | .bpin p b =>
    match s.call p with
    | .idle => some (.ok (s.tick (s.bcache.bpin b)))
    | _ => none
  | .bunpin p b =>
    match s.call p with
    | .idle => some (.ok (s.tick (s.bcache.bunpin b)))
    | _ => none

end BufSys

end Xv6
