import Xv6.Kernel.Proc

/-!
# Intr — disabling interrupts, and the switches (`spinlock.c`, `proc.c`)

Any number of CPUs run the kernel threads of processes and one scheduler thread each.  A thread
executes the instructions of the calls it is in; between them a process does what it likes: it may
acquire and release locks, call `push_off` and `pop_off`, and start `yield`, `sleep` or `exit`.  An
interrupt starts a handler on the thread it arrives in.  Locks carry no data, and of a process only
its state is kept.
-/

namespace Xv6.Intr

/-- A spinlock: that of a process, or another one; `wait_lock` is one of these. -/
inductive Lk where
  | proc (p : ℕ)
  | other (k : ℕ)
  deriving DecidableEq

def waitLock : Lk := .other 0

/-- An unmatched call of `push_off`: on its own, in `acquire`, or for a lock that is held. -/
inductive Push where
  | bare
  | spin (l : Lk)
  | lock (l : Lk)
  deriving DecidableEq

inductive Instr where
  | acquire (l : Lk)
  /-- the loop of `acquire` -/
  | take (l : Lk)
  | release (l : Lk)
  | setState (st : procstate)
  /-- the body of the loop of `wakeup` -/
  | wake (q : ℕ)
  | sched
  /-- `panic("zombie exit")` -/
  | zombieExit
  /-- the end of a handler -/
  | sret
  deriving DecidableEq

inductive Tid where
  | proc (p : ℕ)
  | scheduler (c : ℕ)
  deriving DecidableEq

/-- Where `swtch` continues a process: in `forkret`, or in `sched` with its local variable. -/
inductive Ctx where
  | forkret
  | sched (intena : Bool)

/-- Where a scheduler thread is: at the head of its loop, before slot `i`, in `acquire`, with the
lock of slot `i`, or behind `swtch`. -/
inductive SchedPc where
  | top
  | scan (i : ℕ) (highest : Option ℕ)
  | spin (i : ℕ) (highest : Option ℕ)
  | look (i : ℕ) (highest : Option ℕ)
  | back (p : ℕ) (next : SchedPc)

/-- `struct cpu`, with the interrupt bit of `sstatus` and the thread that runs. -/
structure Cpu where
  noff : ℕ
  intena : Bool
  intr : Bool
  on : Tid

/-- The histories are the unmatched calls of `push_off` of every thread, and whether interrupts were
on at the outermost of them. -/
structure Machine where
  cpu : ℕ → Cpu
  lock : Lk → Option ℕ
  state : ℕ → procstate
  ctx : ℕ → Ctx
  pc : ℕ → SchedPc
  script : Tid → List Instr
  pushed : Tid → List Push
  old : Tid → Bool

/-- Every CPU is about to enter its scheduler, with interrupts off. -/
def Machine.init (state : ℕ → procstate) : Machine :=
  { cpu := fun c => { noff := 0, intena := false, intr := false, on := .scheduler c },
    lock := fun _ => none, state := state, ctx := fun _ => .forkret, pc := fun _ => .top,
    script := fun _ => [], pushed := fun _ => [], old := fun _ => false }

namespace Machine

/-- The thread that runs on CPU `c`. -/
def on (s : Machine) (c : ℕ) : Tid := (s.cpu c).on

def setCpu (s : Machine) (c : ℕ) (k : Cpu) : Machine := { s with cpu := Function.update s.cpu c k }

def setScript (s : Machine) (t : Tid) (is : List Instr) : Machine :=
  { s with script := Function.update s.script t is }

def setPushed (s : Machine) (t : Tid) (as : List Push) : Machine :=
  { s with pushed := Function.update s.pushed t as }

def setPc (s : Machine) (c : ℕ) (pc : SchedPc) : Machine :=
  { s with pc := Function.update s.pc c pc }

def setLock (s : Machine) (l : Lk) (c : Option ℕ) : Machine :=
  { s with lock := Function.update s.lock l c }

def setState (s : Machine) (p : ℕ) (st : procstate) : Machine :=
  { s with state := Function.update s.state p st }

/-- `push_off`; the history notes what it is for. -/
def push_off (c : ℕ) (a : Push) (s : Machine) : Machine :=
  let k := s.cpu c
  let s' := s.setCpu c { k with intr := false, intena := if k.noff = 0 then k.intr else k.intena,
                                noff := k.noff + 1 }
  { s'.setPushed k.on (a :: s.pushed k.on) with
    old := if s.pushed k.on = [] then Function.update s.old k.on k.intr else s.old }

def pop_off (c : ℕ) (a : Push) (s : Machine) : Except Panic Machine :=
  let k := s.cpu c
  if k.intr then .error "pop_off - interruptible"
  else if k.noff < 1 then .error "pop_off"
  else
    let noff := k.noff - 1
    .ok ((s.setCpu c { k with noff := noff, intr := if noff = 0 ∧ k.intena then true else k.intr })
      |>.setPushed k.on ((s.pushed k.on).erase a))

def holding (c : ℕ) (l : Lk) (s : Machine) : Prop := s.lock l = some c

instance : Decidable (holding c l s) := inferInstanceAs (Decidable (s.lock l = some c))

/-- `acquire` up to its loop. -/
def acquire (c : ℕ) (l : Lk) (s : Machine) : Except Panic Machine :=
  let s := s.push_off c (.spin l)
  if holding c l s then .error "acquire" else .ok s

/-- The loop of `acquire` ends when the lock is free. -/
def take (c : ℕ) (l : Lk) (s : Machine) : Option Machine :=
  if s.lock l = none then
    some ((s.setLock l (some c)).setPushed (s.on c) (.lock l :: (s.pushed (s.on c)).tail))
  else none

def release (c : ℕ) (l : Lk) (s : Machine) : Except Panic Machine :=
  if holding c l s then (s.setLock l none).pop_off c (.lock l) else .error "release"

/-- `swtch` from the scheduler of CPU `c` to process `p`, which is `RUNNING` from here on. -/
def switchTo (c p : ℕ) (next : SchedPc) (s : Machine) : Machine :=
  let k := s.cpu c
  let s := (s.setState p .RUNNING).setPc c (.back p next)
  match s.ctx p with
  | .forkret =>
    -- the lock is the one that the scheduler has acquired
    let s := s.setCpu c { k with on := .proc p }
    { (s.setScript (.proc p) [.release (.proc p)]).setPushed (.proc p) [.lock (.proc p)] with
      old := Function.update s.old (.proc p) (s.old (.scheduler c)) }
  | .sched intena => s.setCpu c { k with on := .proc p, intena := intena }

/-- `sched` up to `swtch`; `rest` is what process `p` does when it runs again. -/
def sched (c p : ℕ) (rest : List Instr) (s : Machine) : Except Panic Machine :=
  let k := s.cpu c
  if ¬ holding c (.proc p) s then .error "sched p->lock"
  else if k.noff ≠ 1 then .error "sched locks"
  else if s.state p = .RUNNING then .error "sched running"
  else if k.intr then .error "sched interruptible"
  else
    .ok ({ s.setCpu c { k with on := .scheduler c } with
           ctx := Function.update s.ctx p (.sched k.intena) }.setScript (.proc p) rest)

/-- Thread `t` executes its next instruction on CPU `c`. -/
def instr (c : ℕ) (t : Tid) (rest : List Instr) (s : Machine) :
    Instr → Option (Except Panic Machine)
  | .acquire l => some ((s.acquire c l).map fun s => s.setScript t (.take l :: rest))
  | .take l => (s.take c l).map fun s => .ok (s.setScript t rest)
  | .release l => some ((s.release c l).map fun s => s.setScript t rest)
  | .setState st =>
    match t with
    | .proc p => some (.ok ((s.setState p st).setScript t rest))
    | .scheduler _ => none
  | .wake q =>
    some (.ok ((if s.state q = .SLEEPING then s.setState q .RUNNABLE else s).setScript t rest))
  | .sched =>
    match t with
    | .proc p => some (s.sched c p rest)
    | .scheduler _ => none
  | .zombieExit => some (.error "zombie exit")
  | .sret =>
    -- a handler has matched its calls of `push_off`
    if s.pushed t = [] then
      some (.ok ((s.setCpu c { s.cpu c with intr := true }).setScript t rest))
    else none

/-- One step of `scheduler`.  `n` is the size of the process table, `pbs` tells which scheduler is
compiled in, and `better` how the comparison with the best process so far ends. -/
def scheduler (n : ℕ) (pbs better : Bool) (c : ℕ) (s : Machine) : Option (Except Panic Machine) :=
  match s.pc c with
  | .top => some (.ok ((s.setCpu c { s.cpu c with intr := true }).setPc c (.scan 0 none)))
  | .scan i highest =>
    if i < n then
      some ((s.acquire c (.proc i)).map fun s => s.setPc c (.spin i highest))
    else
      match highest with
      | none => some (.ok (s.setPc c .top))
      | some h => some (.ok (s.switchTo c h .top))
  | .spin i highest => (s.take c (.proc i)).map fun s => .ok (s.setPc c (.look i highest))
  | .look i highest =>
    if s.state i = .RUNNABLE then
      if pbs then
        match highest with
        | none => some (.ok (s.setPc c (.scan (i + 1) (some i))))
        | some h =>
          if better then
            some ((s.release c (.proc h)).map fun s => s.setPc c (.scan (i + 1) (some i)))
          else some ((s.release c (.proc i)).map fun s => s.setPc c (.scan (i + 1) highest))
      else some (.ok (s.switchTo c i (.scan (i + 1) none)))
    else some ((s.release c (.proc i)).map fun s => s.setPc c (.scan (i + 1) highest))
  | .back p next => some ((s.release c (.proc p)).map fun s => s.setPc c next)

/-! ## The calls -/

def yield (p : ℕ) : List Instr :=
  [.acquire (.proc p), .setState .RUNNABLE, .sched, .release (.proc p)]

def sleep (p : ℕ) (lk : Lk) : List Instr :=
  [.acquire (.proc p), .release lk, .setState .SLEEPING, .sched, .release (.proc p), .acquire lk]

/-- `wakeup` by process `p`, over the slots `qs`. -/
def wakeup (p : ℕ) (qs : List ℕ) : List Instr :=
  (qs.filter (· ≠ p)).flatMap fun q => [.acquire (.proc q), .wake q, .release (.proc q)]

/-- `exit` from `acquire(&wait_lock)` on, with `k` calls of `wakeup`: one for each child that is given
to `init` and one for the parent. -/
def exit (n p k : ℕ) : List Instr :=
  .acquire waitLock :: (List.replicate k (wakeup p (List.range n))).flatten ++
    [.acquire (.proc p), .setState .ZOMBIE, .release waitLock, .sched, .zombieExit]

/-- The thread on CPU `c` is in no call: it is a process, or it runs a handler. -/
def idle (s : Machine) (c : ℕ) : Bool :=
  match s.script (s.on c), s.on c with
  | [], .proc _ => true
  | .sret :: _, _ => true
  | _, _ => false

end Machine

inductive Op where
  /-- the next instruction, or the next step of the scheduler -/
  | run (c : ℕ) (better : Bool)
  | push_off (c : ℕ)
  | pop_off (c : ℕ)
  | acquire (c : ℕ) (l : Lk)
  | release (c : ℕ) (l : Lk)
  /-- the state of a process is changed under its lock -/
  | setState (c q : ℕ) (st : procstate)
  | intr_on (c : ℕ)
  | intr_off (c : ℕ)
  | interrupt (c : ℕ)
  | yield (c : ℕ)
  | sleep (c : ℕ) (lk : Lk)
  | exit (c k : ℕ)

/-- What is done to the state of another process: `wakeup` and `kill`, `allocproc`, `fork`, `freeproc`. -/
def Changes : procstate → procstate → Bool
  | .SLEEPING, .RUNNABLE | .UNUSED, .USED | .USED, .RUNNABLE | .ZOMBIE, .UNUSED | .USED, .UNUSED => true
  | _, _ => false

namespace Machine

/-- One step.  `pop_off` and `release` are used for what the thread has pushed; `yield`, `sleep` and
`exit` are called with no other lock held. -/
def step (n : ℕ) (pbs : Bool) (s : Machine) : Op → Option (Except Panic Machine)
  | .run c better =>
    match s.script (s.on c), s.on c with
    | i :: rest, t => s.instr c t rest i
    | [], .scheduler _ => s.scheduler n pbs better c
    | [], .proc _ => none
  | .push_off c => if s.idle c then some (.ok (s.push_off c .bare)) else none
  | .pop_off c =>
    if s.idle c ∧ .bare ∈ s.pushed (s.on c) then some (s.pop_off c .bare) else none
  | .acquire c l =>
    if s.idle c then
      some ((s.acquire c l).map fun t => t.setScript (s.on c) (.take l :: s.script (s.on c)))
    else none
  | .release c l =>
    if s.idle c ∧ .lock l ∈ s.pushed (s.on c) then some (s.release c l) else none
  | .setState c q st =>
    if s.idle c ∧ .lock (.proc q) ∈ s.pushed (s.on c) ∧ Changes (s.state q) st then
      some (.ok { s.setState q st with
                  ctx := if st = .USED then Function.update s.ctx q .forkret else s.ctx })
    else none
  | .intr_on c =>
    match s.script (s.on c), s.on c with
    | [], .proc _ =>
      if s.pushed (s.on c) = [] then some (.ok (s.setCpu c { s.cpu c with intr := true })) else none
    | _, _ => none
  | .intr_off c =>
    if s.idle c then some (.ok (s.setCpu c { s.cpu c with intr := false })) else none
  | .interrupt c =>
    if (s.cpu c).intr then
      some (.ok ((s.setCpu c { s.cpu c with intr := false }).setScript (s.on c)
        (.sret :: s.script (s.on c))))
    else none
  | .yield c =>
    match s.on c with
    | .proc p =>
      if s.idle c ∧ s.pushed (.proc p) = [] then
        some (.ok (s.setScript (.proc p) (yield p ++ s.script (.proc p))))
      else none
    | .scheduler _ => none
  | .sleep c lk =>
    match s.on c with
    | .proc p =>
      if s.idle c ∧ s.pushed (.proc p) = [.lock lk] then
        some (.ok (s.setScript (.proc p) (sleep p lk ++ s.script (.proc p))))
      else none
    | .scheduler _ => none
  | .exit c k =>
    match s.on c with
    | .proc p =>
      if s.idle c ∧ s.pushed (.proc p) = [] then
        some (.ok (s.setScript (.proc p) (exit n p k ++ s.script (.proc p))))
      else none
    | .scheduler _ => none

end Machine

end Xv6.Intr
