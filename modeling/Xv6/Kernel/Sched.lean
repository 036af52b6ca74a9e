import Mathlib.Data.Int.Notation
import Xv6.Kernel.Proc

/-!
# Sched — kernel threads, CPUs and spinlocks (`proc.c`, `spinlock.c`, `sleeplock.c`, `trap.c`)

Any number of CPUs execute kernel code.  A step of a CPU is one `acquire`, `release` or `swtch`
with the code that follows it up to the next one, or a choice of what to do next.

* `Entry`, `Data`: the memory that the CPUs share.
* `Eff`: what the code between two operations on locks writes there.
* `Frame`: a call in progress, with its local variables and the place it has come to; the stack of
  a thread is a list of frames, the innermost call first.
* `Frame.step`: the operation, the effect and the new frames of the next step.

A call of `release` after which the function does nothing but return, or continue as another frame
says, is the frame `unlock`.
-/

namespace Xv6

/-! ## Locks -/

/-- Spinlocks under which no other lock is taken. -/
inductive Leaf where
  | pid_lock | kmem | ftable | bcache | pr
  deriving DecidableEq

inductive Lock where
  | wait_lock
  | spin (k : Spin)
  | proc (i : Fin NPROC)
  | itable
  | leaf (l : Leaf)
  deriving DecidableEq

/-- Locks that interrupt handlers take. -/
def Spin.handler : Spin → Bool
  | .tickslock | .cons | .uart_tx_lock | .vdisk_lock => true
  | _ => false

/-! ## Shared memory -/

/-- `struct proc`, as far as it matters to scheduling and waiting.  `life` counts the processes that
have been created before this one. -/
structure Entry where
  state : procstate
  chan : Option Chan
  killed : Bool
  xstate : ℤ
  pid : ℤ
  parent : Option (Fin NPROC)
  ctime : ℕ
  etime : ℕ
  num_sch : ℕ
  dp : ℕ
  life : ℕ

/-- A slot after `procinit`; `freeproc` leaves the times as they are. -/
def Entry.zero : Entry :=
  { state := .UNUSED, chan := none, killed := false, xstate := 0, pid := 0, parent := none,
    ctime := 0, etime := 0, num_sch := 0, dp := 0, life := 0 }

/-- A process has exited. -/
structure Exited where
  life : ℕ
  pid : ℤ
  status : ℤ

/-- `wait` or `waitx` of process `by_` returned `pid` and `status` of a child. -/
structure Reaped extends Exited where
  by_ : Fin NPROC
  parent : Option (Fin NPROC)

/-- `cond x p`: what process `p` waits for on channel `x` is the case.  `uses p n`: process `p` has
a reference to inode `n` of the table.  `exits` and `reaps` record the history. -/
structure Data where
  proc : Fin NPROC → Entry
  nextpid : ℤ
  ticks : ℕ
  cond : Chan → Fin NPROC → Bool
  uses : Fin NPROC → ℕ → Bool
  births : ℕ
  exits : List Exited
  reaps : List Reaped

/-- `userinit` takes the first slot. -/
abbrev initproc : Fin NPROC := ⟨0, by decide⟩

def Data.set (d : Data) (i : Fin NPROC) (e : Entry) : Data :=
  { d with proc := Function.update d.proc i e }

/-- What the code between two operations on locks does to shared memory. -/
inductive Eff where
  | nop
  | run (i : Fin NPROC)
  | yield (i : Fin NPROC)
  | sleep (i : Fin NPROC) (x : Chan)
  | woken (i : Fin NPROC)
  | wakeup (i : Fin NPROC) (x : Option Chan)
  | kill (i : Fin NPROC)
  | setkilled (i : Fin NPROC)
  | alloc (i : Fin NPROC)
  | inherit (i j : Fin NPROC)
  | adopt (i j : Fin NPROC)
  | start (j : Fin NPROC)
  | free (j : Fin NPROC)
  | orphan (j : Fin NPROC)
  | exit (i : Fin NPROC) (status : ℤ)
  | reap (i j : Fin NPROC)
  | cond (x : Chan) (f : Fin NPROC → Bool)
  | tick
  | rate (dp : Fin NPROC → ℕ)
  | use (i : Fin NPROC) (n : ℕ) (b : Bool)

/-- `freeproc`, on an entry. -/
def Entry.free (e : Entry) : Entry :=
  { e with pid := 0, parent := none, chan := none, killed := false, xstate := 0, state := .UNUSED,
           dp := PBS_DEF_DP, num_sch := 0 }

def Eff.apply (d : Data) : Eff → Data
  | .nop => d
  | .run i => d.set i { d.proc i with state := .RUNNING, num_sch := ((d.proc i).num_sch + 1) % 2 ^ 32 }
  | .yield i => d.set i { d.proc i with state := .RUNNABLE }
  | .sleep i x => d.set i { d.proc i with chan := some x, state := .SLEEPING }
  | .woken i => d.set i { d.proc i with chan := none }
  | .wakeup i x =>
    if (d.proc i).state = .SLEEPING ∧ (d.proc i).chan = x then
      d.set i { d.proc i with state := .RUNNABLE }
    else d
  | .kill i =>
    d.set i { d.proc i with
      killed := true, state := if (d.proc i).state = .SLEEPING then .RUNNABLE else (d.proc i).state }
  | .setkilled i => d.set i { d.proc i with killed := true }
  | .alloc i =>
    { d.set i { d.proc i with pid := d.nextpid, state := .USED, etime := 0, ctime := d.ticks,
                              num_sch := 0, dp := PBS_DEF_DP, life := d.births } with
      nextpid := int32 (d.nextpid + 1), births := d.births + 1 }
  | .inherit i j => { d with uses := Function.update d.uses j (d.uses i) }
  | .adopt i j => d.set j { d.proc j with parent := some i }
  | .start j => d.set j { d.proc j with state := .RUNNABLE }
  | .free j => d.set j (d.proc j).free
  | .orphan j => d.set j { d.proc j with parent := some initproc }
  | .exit i status =>
    { d.set i { d.proc i with xstate := status, state := .ZOMBIE, etime := d.ticks } with
      exits := ⟨(d.proc i).life, (d.proc i).pid, status⟩ :: d.exits }
  | .reap i j =>
    { d.set j (d.proc j).free with
      reaps := ⟨⟨(d.proc j).life, (d.proc j).pid, (d.proc j).xstate⟩, i, (d.proc j).parent⟩ :: d.reaps }
  | .cond x f => { d with cond := Function.update d.cond x f }
  | .tick => { d with ticks := (d.ticks + 1) % 2 ^ 32 }
  | .rate dp =>
    { d with proc := fun i =>
        if (d.proc i).state = .UNUSED then d.proc i else { d.proc i with dp := dp i } }
  | .use i n b => { d with uses := Function.update d.uses i (Function.update (d.uses i) n b) }

/-! ## Threads -/

/-- Why a thread has called `sched`, or that it was made by `fork`. -/
inductive Back where
  | forked
  | yielded
  | slept (x : Chan)
  | exited
  deriving DecidableEq

/-- `p` is the local variable `p`, the result of `myproc`. -/
inductive Frame where
  /-- outside the functions below: user mode, or kernel code that holds no spinlock -/
  | user (p : Fin NPROC)
  | unlock (l : Lock)
  /-- `acquire` of a lock that is given back at once -/
  | leaf (l : Leaf)
  | yield (p : Fin NPROC)
  /-- in `sched` -/
  | swtch (p : Fin NPROC) (b : Back)
  /-- after the return of `sched`, or in `forkret` -/
  | back (p : Fin NPROC) (b : Back)
  | sleep (p : Fin NPROC) (x : Chan) (lk : Lock)
  /-- in `sleep`, with `p->lock` -/
  | sleeping (p : Fin NPROC) (x : Chan) (lk : Lock)
  | wakeup (x : Option Chan) (j : ℕ)
  | update_time (j : ℕ)
  | kill (pid : ℤ) (j : ℕ)
  | setkilled (p : Fin NPROC)
  | killed (p : Fin NPROC)
  /-- before `acquire` of a spinlock; `h`: in an interrupt handler -/
  | enter (k : Spin) (h : Bool)
  /-- holding the spinlock; `wakeup` of the channels `todo` is still to come -/
  | crit (k : Spin) (h : Bool) (todo : List ℕ)
  /-- before `acquire(lk)` in `sleep`; `loop`: the caller tests `killed` before it sleeps -/
  | regain (p : Fin NPROC) (k : Spin) (loop : Bool)
  /-- in `killed`, called from such a loop: before `acquire`, before `release`, and afterwards -/
  | test (p : Fin NPROC) (k : Spin) (todo : List ℕ)
  | testing (p : Fin NPROC) (k : Spin) (b : Bool) (todo : List ℕ)
  | tested (p : Fin NPROC) (k : Spin) (todo : List ℕ)
  /-- `x`: this is `waitx` -/
  | wait (p : Fin NPROC) (x : Bool)
  | waitScan (p : Fin NPROC) (x havekids : Bool) (j : ℕ)
  | waitLook (p : Fin NPROC) (x : Bool) (pp : Fin NPROC)
  | waitTest (p : Fin NPROC)
  | waitTested (p : Fin NPROC) (b : Bool)
  | exit (p : Fin NPROC) (status : ℤ)
  | reparent (p : Fin NPROC) (status : ℤ) (j : ℕ)
  | exitLock (p : Fin NPROC) (status : ℤ)
  | exitRel (p : Fin NPROC)
  | allocproc (p : Fin NPROC) (j : ℕ)
  | allocpid (p np : Fin NPROC)
  | allocContext (p np : Fin NPROC)
  | fork (p np : Fin NPROC)
  | forkParent (p np : Fin NPROC)
  | forkRun (p np : Fin NPROC)
  | idup
  | iget (p : Fin NPROC) (n : ℕ)
  | iput (p : Fin NPROC) (n : ℕ)
  | iputRef (p : Fin NPROC) (n : ℕ)
  | iputSleep (p : Fin NPROC) (n : ℕ)
  | iputLocked (p : Fin NPROC) (n : ℕ)
  | scheduler (j : ℕ) (highest : Option (Fin NPROC)) (min_dp : ℕ)
  | look (i : Fin NPROC) (highest : Option (Fin NPROC)) (min_dp : ℕ)
  | dispatched (highest : Fin NPROC)

/-- What a thread may choose to do where the code leaves it open. -/
inductive Choice where
  | go
  | intr (k : Spin) | preempt
  | fork | exit (status : ℤ) | wait (x : Bool) | kill (pid : ℤ) | setkilled | killed
  | enter (k : Spin) | leaf (l : Leaf) | iget (n : ℕ) | iput (n : ℕ) | close (n : ℕ)
  | make (n : ℕ) (f : Fin NPROC → Bool) | clear (n : ℕ) (f : Fin NPROC → Bool)
  | wakeup (n : ℕ) | sleep (n : ℕ) | test | leave | release
  | tick | update_time | rate (dp : Fin NPROC → ℕ)
  | fail

inductive Op where
  | tau
  | acquire (l : Lock)
  | release (l : Lock)
  /-- `swtch` from the scheduler to process `i` -/
  | resume (i : Fin NPROC)
  /-- `sched` of process `p` -/
  | sched (p : Fin NPROC)
  /-- a new context for process `i`, to start at `forkret` -/
  | context (i : Fin NPROC)
  | panic (msg : String)

/-- The entry that a loop over the table has come to. -/
def slot (j : ℕ) : Option (Fin NPROC) := if h : j < NPROC then some ⟨j, h⟩ else none

/-- The comparison of `scheduler`. -/
def Entry.better (p highest : Entry) (min_dp : ℕ) : Prop :=
  p.dp < min_dp ∨ (p.dp = min_dp ∧ p.num_sch < highest.num_sch) ∨
    (p.dp = min_dp ∧ p.num_sch = highest.num_sch ∧ p.ctime < highest.ctime)

instance (p highest : Entry) (m : ℕ) : Decidable (p.better highest m) :=
  inferInstanceAs (Decidable (_ ∨ _ ∨ _))

namespace Frame

/-- Interrupts are off although no lock is held. -/
def handler : Frame → Bool
  | enter _ true => true
  | _ => false

/-- The calls from user mode, and code of the kernel that holds no spinlock. -/
def call (p : Fin NPROC) (d : Data) : Choice → Option (Op × Eff × List Frame)
  | .fork => some (.tau, .nop, [allocproc p 0, user p])
  | .exit status =>
    if p = initproc then some (.panic "init exiting", .nop, [])
    else some (.tau, .nop, [exit p status])
  | .wait x => some (.tau, .nop, [wait p x, user p])
  | .kill pid => some (.tau, .nop, [kill pid 0, user p])
  | .setkilled => some (.tau, .nop, [setkilled p, user p])
  | .killed => some (.tau, .nop, [killed p, user p])
  | .leaf l => some (.tau, .nop, [leaf l, user p])
  | .enter (.inode n) =>
    if d.uses p n then some (.tau, .nop, [enter (.inode n) false, user p]) else none
  | .enter k => some (.tau, .nop, [enter k false, user p])
  | .iget n => some (.tau, .nop, [iget p n, user p])
  | .iput n => if d.uses p n then some (.tau, .nop, [iput p n, user p]) else none
  -- the last descriptor of `p` for a file that others have open as well
  | .close n => some (.tau, .use p n false, [user p])
  | _ => none

/-- The critical section of spinlock `k`. -/
def section_ (me : Option (Fin NPROC)) (d : Data) (k : Spin) (h : Bool) (todo : List ℕ) :
    Choice → Option (Op × Eff × List Frame)
  | .make n f => some (.tau, .cond (.of k n) f, [crit k h (n :: todo)])
  | .clear n f =>
    if ∀ p, f p = true → d.cond (.of k n) p = true then some (.tau, .cond (.of k n) f, [crit k h todo])
    else none
  | .wakeup n =>
    some (.tau, .nop, [wakeup (some (.of k n)) 0, crit k h (todo.filter (· ≠ n))])
  | .leaf l => some (.tau, .nop, [leaf l, crit k h todo])
  | .tick => if k = .tickslock then some (.tau, .tick, [crit k h todo]) else none
  | .update_time =>
    if k = .tickslock then some (.tau, .nop, [update_time 0, crit k h todo]) else none
  | .rate dp => if k = .tickslock then some (.tau, .rate dp, [crit k h todo]) else none
  | .sleep n =>
    match h, todo, me with
    | false, [], some p =>
      if d.cond (.of k n) p = false then
        some (.tau, .nop, [sleep p (.of k n) (.spin k), regain p k false])
      else none
    | _, _, _ => none
  | .test =>
    match h, me with
    | false, some p => some (.tau, .nop, [test p k todo])
    | _, _ => none
  | .release => if todo = [] then some (.release (.spin k), .nop, []) else none
  | _ => none

/-- The next step of the innermost call. -/
def code (me : Option (Fin NPROC)) (d : Data) : Frame → Choice → Option (Op × Eff × List Frame)
  | user p, ch => call p d ch
  | unlock l, _ => some (.release l, .nop, [])
  | leaf l, _ => some (.acquire (.leaf l), .nop, [unlock (.leaf l)])
  | yield p, _ => some (.acquire (.proc p), .yield p, [swtch p .yielded])
  | swtch p b, _ => some (.sched p, .nop, [back p b])
  | back p b, _ =>
    match b with
    | .slept _ => some (.release (.proc p), .woken p, [])
    | .exited => some (.panic "zombie exit", .nop, [])
    | _ => some (.release (.proc p), .nop, [])
  | sleep p x lk, _ => some (.acquire (.proc p), .nop, [sleeping p x lk])
  | sleeping p x lk, _ => some (.release lk, .sleep p x, [swtch p (.slept x)])
  | wakeup x j, _ =>
    match slot j with
    | none => some (.tau, .nop, [])
    | some i =>
      if me = some i then some (.tau, .nop, [wakeup x (j + 1)])
      else some (.acquire (.proc i), .wakeup i x, [unlock (.proc i), wakeup x (j + 1)])
  | update_time j, _ =>
    match slot j with
    | none => some (.tau, .nop, [])
    | some i => some (.acquire (.proc i), .nop, [unlock (.proc i), update_time (j + 1)])
  | kill pid j, _ =>
    match slot j with
    | none => some (.tau, .nop, [])
    | some i =>
      if (d.proc i).pid = pid then some (.acquire (.proc i), .kill i, [unlock (.proc i)])
      else some (.acquire (.proc i), .nop, [unlock (.proc i), kill pid (j + 1)])
  | setkilled p, _ => some (.acquire (.proc p), .setkilled p, [unlock (.proc p)])
  | killed p, _ => some (.acquire (.proc p), .nop, [unlock (.proc p)])
  | enter k h, _ => some (.acquire (.spin k), .nop, [crit k h []])
  | crit k h todo, ch => section_ me d k h todo ch
  | regain _ k _, _ => some (.acquire (.spin k), .nop, [crit k false []])
  | test p k todo, _ => some (.acquire (.proc p), .nop, [testing p k (d.proc p).killed todo])
  | testing p k b todo, _ =>
    some (.release (.proc p), .nop, if b then [crit k false todo] else [tested p k todo])
  | tested p k todo, ch =>
    match ch with
    | .wakeup n =>
      some (.tau, .nop, [wakeup (some (.of k n)) 0, tested p k (todo.filter (· ≠ n))])
    | .sleep n =>
      if todo = [] ∧ d.cond (.of k n) p = false then
        some (.tau, .nop, [sleep p (.of k n) (.spin k), regain p k true])
      else none
    | .leave => some (.tau, .nop, [crit k false todo])
    | _ => none
  | wait p x, _ => some (.acquire .wait_lock, .nop, [waitScan p x false 0])
  | waitScan p x havekids j, _ =>
    match slot j with
    | some pp =>
      if (d.proc pp).parent = some p then some (.acquire (.proc pp), .nop, [waitLook p x pp])
      else some (.tau, .nop, [waitScan p x havekids (j + 1)])
    | none =>
      if havekids = false then some (.tau, .nop, [unlock .wait_lock])
      else if x = false then some (.tau, .nop, [waitTest p])
      -- `waitx` reads `p->killed` without the lock
      else if (d.proc p).killed then some (.tau, .nop, [unlock .wait_lock])
      else some (.tau, .nop, [sleep p (.proc p) .wait_lock, wait p x])
  | waitLook p x pp, ch =>
    if (d.proc pp).state = .ZOMBIE then
      match ch with
      | .leaf l => some (.tau, .nop, [leaf l, waitLook p x pp])
      | .fail => some (.release (.proc pp), .nop, [unlock .wait_lock])
      | .go => some (.release (.proc pp), .reap p pp, [unlock .wait_lock])
      | _ => none
    else some (.release (.proc pp), .nop, [waitScan p x true (pp.val + 1)])
  | waitTest p, _ => some (.acquire (.proc p), .nop, [waitTested p (d.proc p).killed])
  | waitTested p b, _ =>
    some (.release (.proc p), .nop,
      if b then [unlock .wait_lock] else [sleep p (.proc p) .wait_lock, wait p false])
  | exit p status, _ => some (.acquire .wait_lock, .nop, [reparent p status 0])
  | reparent p status j, _ =>
    match slot j with
    | none => some (.tau, .nop, [wakeup ((d.proc p).parent.map .proc) 0, exitLock p status])
    | some pp =>
      if (d.proc pp).parent = some p then
        some (.tau, .orphan pp, [wakeup (some (.proc initproc)) 0, reparent p status (j + 1)])
      else some (.tau, .nop, [reparent p status (j + 1)])
  | exitLock p status, _ => some (.acquire (.proc p), .exit p status, [exitRel p])
  | exitRel p, _ => some (.release .wait_lock, .nop, [swtch p .exited])
  | allocproc p j, _ =>
    match slot j with
    | none => some (.tau, .nop, [])
    | some np =>
      if (d.proc np).state = .UNUSED then some (.acquire (.proc np), .nop, [allocpid p np])
      else some (.acquire (.proc np), .nop, [unlock (.proc np), allocproc p (j + 1)])
  | allocpid p np, _ =>
    some (.acquire (.leaf .pid_lock), .alloc np, [unlock (.leaf .pid_lock), allocContext p np])
  | allocContext p np, _ => some (.context np, .nop, [fork p np])
  | fork p np, ch =>
    match ch with
    | .go => some (.release (.proc np), .inherit p np, [forkParent p np])
    | .fail => some (.release (.proc np), .free np, [])
    | .leaf l => some (.tau, .nop, [leaf l, fork p np])
    | .iget _ => some (.tau, .nop, [idup, fork p np])
    | _ => none
  | forkParent p np, _ => some (.acquire .wait_lock, .adopt p np, [unlock .wait_lock, forkRun p np])
  | forkRun _ np, _ => some (.acquire (.proc np), .start np, [unlock (.proc np)])
  | idup, _ => some (.acquire .itable, .nop, [unlock .itable])
  | iget p n, _ => some (.acquire .itable, .use p n true, [unlock .itable])
  | iput p n, _ => some (.acquire .itable, .nop, [iputRef p n])
  | iputRef p n, ch =>
    match ch with
    | .go => some (.release .itable, .use p n false, [])
    -- `ip->ref == 1`: no other process has the inode
    | .sleep _ =>
      if ∀ q, q ≠ p → d.uses q n = false then some (.tau, .nop, [iputSleep p n]) else none
    | _ => none
  | iputSleep p n, _ => some (.acquire (.spin (.inode n)), .nop, [iputLocked p n])
  | iputLocked _ n, _ => some (.release (.spin (.inode n)), .nop, [unlock .itable])
  | scheduler j highest min_dp, _ =>
    match slot j with
    | some i => some (.acquire (.proc i), .nop, [look i highest min_dp])
    | none =>
      match highest with
      | none => some (.tau, .nop, [scheduler 0 none 100])
      | some h => some (.resume h, .run h, [dispatched h])
  | look i highest min_dp, _ =>
    if (d.proc i).state = .RUNNABLE then
      match highest with
      | none => some (.tau, .nop, [scheduler (i.val + 1) (some i) (d.proc i).dp])
      | some h =>
        if (d.proc i).better (d.proc h) min_dp then
          some (.release (.proc h), .nop, [scheduler (i.val + 1) (some i) (d.proc i).dp])
        else some (.release (.proc i), .nop, [scheduler (i.val + 1) highest min_dp])
    else some (.release (.proc i), .nop, [scheduler (i.val + 1) highest min_dp])
  | dispatched h, _ => some (.release (.proc h), .nop, [scheduler 0 none 100])

/-- The next step of the innermost call, or an interrupt. -/
def step (me : Option (Fin NPROC)) (noff : ℕ) (d : Data) (f : Frame) :
    Choice → Option (Op × Eff × List Frame)
  | .intr k =>
    if noff = 0 ∧ f.handler = false ∧ k.handler = true then some (.tau, .nop, [enter k true, f])
    else none
  | .preempt =>
    match me with
    | none => none
    | some p =>
      if noff = 0 ∧ f.handler = false ∧ (d.proc p).state = .RUNNING then
        some (.tau, .nop, [yield p, f])
      else none
  | ch => f.code me d ch

end Frame

/-! ## The machine -/

/-- Which stack a CPU is on: its scheduler's, or that of a process. -/
inductive Ctx (C : Type) where
  | cpu (c : C)
  | proc (p : Fin NPROC)
  deriving DecidableEq

/-- `cpuproc c` is `c->proc`, `noff c` is `c->noff`. -/
structure Smp (C : Type) where
  data : Data
  lock : Lock → Option C
  noff : C → ℕ
  cpuproc : C → Option (Fin NPROC)
  cur : C → Ctx C
  stack : Ctx C → List Frame

namespace Smp

variable {C : Type} [DecidableEq C]

/-- After `userinit`, when the CPUs enter `scheduler`. -/
def boot : Smp C :=
  { data :=
      { proc := Function.update (fun _ => Entry.zero) initproc
          { Entry.zero with state := .RUNNABLE, pid := 1, dp := PBS_DEF_DP }
        nextpid := 2, ticks := 0, cond := fun _ _ => false, uses := fun _ _ => false, births := 1
        exits := [], reaps := [] }
    lock := fun _ => none
    noff := fun _ => 0
    cpuproc := fun _ => none
    cur := Ctx.cpu
    stack := fun t =>
      match t with
      | .cpu _ => [.scheduler 0 none 100]
      | .proc p => if p = initproc then [.back p .forked, .user p] else [.back p .exited] }

/-- The effect and the new stack of CPU `c`. -/
def put (s : Smp C) (c : C) (e : Eff) (stk : List Frame) : Smp C :=
  { s with data := e.apply s.data, stack := Function.update s.stack (s.cur c) stk }

/-- Perform an operation on CPU `c`. -/
def perform (s : Smp C) (c : C) (e : Eff) (stk : List Frame) : Op → Option (Except String (Smp C))
  | .tau => some (.ok (s.put c e stk))
  | .acquire l =>
    match s.lock l with
    | none =>
      some (.ok { s.put c e stk with
        lock := Function.update s.lock l (some c)
        noff := Function.update s.noff c (s.noff c + 1) })
    | some c' => if c' = c then some (.error "acquire") else none
  | .release l =>
    if s.lock l = some c then
      some (.ok { s.put c e stk with
        lock := Function.update s.lock l none
        noff := Function.update s.noff c (s.noff c - 1) })
    else some (.error "release")
  | .resume i =>
    some (.ok { s.put c e stk with
      cur := Function.update s.cur c (.proc i)
      cpuproc := Function.update s.cpuproc c (some i) })
  | .sched p =>
    if s.lock (.proc p) ≠ some c then some (.error "sched p->lock")
    else if s.noff c ≠ 1 then some (.error "sched locks")
    else if (s.data.proc p).state = .RUNNING then some (.error "sched running")
    else
      -- in `scheduler`, `c->proc = 0` follows
      some (.ok { s.put c e stk with
        cur := Function.update s.cur c (.cpu c)
        cpuproc := Function.update s.cpuproc c none })
  | .context i =>
    some (.ok { s.put c e stk with
      stack := Function.update (s.put c e stk).stack (.proc i) [.back i .forked, .user i] })
  | .panic msg => some (.error msg)

/-- A step of CPU `c`. -/
def step (s : Smp C) (l : C × Choice) : Option (Except String (Smp C)) :=
  match s.stack (s.cur l.1) with
  | [] => none
  | f :: fs =>
    match f.step (s.cpuproc l.1) (s.noff l.1) s.data l.2 with
    | none => none
    | some (op, e, gs) => s.perform l.1 e (gs ++ fs) op

end Smp

end Xv6
