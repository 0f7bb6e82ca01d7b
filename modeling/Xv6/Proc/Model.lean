import Xv6.Lib.Trace
import Xv6.Vm.Copyin

/-!
# `Proc.Model` — processes, CPUs and the scheduler of `kernel/proc.c`

`M` CPUs run the kernel threads of `N` process slots. A CPU executes on the kernel stack of a process or on
its own scheduler stack; a stack is the list of the active calls, the innermost first, each with its program
point. One step executes one statement of the innermost call: an acquisition or release of a spinlock, an
assignment to a `struct proc` or to `c->proc`, a `swtch`, or a call or return.

* `lk->locked` and `lk->cpu` are `Sys.lock`, `c->noff` counts the locks of a CPU. A CPU that spins has no
  step, and neither has one that panics.
* `swtch` stores what is left to do in `context` and goes on with the other `context`. `Sys.stack` is the
  kernel stack itself, so that a context that has not been saved would show as a difference of the two.
* Everything a process does outside `proc.c` is the frame `code`: it takes and releases other spinlocks and
  calls the functions of `proc.c` in any order. `exit` starts after the open files have been closed.
* An interrupt can arrive whenever its CPU holds no lock. Its handler is the frame `intr` on top of whatever
  was interrupted, on the scheduler's stack too; it may call `wakeup`, and `yield` if there is a process.
* What `kalloc`, `uvmcopy` and `copyout` answer is chosen by the label.

`Sys.log` records the forks, exits and waits that have taken effect.
-/

namespace Xv6.Procs

inductive PState
  | unused
  | used
  | sleeping
  | runnable
  | running
  | zombie
deriving DecidableEq

/-- The spinlocks: `p->lock`, `wait_lock`, `pid_lock` and those of other parts of the kernel. -/
inductive Lock (N : Nat)
  | proc (p : Fin N)
  | wait
  | pid
  | other (n : Nat)
deriving DecidableEq

/-- What a process sleeps on: the address of a `struct proc` or of something else. -/
inductive Chan (N : Nat)
  | null
  | proc (p : Fin N)
  | other (n : Nat)
deriving DecidableEq

/-! ## Program points -/

inductive YieldPt
  | acquire
  | state
  | sched
  | release
  | done
deriving DecidableEq

inductive SleepPt
  | acquire
  | release
  | chan
  | state
  | sched
  | tidy
  | unlock
  | reacquire
  | done
deriving DecidableEq

inductive WakeupPt (N : Nat)
  | loop (i : Nat)
  | locked (q : Fin N)
  | unlock (q : Fin N)
deriving DecidableEq

inductive KillPt (N : Nat)
  | loop (i : Nat)
  | locked (q : Fin N)
  | state (q : Fin N)
  | found (q : Fin N)
  | unlock (q : Fin N)
  | done (ret : Int)
deriving DecidableEq

inductive ExitPt
  | acquireWait
  | reparent (i : Nat)
  | reparentWake (i : Nat)
  | wakeParent
  | acquire
  | xstate
  | state
  | releaseWait
  | sched
  | dead
deriving DecidableEq

/-- `pid` is the local variable of `wait`, `copied` what `copyout` has moved. -/
inductive WaitPt (N : Nat)
  | acquireWait
  | scan (i : Nat) (havekids : Bool)
  | locked (q : Fin N)
  | unlock (q : Fin N)
  | found (q : Fin N) (pid : Int)
  | freeMem (q : Fin N) (pid : Int) (copied : Option Int)
  | freeproc (q : Fin N) (pid : Int) (copied : Option Int)
  | freed (q : Fin N) (pid : Int)
  | failed (q : Fin N)
  | asleep
  | releaseWait (ret : Int)
  | done (ret : Int)
deriving DecidableEq

/-- The points up to `alloc` are those of `allocproc`. -/
inductive ForkPt (N : Nat)
  | loop (i : Nat)
  | locked (q : Fin N)
  | miss (q : Fin N)
  | pidAcquire (q : Fin N)
  | pidRead (q : Fin N)
  | pidRelease (q : Fin N) (pid : Int)
  | used (q : Fin N) (pid : Int)
  | alloc (q : Fin N) (pid : Int)
  | uvmcopy (q : Fin N) (pid : Int)
  | freeproc (q : Fin N)
  | unlockFreed (q : Fin N)
  | unlock (q : Fin N) (pid : Int)
  | acquireWait (q : Fin N) (pid : Int)
  | parent (q : Fin N) (pid : Int)
  | releaseWait (q : Fin N) (pid : Int)
  | relock (q : Fin N) (pid : Int)
  | runnable (q : Fin N) (pid : Int)
  | unlockRunnable (q : Fin N) (pid : Int)
  | done (ret : Int)
deriving DecidableEq

inductive SchedPt (N : Nat)
  | loop (i : Nat)
  | locked (q : Fin N)
  | setProc (q : Fin N)
  | swtch (q : Fin N)
  | back (q : Fin N)
  | unlock (q : Fin N)
deriving DecidableEq

/-- An active call. `held` are the spinlocks that the code outside `proc.c` holds. -/
inductive Frame (N : Nat)
  | code (held : List Nat)
  | intr (held : List Nat)
  | forkret (done : Bool)
  | yield (pt : YieldPt)
  | sleep (chan : Chan N) (lk : Lock N) (pt : SleepPt)
  | wakeup (chan : Chan N) (pt : WakeupPt N)
  | kill (pid : Int) (pt : KillPt N)
  | exit (status : Int) (pt : ExitPt)
  | wait (addr : Bool) (pt : WaitPt N)
  | fork (pt : ForkPt N)
  | sched (pt : SchedPt N)
deriving DecidableEq

abbrev Stack (N : Nat) := List (Frame N)

/-! ## States -/

/-- `struct proc`; `mem` says whether there are a trapframe and a page table. -/
structure Proc (N : Nat) where
  state : PState
  chan : Chan N
  killed : Bool
  xstate : Int
  pid : Int
  parent : Option (Fin N)
  sz : Nat
  mem : Bool
  context : Stack N

/-- `struct cpu`. `on` is the process on whose kernel stack the CPU executes; without one it executes on the
    stack of its `scheduler()`. -/
structure Cpu (N : Nat) where
  proc : Option (Fin N)
  context : Stack N
  noff : Nat
  on : Option (Fin N)

/-- The kernel thread of a process, or the scheduler of a CPU. -/
inductive Thread (N M : Nat)
  | proc (p : Fin N)
  | sched (c : Fin M)
deriving DecidableEq

/-- What has happened to the processes: `p` became the parent of `q`, `q` went to init, `q` became a zombie,
    `w` freed the zombie `q` and copied out a status, the `wait` of `w` returned. -/
inductive Event (N : Nat)
  | fork (p q : Fin N) (pid : Int)
  | reparent (q : Fin N)
  | exit (q : Fin N) (status : Int)
  | reap (w q : Fin N) (pid : Int) (copied : Option Int)
  | waited (w : Fin N) (ret : Int)
deriving DecidableEq

structure Sys (N M : Nat) where
  lock : Lock N → Option (Fin M)
  procs : Fin N → Proc N
  stack : Thread N M → Stack N
  cpus : Fin M → Cpu N
  initproc : Fin N
  nextpid : Int
  log : List (Event N)

/-! ## Statements -/

/-- The statement a call executes next, with the call's next point. -/
inductive Micro (N : Nat)
  | acquire (lk : Lock N) (k : Frame N)
  | release (lk : Lock N) (k : Frame N)
  | goto (k : Frame N)
  /-- assignments to the fields of `proc[q]` -/
  | assign (q : Fin N) (r : Proc N) (ev : List (Event N)) (k : Frame N)
  /-- the fresh context of `allocproc`, on an empty kernel stack -/
  | spawn (q : Fin N) (k : Frame N)
  /-- `nextpid = nextpid + 1`, an `int` of 32 bits -/
  | nextpid (k : Frame N)
  /-- `c->proc = p` -/
  | setProc (p : Option (Fin N)) (k : Frame N)
  | call (callee k : Frame N)
  | ret (ev : List (Event N))
  /-- `sched()`: `swtch(&p->context, &mycpu()->context)` -/
  | swtch (k : Frame N)
  /-- `swtch(&c->context, &p->context)` -/
  | resume (p : Fin N) (k : Frame N)

variable {N M : Nat}

/-- The kernel thread of a new process: `forkret`, on its way to user space. -/
def start : Stack N := [.forkret false, .code []]

def freeproc (r : Proc N) : Proc N :=
  { r with state := .unused, chan := .null, killed := false, xstate := 0, pid := 0, parent := none, sz := 0
           mem := false }

/-- What `wakeup(chan)` does to a process it has locked. -/
def Proc.wake (r : Proc N) (chan : Chan N) : Proc N :=
  if r.state = .sleeping ∧ r.chan = chan then { r with state := .runnable } else r

/-- The channel that is the address `p`. -/
def Chan.ofParent : Option (Fin N) → Chan N
  | none => .null
  | some p => .proc p

def forkret (p : Fin N) : Bool → Micro N
  | false => .release (.proc p) (.forkret true)
  | true => .ret []

def yield (s : Sys N M) (p : Fin N) : YieldPt → Micro N
  | .acquire => .acquire (.proc p) (.yield .state)
  | .state => .assign p { s.procs p with state := .runnable } [] (.yield .sched)
  | .sched => .swtch (.yield .release)
  | .release => .release (.proc p) (.yield .done)
  | .done => .ret []

def sleep (s : Sys N M) (p : Fin N) (chan : Chan N) (lk : Lock N) : SleepPt → Micro N
  | .acquire => .acquire (.proc p) (.sleep chan lk .release)
  | .release => .release lk (.sleep chan lk .chan)
  | .chan => .assign p { s.procs p with chan := chan } [] (.sleep chan lk .state)
  | .state => .assign p { s.procs p with state := .sleeping } [] (.sleep chan lk .sched)
  | .sched => .swtch (.sleep chan lk .tidy)
  | .tidy => .assign p { s.procs p with chan := .null } [] (.sleep chan lk .unlock)
  | .unlock => .release (.proc p) (.sleep chan lk .reacquire)
  | .reacquire => .acquire lk (.sleep chan lk .done)
  | .done => .ret []

/-- `myproc` is the process of the CPU, if it has one. -/
def wakeup (s : Sys N M) (myproc : Option (Fin N)) (chan : Chan N) : WakeupPt N → Micro N
  | .loop i =>
      if h : i < N then
        if some ⟨i, h⟩ = myproc then .goto (.wakeup chan (.loop (i + 1)))
        else .acquire (.proc ⟨i, h⟩) (.wakeup chan (.locked ⟨i, h⟩))
      else .ret []
  | .locked q => .assign q ((s.procs q).wake chan) [] (.wakeup chan (.unlock q))
  | .unlock q => .release (.proc q) (.wakeup chan (.loop (q + 1)))

def kill (s : Sys N M) (pid : Int) : KillPt N → Micro N
  | .loop i =>
      if h : i < N then .acquire (.proc ⟨i, h⟩) (.kill pid (.locked ⟨i, h⟩))
      else .goto (.kill pid (.done (-1)))
  | .locked q =>
      if (s.procs q).pid = pid then .assign q { s.procs q with killed := true } [] (.kill pid (.state q))
      else .goto (.kill pid (.unlock q))
  | .state q =>
      if (s.procs q).state = .sleeping then
        .assign q { s.procs q with state := .runnable } [] (.kill pid (.found q))
      else .goto (.kill pid (.found q))
  | .found q => .release (.proc q) (.kill pid (.done 0))
  | .unlock q => .release (.proc q) (.kill pid (.loop (q + 1)))
  | .done _ => .ret []

def exit (s : Sys N M) (p : Fin N) (status : Int) : ExitPt → Option (Micro N)
  | .acquireWait => some (.acquire .wait (.exit status (.reparent 0)))
  | .reparent i =>
      if h : i < N then
        if (s.procs ⟨i, h⟩).parent = some p then
          some (.assign ⟨i, h⟩ { s.procs ⟨i, h⟩ with parent := some s.initproc } [.reparent ⟨i, h⟩]
            (.exit status (.reparentWake (i + 1))))
        else some (.goto (.exit status (.reparent (i + 1))))
      else some (.goto (.exit status .wakeParent))
  | .reparentWake i => some (.call (.wakeup (.proc s.initproc) (.loop 0)) (.exit status (.reparent i)))
  | .wakeParent => some (.call (.wakeup (.ofParent (s.procs p).parent) (.loop 0)) (.exit status .acquire))
  | .acquire => some (.acquire (.proc p) (.exit status .xstate))
  | .xstate => some (.assign p { s.procs p with xstate := status } [] (.exit status .state))
  | .state =>
      some (.assign p { s.procs p with state := .zombie } [.exit p status] (.exit status .releaseWait))
  | .releaseWait => some (.release .wait (.exit status .sched))
  | .sched => some (.swtch (.exit status .dead))
  -- panic("zombie exit")
  | .dead => none

/-- What `copyout`, `kalloc` and `uvmcopy` answer, and what the code outside `proc.c` does next. -/
inductive Choice
  | go
  | ok
  | fail
  | intr
  | ret
  | lock (n : Nat)
  | unlock (n : Nat)
  | sleep (chan lk : Nat)
  | wakeup (chan : Nat)
  | yield
  | fork
  | exit (status : Int)
  | wait (addr : Bool)
  | kill (pid : Int)
  /-- `growproc` or `exec` gives the process another size -/
  | resize (sz : Nat)
deriving DecidableEq

def wait (s : Sys N M) (p : Fin N) (addr : Bool) : WaitPt N → Choice → Option (Micro N)
  | .acquireWait, _ => some (.acquire .wait (.wait addr (.scan 0 false)))
  | .scan i havekids, _ =>
      if h : i < N then
        if (s.procs ⟨i, h⟩).parent = some p then some (.acquire (.proc ⟨i, h⟩) (.wait addr (.locked ⟨i, h⟩)))
        else some (.goto (.wait addr (.scan (i + 1) havekids)))
      else if havekids = false ∨ (s.procs p).killed then some (.goto (.wait addr (.releaseWait (-1))))
      else some (.call (.sleep (.proc p) .wait .acquire) (.wait addr .asleep))
  | .locked q, _ =>
      if (s.procs q).state = .zombie then some (.goto (.wait addr (.found q (s.procs q).pid)))
      else some (.goto (.wait addr (.unlock q)))
  | .unlock q, _ => some (.release (.proc q) (.wait addr (.scan (q + 1) true)))
  | .found q pid, ch =>
      if addr then
        match ch with
        | .ok => some (.goto (.wait addr (.freeMem q pid (some (s.procs q).xstate))))
        | .fail => some (.goto (.wait addr (.failed q)))
        | _ => none
      else some (.goto (.wait addr (.freeMem q pid none)))
  | .freeMem q pid copied, _ =>
      some (.assign q { s.procs q with mem := false } [] (.wait addr (.freeproc q pid copied)))
  | .freeproc q pid copied, _ =>
      some (.assign q (Procs.freeproc (s.procs q)) [.reap p q pid copied] (.wait addr (.freed q pid)))
  | .freed q pid, _ => some (.release (.proc q) (.wait addr (.releaseWait pid)))
  | .failed q, _ => some (.release (.proc q) (.wait addr (.releaseWait (-1))))
  -- the continuation of `sleep`, see `Frame.regain`
  | .asleep, _ => none
  | .releaseWait ret, _ => some (.release .wait (.wait addr (.done ret)))
  | .done ret, _ => some (.ret [.waited p ret])

def fork (s : Sys N M) (p : Fin N) : ForkPt N → Choice → Option (Micro N)
  | .loop i, _ =>
      if h : i < N then some (.acquire (.proc ⟨i, h⟩) (.fork (.locked ⟨i, h⟩)))
      else some (.goto (.fork (.done (-1))))
  | .locked q, _ =>
      if (s.procs q).state = .unused then some (.goto (.fork (.pidAcquire q)))
      else some (.goto (.fork (.miss q)))
  | .miss q, _ => some (.release (.proc q) (.fork (.loop (q + 1))))
  | .pidAcquire q, _ => some (.acquire .pid (.fork (.pidRead q)))
  | .pidRead q, _ => some (.nextpid (.fork (.pidRelease q s.nextpid)))
  | .pidRelease q pid, _ => some (.release .pid (.fork (.used q pid)))
  | .used q pid, _ =>
      some (.assign q { s.procs q with pid := pid, state := .used } [] (.fork (.alloc q pid)))
  | .alloc q pid, .ok => some (.spawn q (.fork (.uvmcopy q pid)))
  | .alloc q _, .fail => some (.goto (.fork (.freeproc q)))
  | .alloc _ _, _ => none
  | .uvmcopy q pid, .ok =>
      some (.assign q { s.procs q with sz := (s.procs p).sz } [] (.fork (.unlock q pid)))
  | .uvmcopy q _, .fail => some (.goto (.fork (.freeproc q)))
  | .uvmcopy _ _, _ => none
  | .freeproc q, _ => some (.assign q (Procs.freeproc (s.procs q)) [] (.fork (.unlockFreed q)))
  | .unlockFreed q, _ => some (.release (.proc q) (.fork (.done (-1))))
  | .unlock q pid, _ => some (.release (.proc q) (.fork (.acquireWait q pid)))
  | .acquireWait q pid, _ => some (.acquire .wait (.fork (.parent q pid)))
  | .parent q pid, _ =>
      some (.assign q { s.procs q with parent := some p } [.fork p q pid] (.fork (.releaseWait q pid)))
  | .releaseWait q pid, _ => some (.release .wait (.fork (.relock q pid)))
  | .relock q pid, _ => some (.acquire (.proc q) (.fork (.runnable q pid)))
  | .runnable q pid, _ =>
      some (.assign q { s.procs q with state := .runnable } [] (.fork (.unlockRunnable q pid)))
  | .unlockRunnable q pid, _ => some (.release (.proc q) (.fork (.done pid)))
  | .done _, _ => some (.ret [])

def scheduler (s : Sys N M) : SchedPt N → Micro N
  | .loop i =>
      if h : i < N then .acquire (.proc ⟨i, h⟩) (.sched (.locked ⟨i, h⟩))
      else .goto (.sched (.loop 0))
  | .locked q =>
      if (s.procs q).state = .runnable then
        .assign q { s.procs q with state := .running } [] (.sched (.setProc q))
      else .goto (.sched (.unlock q))
  | .setProc q => .setProc (some q) (.sched (.swtch q))
  | .swtch q => .resume q (.sched (.back q))
  | .back q => .setProc none (.sched (.unlock q))
  | .unlock q => .release (.proc q) (.sched (.loop (q + 1)))

/-- Code outside `proc.c` in process `p`. -/
def code (s : Sys N M) (p : Fin N) (held : List Nat) : Choice → Option (Micro N)
  | .lock n => some (.acquire (.other n) (.code (n :: held)))
  | .unlock n => if n ∈ held then some (.release (.other n) (.code (held.erase n))) else none
  | .sleep chan n =>
      if n ∈ held then some (.call (.sleep (.other chan) (.other n) .acquire) (.code (held.erase n))) else none
  | .wakeup chan => some (.call (.wakeup (.other chan) (.loop 0)) (.code held))
  | .yield => some (.call (.yield .acquire) (.code held))
  | .fork => some (.call (.fork (.loop 0)) (.code held))
  -- panic("init exiting")
  | .exit status => if p = s.initproc then none else some (.call (.exit status .acquireWait) (.code held))
  | .wait addr => some (.call (.wait addr .acquireWait) (.code held))
  | .kill pid => some (.call (.kill pid (.loop 0)) (.code held))
  | .resize sz => some (.assign p { s.procs p with sz := sz } [] (.code held))
  | _ => none

/-- An interrupt handler. -/
def intr (s : Sys N M) (myproc : Option (Fin N)) (held : List Nat) : Choice → Option (Micro N)
  | .lock n => some (.acquire (.other n) (.intr (n :: held)))
  | .unlock n => if n ∈ held then some (.release (.other n) (.intr (held.erase n))) else none
  | .wakeup chan => some (.call (.wakeup (.other chan) (.loop 0)) (.intr held))
  | .yield =>
      match myproc with
      | none => none
      | some p => if (s.procs p).state = .running then some (.call (.yield .acquire) (.intr held)) else none
  | .ret => if held = [] then some (.ret []) else none
  | _ => none

/-- The next statement of the call `f` on CPU `c`. -/
def Frame.next (s : Sys N M) (c : Fin M) (f : Frame N) (ch : Choice) : Option (Micro N) :=
  match f, (s.cpus c).proc with
  | .intr held, myproc => Procs.intr s myproc held ch
  | .wakeup chan pt, myproc => some (Procs.wakeup s myproc chan pt)
  | .sched pt, _ => some (Procs.scheduler s pt)
  | .code held, some p => Procs.code s p held ch
  | .forkret done, some p => some (Procs.forkret p done)
  | .yield pt, some p => some (Procs.yield s p pt)
  | .sleep chan lk pt, some p => some (Procs.sleep s p chan lk pt)
  | .kill pid pt, some _ => some (Procs.kill s pid pt)
  | .exit status pt, some p => Procs.exit s p status pt
  | .wait addr pt, some p => Procs.wait s p addr pt ch
  | .fork pt, some p => Procs.fork s p pt ch
  | _, none => none

/-! ## Execution -/

/-- The thread that a CPU executes. -/
def Sys.thread (s : Sys N M) (c : Fin M) : Thread N M :=
  match (s.cpus c).on with
  | none => .sched c
  | some p => .proc p

def Sys.setCpu (s : Sys N M) (c : Fin M) (r : Cpu N) : Sys N M :=
  { s with cpus := Function.update s.cpus c r }

def Sys.setStack (s : Sys N M) (θ : Thread N M) (fs : Stack N) : Sys N M :=
  { s with stack := Function.update s.stack θ fs }

def Sys.setProc (s : Sys N M) (p : Fin N) (r : Proc N) : Sys N M :=
  { s with procs := Function.update s.procs p r }

/-- The CPU goes on with `fs` on the stack it executes on. -/
def Sys.goto (s : Sys N M) (c : Fin M) (fs : Stack N) : Sys N M := s.setStack (s.thread c) fs

/-- The point at which a caller goes on. `sleep` returns with the lock that its caller gave it. -/
def Frame.regain : Frame N → Frame N → Frame N
  | .sleep _ (.other n) _, .code held => .code (n :: held)
  | .sleep _ .wait _, .wait addr .asleep => .wait addr (.scan 0 false)
  | _, k => k

def Sys.acquire (s : Sys N M) (c : Fin M) (lk : Lock N) : Sys N M :=
  { s with lock := Function.update s.lock lk (some c) }.setCpu c { s.cpus c with noff := (s.cpus c).noff + 1 }

def Sys.release (s : Sys N M) (c : Fin M) (lk : Lock N) : Sys N M :=
  { s with lock := Function.update s.lock lk none }.setCpu c { s.cpus c with noff := (s.cpus c).noff - 1 }

/-- CPU `c` executes a statement of the call `f`; `rest` are the calls that `f` was made from. -/
def Micro.exec (s : Sys N M) (c : Fin M) (f : Frame N) (rest : Stack N) : Micro N → Option (Sys N M)
  | .acquire lk k => if s.lock lk = none then some ((s.acquire c lk).goto c (k :: rest)) else none
  | .release lk k => if s.lock lk = some c then some ((s.release c lk).goto c (k :: rest)) else none
  | .goto k => some (s.goto c (k :: rest))
  | .assign q r ev k => some (Sys.goto { s.setProc q r with log := s.log ++ ev } c (k :: rest))
  | .spawn q k =>
      some (((s.setProc q { s.procs q with mem := true, context := start }).setStack (.proc q) start).goto c
        (k :: rest))
  | .nextpid k => some (Sys.goto { s with nextpid := (s.nextpid + 1).bmod (2 ^ 32) } c (k :: rest))
  | .setProc p k => some ((s.setCpu c { s.cpus c with proc := p }).goto c (k :: rest))
  | .call callee k => some (s.goto c (callee :: k :: rest))
  | .ret ev =>
      match rest with
      | [] => none
      | k :: rest => some (Sys.goto { s with log := s.log ++ ev } c (f.regain k :: rest))
  | .swtch k =>
      match (s.cpus c).proc with
      | none => none
      | some p =>
          -- the checks of sched()
          if s.lock (.proc p) = some c ∧ (s.cpus c).noff = 1 ∧ (s.procs p).state ≠ .running then
            some ((((s.goto c (k :: rest)).setProc p { s.procs p with context := k :: rest }).setCpu c
              { s.cpus c with on := none }).setStack (.sched c) (s.cpus c).context)
          else none
  | .resume p k =>
      some (((s.goto c (k :: rest)).setCpu c { s.cpus c with context := k :: rest, on := some p }).setStack
        (.proc p) (s.procs p).context)

/-- A step of CPU `c`. -/
def step (s : Sys N M) (a : Fin M × Choice) : Option (Sys N M) :=
  match s.stack (s.thread a.1) with
  | [] => none
  | f :: rest =>
      if a.2 = .intr then
        if (s.cpus a.1).noff = 0 then some (s.goto a.1 (.intr [] :: f :: rest)) else none
      else (f.next s a.1 a.2).bind (Micro.exec s a.1 f rest)

/-- After `userinit`: the first process is ready to run and every CPU is about to enter its scheduler. -/
def boot (init : Fin N) : Sys N M where
  lock _ := none
  procs p :=
    { state := if p = init then .runnable else .unused, chan := .null, killed := false, xstate := 0
      pid := if p = init then 1 else 0, parent := none, sz := if p = init then PGSIZE else 0, mem := decide (p = init)
      context := if p = init then start else [] }
  stack
    | .proc p => if p = init then start else []
    | .sched _ => [.sched (.loop 0)]
  cpus _ := { proc := none, context := [], noff := 0, on := none }
  initproc := init
  nextpid := 2
  log := []

end Xv6.Procs
