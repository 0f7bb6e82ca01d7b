import Xv6.Lib.Trace

/-!
# `Pipe.Model` — `kernel/pipe.c` over `sleep`, `wakeup` and `kill` of `kernel/proc.c`

Any number `N` of processes call `pipewrite`, `piperead` and `pipeclose` on one pipe. A step is one
acquisition or release of a lock, one turn of a loop, or one locked visit of `wakeup` to a slot of the
process table, so a process can be interrupted wherever the code can be:

* `pi->lock` is `Sys.lock` (its holder), `p->lock` is `Proc.locked`;
* `sleep(chan, lk)` is the chain `sleepAcquire … reacquire` of program points, with the scheduler's part
  (`Act.sched`) a step of its own;
* what a user page answers to `copyin`/`copyout` of one byte is chosen by the label, since the page may be
  unmapped and may change between two calls.

`stored` and `reads` record the bytes that entered the ring and, for every `piperead` whose copy loop has
ended, the bytes it copied out (its return value is their number).
-/

namespace Xv6.Pipes

def PIPESIZE : Nat := 512

/-- Arithmetic on a `uint`. -/
def uint (n : Nat) : Nat := n % 2 ^ 32

/-- `struct pipe` without its lock. -/
structure Pipe where
  data : Nat → UInt8
  nread : Nat
  nwrite : Nat
  readopen : Bool
  writeopen : Bool

/-- `pi->nwrite == pi->nread + PIPESIZE` -/
def Pipe.full (pi : Pipe) : Bool := pi.nwrite == uint (pi.nread + PIPESIZE)

/-- `pi->nread == pi->nwrite` -/
def Pipe.empty (pi : Pipe) : Bool := pi.nread == pi.nwrite

/-- `pi->data[pi->nwrite++ % PIPESIZE] = ch` -/
def Pipe.push (pi : Pipe) (ch : UInt8) : Pipe :=
  { pi with data := Function.update pi.data (pi.nwrite % PIPESIZE) ch, nwrite := uint (pi.nwrite + 1) }

/-- `pi->data[pi->nread % PIPESIZE]` -/
def Pipe.front (pi : Pipe) : UInt8 := pi.data (pi.nread % PIPESIZE)

/-- `pi->nread++` -/
def Pipe.pop (pi : Pipe) : Pipe := { pi with nread := uint (pi.nread + 1) }

/-- The two sleep channels, `&pi->nread` and `&pi->nwrite`. -/
inductive Chan
  | nread
  | nwrite
deriving DecidableEq

/-- Where control returns to after a `wakeup`. -/
inductive Ret
  | writeFull (n : Int) (i : Nat)
  | writeDone (i : Nat)
  | readDone (got : List UInt8)
  | close
deriving DecidableEq

/-- The loop a `sleep` returns to. -/
inductive Loop
  | write (n : Int) (i : Nat)
  | read (n : Int)
deriving DecidableEq

inductive Call
  | write (n : Int)
  | read (n : Int)
  | close (writable : Bool)
deriving DecidableEq

/-- Program points. `i` counts the bytes `pipewrite` has stored and `i₀` is the value of `i` when the
    process last took `pi->lock` (the code has no such variable; it marks the bytes of this lock hold);
    `got` is what `piperead` has copied out, so its `i` is `got.length`. -/
inductive Pc
  | user
  | acquire (c : Call)
  | writeLoop (n : Int) (i₀ i : Nat)
  | readLoop (n : Int)
  | readCopy (n : Int) (got : List UInt8)
  | wakeup (c : Chan) (j : Nat) (r : Ret)
  | sleepAcquire (c : Chan) (l : Loop)
  | sleepRelease (c : Chan) (l : Loop)
  | sleepMark (c : Chan) (l : Loop)
  | sched (l : Loop)
  | asleep (l : Loop)
  | resume (l : Loop)
  | reacquire (l : Loop)
  | release (ret : Int)
deriving DecidableEq

/-- The values of `p->state` a process inside pipe code can have. -/
inductive PState
  | sleeping
  | runnable
  | running
deriving DecidableEq

structure Proc where
  pc : Pc
  state : PState
  chan : Option Chan
  locked : Bool
  killed : Bool
deriving DecidableEq

structure Sys (N : Nat) where
  pipe : Pipe
  lock : Option (Fin N)
  procs : Fin N → Proc
  freed : Bool
  stored : List UInt8
  reads : List (List UInt8)

inductive Act (N : Nat)
  | call (p : Fin N) (c : Call)
  | next (p : Fin N)
  | copyin (p : Fin N) (r : Option UInt8)
  | copyout (p : Fin N) (ok : Bool)
  | sched (p : Fin N)
  | kill (q : Fin N)
deriving DecidableEq

variable {N : Nat}

def Sys.setProc (s : Sys N) (p : Fin N) (pr : Proc) : Sys N :=
  { s with procs := Function.update s.procs p pr }

def Sys.goto (s : Sys N) (p : Fin N) (pc : Pc) : Sys N :=
  s.setProc p { s.procs p with pc := pc }

/-- What `wakeup(chan)` does to one process while it holds that process's lock. -/
def Proc.wake (c : Chan) (pr : Proc) : Proc :=
  if pr.state = .sleeping ∧ pr.chan = some c then { pr with state := .runnable } else pr

/-- What `kill` does to the process it finds. -/
def Proc.kill (pr : Proc) : Proc :=
  { pr with killed := true, state := if pr.state = .sleeping then .runnable else pr.state }

/-- The end of `piperead`'s copy loop. -/
def Sys.endCopy (s : Sys N) (p : Fin N) (got : List UInt8) : Sys N :=
  { s with reads := s.reads ++ [got] }.goto p (.wakeup .nwrite 0 (.readDone got))

/-- Entering `pipewrite`, `piperead` or `pipeclose` with `pi->lock` just acquired. -/
def Sys.enter (s : Sys N) (p : Fin N) : Call → Sys N
  | .write n => { s with lock := some p }.goto p (.writeLoop n 0 0)
  | .read n => { s with lock := some p }.goto p (.readLoop n)
  | .close true =>
      { s with lock := some p, pipe := { s.pipe with writeopen := false } }.goto p
        (.wakeup .nread 0 .close)
  | .close false =>
      { s with lock := some p, pipe := { s.pipe with readopen := false } }.goto p
        (.wakeup .nwrite 0 .close)

/-- The statement after a finished `wakeup`. -/
def Sys.afterWakeup (s : Sys N) (p : Fin N) : Ret → Sys N
  | .writeFull n i => s.goto p (.sleepAcquire .nwrite (.write n i))
  | .writeDone i => s.goto p (.release i)
  | .readDone got => s.goto p (.release got.length)
  | .close =>
      -- the last closer also gives the page back with kfree
      { s with freed := !s.pipe.readopen && !s.pipe.writeopen }.goto p (.release 0)

/-- The loop head after `sleep` has taken `pi->lock` again. -/
def Sys.afterSleep (s : Sys N) (p : Fin N) : Loop → Sys N
  | .write n i => { s with lock := some p }.goto p (.writeLoop n i i)
  | .read n => { s with lock := some p }.goto p (.readLoop n)

/-- The next step of `p` that no user page and no scheduler has a say in. -/
def next (s : Sys N) (p : Fin N) : Option (Sys N) :=
  match (s.procs p).pc with
  | .user => none
  | .acquire c => if s.lock = none then some (s.enter p c) else none
  | .writeLoop n _ i =>
      if (i : Int) < n then
        if !s.pipe.readopen || (s.procs p).killed then some (s.goto p (.release (-1)))
        else if s.pipe.full then some (s.goto p (.wakeup .nread 0 (.writeFull n i)))
        else none
      else some (s.goto p (.wakeup .nread 0 (.writeDone i)))
  | .readLoop n =>
      if s.pipe.empty && s.pipe.writeopen then
        if (s.procs p).killed then some (s.goto p (.release (-1)))
        else some (s.goto p (.sleepAcquire .nread (.read n)))
      else some (s.goto p (.readCopy n []))
  | .readCopy n got =>
      if (got.length : Int) < n ∧ s.pipe.empty = false then none else some (s.endCopy p got)
  | .wakeup c j r =>
      if h : j < N then
        if ⟨j, h⟩ = p then some (s.goto p (.wakeup c (j + 1) r))
        else if (s.procs ⟨j, h⟩).locked then none
        else some ((s.setProc ⟨j, h⟩ ((s.procs ⟨j, h⟩).wake c)).goto p (.wakeup c (j + 1) r))
      else some (s.afterWakeup p r)
  | .sleepAcquire c l =>
      if (s.procs p).locked then none
      else some (s.setProc p { s.procs p with locked := true, pc := .sleepRelease c l })
  | .sleepRelease c l => some ({ s with lock := none }.goto p (.sleepMark c l))
  | .sleepMark c l =>
      some (s.setProc p { s.procs p with chan := some c, state := .sleeping, pc := .sched l })
  | .sched l => some (s.setProc p { s.procs p with locked := false, pc := .asleep l })
  | .asleep _ => none
  | .resume l =>
      some (s.setProc p { s.procs p with chan := none, locked := false, pc := .reacquire l })
  | .reacquire l => if s.lock = none then some (s.afterSleep p l) else none
  | .release _ => some ({ s with lock := none }.goto p .user)

/-- `pipewrite`'s `copyin` of one byte and what follows it in the loop body. -/
def copyin (s : Sys N) (p : Fin N) (r : Option UInt8) : Option (Sys N) :=
  match (s.procs p).pc with
  | .writeLoop n i₀ i =>
      if (i : Int) < n ∧ s.pipe.readopen ∧ (s.procs p).killed = false ∧ s.pipe.full = false then
        match r with
        | none => some (s.goto p (.wakeup .nread 0 (.writeDone i)))
        | some ch =>
            some ({ s with pipe := s.pipe.push ch, stored := s.stored ++ [ch] }.goto p
              (.writeLoop n i₀ (i + 1)))
      else none
  | _ => none

/-- The body of `piperead`'s copy loop: `nread` has moved on when `copyout` answers. -/
def copyout (s : Sys N) (p : Fin N) (ok : Bool) : Option (Sys N) :=
  match (s.procs p).pc with
  | .readCopy n got =>
      if (got.length : Int) < n ∧ s.pipe.empty = false then
        let t := { s with pipe := s.pipe.pop }
        if ok then some (t.goto p (.readCopy n (got ++ [s.pipe.front])))
        else some (t.endCopy p got)
      else none
  | _ => none

def step (s : Sys N) : Act N → Option (Sys N)
  | .call p c =>
      if (s.procs p).pc = .user ∧ s.freed = false then some (s.goto p (.acquire c)) else none
  | .next p => next s p
  | .copyin p r => copyin s p r
  | .copyout p ok => copyout s p ok
  | .sched p =>
      match (s.procs p).pc with
      | .asleep l =>
          if (s.procs p).state = .runnable ∧ (s.procs p).locked = false then
            some (s.setProc p { s.procs p with state := .running, locked := true, pc := .resume l })
          else none
      | _ => none
  | .kill q =>
      if (s.procs q).locked then none else some (s.setProc q (s.procs q).kill)

/-- A pipe as `pipealloc` leaves it, with every process outside pipe code. The ring holds whatever the
    page held. -/
def init (data : Nat → UInt8) (killed : Fin N → Bool) : Sys N where
  pipe := { data := data, nread := 0, nwrite := 0, readopen := true, writeopen := true }
  lock := none
  procs p := { pc := .user, state := .running, chan := none, locked := false, killed := killed p }
  freed := false
  stored := []
  reads := []

end Xv6.Pipes
