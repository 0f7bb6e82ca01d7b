import Xv6.Lib.Dlist
import Xv6.Lib.Trace
import Xv6.Log.Machine

/-!
# `Bio.Model` — the buffer cache with its pointers, its callers and the log

`kernel/bio.c` at the level of its critical sections: the buffers are linked through `prev` and `next`, the
two loops of `bget` follow the links, and `refcnt` is a `uint`. A call is cut where another process can come
in: after `bcache.lock` is released in `bget`, between `acquiresleep` and the disk read of `bread`, and
between `releasesleep` and the critical section of `brelse`.

Any process may read blocks at any time. Processes between `begin_op` and `end_op` also change buffers and
pass them to `log_write`. The process in `commit()` (or, at boot, in `recover_from_log`) runs the statements
of `write_log`, `write_head` and `install_trans` one by one, each bio call in it cut as above, so that the
readers come in everywhere.
-/

namespace Xv6.Bcache

open Logging (Block Log NBUF)
open Dlist (Links)

def ROOTDEV : Nat := 1
def NPROC : Nat := 64

/-! ## The cache -/

/-- `&bcache.head` or `&bcache.buf[i]` -/
inductive Node
  | head
  | buf (i : Fin NBUF)
deriving DecidableEq

def Node.any (f : Fin NBUF → Bool) : Node → Bool
  | .head => false
  | .buf i => f i

def Node.index : Node → Option (Fin NBUF)
  | .head => none
  | .buf i => some i

/-- `struct buf`; `lock` is the holder of the sleep lock. -/
structure Buf where
  valid : Bool
  dev : Nat
  blockno : Nat
  lock : Option (Fin NPROC)
  refcnt : UInt32
  data : Block

structure Cache where
  links : Links Node
  buf : Fin NBUF → Buf

def Cache.set (c : Cache) (i : Fin NBUF) (x : Buf) : Cache := { c with buf := Function.update c.buf i x }

def binit : Cache where
  links := (List.finRange NBUF).foldl (fun L i => L.insertAfter .head (.buf i)) ⟨fun _ => .head, fun _ => .head⟩
  buf := fun _ =>
    { valid := false, dev := 0, blockno := 0, lock := none, refcnt := 0, data := fun _ => 0 }

/-- The first loop of `bget`. -/
def Cache.cached (c : Cache) (dev blockno : Nat) : Option (Fin NBUF) :=
  (Dlist.walk c.links.next .head (Node.any fun i => (c.buf i).dev == dev && (c.buf i).blockno == blockno)
    (NBUF + 1) (c.links.next .head)).bind Node.index

/-- The second loop of `bget`. -/
def Cache.lru (c : Cache) : Option (Fin NBUF) :=
  (Dlist.walk c.links.prev .head (Node.any fun i => (c.buf i).refcnt == 0)
    (NBUF + 1) (c.links.prev .head)).bind Node.index

/-- `bget` up to `release(&bcache.lock)`; `none` is `panic("bget: no buffers")`. -/
def bget (c : Cache) (dev blockno : Nat) : Option (Cache × Fin NBUF) :=
  match c.cached dev blockno with
  | some i => some (c.set i { c.buf i with refcnt := (c.buf i).refcnt + 1 }, i)
  | none =>
      match c.lru with
      | some i =>
          some (c.set i { c.buf i with dev := dev, blockno := blockno, valid := false, refcnt := 1 }, i)
      | none => none

/-- What `bread` does once it has the lock, `virtio_disk_rw(b, 0)` included. -/
def fill (disk : Nat → Block) (c : Cache) (i : Fin NBUF) : Cache :=
  if (c.buf i).valid then c
  else c.set i { c.buf i with data := disk (c.buf i).blockno, valid := true }

/-- The critical section of `brelse`. -/
def unref (c : Cache) (i : Fin NBUF) : Cache :=
  let c := c.set i { c.buf i with refcnt := (c.buf i).refcnt - 1 }
  if (c.buf i).refcnt = 0 then
    { c with links := (c.links.unlink (.buf i)).insertAfter .head (.buf i) }
  else c

def bpin (c : Cache) (i : Fin NBUF) : Cache := c.set i { c.buf i with refcnt := (c.buf i).refcnt + 1 }

def bunpin (c : Cache) (i : Fin NBUF) : Cache := c.set i { c.buf i with refcnt := (c.buf i).refcnt - 1 }

def setData (c : Cache) (i : Fin NBUF) (d : Block) : Cache := c.set i { c.buf i with data := d }

def setLock (c : Cache) (i : Fin NBUF) (p : Option (Fin NPROC)) : Cache := c.set i { c.buf i with lock := p }

/-! ## The statements of the log -/

/-- The local variables of `write_log` (`to`, `from`), `install_trans` (`lbuf`, `dbuf`), `write_head` and
    `read_head` (`buf`): one for the buffer of a log block, one for that of a home block. -/
inductive Reg
  | lbuf
  | dbuf
deriving DecidableEq

inductive Instr
  | bread (r : Reg) (blockno : Nat)
  | memmove (dst src : Reg)
  | readHead (r : Reg)
  | writeHead (r : Reg)
  | bwrite (r : Reg)
  | bunpin (r : Reg)
  | brelse (r : Reg)
  /-- `log.lh.n = 0` -/
  | clear

def writeLogTurn (start tail b : Nat) : List Instr :=
  [.bread .lbuf (start + tail + 1), .bread .dbuf b, .memmove .lbuf .dbuf, .bwrite .lbuf, .brelse .dbuf,
    .brelse .lbuf]

def installTurn (recovering : Bool) (start tail b : Nat) : List Instr :=
  [.bread .lbuf (start + tail + 1), .bread .dbuf b, .memmove .dbuf .lbuf, .bwrite .dbuf] ++
    (if recovering then [] else [.bunpin .dbuf]) ++ [.brelse .lbuf, .brelse .dbuf]

/-- `for(; tail < log.lh.n; tail++)` over the remaining entries of `log.lh.block`. -/
def turns (turn : Nat → Nat → List Instr) : Nat → List Nat → List Instr
  | _, [] => []
  | tail, b :: lh => turn tail b ++ turns turn (tail + 1) lh

def writeHead (start : Nat) : List Instr :=
  [.bread .lbuf start, .writeHead .lbuf, .bwrite .lbuf, .brelse .lbuf]

/-- `install_trans(recovering)`, `log.lh.n = 0` and the `write_head` that follows. -/
def installTrans (recovering : Bool) (start : Nat) (lh : List Nat) : List Instr :=
  turns (installTurn recovering start) 0 lh ++ .clear :: writeHead start

def commit (start : Nat) (lh : List Nat) : List Instr :=
  if lh = [] then []
  else turns (writeLogTurn start) 0 lh ++ (writeHead start ++ installTrans false start lh)

/-- `read_head`; the rest of `recover_from_log` depends on what it reads. -/
def readHead (start : Nat) : List Instr := [.bread .lbuf start, .readHead .lbuf, .brelse .lbuf]

/-! ## States -/

/-- A call in progress: `bread(dev, blockno)` in or after `acquiresleep(&b->lock)`, or `brelse(b)` after
    `releasesleep(&b->lock)`. -/
inductive Call
  | acquiresleep (i : Fin NBUF) (dev blockno : Nat)
  | fill (i : Fin NBUF) (dev blockno : Nat)
  | brelse (i : Fin NBUF)
deriving DecidableEq

/-- The process in `commit()` or `recover_from_log`, with the statements it has still to run. -/
structure Logger where
  proc : Fin NPROC
  recovering : Bool
  code : List Instr
  regs : Reg → Option (Fin NBUF)

/-- `ops` lists the processes between `begin_op` and `end_op`. `pins` counts for each buffer the calls of
    `bpin` that no `bunpin` has undone (the code keeps no such count). -/
structure Sys where
  disk : Nat → Block
  cache : Cache
  call : Fin NPROC → Option Call
  log : Log
  ops : List (Fin NPROC)
  logger : Option Logger
  pins : Fin NBUF → Nat

/-- The first process calls `initlog`. -/
def boot (start size : Nat) (disk : Nat → Block) (init : Fin NPROC) : Sys where
  disk := disk
  cache := binit
  call := fun _ => none
  log := Logging.initlog start size
  ops := []
  logger := some { proc := init, recovering := true, code := readHead start, regs := fun _ => none }
  pins := fun _ => 0

/-- The process can start a call: it is in no other, it does not run the log, and the boot is over. -/
def Sys.idle (s : Sys) (p : Fin NPROC) : Bool :=
  (s.call p).isNone && s.logger.all fun l => !l.recovering && l.proc != p

/-! ## The steps of a call -/

def startBread (s : Sys) (p : Fin NPROC) (dev blockno : Nat) : Option Sys :=
  (bget s.cache dev blockno).map fun r =>
    { s with cache := r.1, call := Function.update s.call p (some (.acquiresleep r.2 dev blockno)) }

def bwrite (s : Sys) (p : Fin NPROC) (i : Fin NBUF) : Option Sys :=
  if (s.cache.buf i).lock = some p then
    some { s with disk := Function.update s.disk (s.cache.buf i).blockno (s.cache.buf i).data }
  else none

/-- `brelse` up to `releasesleep`. -/
def startBrelse (s : Sys) (p : Fin NPROC) (i : Fin NBUF) : Option Sys :=
  if (s.cache.buf i).lock = some p then
    some { s with cache := setLock s.cache i none, call := Function.update s.call p (some (.brelse i)) }
  else none

/-- The log's process goes on to its next statement when a call returns with buffer `i`. -/
def Logger.ret (l : Logger) (i : Fin NBUF) : Logger :=
  match l.code with
  | .bread r _ :: k => { l with code := k, regs := Function.update l.regs r (some i) }
  | .brelse r :: k => { l with code := k, regs := Function.update l.regs r none }
  | _ => l

def Sys.ret (s : Sys) (p : Fin NPROC) (i : Fin NBUF) : Sys :=
  { s with
    call := Function.update s.call p none
    logger := s.logger.map fun l => if l.proc = p then l.ret i else l }

def Sys.goto (s : Sys) (l : Logger) (k : List Instr) : Sys := { s with logger := some { l with code := k } }

/-- The next statement of the log's process. -/
def exec (s : Sys) (l : Logger) : Option Sys :=
  match l.code with
  | [] => some { s with log := Logging.endCommit s.log, logger := none }
  | .bread _ b :: _ => startBread s l.proc ROOTDEV b
  | .memmove dst src :: k =>
      (l.regs dst).bind fun i => (l.regs src).map fun j =>
        { s.goto l k with cache := setData s.cache i (s.cache.buf j).data }
  | .readHead r :: k =>
      (l.regs r).map fun i =>
        let lh := Logging.readHead (s.cache.buf i).data
        { s.goto l (k ++ installTrans true s.log.start lh) with log := { s.log with lh := lh } }
  | .writeHead r :: k =>
      (l.regs r).map fun i =>
        { s.goto l k with cache := setData s.cache i (Logging.writeHead (s.cache.buf i).data s.log.lh) }
  | .bwrite r :: k => (l.regs r).bind fun i => (bwrite s l.proc i).map fun s => s.goto l k
  | .bunpin r :: k =>
      (l.regs r).map fun i =>
        { s.goto l k with cache := bunpin s.cache i, pins := Function.update s.pins i (s.pins i - 1) }
  | .brelse r :: _ => (l.regs r).bind fun i => startBrelse s l.proc i
  | .clear :: k => some { s.goto l k with log := { s.log with lh := [] } }

/-! ## The machine -/

inductive Act
  | beginOp (p : Fin NPROC)
  | endOp (p : Fin NPROC)
  | bget (p : Fin NPROC) (dev blockno : Nat)
  | acquiresleep (p : Fin NPROC)
  | fill (p : Fin NPROC)
  | store (p : Fin NPROC) (i : Fin NBUF) (d : Block)
  | logWrite (p : Fin NPROC) (i : Fin NBUF)
  | bwrite (p : Fin NPROC) (i : Fin NBUF)
  | brelse (p : Fin NPROC) (i : Fin NBUF)
  | unref (p : Fin NPROC)
  | log

/-- `log_write`. Its `bpin` runs under `log.lock`, which nobody can see released in between. -/
def logWrite (s : Sys) (i : Fin NBUF) : Option Sys :=
  match Logging.logWrite s.log (s.cache.buf i).blockno with
  | .error _ => none
  | .ok (l, true) =>
      some { s with log := l, cache := bpin s.cache i, pins := Function.update s.pins i (s.pins i + 1) }
  | .ok (l, false) => some { s with log := l }

def endOp (s : Sys) (p : Fin NPROC) : Option Sys :=
  match Logging.endOp s.log with
  | .error _ => none
  | .ok (l, true) =>
      some { s with
        log := l
        ops := s.ops.erase p
        logger := some { proc := p, recovering := false, code := commit l.start l.lh, regs := fun _ => none } }
  | .ok (l, false) => some { s with log := l, ops := s.ops.erase p }

/-- One step; a panic ends the run. The processes change and log blocks of `ROOTDEV` outside the log, and
    they call `bwrite` on no other device, for the kernel knows no other. -/
def step (s : Sys) : Act → Option Sys
  | .beginOp p =>
      if s.idle p ∧ p ∉ s.ops then
        (Logging.beginOp s.log).map fun l => { s with log := l, ops := p :: s.ops }
      else none
  | .endOp p => if s.idle p ∧ p ∈ s.ops then endOp s p else none
  | .bget p dev b => if s.idle p then startBread s p dev b else none
  | .acquiresleep p =>
      match s.call p with
      | some (.acquiresleep i dev b) =>
          if (s.cache.buf i).lock = none then
            some { s with
              cache := setLock s.cache i (some p)
              call := Function.update s.call p (some (.fill i dev b)) }
          else none
      | _ => none
  | .fill p =>
      match s.call p with
      | some (.fill i _ _) => some ({ s with cache := fill s.disk s.cache i }.ret p i)
      | _ => none
  | .store p i d =>
      if s.idle p ∧ p ∈ s.ops ∧ (s.cache.buf i).lock = some p then
        some { s with cache := setData s.cache i d }
      else none
  | .logWrite p i =>
      if s.idle p ∧ p ∈ s.ops ∧ (s.cache.buf i).lock = some p ∧ (s.cache.buf i).dev = ROOTDEV ∧
          s.log.fsBlock (s.cache.buf i).blockno then
        logWrite s i
      else none
  | .bwrite p i => if s.idle p ∧ (s.cache.buf i).dev = ROOTDEV then bwrite s p i else none
  | .brelse p i => if s.idle p then startBrelse s p i else none
  | .unref p =>
      match s.call p with
      | some (.brelse i) => some ({ s with cache := unref s.cache i }.ret p i)
      | _ => none
  | .log =>
      match s.logger with
      | some l => if s.call l.proc = none then exec s l else none
      | none => none

end Xv6.Bcache
