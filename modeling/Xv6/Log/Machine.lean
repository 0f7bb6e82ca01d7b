import Xv6.Lib.Trace
import Xv6.Log.Basic
import Xv6.Log.Bio

/-!
# `Log.Machine` — operations, commits, crashes and recovery over one disk

Any number of processes run file-system operations: `begin_op`, then any uses of buffers, then `end_op`,
whose last caller runs `commit()`. A step is one critical section, one wait for a buffer, or one turn of a
loop of `commit` with its single disk write, so the machine can crash between any two disk writes. A turn of
`write_log` or `install_trans` is one step because no operation is in progress then (`begin_op` sleeps while
`log.committing`), so nobody else can change a buffer.

A crash keeps the disk and nothing else. After it `recover_from_log` runs alone, again one disk write a
step, and may be cut off by another crash.
-/

namespace Xv6.Logging

/-! ## The on-disk header -/

/-- `read_head`: `n` is an `int`, so the loop does not run if the sign bit is set. -/
def readHead (hd : Block) : List Nat :=
  if Bytes.load hd 0 4 < 2 ^ 31 then Bytes.loadWords hd 4 4 (Bytes.load hd 0 4) else []

/-- `write_head`: entries past `n` keep their bytes. -/
def writeHead (hd : Block) (lh : List Nat) : Block :=
  Bytes.storeWords (Bytes.store hd 0 4 lh.length) 4 4 lh

/-! ## States -/

/-- Where the committing process is: before turn `tail` of `write_log` or of `install_trans` (before
    `write_head` if the loop is over), or after `commit()`. -/
inductive Stage
  | writeLog (tail : Nat)
  | install (tail : Nat)
  | done
deriving DecidableEq

/-- Where `recover_from_log` is. -/
inductive Boot
  | readHead
  | install (tail : Nat)
deriving DecidableEq

/-- `waits` lists the processes in `acquiresleep` with the block they want, `ops` the processes between
    `begin_op` and `end_op`. -/
structure Sys where
  disk : Nat → Block
  bufs : List Buf
  waits : List (Nat × Nat)
  log : Log
  ops : List Nat
  commit : Option (Nat × Stage)
  boot : Option Boot

/-- A block number the file system may use: a `uint` outside the log. -/
def Log.fsBlock (l : Log) (b : Nat) : Prop := b < 2 ^ 32 ∧ ¬(l.start ≤ b ∧ b < l.start + l.size)

instance (l : Log) (b : Nat) : Decidable (l.fsBlock b) := inferInstanceAs (Decidable (_ ∧ _))

inductive Act
  | beginOp (p : Nat)
  | bget (p b : Nat)
  | acquire (p b : Nat)
  | modify (p b : Nat) (d : Block)
  /-- a chunk of `writei`: `either_copyin` of `m` bytes at `o` in the block, from user address `src` -/
  | copyin (p b : Nat) (pages : Pages) (o src m : Nat)
  | logWrite (p b : Nat)
  | brelse (p b : Nat)
  | endOp (p : Nat)
  | writeLog (p : Nat)
  | writeHead (p : Nat)
  | install (p : Nat)
  | clearHead (p : Nat)
  | endCommit (p : Nat)
  | crash
  | recover

/-- The machine when `initlog` is called: only the disk has survived. -/
def boot (start size : Nat) (disk : Nat → Block) : Sys where
  disk := disk
  bufs := binit
  waits := []
  log := initlog start size
  ops := []
  commit := none
  boot := some .readHead

/-! ## The steps of `commit` and `recover_from_log` -/

/-- `write_head()` with the in-memory header `lh`. -/
def writeHeadStep (s : Sys) (p : Nat) (lh : List Nat) : Option Sys :=
  (bread s.disk p s.bufs s.log.start).map fun c =>
    let d := writeHead (bufData c s.log.start) lh
    { s with
      bufs := brelse (setData c s.log.start d) s.log.start
      disk := Function.update s.disk s.log.start d }

/-- One turn of `write_log`. -/
def writeLogStep (s : Sys) (p tail : Nat) : Option Sys :=
  match s.log.lh[tail]? with
  | none => none
  | some b =>
      let lblock := s.log.start + tail + 1
      (bread s.disk p s.bufs lblock).bind fun c =>
        (bread s.disk p c b).map fun c =>
          let d := bufData c b
          { s with
            bufs := brelse (brelse (setData c lblock d) b) lblock
            disk := Function.update s.disk lblock d }

/-- One turn of `install_trans`. -/
def installStep (s : Sys) (p tail : Nat) (recovering : Bool) : Option Sys :=
  match s.log.lh[tail]? with
  | none => none
  | some b =>
      let lblock := s.log.start + tail + 1
      (bread s.disk p s.bufs lblock).bind fun c =>
        (bread s.disk p c b).map fun c =>
          let d := bufData c lblock
          let c := setData c b d
          { s with
            bufs := brelse (brelse (if recovering then c else bunpin c b) lblock) b
            disk := Function.update s.disk b d }

def recover (s : Sys) : Boot → Option Sys
  | .readHead =>
      (bread s.disk 0 s.bufs s.log.start).map fun c =>
        { s with
          bufs := Logging.brelse c s.log.start
          log := { s.log with lh := readHead (bufData c s.log.start) }
          boot := some (.install 0) }
  | .install tail =>
      if tail < s.log.lh.length then
        (installStep s 0 tail true).map fun s => { s with boot := some (.install (tail + 1)) }
      else
        (writeHeadStep s 0 []).map fun s => { s with log := { s.log with lh := [] }, boot := none }

/-! ## The steps of operations -/

/-- The process holds the buffer of the block. -/
def Sys.holds (s : Sys) (p b : Nat) : Bool :=
  match lookup s.bufs b with
  | some x => x.lock == some p
  | none => false

def Sys.clean (s : Sys) (b : Nat) : Bool :=
  match lookup s.bufs b with
  | some x => !x.dirty
  | none => false

/-- `log_write` of a buffer the process holds. -/
def logWriteStep (s : Sys) (b : Nat) : Option Sys :=
  match logWrite s.log b with
  | .error _ => none
  | .ok (l, true) =>
      some { s with log := l, bufs := setBuf s.bufs b fun x => { x with refcnt := x.refcnt + 1, dirty := false } }
  | .ok (l, false) =>
      some { s with log := l, bufs := setBuf s.bufs b fun x => { x with dirty := false } }

def endOpStep (s : Sys) (p : Nat) : Option Sys :=
  match endOp s.log with
  | .error _ => none
  | .ok (l, true) =>
      some { s with log := l, ops := s.ops.erase p,
                    commit := some (p, if l.lh = [] then .done else .writeLog 0) }
  | .ok (l, false) => some { s with log := l, ops := s.ops.erase p }

/-- A chunk of `writei`: on failure the buffer is released as it is, without `log_write`. -/
def copyinStep (s : Sys) (b : Nat) (pages : Pages) (o src m : Nat) : Sys :=
  let d := Bytes.put (bufData s.bufs b) o (Xv6.copyin pages src m).1
  if (Xv6.copyin pages src m).2 then
    { s with bufs := setBuf s.bufs b fun x => { x with data := d, dirty := true } }
  else { s with bufs := brelse (setData s.bufs b d) b }

/-- A step of a running system. A panic ends the run. -/
def running (s : Sys) : Act → Option Sys
  | .beginOp p =>
      if p ∉ s.ops then (beginOp s.log).map fun l => { s with log := l, ops := p :: s.ops } else none
  | .bget p b =>
      if s.log.fsBlock b ∧ p ∉ s.waits.map Prod.fst then
        (bget s.bufs b).map fun c => { s with bufs := c, waits := (p, b) :: s.waits }
      else none
  | .acquire p b =>
      if (p, b) ∈ s.waits then
        (acquire s.disk p s.bufs b).map fun c => { s with bufs := c, waits := s.waits.erase (p, b) }
      else none
  | .modify p b d =>
      if p ∈ s.ops ∧ s.holds p b then
        some { s with bufs := setBuf s.bufs b fun x => { x with data := d, dirty := true } }
      else none
  | .copyin p b pages o src m =>
      if p ∈ s.ops ∧ s.holds p b ∧ s.clean b ∧ o + m ≤ BSIZE then some (copyinStep s b pages o src m)
      else none
  | .logWrite p b => if p ∈ s.ops ∧ s.holds p b then logWriteStep s b else none
  | .brelse p b => if s.holds p b ∧ s.clean b then some { s with bufs := brelse s.bufs b } else none
  | .endOp p =>
      if p ∈ s.ops ∧ p ∉ s.waits.map Prod.fst ∧ ∀ x ∈ s.bufs, x.lock ≠ some p then endOpStep s p else none
  | .writeLog p =>
      match s.commit with
      | some (q, .writeLog tail) =>
          if q = p ∧ tail < s.log.lh.length then
            (writeLogStep s p tail).map fun s => { s with commit := some (p, .writeLog (tail + 1)) }
          else none
      | _ => none
  | .writeHead p =>
      match s.commit with
      | some (q, .writeLog tail) =>
          if q = p ∧ tail = s.log.lh.length then
            (writeHeadStep s p s.log.lh).map fun s => { s with commit := some (p, .install 0) }
          else none
      | _ => none
  | .install p =>
      match s.commit with
      | some (q, .install tail) =>
          if q = p ∧ tail < s.log.lh.length then
            (installStep s p tail false).map fun s => { s with commit := some (p, .install (tail + 1)) }
          else none
      | _ => none
  | .clearHead p =>
      match s.commit with
      | some (q, .install tail) =>
          if q = p ∧ tail = s.log.lh.length then
            (writeHeadStep s p []).map fun s =>
              { s with log := { s.log with lh := [] }, commit := some (p, .done) }
          else none
      | _ => none
  | .endCommit p =>
      if s.commit = some (p, .done) then some { s with log := endCommit s.log, commit := none } else none
  | .crash => none
  | .recover => none

def step (s : Sys) : Act → Option Sys
  | .crash => some (boot s.log.start s.log.size s.disk)
  | .recover =>
      match s.boot with
      | some k => recover s k
      | none => none
  | a => if s.boot = none then running s a else none

end Xv6.Logging
