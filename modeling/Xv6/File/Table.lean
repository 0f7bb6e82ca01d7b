import Xv6.Lib.Trace
import Xv6.Fs.Ops
import Xv6.Syscall.Calls

/-!
# `File.Table` — the table of open files under concurrent system calls

`filealloc`, `filedup` and `fileclose` of `kernel/file.c`, `pipealloc` and `pipeclose` of `kernel/pipe.c`, `fdalloc`,
`sys_dup`, `sys_close`, `sys_pipe` and the end of `sys_open` of `kernel/sysfile.c`, and the loops of `fork` and `exit`
over the descriptors. Any number of processes are in such a call at a time. A step of the machine is one critical section
(of `ftable.lock`, of the lock of a pipe, or of the allocator) with the code before and after it that only uses what
belongs to the process: its descriptors, a new child's descriptors, and a file that nobody else has a pointer to yet.
-/

namespace Xv6.Ftable

open Syscall (File FileType NFILE NOFILE)
open Fs (NINODE)

abbrev Files := Fin NFILE → File

abbrev Fds := Fin NOFILE → Option (Fin NFILE)

/-- `readopen` and `writeopen` of `struct pipe`. -/
structure PipeEnds where
  readopen : Bool
  writeopen : Bool
deriving DecidableEq

/-- The pipes by their page; `none` for a page that is not allocated to a pipe. -/
abbrev Pipes := Nat → Option PipeEnds

inductive Panic
  | filedup
  | fileclose
  /-- not a panic of the source: `pipeclose` is called on a page that was freed -/
  | freed
deriving DecidableEq

/-! ## Files, pipes and descriptors -/

def filealloc (t : Files) : Option (Fin NFILE × Files) :=
  ((List.finRange NFILE).find? fun f => (t f).ref = 0).map fun f => (f, Function.update t f { t f with ref := 1 })

def filedup (t : Files) (f : Fin NFILE) : Except Panic Files :=
  if (t f).ref < 1 then .error .filedup else .ok (Function.update t f { t f with ref := (t f).ref + 1 })

/-- The part under `ftable.lock`, and the end of a pipe that `pipeclose` has to close after it. -/
def fileclose (t : Files) (f : Fin NFILE) : Except Panic (Files × Option (Nat × Bool)) :=
  let ff := t f
  if ff.ref < 1 then .error .fileclose
  else if 0 < ff.ref - 1 then .ok (Function.update t f { ff with ref := ff.ref - 1 }, none)
  else
    .ok (Function.update t f { ff with ref := 0, type := .none },
      if ff.type = .pipe then some (ff.pipe, ff.writable) else none)

def pipeclose (pipes : Pipes) (pi : Nat) (writable : Bool) : Except Panic Pipes :=
  match pipes pi with
  | none => .error .freed
  | some e =>
      let e := if writable then { e with writeopen := false } else { e with readopen := false }
      .ok (Function.update pipes pi (if e.readopen = false ∧ e.writeopen = false then none else some e))

def fdalloc (ofile : Fds) (f : Fin NFILE) : Option (Fin NOFILE × Fds) :=
  ((List.finRange NOFILE).find? fun fd => ofile fd = none).map fun fd => (fd, Function.update ofile fd (some f))

/-! ## Processes -/

/-- Where a process is in the kernel. -/
inductive Pc (P : Nat)
  /-- an entry of the process table that is unused, or a zombie -/
  | dead
  /-- the child of a `fork` that has not returned -/
  | embryo
  | user
  /-- `pipealloc` after its first `filealloc` -/
  | pipealloc (f0 : Fin NFILE)
  /-- `pipealloc` after its second -/
  | kalloc (f0 f1 : Fin NFILE)
  /-- `pipeclose`, if there is an end to close, then `fileclose` for each of `fs`, and back to user mode -/
  | closing (e : Option (Nat × Bool)) (fs : List (Fin NFILE))
  /-- turn `i` of the loop of `fork` -/
  | fork (np : Fin P) (i : Nat)
  /-- `pipeclose`, if there is an end to close, then turn `i` of the loop of `exit` -/
  | exit (e : Option (Nat × Bool)) (i : Nat)
deriving DecidableEq

structure Proc (P : Nat) where
  pc : Pc P
  ofile : Fds

structure Sys (P : Nat) where
  ftable : Files
  pipes : Pipes
  procs : Fin P → Proc P

variable {P : Nat}

def Sys.put (s : Sys P) (p : Fin P) (a : Proc P) : Sys P := { s with procs := Function.update s.procs p a }

def Sys.goto (s : Sys P) (p : Fin P) (pc : Pc P) : Sys P := s.put p ⟨pc, (s.procs p).ofile⟩

def init (p0 : Fin P) : Sys P where
  ftable _ := { type := .none, ref := 0, readable := false, writable := false, pipe := 0, ip := Fs.entry0, off := 0, major := 0 }
  pipes _ := none
  procs p := { pc := if p = p0 then .user else .dead, ofile := fun _ => none }

/-! ## System calls -/

inductive Call
  | dup (fd : Fin NOFILE)
  | close (fd : Fin NOFILE)
  /-- `sys_open` has the inode, locked; `major` if it is a device -/
  | open (ip : Fin NINODE) (major : Option UInt16) (omode : UInt32)
  | pipe
  | exit

def openFile (file : File) (ip : Fin NINODE) (major : Option UInt16) (omode : UInt32) : File :=
  let file :=
    match major with
    | some major => { file with type := .device, major := major }
    | none => { file with type := .inode, off := 0 }
  { file with
    ip := ip
    readable := omode &&& Syscall.O_WRONLY = 0
    writable := omode &&& Syscall.O_WRONLY ≠ 0 ∨ omode &&& Syscall.O_RDWR ≠ 0 }

/-- A call to the end of its first critical section; a call that fails before it does nothing. -/
def call (s : Sys P) (p : Fin P) : Call → Except Panic (Sys P)
  | .dup fd =>
      match (s.procs p).ofile fd with
      | none => .ok s
      | some f =>
          match fdalloc (s.procs p).ofile f with
          | none => .ok s
          | some (_, ofile) => (filedup s.ftable f).map fun t => { s with ftable := t }.put p ⟨.user, ofile⟩
  | .close fd =>
      match (s.procs p).ofile fd with
      | none => .ok s
      | some f =>
          (fileclose s.ftable f).map fun r =>
            { s with ftable := r.1 }.put p ⟨.closing r.2 [], Function.update (s.procs p).ofile fd none⟩
  | .open ip major omode =>
      match filealloc s.ftable with
      | none => .ok s
      | some (f, t) =>
          match fdalloc (s.procs p).ofile f with
          | none => .ok ({ s with ftable := t }.goto p (.closing none [f]))
          | some (_, ofile) =>
              .ok ({ s with ftable := Function.update t f (openFile (t f) ip major omode) }.put p ⟨.user, ofile⟩)
  | .pipe =>
      match filealloc s.ftable with
      | none => .ok s
      | some (f0, t) => .ok ({ s with ftable := t }.goto p (.pipealloc f0))
  | .exit => .ok (s.goto p (.exit none 0))

def pipeFile (file : File) (pi : Nat) (writable : Bool) : File :=
  { file with type := .pipe, readable := !writable, writable := writable, pipe := pi }

/-- The end of `pipealloc`, with the page. -/
def pipealloc (s : Sys P) (f0 f1 : Fin NFILE) (pi : Nat) : Sys P :=
  let t := Function.update s.ftable f0 (pipeFile (s.ftable f0) pi false)
  let t := Function.update t f1 (pipeFile (t f1) pi true)
  { s with ftable := t, pipes := Function.update s.pipes pi (some ⟨true, true⟩) }

/-- `sys_pipe` from there on, with `copied` the answer of `copyout`. -/
def sysPipe (s : Sys P) (p : Fin P) (f0 f1 : Fin NFILE) (pi : Nat) (copied : Bool) : Sys P :=
  let s := pipealloc s f0 f1 pi
  match fdalloc (s.procs p).ofile f0 with
  | none => s.goto p (.closing none [f0, f1])
  | some (fd0, ofile) =>
      match fdalloc ofile f1 with
      | none => s.put p ⟨.closing none [f0, f1], Function.update ofile fd0 none⟩
      | some (fd1, ofile) =>
          if copied then s.put p ⟨.user, ofile⟩
          else s.put p ⟨.closing none [f0, f1], Function.update (Function.update ofile fd0 none) fd1 none⟩

/-- The next critical section of a process that is in a call. -/
def go (s : Sys P) (p : Fin P) : Option (Except Panic (Sys P)) :=
  let ofile := (s.procs p).ofile
  match (s.procs p).pc with
  | .pipealloc f0 =>
      match filealloc s.ftable with
      | none => some (.ok (s.goto p (.closing none [f0])))
      | some (f1, t) => some (.ok ({ s with ftable := t }.goto p (.kalloc f0 f1)))
  | .closing (some e) fs =>
      some ((pipeclose s.pipes e.1 e.2).map fun pipes => { s with pipes := pipes }.goto p (.closing none fs))
  | .closing none (f :: fs) =>
      some ((fileclose s.ftable f).map fun r => { s with ftable := r.1 }.goto p (.closing r.2 fs))
  | .closing none [] => some (.ok (s.goto p .user))
  | .fork np i =>
      if h : i < NOFILE then
        match ofile ⟨i, h⟩ with
        | none => some (.ok (s.goto p (.fork np (i + 1))))
        | some f =>
            some ((filedup s.ftable f).map fun t =>
              ({ s with ftable := t }.put np
                ⟨(s.procs np).pc, Function.update (s.procs np).ofile ⟨i, h⟩ (some f)⟩).goto p (.fork np (i + 1)))
      else some (.ok ((s.goto np .user).goto p .user))
  | .exit (some e) i =>
      some ((pipeclose s.pipes e.1 e.2).map fun pipes => { s with pipes := pipes }.goto p (.exit none i))
  | .exit none i =>
      if h : i < NOFILE then
        match ofile ⟨i, h⟩ with
        | none => some (.ok (s.goto p (.exit none (i + 1))))
        | some f =>
            -- the source clears the descriptor after `pipeclose`; nobody reads it in between
            some ((fileclose s.ftable f).map fun r =>
              { s with ftable := r.1 }.put p ⟨.exit r.2 (i + 1), Function.update ofile ⟨i, h⟩ none⟩)
      else some (.ok (s.goto p .dead))
  | _ => none

/-! ## The machine -/

inductive Act (P : Nat)
  | call (p : Fin P) (c : Call)
  /-- `fork` has an entry `np` of the process table for the child -/
  | fork (p np : Fin P)
  | go (p : Fin P)
  /-- `kalloc` in `pipealloc` returns the page, or the null pointer -/
  | kalloc (p : Fin P) (page : Option Nat) (copied : Bool)

/-- One step, or `none` if it is not possible. `kalloc` returns no page that is a pipe. -/
def step (s : Sys P) : Act P → Option (Except Panic (Sys P))
  | .call p c => if (s.procs p).pc = .user then some (call s p c) else none
  | .fork p np =>
      if (s.procs p).pc = .user ∧ (s.procs np).pc = .dead then some (.ok ((s.goto np .embryo).goto p (.fork np 0))) else none
  | .go p => go s p
  | .kalloc p page copied =>
      match (s.procs p).pc, page with
      | .kalloc f0 f1, none => some (.ok (s.goto p (.closing none [f0, f1])))
      | .kalloc f0 f1, some pi => if s.pipes pi = none then some (.ok (sysPipe s p f0 f1 pi copied)) else none
      | _, _ => none

/-- The machine: a panic ends it. -/
def next (s : Sys P) (a : Act P) : Option (Sys P) := (step s a).bind Except.toOption

end Xv6.Ftable
