import Xv6.Syscall.Dir

/-!
# `Syscall.Files` — open files, descriptors and pipes

`filealloc` and `fileclose` of `kernel/file.c`, `pipeclose` of `kernel/pipe.c`, and `fdalloc` of `kernel/sysfile.c`. The
state is what a system call of one process can see: the file system, the kernel's memory with the process's page table,
the table of open files, and the descriptors and the current directory of the process. A pipe lives in a page of that
memory.
-/

namespace Xv6.Syscall

open Fs (NINODE)

def NFILE : Nat := 100
def NOFILE : Nat := 16
def NDEV : Nat := 10

inductive FileType
  | none
  | pipe
  | inode
  | device
deriving DecidableEq

/-- `struct file`; `pipe` is a page number. -/
structure File where
  type : FileType
  ref : Nat
  readable : Bool
  writable : Bool
  pipe : Nat
  ip : Fin NINODE
  off : UInt32
  major : UInt16

structure State where
  fs : Fs.Sys
  mem : Vm.Kmem
  pagetable : Nat
  ftable : Fin NFILE → File
  ofile : Fin NOFILE → Option (Fin NFILE)
  cwd : Fin NINODE

def State.setFile (s : State) (f : Fin NFILE) (file : File) : State :=
  { s with ftable := Function.update s.ftable f file }

def State.setFd (s : State) (fd : Fin NOFILE) (f : Option (Fin NFILE)) : State :=
  { s with ofile := Function.update s.ofile fd f }

def filealloc (s : State) : State × Option (Fin NFILE) :=
  match (List.finRange NFILE).find? fun f => (s.ftable f).ref = 0 with
  | some f => (s.setFile f { s.ftable f with ref := 1 }, some f)
  | none => (s, none)

def fdalloc (s : State) (f : Fin NFILE) : State × Option (Fin NOFILE) :=
  match (List.finRange NOFILE).find? fun fd => s.ofile fd = none with
  | some fd => (s.setFd fd (some f), some fd)
  | none => (s, none)

/-! ## Pipes -/

def liftVm {α : Type} (x : Except Vm.Panic α) : Except Panic α := x.mapError .vm

/-- A field of four bytes at offset `o` of a page. -/
def pageWord (m : Vm.Kmem) (pg o : Nat) : Nat := Bytes.load (m.page pg) o 4

def setPageWord (m : Vm.Kmem) (pg o v : Nat) : Vm.Kmem :=
  { m with page := Function.update m.page pg (Bytes.store (m.page pg) o 4 v) }

/-! The fields of `struct pipe` lie after its lock of 24 bytes and its 512 bytes of data. -/

def READOPEN : Nat := 544
def WRITEOPEN : Nat := 548

def pipeclose (m : Vm.Kmem) (pi : Nat) (writable : Bool) : Except Panic Vm.Kmem :=
  let m := setPageWord m pi (if writable then WRITEOPEN else READOPEN) 0
  if pageWord m pi READOPEN = 0 ∧ pageWord m pi WRITEOPEN = 0 then liftVm (Vm.kfree m (Vm.addr pi)) else .ok m

def fileclose (s : State) (f : Fin NFILE) : Except Panic State :=
  let ff := s.ftable f
  if ff.ref < 1 then .error .fileclose
  else if 0 < ff.ref - 1 then .ok (s.setFile f { ff with ref := ff.ref - 1 })
  else
    let s := s.setFile f { ff with ref := 0, type := .none }
    match ff.type with
    | .pipe => do
        let m ← pipeclose s.mem ff.pipe ff.writable
        .ok { s with mem := m }
    | .inode => do
        let fs ← iput s.fs ff.ip
        .ok { s with fs := fs }
    | .device => do
        let fs ← iput s.fs ff.ip
        .ok { s with fs := fs }
    | .none => .ok s

end Xv6.Syscall
