import Xv6.Syscall.Files

/-!
# `Syscall.Calls` — the calls of `kernel/sysfile.c` on names

`sys_link`, `sys_unlink`, `create` with its three callers, `sys_open` and `sys_chdir`. A path argument is what `argstr`
gives, `none` if it fails. A call returns an `int`; where the source jumps to a label at its end, the label's code is a
definition of its own. Each call is one transaction, so `begin_op` and `end_op` are left out, and there is one device.
-/

namespace Xv6.Syscall

open Fs (NINODE)

/-- What `argstr` gives. -/
abbrev Arg := Option (List UInt8)

/-- A caller changes `ip->nlink` and calls `iupdate`. -/
def setNlink (s : Fs.Sys) (i : Fin NINODE) (nlink : UInt16) : Fs.Sys :=
  iupdate s i { (s.itable i).toDinode with nlink := nlink }

/-! ## `sys_link` -/

/-- From the lookup of the new path on: whether the entry has been made. -/
def linkEntry (s : Fs.Sys) (cwd : Fin NINODE) (new : List UInt8) (ip : Fin NINODE) : Except Panic (Fs.Sys × Bool) := do
  let (s, dp) ← nameiparent s cwd new
  match dp with
  | none => .ok (s, false)
  | some (dp, name) =>
      let s ← ilock s dp
      let (s, done) ← dirlink s dp name (s.itable ip).inum
      let s ← iput s dp
      .ok (s, done)

/-- `bad:` -/
def linkBad (s : Fs.Sys) (ip : Fin NINODE) : Except Panic (Fs.Sys × Int) := do
  let s ← ilock s ip
  let s ← iput (setNlink s ip ((s.itable ip).nlink - 1)) ip
  .ok (s, -1)

def sysLink (s : Fs.Sys) (cwd : Fin NINODE) (old new : Arg) : Except Panic (Fs.Sys × Int) :=
  match old, new with
  | some old, some new => do
      let (s, ip) ← namei s cwd old
      match ip with
      | none => .ok (s, -1)
      | some ip =>
          let s ← ilock s ip
          if (s.itable ip).type = T_DIR then
            let s ← iput s ip
            .ok (s, -1)
          else
            let (s, done) ← linkEntry (setNlink s ip ((s.itable ip).nlink + 1)) cwd new ip
            if done then
              let s ← iput s ip
              .ok (s, 0)
            else linkBad s ip
  | _, _ => .ok (s, -1)

/-! ## `sys_unlink` -/

/-- `bad:` -/
def unlinkBad (s : Fs.Sys) (dp : Fin NINODE) : Except Panic (Fs.Sys × Int) := do
  let s ← iput s dp
  .ok (s, -1)

/-- The entry number `k` of `dp`, which refers to `ip`, is cleared. -/
def unlinkEntry (s : Fs.Sys) (dp ip : Fin NINODE) (k : Nat) : Except Panic (Fs.Sys × Int) := do
  let (s, done) ← writei s dp (DESIZE * k) (List.replicate DESIZE 0)
  if !done then .error .unlinkWritei
  else
    let s := if (s.itable ip).type = T_DIR then setNlink s dp ((s.itable dp).nlink - 1) else s
    let s ← iput s dp
    let s ← iput (setNlink s ip ((s.itable ip).nlink - 1)) ip
    .ok (s, 0)

/-- `ip->type == T_DIR && !isdirempty(ip)` -/
def dirNotEmpty (s : Fs.Sys) (ip : Fin NINODE) : Except Panic (Fs.Sys × Bool) :=
  if (s.itable ip).type = T_DIR then do
    let (s, empty) ← isdirempty s ip
    .ok (s, !empty)
  else .ok (s, false)

def sysUnlink (s : Fs.Sys) (cwd : Fin NINODE) (path : Arg) : Except Panic (Fs.Sys × Int) :=
  match path with
  | none => .ok (s, -1)
  | some path => do
      let (s, dp) ← nameiparent s cwd path
      match dp with
      | none => .ok (s, -1)
      | some (dp, name) =>
          let s ← ilock s dp
          if name = dot ∨ name = dotdot then unlinkBad s dp
          else
            let (s, found) ← dirlookup s dp name
            match found with
            | none => unlinkBad s dp
            | some (ip, k) =>
                if ip = dp then .error .deadlock
                else
                  let s ← ilock s ip
                  -- `nlink` is a `short`
                  if (s.itable ip).nlink.toInt16 < 1 then .error .unlinkNlink
                  else
                    let (s, full) ← dirNotEmpty s ip
                    if full then
                      let s ← iput s ip
                      unlinkBad s dp
                    else unlinkEntry s dp ip k

/-! ## `create` -/

/-- The entries `.` and `..` of a new directory. -/
def createDots (s : Fs.Sys) (dp ip : Fin NINODE) : Except Panic Fs.Sys := do
  let s := setNlink s dp ((s.itable dp).nlink + 1)
  let (s, done) ← dirlink s ip dot (s.itable ip).inum
  if !done then .error .createDots
  else
    let (s, done) ← dirlink s ip dotdot (s.itable dp).inum
    if !done then .error .createDots else .ok s

/-- From `ialloc` on: the name is not in the directory. -/
def createEntry (s : Fs.Sys) (dp : Fin NINODE) (name : Name) (type major minor : UInt16) :
    Except Panic (Fs.Sys × Option (Fin NINODE)) := do
  let (s, ip) ← liftFs (Fs.ialloc s type)
  if ip = dp then .error .deadlock
  else
    let s ← ilock s ip
    let s := iupdate s ip { (s.itable ip).toDinode with major := major, minor := minor, nlink := 1 }
    let s ← (if type = T_DIR then createDots s dp ip else .ok s)
    let (s, done) ← dirlink s dp name (s.itable ip).inum
    if !done then .error .createDirlink
    else
      let s ← iput s dp
      .ok (s, some ip)

/-- The inode is returned locked. -/
def create (s : Fs.Sys) (cwd : Fin NINODE) (path : List UInt8) (type major minor : UInt16) :
    Except Panic (Fs.Sys × Option (Fin NINODE)) := do
  let (s, dp) ← nameiparent s cwd path
  match dp with
  | none => .ok (s, none)
  | some (dp, name) =>
      let s ← ilock s dp
      let (s, found) ← dirlookup s dp name
      match found with
      | some (ip, _) =>
          let s ← iput s dp
          let s ← ilock s ip
          if type = T_FILE ∧ ((s.itable ip).type = T_FILE ∨ (s.itable ip).type = T_DEVICE) then .ok (s, some ip)
          else
            let s ← iput s ip
            .ok (s, none)
      | none => createEntry s dp name type major minor

/-- `sys_mkdir` and `sys_mknod` drop the inode that `create` returns. -/
def createOnly (s : Fs.Sys) (cwd : Fin NINODE) (path : Arg) (type major minor : UInt16) :
    Except Panic (Fs.Sys × Int) :=
  match path with
  | none => .ok (s, -1)
  | some path => do
      let (s, ip) ← create s cwd path type major minor
      match ip with
      | none => .ok (s, -1)
      | some ip =>
          let s ← iput s ip
          .ok (s, 0)

def sysMkdir (s : Fs.Sys) (cwd : Fin NINODE) (path : Arg) : Except Panic (Fs.Sys × Int) :=
  createOnly s cwd path T_DIR 0 0

def sysMknod (s : Fs.Sys) (cwd : Fin NINODE) (path : Arg) (major minor : UInt32) : Except Panic (Fs.Sys × Int) :=
  createOnly s cwd path T_DEVICE major.toUInt16 minor.toUInt16

/-! ## `sys_chdir` -/

def sysChdir (s : State) (path : Arg) : Except Panic (State × Int) :=
  match path with
  | none => .ok (s, -1)
  | some path => do
      let (fs, ip) ← namei s.fs s.cwd path
      match ip with
      | none => .ok ({ s with fs := fs }, -1)
      | some ip =>
          let fs ← ilock fs ip
          if (fs.itable ip).type ≠ T_DIR then
            let fs ← iput fs ip
            .ok ({ s with fs := fs }, -1)
          else
            let fs ← iput fs s.cwd
            .ok ({ s with fs := fs, cwd := ip }, 0)

/-! ## `sys_open` -/

def O_RDONLY : UInt32 := 0x000
def O_WRONLY : UInt32 := 0x001
def O_RDWR : UInt32 := 0x002
def O_CREATE : UInt32 := 0x200
def O_TRUNC : UInt32 := 0x400

/-- The inode to open, locked. -/
def openInode (s : Fs.Sys) (cwd : Fin NINODE) (path : List UInt8) (omode : UInt32) :
    Except Panic (Fs.Sys × Option (Fin NINODE)) :=
  if omode &&& O_CREATE ≠ 0 then create s cwd path T_FILE 0 0
  else do
    let (s, ip) ← namei s cwd path
    match ip with
    | none => .ok (s, none)
    | some ip =>
        let s ← ilock s ip
        if (s.itable ip).type = T_DIR ∧ omode ≠ O_RDONLY then
          let s ← iput s ip
          .ok (s, none)
        else .ok (s, some ip)

/-- The ends of `sys_open` that drop the inode. -/
def openBad (s : State) (ip : Fin NINODE) : Except Panic (State × Int) := do
  let fs ← iput s.fs ip
  .ok ({ s with fs := fs }, -1)

/-- The new file refers to the inode. -/
def openFile (s : State) (ip : Fin NINODE) (f : Fin NFILE) (omode : UInt32) : State :=
  let file := s.ftable f
  let file :=
    if (s.fs.itable ip).type = T_DEVICE then { file with type := .device, major := (s.fs.itable ip).major }
    else { file with type := .inode, off := 0 }
  s.setFile f { file with
    ip := ip
    readable := omode &&& O_WRONLY = 0
    writable := omode &&& O_WRONLY ≠ 0 ∨ omode &&& O_RDWR ≠ 0 }

def sysOpen (s : State) (path : Arg) (omode : UInt32) : Except Panic (State × Int) :=
  match path with
  | none => .ok (s, -1)
  | some path => do
      let (fs, ip) ← openInode s.fs s.cwd path omode
      let s := { s with fs := fs }
      match ip with
      | none => .ok (s, -1)
      | some ip =>
          let d := (s.fs.itable ip).toDinode
          -- `major` is a `short`
          if d.type = T_DEVICE ∧ (d.major.toInt16.toInt < 0 ∨ NDEV ≤ d.major.toInt16.toInt) then openBad s ip
          else
            match filealloc s with
            | (s, none) => openBad s ip
            | (s, some f) =>
                match fdalloc s f with
                | (s, none) => do
                    let s ← fileclose s f
                    openBad s ip
                | (s, some fd) => do
                    let s := openFile s ip f omode
                    let fs ← (if omode &&& O_TRUNC ≠ 0 ∧ d.type = T_FILE then itrunc s.fs ip else .ok s.fs)
                    .ok ({ s with fs := fs }, (fd : Nat))

end Xv6.Syscall
