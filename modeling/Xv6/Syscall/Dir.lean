import Xv6.Fs.Model
import Xv6.Vm.Model

/-!
# `Syscall.Dir` — directories and paths of `kernel/fs.c`

`dirlookup`, `dirlink` and `namex` over the inode layer of `Fs.Model`. A directory entry is the sixteen bytes
of `struct dirent`; a name is its bytes up to the first NUL, at most `DIRSIZ` of them, which is all that
`namecmp` compares.

System calls run one at a time here, so a sleep lock is free whenever a call takes one that it does not hold
itself, and `iunlock` has no effect on the state.
-/

namespace Xv6.Syscall

open Fs (NINODE)

def DIRSIZ : Nat := 14
def ROOTINO : Nat := 1

def T_DIR : UInt16 := 1
def T_FILE : UInt16 := 2
def T_DEVICE : UInt16 := 3

inductive Panic
  /-- a panic of the inode layer -/
  | fs (e : Fs.Panic)
  /-- a panic of the memory layer -/
  | vm (e : Vm.Panic)
  /-- `ilock` -/
  | ilock
  /-- `dirlookup not DIR` -/
  | dirlookupNotDir
  /-- `dirlookup read` -/
  | dirlookupRead
  /-- `dirlink read` -/
  | dirlinkRead
  /-- `dirlink` -/
  | dirlink
  /-- `isdirempty: readi` -/
  | isdirempty
  /-- `unlink: nlink < 1` -/
  | unlinkNlink
  /-- `unlink: writei` -/
  | unlinkWritei
  /-- `create dots` -/
  | createDots
  /-- `create: dirlink` -/
  | createDirlink
  /-- `fileclose` -/
  | fileclose
  /-- a call waits for a sleep lock that it holds itself -/
  | deadlock
deriving DecidableEq

/-! ## Inodes -/

def liftFs {α : Type} (x : Except Fs.Panic α) : Except Panic α := x.mapError .fs

def ilock (s : Fs.Sys) (i : Fin NINODE) : Except Panic Fs.Sys :=
  if (s.itable i).ref < 1 then .error .ilock else liftFs (Fs.ilock s i)

def iput (s : Fs.Sys) (i : Fin NINODE) : Except Panic Fs.Sys := liftFs (Fs.iput s i)

def idup (s : Fs.Sys) (i : Fin NINODE) : Fs.Sys :=
  s.setInode i { s.itable i with ref := (s.itable i).ref + 1 }

/-- A caller changes fields of a locked inode and calls `iupdate`. -/
def iupdate (s : Fs.Sys) (i : Fin NINODE) (d : Fs.Dinode) : Fs.Sys :=
  Fs.Sys.setInode { s with blk := Fs.iupdate s.sb s.blk (s.itable i).inum d } i
    { s.itable i with toDinode := d }

def itrunc (s : Fs.Sys) (i : Fin NINODE) : Except Panic Fs.Sys := do
  let (blk, d) ← liftFs (Fs.itrunc s.sb s.blk (s.itable i).inum (s.itable i).toDinode)
  .ok (Fs.Sys.setInode { s with blk := blk } i { s.itable i with toDinode := d })

/-- `readi` into a kernel buffer; `none` if it does not return `n`. -/
def readi (s : Fs.Sys) (i : Fin NINODE) (off n : Nat) : Except Panic (Fs.Sys × Option (List UInt8)) := do
  let (blk, d, bs, tot) ← liftFs (Fs.readi s.sb s.blk (s.itable i).toDinode (fun _ _ => true)
    (UInt32.ofNat off) (UInt32.ofNat n))
  .ok (Fs.Sys.setInode { s with blk := blk } i { s.itable i with toDinode := d },
    if tot = some n then some bs else none)

/-- `writei` from a kernel buffer, and whether it returned the number of bytes. -/
def writei (s : Fs.Sys) (i : Fin NINODE) (off : Nat) (bs : List UInt8) : Except Panic (Fs.Sys × Bool) := do
  let (blk, d, tot) ← liftFs (Fs.writei s.sb s.blk (s.itable i).inum (s.itable i).toDinode
    (.kernel (fun k => bs.getD k 0) 0) (UInt32.ofNat off) (UInt32.ofNat bs.length))
  .ok (Fs.Sys.setInode { s with blk := blk } i { s.itable i with toDinode := d }, tot = some bs.length)

/-! ## Directory entries -/

abbrev Name := List UInt8

structure Dirent where
  inum : Nat
  name : Name
deriving DecidableEq

/-- `sizeof(struct dirent)` -/
def DESIZE : Nat := 16

def Dirent.ofBytes (bs : List UInt8) : Dirent where
  inum := (bs.getD 0 0).toNat + 256 * (bs.getD 1 0).toNat
  name := ((bs.drop 2).take DIRSIZ).takeWhile (· ≠ 0)

/-- `de.inum` is a `ushort`; `strncpy` fills up the name with NULs. -/
def Dirent.toBytes (e : Dirent) : List UInt8 :=
  [UInt8.ofNat e.inum, UInt8.ofNat (e.inum / 256)] ++
    (e.name.take DIRSIZ ++ List.replicate (DIRSIZ - e.name.length) 0)

/-- The number of turns of a loop over the entries of a directory. -/
def slots (size : UInt32) : Nat := (size.toNat + DESIZE - 1) / DESIZE

/-- The loop of `dirlookup`, from entry `k` on with `n` turns left: the number of the entry found and its
    `inum`. -/
def dirlookupFrom (s : Fs.Sys) (i : Fin NINODE) (name : Name) :
    Nat → Nat → Except Panic (Fs.Sys × Option (Nat × Nat))
  | _, 0 => .ok (s, none)
  | k, n + 1 => do
      let (s, bs) ← readi s i (DESIZE * k) DESIZE
      match bs with
      | none => .error .dirlookupRead
      | some bs =>
          let de := Dirent.ofBytes bs
          if de.inum ≠ 0 ∧ de.name = name then .ok (s, some (k, de.inum))
          else dirlookupFrom s i name (k + 1) n

/-- `dirlookup(dp, name, poff)`: the inode found and the number of its entry. -/
def dirlookup (s : Fs.Sys) (i : Fin NINODE) (name : Name) :
    Except Panic (Fs.Sys × Option (Fin NINODE × Nat)) :=
  if (s.itable i).type ≠ T_DIR then .error .dirlookupNotDir
  else do
    let (s, found) ← dirlookupFrom s i name 0 (slots (s.itable i).size)
    match found with
    | none => .ok (s, none)
    | some (k, inum) =>
        let (s, j) ← liftFs (Fs.iget s inum)
        .ok (s, some (j, k))

/-- The second loop of `dirlink`: the first empty entry, or the one after the last. -/
def emptyFrom (s : Fs.Sys) (i : Fin NINODE) : Nat → Nat → Except Panic (Fs.Sys × Nat)
  | k, 0 => .ok (s, k)
  | k, n + 1 => do
      let (s, bs) ← readi s i (DESIZE * k) DESIZE
      match bs with
      | none => .error .dirlinkRead
      | some bs => if (Dirent.ofBytes bs).inum = 0 then .ok (s, k) else emptyFrom s i (k + 1) n

/-- `dirlink(dp, name, inum)`; `false` is -1. -/
def dirlink (s : Fs.Sys) (i : Fin NINODE) (name : Name) (inum : Nat) : Except Panic (Fs.Sys × Bool) := do
  let (s, found) ← dirlookup s i name
  match found with
  | some (j, _) =>
      let s ← iput s j
      .ok (s, false)
  | none =>
      let (s, k) ← emptyFrom s i 0 (slots (s.itable i).size)
      let (s, done) ← writei s i (DESIZE * k) (Dirent.toBytes ⟨inum, name⟩)
      if done then .ok (s, true) else .error .dirlink

/-- `isdirempty`, from entry `k` on. -/
def isdiremptyFrom (s : Fs.Sys) (i : Fin NINODE) : Nat → Nat → Except Panic (Fs.Sys × Bool)
  | _, 0 => .ok (s, true)
  | k, n + 1 => do
      let (s, bs) ← readi s i (DESIZE * k) DESIZE
      match bs with
      | none => .error .isdirempty
      | some bs => if (Dirent.ofBytes bs).inum ≠ 0 then .ok (s, false) else isdiremptyFrom s i (k + 1) n

def isdirempty (s : Fs.Sys) (i : Fin NINODE) : Except Panic (Fs.Sys × Bool) :=
  isdiremptyFrom s i 2 (slots (s.itable i).size - 2)

/-! ## Paths -/

/-- `'/'` -/
def slash : UInt8 := 47

/-- `"."` -/
def dot : Name := [46]

/-- `".."` -/
def dotdot : Name := [46, 46]

/-- The next element of a path and what follows it. -/
def skipelem (path : List UInt8) : Option (Name × List UInt8) :=
  let path := path.dropWhile (· = slash)
  if path = [] then none
  else some ((path.takeWhile (· ≠ slash)).take DIRSIZ, (path.dropWhile (· ≠ slash)).dropWhile (· = slash))

/-- The elements that the loop of `namex` takes from a path, with a bound on the number of turns. -/
def elems : Nat → List UInt8 → List Name
  | 0, _ => []
  | n + 1, path =>
      match skipelem path with
      | none => []
      | some (name, rest) => name :: elems n rest

/-- The loop of `namex`. With `nameiparent` it stops at the last element and returns it. -/
def namexLoop (s : Fs.Sys) (nameiparent : Bool) (i : Fin NINODE) :
    List Name → Except Panic (Fs.Sys × Option (Fin NINODE × Name))
  | [] =>
      if nameiparent then do
        let s ← iput s i
        .ok (s, none)
      else .ok (s, some (i, []))
  | name :: rest => do
      let s ← ilock s i
      if (s.itable i).type ≠ T_DIR then
        let s ← iput s i
        .ok (s, none)
      else if nameiparent ∧ rest = [] then .ok (s, some (i, name))
      else
        let (s, next) ← dirlookup s i name
        match next with
        | none =>
            let s ← iput s i
            .ok (s, none)
        | some (j, _) =>
            let s ← iput s i
            namexLoop s nameiparent j rest

def namex (s : Fs.Sys) (cwd : Fin NINODE) (path : List UInt8) (nameiparent : Bool) :
    Except Panic (Fs.Sys × Option (Fin NINODE × Name)) :=
  if path.head? = some slash then do
    let (s, i) ← liftFs (Fs.iget s ROOTINO)
    namexLoop s nameiparent i (elems path.length path)
  else namexLoop (idup s cwd) nameiparent cwd (elems path.length path)

def namei (s : Fs.Sys) (cwd : Fin NINODE) (path : List UInt8) : Except Panic (Fs.Sys × Option (Fin NINODE)) := do
  let (s, r) ← namex s cwd path false
  .ok (s, r.map Prod.fst)

def nameiparent (s : Fs.Sys) (cwd : Fin NINODE) (path : List UInt8) :
    Except Panic (Fs.Sys × Option (Fin NINODE × Name)) :=
  namex s cwd path true

end Xv6.Syscall
