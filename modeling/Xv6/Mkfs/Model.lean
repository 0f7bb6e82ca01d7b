import Xv6.Syscall.Dir

/-!
# `Mkfs.Model` — `mkfs/mkfs.c`

The program writes the image of a file system through the host's `lseek`, `read` and `write`. The image is a file
of `len` sectors; sectors it never wrote read as zeroes if the file is extended past them. What the host does
with the input files is part of the input: whether `open` succeeds, and into which pieces `read` cuts a file. Calls
that write to the image succeed.

`Stop.die` is the end by `die`, `Stop.assert` a failing `assert`.
-/

namespace Xv6.Mkfs

open Logging (Block BSIZE)
open Fs (Blocks Dinode Superblock NDIRECT NINDIRECT MAXFILE IPB BPB IBLOCK word readDinode writeDinode)
open Syscall (Dirent Name DIRSIZ ROOTINO T_DIR T_FILE slash dot dotdot)

def NINODES : Nat := 200
def FSSIZE : Nat := 1000
def LOGSIZE : Nat := 30
def FSMAGIC : Nat := 0x10203040

def nbitmap : Nat := FSSIZE / (BSIZE * 8) + 1
def ninodeblocks : Nat := NINODES / IPB + 1
def nlog : Nat := LOGSIZE
def nmeta : Nat := 2 + nlog + ninodeblocks + nbitmap
def nblocks : Nat := FSSIZE - nmeta

def sb : Superblock where
  size := FSSIZE
  nblocks := nblocks
  ninodes := NINODES
  inodestart := 2 + nlog
  bmapstart := 2 + nlog + ninodeblocks
  size_lt := by decide
  inodes_lt inum h := by
    simp only [NINODES, ninodeblocks, nlog, LOGSIZE, IPB, BSIZE] at *
    omega
  bitmap_lt b h := by
    simp only [FSSIZE, nblocks, nmeta, nbitmap, NINODES, ninodeblocks, nlog, LOGSIZE, IPB, BPB, BSIZE] at *
    omega

inductive Stop
  | die
  | assert
deriving DecidableEq

/-- The image and the two counters. -/
structure State where
  len : Nat
  blk : Blocks
  freeinode : Nat
  freeblock : Nat

/-! ## Sectors -/

/-- Where `lseek` goes for `sec * BSIZE`, which is a `uint`. -/
def sector (sec : Nat) : Nat := sec * BSIZE % 2 ^ 32 / BSIZE

def wsect (s : State) (sec : Nat) (buf : Block) : State :=
  { s with len := max s.len (sector sec + 1), blk := Function.update s.blk (sector sec) buf }

def rsect (s : State) (sec : Nat) : Except Stop Block :=
  if sector sec < s.len then .ok (s.blk (sector sec)) else .error .die

def winode (s : State) (inum : Nat) (ip : Dinode) : Except Stop State := do
  let buf ← rsect s (IBLOCK sb inum)
  .ok (wsect s (IBLOCK sb inum) (writeDinode buf (inum % IPB * 64) ip))

def rinode (s : State) (inum : Nat) : Except Stop Dinode := do
  let buf ← rsect s (IBLOCK sb inum)
  .ok (readDinode buf (inum % IPB * 64))

def ialloc (s : State) (type : UInt16) : Except Stop (State × Nat) := do
  let inum := s.freeinode
  let s ← winode { s with freeinode := inum + 1 } inum { Dinode.fresh type with nlink := 1 }
  .ok (s, inum)

/-- The bitmap with the first `used` bits set. -/
def bits (used : Nat) : Block := (List.range used).foldl Bitmap.set fun _ => 0

def balloc (s : State) : Except Stop State :=
  if s.freeblock < BSIZE * 8 then .ok (wsect s sb.bmapstart (bits s.freeblock)) else .error .assert

/-! ## Files -/

/-- `din.addrs[k]`, set to the next free block if it is 0. -/
def addrAt (s : State) (din : Dinode) (k : Fin (NDIRECT + 1)) : State × Dinode :=
  if din.addrs k = 0 then
    ({ s with freeblock := s.freeblock + 1 },
      { din with addrs := Function.update din.addrs k (UInt32.ofNat s.freeblock) })
  else (s, din)

/-- `indirect[j]` of the block `ind`, set to the next free block if it is 0. -/
def entryAt (s : State) (ind : UInt32) (indirect : Block) (j : Nat) : State × UInt32 :=
  if word indirect (4 * j) = 0 then
    (wsect { s with freeblock := s.freeblock + 1 } ind.toNat (Bytes.store indirect (4 * j) 4 s.freeblock),
      UInt32.ofNat s.freeblock)
  else (s, word indirect (4 * j))

/-- The number `x` of block `fbn` of a file, allocated if necessary. -/
def blockOf (s : State) (din : Dinode) (fbn : Nat) : Except Stop (State × Dinode × UInt32) :=
  if h : fbn < NDIRECT then
    let (s, din) := addrAt s din ⟨fbn, Nat.lt_succ_of_lt h⟩
    .ok (s, din, din.addrs ⟨fbn, Nat.lt_succ_of_lt h⟩)
  else do
    let (s, din) := addrAt s din (Fin.last NDIRECT)
    let ind := din.addrs (Fin.last NDIRECT)
    let indirect ← rsect s ind.toNat
    let (s, x) := entryAt s ind indirect (fbn - NDIRECT)
    .ok (s, din, x)

/-- The block of the file and its contents, which `rsect` reads before they are changed. -/
def fetch (s : State) (din : Dinode) (fbn : Nat) : Except Stop (State × Dinode × UInt32 × Block) := do
  let (s, din, x) ← blockOf s din fbn
  let buf ← rsect s x.toNat
  .ok (s, din, x, buf)

/-- The bytes that go to one block. -/
def room (off n : Nat) : Nat := min n ((off / BSIZE + 1) * BSIZE - off)

theorem room_pos (off : Nat) {n : Nat} (h : 0 < n) : 0 < room off n := by
  have := Nat.lt_div_mul_add (a := off) (b := BSIZE) (by decide)
  have hs : (off / BSIZE + 1) * BSIZE = off / BSIZE * BSIZE + BSIZE := Nat.succ_mul _ _
  unfold room
  omega

/-- The loop of `iappend`. -/
def iappendLoop (s : State) (din : Dinode) (off : Nat) (p : List UInt8) :
    Except Stop (State × Dinode × Nat) :=
  if 0 < p.length then
    if off / BSIZE < MAXFILE then do
      let (s, din, x, buf) ← fetch s din (off / BSIZE)
      let n1 := room off p.length
      let buf := Bytes.put buf (off - off / BSIZE * BSIZE) (p.take n1)
      iappendLoop (wsect s x.toNat buf) din (off + n1) (p.drop n1)
    else .error .assert
  else .ok (s, din, off)
termination_by p.length
decreasing_by
  have := room_pos off (by assumption)
  rw [List.length_drop]
  omega

def iappend (s : State) (inum : Nat) (p : List UInt8) : Except Stop State := do
  let din ← rinode s inum
  let (s, din, off) ← iappendLoop s din din.size.toNat p
  winode s inum { din with size := UInt32.ofNat off }

/-! ## `main` -/

/-- An input file: `argv[i]`, and the pieces that `read` returns; `none` if `open` fails. -/
structure Input where
  name : Name
  reads : Option (List (List UInt8))
  name_ne_zero : ∀ c ∈ name, c ≠ 0
  reads_length : ∀ cs, reads = some cs → ∀ c ∈ cs, 0 < c.length ∧ c.length ≤ BSIZE

/-- `"user/"` -/
def userDir : Name := [117, 115, 101, 114, 47]

/-- `'_'` -/
def underscore : UInt8 := 95

def shortname (name : Name) : Name := if name.take 5 = userDir then name.drop 5 else name

/-- The name that goes to the directory. -/
def fileName (name : Name) : Name := if name.head? = some underscore then name.tail else name

/-- The turn of the loop of `main` for one file. -/
def addFile (rootino : Nat) (s : State) (f : Input) : Except Stop State :=
  if slash ∈ shortname f.name then .error .assert
  else
    match f.reads with
    | none => .error .die
    | some chunks => do
        let (s, inum) ← ialloc s T_FILE
        let s ← iappend s rootino (Dirent.toBytes ⟨inum, fileName (shortname f.name)⟩)
        chunks.foldlM (fun s c => iappend s inum c) s

/-- `sb` as the sector holds it. -/
def superblock : Block :=
  Bytes.storeWords (fun _ => 0) 0 4
    [FSMAGIC, sb.size, sb.nblocks, sb.ninodes, nlog, 2, sb.inodestart, sb.bmapstart]

/-- The image after the first loop: `FSSIZE` sectors of zeroes. -/
def zeroed : State :=
  (List.range FSSIZE).foldl (fun s i => wsect s i fun _ => 0)
    { len := 0, blk := fun _ _ => 0, freeinode := 1, freeblock := nmeta }

/-- The rounding of the size of the root directory. -/
def fixSize (s : State) (rootino : Nat) : Except Stop State := do
  let din ← rinode s rootino
  winode s rootino { din with size := UInt32.ofNat ((din.size.toNat / BSIZE + 1) * BSIZE) }

def main (files : List Input) : Except Stop State := do
  let (s, rootino) ← ialloc (wsect zeroed 1 superblock) T_DIR
  if rootino = ROOTINO then do
    let s ← iappend s rootino (Dirent.toBytes ⟨rootino, dot⟩)
    let s ← iappend s rootino (Dirent.toBytes ⟨rootino, dotdot⟩)
    let s ← files.foldlM (addFile rootino) s
    let s ← fixSize s rootino
    balloc s
  else .error .assert

end Xv6.Mkfs
