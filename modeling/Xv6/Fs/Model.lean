import Xv6.Lib.Bitmap
import Xv6.Lib.Trace
import Xv6.Log.Bio

/-!
# `Fs.Model` — blocks and inodes of `kernel/fs.c`

The functions work on the blocks as the buffer cache shows them inside a transaction, so `bread` is a lookup
in `blk` and a change of `b->data` is an update of it; what `log_write` makes of the change is the subject of
the `Log` modules. There is one device, and `dev` is left out.

An operation is a call by a process that holds what the call needs (a reference, the sleep lock); it ends
with a value or with a panic. A signed overflow of a loop counter is undefined in C and ends the operation
like a panic.
-/

namespace Xv6.Fs

open Logging (Block BSIZE)

def NDIRECT : Nat := 12
def NINDIRECT : Nat := BSIZE / 4
def MAXFILE : Nat := NDIRECT + NINDIRECT

/-- Inodes per block; a `struct dinode` has 64 bytes. -/
def IPB : Nat := BSIZE / 64

/-- Bitmap bits per block. -/
def BPB : Nat := BSIZE * 8

def NINODE : Nat := 50

abbrev Blocks := Nat → Block

/-- `struct superblock`. The inode blocks come before the bitmap and the bitmap before the data blocks, which
    are the last `nblocks` ones. -/
structure Superblock where
  size : Nat
  nblocks : Nat
  ninodes : Nat
  inodestart : Nat
  bmapstart : Nat
  size_lt : size < 2 ^ 32
  inodes_lt : ∀ inum < ninodes, inum / IPB + inodestart < bmapstart
  bitmap_lt : ∀ b < size, b / BPB + bmapstart < size - nblocks

/-- The first data block. -/
def Superblock.data (sb : Superblock) : Nat := sb.size - sb.nblocks

def IBLOCK (sb : Superblock) (inum : Nat) : Nat := inum / IPB + sb.inodestart
def BBLOCK (sb : Superblock) (b : Nat) : Nat := b / BPB + sb.bmapstart

inductive Panic
  /-- `balloc: out of blocks` -/
  | outOfBlocks
  /-- `freeing free block` -/
  | freeingFreeBlock
  /-- `bmap: out of range` -/
  | bmapOutOfRange
  /-- `ialloc: no inodes` -/
  | noInodes
  /-- `iget: no inodes` -/
  | tableFull
  /-- `ilock: no type` -/
  | noType
  /-- an `int` loop counter exceeds its range -/
  | overflow
deriving DecidableEq

/-! ## Blocks -/

def bzero (blk : Blocks) (bno : Nat) : Blocks := Function.update blk bno fun _ => 0

/-- The inner loop of `balloc`: the first clear bit among the `n` bits from `bi` on. -/
def scan (f : Block) : Nat → Nat → Option Nat
  | _, 0 => none
  | bi, n + 1 => if Bitmap.test f bi then scan f (bi + 1) n else some bi

/-- The outer loop of `balloc`. -/
def ballocFrom (sb : Superblock) (blk : Blocks) (b : Nat) : Except Panic (Blocks × Nat) :=
  if b < sb.size then
    match scan (blk (BBLOCK sb b)) 0 (min BPB (sb.size - b)) with
    | some bi =>
        let bp := Bitmap.set (blk (BBLOCK sb b)) bi
        .ok (bzero (Function.update blk (BBLOCK sb b) bp) (b + bi), b + bi)
    | none => if b + BPB < 2 ^ 31 then ballocFrom sb blk (b + BPB) else .error .overflow
  else .error .outOfBlocks
termination_by sb.size - b
decreasing_by
  simp only [BPB, BSIZE]
  omega

def balloc (sb : Superblock) (blk : Blocks) : Except Panic (Blocks × Nat) := ballocFrom sb blk 0

def bfree (sb : Superblock) (blk : Blocks) (b : Nat) : Except Panic Blocks :=
  let bp := blk (BBLOCK sb b)
  if Bitmap.test bp (b % BPB) then .ok (Function.update blk (BBLOCK sb b) (Bitmap.clear bp (b % BPB)))
  else .error .freeingFreeBlock

/-! ## Inodes on disk -/

/-- `struct dinode`, and the copy of it in `struct inode`. -/
structure Dinode where
  type : UInt16
  major : UInt16
  minor : UInt16
  nlink : UInt16
  size : UInt32
  addrs : Fin (NDIRECT + 1) → UInt32

def half (f : Block) (o : Nat) : UInt16 := UInt16.ofNat (Bytes.load f o 2)
def word (f : Block) (o : Nat) : UInt32 := UInt32.ofNat (Bytes.load f o 4)

def readDinode (f : Block) (o : Nat) : Dinode where
  type := half f o
  major := half f (o + 2)
  minor := half f (o + 4)
  nlink := half f (o + 6)
  size := word f (o + 8)
  addrs k := word f (o + 12 + 4 * k)

def writeDinode (f : Block) (o : Nat) (d : Dinode) : Block :=
  let f := Bytes.store f o 2 d.type.toNat
  let f := Bytes.store f (o + 2) 2 d.major.toNat
  let f := Bytes.store f (o + 4) 2 d.minor.toNat
  let f := Bytes.store f (o + 6) 2 d.nlink.toNat
  let f := Bytes.store f (o + 8) 4 d.size.toNat
  Bytes.storeWords f (o + 12) 4 (List.ofFn fun k => (d.addrs k).toNat)

/-- The inode `inum` on disk. -/
def dinode (sb : Superblock) (blk : Blocks) (inum : Nat) : Dinode :=
  readDinode (blk (IBLOCK sb inum)) (inum % IPB * 64)

def iupdate (sb : Superblock) (blk : Blocks) (inum : Nat) (ip : Dinode) : Blocks :=
  Function.update blk (IBLOCK sb inum) (writeDinode (blk (IBLOCK sb inum)) (inum % IPB * 64) ip)

/-! ## Inode contents -/

/-- `ip->addrs[k]`, allocated if it is 0. -/
def addrAt (sb : Superblock) (blk : Blocks) (ip : Dinode) (k : Fin (NDIRECT + 1)) :
    Except Panic (Blocks × Dinode × UInt32) :=
  if ip.addrs k = 0 then do
    let (blk, b) ← balloc sb blk
    let addr := UInt32.ofNat b
    .ok (blk, { ip with addrs := Function.update ip.addrs k addr }, addr)
  else .ok (blk, ip, ip.addrs k)

/-- `a[bn]` of the indirect block `addr`, allocated if it is 0. -/
def entryAt (sb : Superblock) (blk : Blocks) (addr : UInt32) (bn : Nat) : Except Panic (Blocks × UInt32) :=
  let a := word (blk addr.toNat) (4 * bn)
  if a = 0 then do
    let (blk, b) ← balloc sb blk
    .ok (Function.update blk addr.toNat (Bytes.store (blk addr.toNat) (4 * bn) 4 b), UInt32.ofNat b)
  else .ok (blk, a)

def bmap (sb : Superblock) (blk : Blocks) (ip : Dinode) (bn : Nat) :
    Except Panic (Blocks × Dinode × UInt32) :=
  if h : bn < NDIRECT then addrAt sb blk ip ⟨bn, Nat.lt_succ_of_lt h⟩
  else if bn - NDIRECT < NINDIRECT then do
    let (blk, ip, addr) ← addrAt sb blk ip (Fin.last NDIRECT)
    let (blk, addr) ← entryAt sb blk addr (bn - NDIRECT)
    .ok (blk, ip, addr)
  else .error .bmapOutOfRange

/-- The first loop of `itrunc`. -/
def truncDirect (sb : Superblock) (s : Blocks × Dinode) (i : Fin NDIRECT) : Except Panic (Blocks × Dinode) :=
  if s.2.addrs i.castSucc ≠ 0 then do
    let blk ← bfree sb s.1 (s.2.addrs i.castSucc).toNat
    .ok (blk, { s.2 with addrs := Function.update s.2.addrs i.castSucc 0 })
  else .ok s

/-- The second loop of `itrunc`, over the indirect block `addr`. -/
def truncEntry (sb : Superblock) (addr : Nat) (blk : Blocks) (j : Fin NINDIRECT) : Except Panic Blocks :=
  if word (blk addr) (4 * j) ≠ 0 then bfree sb blk (word (blk addr) (4 * j)).toNat else .ok blk

def truncIndirect (sb : Superblock) (blk : Blocks) (ip : Dinode) : Except Panic (Blocks × Dinode) :=
  let addr := ip.addrs (Fin.last NDIRECT)
  if addr ≠ 0 then do
    let blk ← (List.finRange NINDIRECT).foldlM (truncEntry sb addr.toNat) blk
    let blk ← bfree sb blk addr.toNat
    .ok (blk, { ip with addrs := Function.update ip.addrs (Fin.last NDIRECT) 0 })
  else .ok (blk, ip)

def itrunc (sb : Superblock) (blk : Blocks) (inum : Nat) (ip : Dinode) : Except Panic (Blocks × Dinode) := do
  let (blk, ip) ← (List.finRange NDIRECT).foldlM (truncDirect sb) (blk, ip)
  let (blk, ip) ← truncIndirect sb blk ip
  let ip := { ip with size := 0 }
  .ok (iupdate sb blk inum ip, ip)

/-- What `either_copyin` reads from. -/
inductive Src
  | user (pages : Pages) (va : Nat)
  | kernel (mem : Nat → UInt8) (addr : Nat)

/-- `either_copyin` of `m` bytes at `src + k`: the bytes moved and whether it returned 0. -/
def Src.read : Src → Nat → Nat → List UInt8 × Bool
  | .user pages va, k, m => copyin pages (va + k) m
  | .kernel mem addr, k, m => ((List.range m).map fun i => mem (addr + k + i), true)

/-- The length of the next chunk of `readi` and `writei`. -/
def chunk (n tot off : Nat) : Nat := min (n - tot) (BSIZE - off % BSIZE)

theorem chunk_pos (off : Nat) {n tot : Nat} (h : tot < n) : 0 < chunk n tot off := by
  have : off % BSIZE < BSIZE := Nat.mod_lt _ (by decide)
  unfold chunk
  omega

/-- The loop of `readi`. `dst` answers for `either_copyout` of `m` bytes at `dst + k`; the result is the bytes
    moved by the calls that succeeded and the value of `tot`, `none` standing for -1. -/
def readiLoop (sb : Superblock) (dst : Nat → Nat → Bool) (n : Nat) (blk : Blocks) (ip : Dinode)
    (tot off : Nat) : Except Panic (Blocks × Dinode × List UInt8 × Option Nat) :=
  if tot < n then do
    let (blk, ip, addr) ← bmap sb blk ip (off / BSIZE)
    let m := chunk n tot off
    if dst tot m then do
      let bs := (List.range m).map fun i => blk addr.toNat (off % BSIZE + i)
      let (blk, ip, rest, r) ← readiLoop sb dst n blk ip (tot + m) (off + m)
      .ok (blk, ip, bs ++ rest, r)
    else .ok (blk, ip, [], none)
  else .ok (blk, ip, [], some tot)
termination_by n - tot
decreasing_by
  have := chunk_pos off (by assumption)
  omega

def readi (sb : Superblock) (blk : Blocks) (ip : Dinode) (dst : Nat → Nat → Bool) (off n : UInt32) :
    Except Panic (Blocks × Dinode × List UInt8 × Option Nat) :=
  if off > ip.size ∨ off + n < off then .ok (blk, ip, [], some 0)
  else
    let n := if off + n > ip.size then ip.size - off else n
    readiLoop sb dst n.toNat blk ip 0 off.toNat

/-- The loop of `writei`, with the values of `tot` and `off` after it. -/
def writeiLoop (sb : Superblock) (src : Src) (n : Nat) (blk : Blocks) (ip : Dinode) (tot off : Nat) :
    Except Panic (Blocks × Dinode × Nat × Nat) :=
  if tot < n then do
    let (blk, ip, addr) ← bmap sb blk ip (off / BSIZE)
    let m := chunk n tot off
    let r := src.read tot m
    let blk := Function.update blk addr.toNat (Bytes.put (blk addr.toNat) (off % BSIZE) r.1)
    if r.2 then writeiLoop sb src n blk ip (tot + m) (off + m) else .ok (blk, ip, tot, off)
  else .ok (blk, ip, tot, off)
termination_by n - tot
decreasing_by
  have := chunk_pos off (by assumption)
  omega

/-- `none` stands for the return value -1. -/
def writei (sb : Superblock) (blk : Blocks) (inum : Nat) (ip : Dinode) (src : Src) (off n : UInt32) :
    Except Panic (Blocks × Dinode × Option Nat) :=
  if off > ip.size ∨ off + n < off then .ok (blk, ip, none)
  else if (off + n).toNat > MAXFILE * BSIZE then .ok (blk, ip, none)
  else do
    let (blk, ip, tot, off) ← writeiLoop sb src n.toNat blk ip 0 off.toNat
    let ip := if off > ip.size.toNat then { ip with size := UInt32.ofNat off } else ip
    .ok (iupdate sb blk inum ip, ip, some tot)

/-! ## The inode table -/

structure Inode extends Dinode where
  inum : Nat
  ref : Nat
  valid : Bool

structure Sys where
  sb : Superblock
  blk : Blocks
  itable : Fin NINODE → Inode

/-- Store an entry of the table. -/
def Sys.setInode (s : Sys) (i : Fin NINODE) (ip : Inode) : Sys :=
  { s with itable := Function.update s.itable i ip }

def iget (s : Sys) (inum : Nat) : Except Panic (Sys × Fin NINODE) :=
  match (List.finRange NINODE).find? fun i => (s.itable i).ref > 0 ∧ (s.itable i).inum = inum with
  | some i => .ok (s.setInode i { s.itable i with ref := (s.itable i).ref + 1 }, i)
  | none =>
      match (List.finRange NINODE).find? fun i => (s.itable i).ref = 0 with
      | some i => .ok (s.setInode i { s.itable i with inum := inum, ref := 1, valid := false }, i)
      | none => .error .tableFull

/-- The loop of `ialloc`: the first free inode among the `n` from `inum` on. -/
def ifree (sb : Superblock) (blk : Blocks) : Nat → Nat → Except Panic Nat
  | _, 0 => .error .noInodes
  | inum, n + 1 =>
      if (dinode sb blk inum).type = 0 then .ok inum
      else if inum + 1 < 2 ^ 31 then ifree sb blk (inum + 1) n
      else .error .overflow

/-- The inode that `ialloc` makes. -/
def Dinode.fresh (type : UInt16) : Dinode where
  type := type
  major := 0
  minor := 0
  nlink := 0
  size := 0
  addrs _ := 0

def ialloc (s : Sys) (type : UInt16) : Except Panic (Sys × Fin NINODE) := do
  let inum ← ifree s.sb s.blk 1 (s.sb.ninodes - 1)
  iget { s with blk := iupdate s.sb s.blk inum (.fresh type) } inum

def ilock (s : Sys) (i : Fin NINODE) : Except Panic Sys :=
  let ip := s.itable i
  if ip.valid then .ok s
  else
    let d := dinode s.sb s.blk ip.inum
    if d.type = 0 then .error .noType else .ok (s.setInode i { ip with toDinode := d, valid := true })

def iput (s : Sys) (i : Fin NINODE) : Except Panic Sys := do
  let ip := s.itable i
  if ip.ref = 1 ∧ ip.valid ∧ ip.nlink = 0 then
    let (blk, d) ← itrunc s.sb s.blk ip.inum ip.toDinode
    let d := { d with type := 0 }
    let blk := iupdate s.sb blk ip.inum d
    .ok (Sys.setInode { s with blk := blk } i { ip with toDinode := d, valid := false, ref := ip.ref - 1 })
  else .ok (s.setInode i { ip with ref := ip.ref - 1 })

/-! ## Operations -/

inductive Op
  | iget (inum : Nat)
  | idup (i : Fin NINODE)
  | ilock (i : Fin NINODE)
  | iput (i : Fin NINODE)
  | ialloc (type : UInt16)
  | itrunc (i : Fin NINODE)
  | readi (i : Fin NINODE) (dst : Nat → Nat → Bool) (off n : UInt32)
  | writei (i : Fin NINODE) (src : Src) (off n : UInt32)
  /-- a caller changes `ip->nlink` and calls `iupdate` -/
  | link (i : Fin NINODE) (nlink : UInt16)

/-- What the caller sees. -/
inductive Ret
  | none
  | inode (i : Fin NINODE)
  | read (bytes : List UInt8) (tot : Option Nat)
  | wrote (tot : Option Nat)

/-- What callers promise: a reference to the entry, and for the calls that use its contents, that it is
    locked and thereby valid. -/
def Op.allowed (s : Sys) : Op → Prop
  | .iget inum => inum < s.sb.ninodes
  | .idup i | .ilock i | .iput i => 0 < (s.itable i).ref
  | .ialloc _ => True
  | .itrunc i | .readi i _ _ _ | .writei i _ _ _ | .link i _ => 0 < (s.itable i).ref ∧ (s.itable i).valid

instance (s : Sys) (op : Op) : Decidable (op.allowed s) := by
  cases op <;> unfold Op.allowed <;> infer_instance

def exec (s : Sys) : Op → Except Panic (Sys × Ret)
  | .iget inum => do
      let (s, i) ← iget s inum
      .ok (s, .inode i)
  | .idup i => .ok (s.setInode i { s.itable i with ref := (s.itable i).ref + 1 }, .inode i)
  | .ilock i => do
      let s ← ilock s i
      .ok (s, .none)
  | .iput i => do
      let s ← iput s i
      .ok (s, .none)
  | .ialloc type => do
      let (s, i) ← ialloc s type
      .ok (s, .inode i)
  | .itrunc i => do
      let ip := s.itable i
      let (blk, d) ← itrunc s.sb s.blk ip.inum ip.toDinode
      .ok (Sys.setInode { s with blk := blk } i { ip with toDinode := d }, .none)
  | .readi i dst off n => do
      let ip := s.itable i
      let (blk, d, bs, tot) ← readi s.sb s.blk ip.toDinode dst off n
      .ok (Sys.setInode { s with blk := blk } i { ip with toDinode := d }, .read bs tot)
  | .writei i src off n => do
      let ip := s.itable i
      let (blk, d, tot) ← writei s.sb s.blk ip.inum ip.toDinode src off n
      .ok (Sys.setInode { s with blk := blk } i { ip with toDinode := d }, .wrote tot)
  | .link i nlink =>
      let ip := s.itable i
      let d := { ip.toDinode with nlink := nlink }
      .ok (Sys.setInode { s with blk := iupdate s.sb s.blk ip.inum d } i { ip with toDinode := d }, .none)

/-- A completed operation. -/
def step (s : Sys) (op : Op) : Option Sys :=
  if op.allowed s then
    match exec s op with
    | .ok (s, _) => some s
    | .error _ => none
  else none

end Xv6.Fs
