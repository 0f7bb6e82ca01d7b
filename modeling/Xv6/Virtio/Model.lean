import Xv6.Lib.Ring
import Xv6.Lib.Trace

/-!
# `Virtio.Model` — `kernel/virtio_disk.c` and the device it talks to

Any number `N` of processes call `virtio_disk_rw`, on buffers of any type `β`. Driver and device share the descriptor
table and the two rings. What happens under `vdisk_lock` between two places where it is released is one step, except
that the device may come in between the turns of the loop in `virtio_disk_intr`: it is the only other party that
runs then, and nothing else the driver does under the lock reads what the device writes. `sleep` gives up the lock and
marks the process in one step; a process that has been woken goes on when the lock is free.

The device takes the entries of the `avail` ring in order and completes what it has taken in any order. It sees a
request only through the descriptors: `Sys.chain` is what it reads there.
-/

namespace Xv6.Virtio

def NUM : Nat := 8
def BSIZE : Nat := 1024
def SECTOR : Nat := 512

/-- Arithmetic on a `uint16`. -/
def uint16 (n : Nat) : Nat := n % 2 ^ 16

def VRING_DESC_F_NEXT : UInt16 := 1
def VRING_DESC_F_WRITE : UInt16 := 2

/-- The addresses that the driver gives to the device. -/
inductive Addr (β : Type)
  | null
  /-- `&disk.ops[i]` -/
  | ops (i : Nat)
  /-- `b->data` -/
  | data (b : β)
  /-- `&disk.info[i].status` -/
  | status (i : Nat)

/-- `struct virtq_desc` -/
structure Desc (β : Type) where
  addr : Addr β
  len : Nat
  flags : UInt16
  next : Nat

/-- `struct virtio_blk_req`; `write` is `type == VIRTIO_BLK_T_OUT`. -/
structure Op where
  write : Bool
  sector : Nat

/-- A call `virtio_disk_rw(b, write)` for the block `blockno` of the disk. -/
structure Request (β : Type) where
  buf : β
  blockno : Nat
  write : Bool
  deriving DecidableEq

/-- `b->blockno * (BSIZE / 512)` is computed with 32 bits. -/
def Request.sector {β : Type} (r : Request β) : Nat := r.blockno * (BSIZE / SECTOR) % 2 ^ 32

def Request.op {β : Type} (r : Request β) : Op := { write := r.write, sector := r.sector }

/-- Where a process is: not in `virtio_disk_rw`, in its first loop (waiting for descriptors), or in its second loop
    (waiting for the device) with the local variable `idx`. -/
inductive Pc (β : Type)
  | idle
  | alloc (r : Request β) (asleep : Bool)
  | wait (r : Request β) (idx : List Nat) (asleep : Bool)
  deriving DecidableEq

def Pc.req {β : Type} : Pc β → Option (Request β)
  | .idle => none
  | .alloc r _ => some r
  | .wait r _ _ => some r

abbrev Block := Fin BSIZE → UInt8
abbrev Sector := Fin SECTOR → UInt8

structure Sys (N : Nat) (β : Type) where
  -- shared memory
  desc : Nat → Desc β
  availIdx : Nat
  availRing : Nat → Nat
  usedIdx : Nat
  usedRing : Nat → Nat
  status : Nat → UInt8
  ops : Nat → Op
  -- the driver
  free : Nat → Bool
  /-- `disk.used_idx` -/
  seen : Nat
  /-- `disk.info[i].b` -/
  info : Nat → Option β
  /-- `b->disk` -/
  disk : β → Bool
  data : β → Block
  pc : Fin N → Pc β
  /-- `virtio_disk_intr` runs and holds `vdisk_lock` -/
  intr : Bool
  -- the device
  lastAvail : Nat
  taken : List Nat
  sectors : Nat → Sector

inductive Panic
  /-- `free_desc 1` -/
  | freeDesc1
  /-- `free_desc 2` -/
  | freeDesc2
  /-- `virtio_disk_intr status` -/
  | status
  /-- `b` is a null pointer in `virtio_disk_intr` -/
  | nullBuf
  /-- `free_chain` follows more links than there are descriptors -/
  | endless
deriving DecidableEq

variable {N : Nat} {β : Type}

/-- After `virtio_disk_init`: the pages shared with the device are zeroed and all descriptors are free. -/
def init (data : β → Block) (sectors : Nat → Sector) : Sys N β where
  desc := fun _ => ⟨.null, 0, 0, 0⟩
  availIdx := 0
  availRing := fun _ => 0
  usedIdx := 0
  usedRing := fun _ => 0
  status := fun _ => 0
  ops := fun _ => ⟨false, 0⟩
  free := fun _ => true
  seen := 0
  info := fun _ => none
  disk := fun _ => false
  data := data
  pc := fun _ => .idle
  intr := false
  lastAvail := 0
  taken := []
  sectors := sectors

/-! ## `wakeup` -/

/-- `wakeup(&disk.free[0])` -/
def Pc.wakeFree : Pc β → Pc β
  | .alloc r _ => .alloc r false
  | pc => pc

section

variable [DecidableEq β]

/-- `wakeup(b)` -/
def Pc.wakeBuf (b : β) : Pc β → Pc β
  | .wait r idx asleep => .wait r idx (asleep && r.buf ≠ b)
  | pc => pc

/-- `kill` wakes a process wherever it sleeps. -/
def Pc.wake : Pc β → Pc β
  | .alloc r _ => .alloc r false
  | .wait r idx _ => .wait r idx false
  | .idle => .idle

def Sys.goto (s : Sys N β) (p : Fin N) (pc : Pc β) : Sys N β := { s with pc := Function.update s.pc p pc }

/-! ## Descriptors -/

def allocDesc (s : Sys N β) : Option (Sys N β × Nat) :=
  ((List.range NUM).find? s.free).map fun i => ({ s with free := Function.update s.free i false }, i)

def freeDesc (s : Sys N β) (i : Nat) : Except Panic (Sys N β) :=
  if NUM ≤ i then .error .freeDesc1
  else if s.free i then .error .freeDesc2
  else
    .ok { s with
      desc := Function.update s.desc i ⟨.null, 0, 0, 0⟩
      free := Function.update s.free i true
      pc := fun p => (s.pc p).wakeFree }

/-- The loop `while(1)`, with a bound on its turns. -/
def freeChainLoop : Nat → Sys N β → Nat → Except Panic (Sys N β)
  | 0, _, _ => .error .endless
  | turns + 1, s, i => do
      let flag := (s.desc i).flags
      let nxt := (s.desc i).next
      let s ← freeDesc s i
      if flag &&& VRING_DESC_F_NEXT ≠ 0 then freeChainLoop turns s nxt else .ok s

def freeChain (s : Sys N β) (i : Nat) : Except Panic (Sys N β) := freeChainLoop (NUM + 1) s i

/-- The loop of `alloc3_desc` with `n` descriptors to go and `idx` already allocated; `none` is -1. -/
def allocLoop : Nat → Sys N β → List Nat → Except Panic (Sys N β × Option (List Nat))
  | 0, s, idx => .ok (s, some idx)
  | n + 1, s, idx =>
      match allocDesc s with
      | some (s, i) => allocLoop n s (idx ++ [i])
      | none => do
          let s ← idx.foldlM freeDesc s
          .ok (s, none)

def alloc3Desc (s : Sys N β) : Except Panic (Sys N β × Option (List Nat)) := allocLoop 3 s []

/-! ## `virtio_disk_rw` -/

/-- Format the three descriptors, tell the device, and sleep until it has finished. -/
def Sys.post (s : Sys N β) (p : Fin N) (r : Request β) (idx : List Nat) : Sys N β :=
  let i := idx.getD 0 0
  let j := idx.getD 1 0
  let k := idx.getD 2 0
  { s with
    ops := Function.update s.ops i r.op
    desc := Function.update (Function.update (Function.update s.desc
      i ⟨.ops i, 16, VRING_DESC_F_NEXT, j⟩)
      j ⟨.data r.buf, BSIZE, (if r.write then 0 else VRING_DESC_F_WRITE) ||| VRING_DESC_F_NEXT, k⟩)
      k ⟨.status i, 1, VRING_DESC_F_WRITE, 0⟩
    status := Function.update s.status i 0xff
    disk := Function.update s.disk r.buf true
    info := Function.update s.info i (some r.buf)
    availRing := Function.update s.availRing (s.availIdx % NUM) i
    availIdx := uint16 (s.availIdx + 1)
    pc := Function.update s.pc p (.wait r idx true) }

/-- One turn of the first loop, and what follows it. -/
def attempt (s : Sys N β) (p : Fin N) (r : Request β) : Except Panic (Sys N β) := do
  let (s, idx) ← alloc3Desc s
  match idx with
  | none => .ok (s.goto p (.alloc r true))
  | some idx => .ok (s.post p r idx)

/-- One turn of the second loop, and what follows it. -/
def finish (s : Sys N β) (p : Fin N) (r : Request β) (idx : List Nat) : Except Panic (Sys N β) :=
  if s.disk r.buf then .ok (s.goto p (.wait r idx true))
  else do
    let s ← freeChain { s with info := Function.update s.info (idx.getD 0 0) none } (idx.getD 0 0)
    .ok (s.goto p .idle)

/-! ## `virtio_disk_intr` -/

/-- One turn of its loop. -/
def intrTurn (s : Sys N β) : Except Panic (Sys N β) :=
  let id := s.usedRing (s.seen % NUM)
  if s.status id ≠ 0 then .error .status
  else
    match s.info id with
    | none => .error .nullBuf
    | some b =>
        .ok { s with
          disk := Function.update s.disk b false
          pc := fun p => (s.pc p).wakeBuf b
          seen := uint16 (s.seen + 1) }

/-! ## The device -/

/-- What the device reads in the descriptors from `h` on: the command, the buffer, and where the status goes. -/
def Sys.chain (s : Sys N β) (h : Nat) : Option (Op × β × Nat) :=
  let d₀ := s.desc h
  let d₁ := s.desc d₀.next
  let d₂ := s.desc d₁.next
  match d₀.addr, d₁.addr, d₂.addr with
  | .ops o, .data b, .status t =>
      if d₀.flags = VRING_DESC_F_NEXT ∧
          d₁.flags = (if (s.ops o).write then 0 else VRING_DESC_F_WRITE) ||| VRING_DESC_F_NEXT ∧ d₁.len = BSIZE ∧
          d₂.flags = VRING_DESC_F_WRITE then
        some (s.ops o, b, t)
      else none
  | _, _, _ => none

/-- The block that begins at a sector. -/
def readBlock (sectors : Nat → Sector) (sector : Nat) : Block := fun x =>
  sectors (sector + x / SECTOR) ⟨x % SECTOR, Nat.mod_lt _ (by decide)⟩

def writeBlock (sectors : Nat → Sector) (sector : Nat) (d : Block) : Nat → Sector := fun n =>
  if h : sector ≤ n ∧ n < sector + BSIZE / SECTOR then
    fun x => d ⟨(n - sector) * SECTOR + x, by
      have hx := x.isLt
      have hn : n - sector < BSIZE / SECTOR := by omega
      simp only [BSIZE, SECTOR] at *
      omega⟩
  else sectors n

/-- Transfer the data of a command. -/
def Sys.transfer (s : Sys N β) (op : Op) (b : β) : Sys N β :=
  if op.write then { s with sectors := writeBlock s.sectors op.sector (s.data b) }
  else { s with data := Function.update s.data b (readBlock s.sectors op.sector) }

/-- The device completes what it has taken, and says so in the `used` ring. -/
def Sys.complete (s : Sys N β) (h : Nat) (op : Op) (b : β) (t : Nat) : Sys N β :=
  { s.transfer op b with
    status := Function.update s.status t 0
    usedRing := Function.update s.usedRing (s.usedIdx % NUM) h
    usedIdx := uint16 (s.usedIdx + 1)
    taken := s.taken.erase h }

/-! ## The machine -/

inductive Act (N : Nat) (β : Type)
  /-- `virtio_disk_rw` is called -/
  | call (p : Fin N) (r : Request β)
  /-- a process that waits for descriptors has been woken and has the lock -/
  | retry (p : Fin N)
  /-- a process that waits for the device has been woken and has the lock -/
  | resume (p : Fin N)
  | kill (p : Fin N)
  /-- the holder of an idle buffer changes its data -/
  | store (b : β) (d : Block)
  | intr
  | intrTurn
  | intrEnd
  | take
  | complete (h : Nat)

/-- A process is in `virtio_disk_rw` with the buffer. -/
def Sys.uses (s : Sys N β) (b : β) : Bool := (List.finRange N).any fun p => (s.pc p).req.any fun r => r.buf = b

/-- One step, or `none` if it is not possible. A buffer is locked by the process that passes it to
    `virtio_disk_rw`, so no other process is in `virtio_disk_rw` with it. -/
def step (s : Sys N β) : Act N β → Option (Except Panic (Sys N β))
  | .call p r =>
      match s.pc p with
      | .idle => if s.intr ∨ s.uses r.buf then none else some (attempt s p r)
      | _ => none
  | .retry p =>
      match s.pc p with
      | .alloc r false => if s.intr then none else some (attempt s p r)
      | _ => none
  | .resume p =>
      match s.pc p with
      | .wait r idx false => if s.intr then none else some (finish s p r idx)
      | _ => none
  | .kill p => some (.ok (s.goto p (s.pc p).wake))
  | .store b d => if s.uses b then none else some (.ok { s with data := Function.update s.data b d })
  | .intr => if s.intr then none else some (.ok { s with intr := true })
  | .intrTurn => if s.intr ∧ s.seen ≠ s.usedIdx then some (intrTurn s) else none
  | .intrEnd => if s.intr ∧ s.seen = s.usedIdx then some (.ok { s with intr := false }) else none
  | .take =>
      if s.lastAvail = s.availIdx then none
      else
        some (.ok { s with
          taken := s.availRing (s.lastAvail % NUM) :: s.taken
          lastAvail := uint16 (s.lastAvail + 1) })
  | .complete h => if h ∈ s.taken then (s.chain h).map fun c => .ok (s.complete h c.1 c.2.1 c.2.2) else none

/-- The machine: a panic ends it. -/
def next (s : Sys N β) (a : Act N β) : Option (Sys N β) := (step s a).bind Except.toOption

end

end Xv6.Virtio
