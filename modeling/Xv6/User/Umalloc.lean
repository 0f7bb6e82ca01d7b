import Mathlib

/-!
# `Umalloc` — `user/umalloc.c`

The allocator works on headers of 16 bytes. `hdr a` is the header at address `a`; addresses are bytes, sizes are in
header units and are 32-bit numbers. The process below it is a `Kernel`: what `sbrk` answers, and whether a header can
be written at an address. A loop that does not end is seen as running out of fuel.
-/

namespace Xv6.User

/-- `sizeof(Header)` -/
def HEADER : Nat := 16

/-- `union header` -/
structure Header where
  ptr : Nat
  size : Nat
  deriving DecidableEq

/-- What the process below sees: `sbrk s n` with `n` as it is computed by the caller (the conversion to `int` is part of
    the call), and whether the header at an address can be written. -/
structure Kernel (σ : Type) where
  sbrk : σ → Nat → σ × Option Nat
  writable : σ → Nat → Bool

/-- The memory of the allocator: its headers, `freep` (0 before the first call) and the process. -/
structure Heap (σ : Type) where
  hdr : Nat → Header
  freep : Nat
  proc : σ

/-- Why a call does not return: it is still in a loop, or it was killed at a store to a header that is not mapped. -/
inductive Stop (σ : Type) where
  | fuel
  | fault (h : Heap σ)

variable {σ : Type}

/-! ## `free` -/

/-- The loop of `free`: the block after which `bp` goes, or where the list wraps. -/
def findPlace (hdr : Nat → Header) (bp : Nat) : Nat → Nat → Option Nat
  | 0, _ => none
  | fuel + 1, p =>
      if p < bp ∧ bp < (hdr p).ptr then some p
      else if (hdr p).ptr ≤ p ∧ (p < bp ∨ bp < (hdr p).ptr) then some p
      else findPlace hdr bp fuel (hdr p).ptr

/-- Join the block at `a` with the one at `next` if they touch, or link it to that one. -/
def link (hdr : Nat → Header) (a next : Nat) : Nat → Header :=
  if a + HEADER * (hdr a).size = next then
    Function.update hdr a ⟨(hdr next).ptr, ((hdr a).size + (hdr next).size) % 2 ^ 32⟩
  else Function.update hdr a { hdr a with ptr := next }

/-- `free(ap)` -/
def free (fuel : Nat) (h : Heap σ) (ap : Nat) : Option (Heap σ) :=
  let bp := ap - HEADER
  match findPlace h.hdr bp fuel h.freep with
  | none => none
  | some p =>
      -- `bp` with the block behind it, then `p` with `bp`
      let hdr := link h.hdr bp (h.hdr p).ptr
      some { h with hdr := link hdr p bp, freep := p }

/-! ## `malloc` -/

/-- `morecore(nu)`: `none` for 0, or the new `freep`. -/
def morecore (K : Kernel σ) (fuel : Nat) (h : Heap σ) (nu : Nat) : Except (Stop σ) (Heap σ × Option Nat) :=
  let nu := if nu < 4096 then 4096 else nu
  match K.sbrk h.proc (nu * HEADER) with
  | (proc, none) => .ok ({ h with proc := proc }, none)
  | (proc, some hp) =>
      if K.writable proc hp then
        let hdr := Function.update h.hdr hp { h.hdr hp with size := nu }
        match free fuel { h with hdr := hdr, proc := proc } (hp + HEADER) with
        | none => .error .fuel
        | some h => .ok (h, some h.freep)
      else .error (.fault { h with proc := proc })

/-- Take `nunits` from block `p`: all of it, or its tail end. -/
def carve (h : Heap σ) (nunits prevp p : Nat) : Heap σ × Nat :=
  if (h.hdr p).size = nunits then
    ({ h with hdr := Function.update h.hdr prevp { h.hdr prevp with ptr := (h.hdr p).ptr }, freep := prevp }, p + HEADER)
  else
    let rest := (h.hdr p).size - nunits
    let q := p + HEADER * rest
    let hdr := Function.update h.hdr p { h.hdr p with size := rest }
    ({ h with hdr := Function.update hdr q { hdr q with size := nunits }, freep := prevp }, q + HEADER)

/-- The loop of `malloc`. -/
def mallocLoop (K : Kernel σ) (nunits : Nat) : Nat → Heap σ → Nat → Nat → Except (Stop σ) (Heap σ × Nat)
  | 0, _, _, _ => .error .fuel
  | fuel + 1, h, prevp, p =>
      if nunits ≤ (h.hdr p).size then .ok (carve h nunits prevp p)
      else if p = h.freep then
        match morecore K fuel h nunits with
        | .error e => .error e
        | .ok (h, none) => .ok (h, 0)
        | .ok (h, some p) => mallocLoop K nunits fuel h p (h.hdr p).ptr
      else mallocLoop K nunits fuel h p (h.hdr p).ptr

/-- The units of a request: its bytes rounded up, and one for the header. -/
def unitsOf (nbytes : UInt32) : Nat := (nbytes.toNat + HEADER - 1) / HEADER + 1

/-- The first call makes a list of `base` alone. -/
def initBase (base : Nat) (h : Heap σ) : Heap σ :=
  if h.freep = 0 then { h with hdr := Function.update h.hdr base ⟨base, 0⟩, freep := base } else h

/-- `malloc(nbytes)`: the heap after it and the pointer, 0 if there is no memory. -/
def malloc (K : Kernel σ) (base fuel : Nat) (h : Heap σ) (nbytes : UInt32) : Except (Stop σ) (Heap σ × Nat) :=
  let h := initBase base h
  mallocLoop K (unitsOf nbytes) fuel h h.freep (h.hdr h.freep).ptr

end Xv6.User
