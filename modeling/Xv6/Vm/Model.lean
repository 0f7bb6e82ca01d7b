import Xv6.Lib.Bytes
import Xv6.Vm.Riscv

/-!
# `Vm.Model` — `kernel/kalloc.c`, and the page tables and copies of `kernel/vm.c`

Physical memory is an array of pages, a page an array of bytes; a page table is raw memory, read and written in
words of eight bytes. `kmem.freelist` is the list of the pages on it. A function returns a value or ends in a
panic; a system call runs from start to end, so the locks are left out. Where other CPUs hold pages for a
moment, `kalloc` may find the list empty at any call: `deny` says at which ones it does.

Pointers to page-table pages are page numbers, and a pointer to an entry is a page with an index. A loop that
steps through addresses is a recursion over its turns: no address wraps in it, because `walk` panics first.
-/

namespace Xv6.Vm

/-- Where the linker has put the kernel. -/
structure Image where
  /-- `end` -/
  kend : Nat
  /-- the page of `trampoline` -/
  trampoline : Nat
  kend_ge : KERNBASE ≤ kend
  kend_lt : kend < PHYSTOP
  trampoline_ge : KERNBASE ≤ trampoline * PGSIZE
  trampoline_lt : (trampoline + 1) * PGSIZE ≤ kend

structure Kmem where
  image : Image
  page : Nat → Nat → UInt8
  freelist : List Nat
  /-- `ref_count` by page -/
  ref : Nat → UInt32
  /-- The `k`-th call of `kalloc` from now on finds no page. -/
  deny : Nat → Bool

inductive Panic
  /-- `kfree` -/
  | kfree
  /-- `walk` -/
  | walk
  /-- `mappages: size` -/
  | mappagesSize
  /-- `uvmunmap: not aligned` -/
  | unmapNotAligned
  /-- `uvmunmap: walk` -/
  | unmapWalk
  /-- `uvmunmap: not mapped` -/
  | unmapNotMapped
  /-- `uvmunmap: not a leaf` -/
  | unmapNotLeaf
  /-- `inituvm: more than a page` -/
  | inituvm
  /-- `freewalk: leaf` -/
  | freewalkLeaf
  /-- `freewalk` recurses deeper than the three levels of a page table -/
  | freewalkDepth
  /-- `uvmcopy: pte should exist` -/
  | uvmcopyPte
  /-- `uvmcopy: page not present` -/
  | uvmcopyPage
  /-- `uvmclear` -/
  | uvmclear
  /-- `loadseg: address should exist` -/
  | loadseg
  /-- `kvmmap` -/
  | kvmmap
  /-- `kalloc`, for a kernel stack -/
  | mapstacks
  /-- a null pointer is used where the source does not test for it -/
  | nullPointer
deriving DecidableEq

/-! ## Memory -/

/-- `memset` of a whole page. -/
def Kmem.fill (m : Kmem) (pg : Nat) (c : UInt8) : Kmem := { m with page := Function.update m.page pg fun _ => c }

/-- `memmove` of `n` bytes from an address. -/
def Kmem.read (m : Kmem) (pa : UInt64) (n : Nat) : List UInt8 :=
  (List.range n).map fun i => m.page (pa.toNat / PGSIZE) (pa.toNat % PGSIZE + i)

/-- `pagetable[i]` -/
def Kmem.pte (m : Kmem) (pagetable : Nat) (i : Fin 512) : UInt64 :=
  UInt64.ofNat (Bytes.load (m.page pagetable) (8 * i) 8)

def Kmem.setPte (m : Kmem) (pagetable : Nat) (i : Fin 512) (pte : UInt64) : Kmem :=
  { m with page := Function.update m.page pagetable (Bytes.store (m.page pagetable) (8 * i) 8 pte.toNat) }

/-! ## `kalloc.c` -/

/-- The pointer to the first free page that `kfree` stores in the page it frees. -/
def Kmem.head (m : Kmem) : Nat :=
  match m.freelist with
  | [] => 0
  | pg :: _ => pg * PGSIZE

def kfree (m : Kmem) (pa : UInt64) : Except Panic Kmem :=
  if pa.toNat % PGSIZE ≠ 0 ∨ pa.toNat < m.image.kend ∨ PHYSTOP ≤ pa.toNat then .error .kfree
  else
    let pg := pa.toNat / PGSIZE
    let m := { m with ref := Function.update m.ref pg (m.ref pg - 1) }
    if m.ref pg ≠ 0 then .ok m
    else
      .ok { m with
        page := Function.update m.page pg (Bytes.store (fun _ => 1) 0 8 m.head)
        freelist := pg :: m.freelist }

def kalloc (m : Kmem) : Kmem × Option Nat :=
  let deny := m.deny 0
  let m := { m with deny := fun k => m.deny (k + 1) }
  match m.freelist with
  | [] => (m, none)
  | pg :: rest =>
      if deny then (m, none)
      else ({ m with freelist := rest, ref := Function.update m.ref pg 1 }.fill pg 5, some pg)

/-! ## Page tables -/

/-- The loop of `walk`. -/
def walkLevel (alloc : Bool) (va : UInt64) : Nat → Kmem → Nat → Kmem × Option Nat
  | 0, m, pagetable => (m, some pagetable)
  | level + 1, m, pagetable =>
      let i := index (level + 1) va
      let pte := m.pte pagetable i
      if flag pte PTE_V then walkLevel alloc va level m (ppage pte)
      else if !alloc then (m, none)
      else
        match kalloc m with
        | (m, none) => (m, none)
        | (m, some pg) =>
            walkLevel alloc va level ((m.fill pg 0).setPte pagetable i (PA2PTE (addr pg) ||| PTE_V)) pg

def walk (m : Kmem) (pagetable : Nat) (va : UInt64) (alloc : Bool) : Except Panic (Kmem × Option (Nat × Fin 512)) :=
  if MAXVA ≤ va then .error .walk
  else
    let x := walkLevel alloc va 2 m pagetable
    .ok (x.1, x.2.map fun t => (t, index 0 va))

/-- The physical address of a user page, or 0. -/
def walkaddr (m : Kmem) (pagetable : Nat) (va : UInt64) : UInt64 :=
  if MAXVA ≤ va then 0
  else
    match walk m pagetable va false with
    | .ok (_, some (t, i)) =>
        let pte := m.pte t i
        if !flag pte PTE_V then 0
        else if !flag pte PTE_U then 0
        else PTE2PA pte
    | _ => 0

def mappagesLoop (pagetable : Nat) (perm : UInt64) : Nat → Kmem → UInt64 → UInt64 → Except Panic (Kmem × Bool)
  | k, m, a, pa => do
      let (m, pte) ← walk m pagetable a true
      match pte with
      | none => .ok (m, false)
      | some (t, i) =>
          let m := m.setPte t i (PA2PTE pa ||| perm ||| PTE_V)
          match k with
          | 0 => .ok (m, true)
          | k + 1 => mappagesLoop pagetable perm k m (a + pgsize) (pa + pgsize)

/-- Whether it returns 0. The loop ends when `a` equals `last`. -/
def mappages (m : Kmem) (pagetable : Nat) (va size pa perm : UInt64) : Except Panic (Kmem × Bool) :=
  if size = 0 then .error .mappagesSize
  else
    let a := PGROUNDDOWN va
    let last := PGROUNDDOWN (va + size - 1)
    mappagesLoop pagetable perm ((last - a).toNat / PGSIZE) m a pa

/-- The number of turns of a loop `for(a = first; a < last; a += PGSIZE)`. -/
def turns (first last : UInt64) : Nat := (last.toNat - first.toNat + 4095) / PGSIZE

def uvmunmapLoop (pagetable : Nat) (doFree : Bool) : Nat → Kmem → UInt64 → Except Panic Kmem
  | 0, m, _ => .ok m
  | k + 1, m, a => do
      let (m, pte) ← walk m pagetable a false
      match pte with
      | none => .error .unmapWalk
      | some (t, i) =>
          let pte := m.pte t i
          if !flag pte PTE_V then .error .unmapNotMapped
          else if PTE_FLAGS pte = PTE_V then .error .unmapNotLeaf
          else
            let m ← if doFree then kfree m (PTE2PA pte) else .ok m
            uvmunmapLoop pagetable doFree k (m.setPte t i 0) (a + pgsize)

def uvmunmap (m : Kmem) (pagetable : Nat) (va npages : UInt64) (doFree : Bool) : Except Panic Kmem :=
  if va % pgsize ≠ 0 then .error .unmapNotAligned
  else uvmunmapLoop pagetable doFree (turns va (va + npages * pgsize)) m va

/-! ## Copies between the kernel and a user -/

def copyinLoop (m : Kmem) (pagetable : Nat) : Nat → UInt64 → Nat → List UInt8 × Bool
  | 0, _, _ => ([], true)
  | fuel + 1, srcva, len =>
      if len = 0 then ([], true)
      else
        let va0 := PGROUNDDOWN srcva
        let pa0 := walkaddr m pagetable va0
        if pa0 = 0 then ([], false)
        else
          let n := min (pgsize - (srcva - va0)).toNat len
          let rest := copyinLoop m pagetable fuel (va0 + pgsize) (len - n)
          (m.read (pa0 + (srcva - va0)) n ++ rest.1, rest.2)

def copyin (m : Kmem) (pagetable : Nat) (srcva : UInt64) (len : Nat) : List UInt8 × Bool :=
  copyinLoop m pagetable len srcva len

/-- The inner loop of `copyinstr` over the bytes of one page: the bytes stored, and whether the last one is the
    NUL. -/
def copyChars : List UInt8 → List UInt8 × Bool
  | [] => ([], false)
  | c :: cs =>
      if c = 0 then ([0], true)
      else
        let rest := copyChars cs
        (c :: rest.1, rest.2)

def copyinstrLoop (m : Kmem) (pagetable : Nat) : Nat → UInt64 → Nat → List UInt8 × Bool
  | 0, _, _ => ([], false)
  | fuel + 1, srcva, max =>
      if max = 0 then ([], false)
      else
        let va0 := PGROUNDDOWN srcva
        let pa0 := walkaddr m pagetable va0
        if pa0 = 0 then ([], false)
        else
          let n := min (pgsize - (srcva - va0)).toNat max
          let x := copyChars (m.read (pa0 + (srcva - va0)) n)
          if x.2 then x
          else
            let rest := copyinstrLoop m pagetable fuel (va0 + pgsize) (max - n)
            (x.1 ++ rest.1, rest.2)

/-- The bytes stored at `dst`, and whether it returns 0. -/
def copyinstr (m : Kmem) (pagetable : Nat) (srcva : UInt64) (max : Nat) : List UInt8 × Bool :=
  copyinstrLoop m pagetable max srcva max

end Xv6.Vm
