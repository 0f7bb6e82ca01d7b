import Xv6.Lib.Trace
import Xv6.Vm.Model

/-!
# `Vm.RefTable` — where `kalloc.c` puts its reference counts

`kinit` lays the array `ref_count` from the address `end` on and frees the pages after it. Here memory is one array of
bytes: the counts, the free pages and the pointers that link them all live in it, at the addresses the source computes
on `uint64`. The size of the array comes from two roundings of `PHYSTOP - end`, the indices are relative to
`PGROUNDUP(end)`, and the pages start at `PGROUNDUP(end + offset)`.

**`ref_count_layout`**: wherever the linker puts `end`, the elements of all pages lie below the first page freed and
are different for different pages; and however the allocator is used afterwards, it hands out only these pages.
-/

namespace Xv6.Kalloc

open Vm

structure State where
  mem : Nat → UInt8
  /-- `kmem.freelist`; 0 is the null pointer -/
  freelist : UInt64

variable {kend p q r : UInt64} {s s' : State}

/-! ## The table -/

/-- `PHYSTOP` as a `uint64`. -/
def physTop : UInt64 := UInt64.ofNat PHYSTOP

/-- `INDEX(pa)`: the difference of two pointers is signed, and so is the shift. -/
def INDEX (kend pa : UInt64) : Int64 := (pa - PGROUNDUP kend).toInt64 >>> 12

/-- The address of `kmem.ref_count[INDEX(pa)]`. -/
def refAt (kend pa : UInt64) : UInt64 := kend + 4 * (INDEX kend pa).toUInt64

def getKmemRef (kend : UInt64) (s : State) (pa : UInt64) : UInt32 :=
  UInt32.ofNat (Bytes.load s.mem (refAt kend pa).toNat 4)

/-- An assignment to `kmem.ref_count[INDEX(pa)]`. -/
def setRef (kend : UInt64) (s : State) (pa : UInt64) (v : UInt32) : State :=
  { s with mem := Bytes.store s.mem (refAt kend pa).toNat 4 v.toNat }

def addKmemRef (kend : UInt64) (s : State) (pa : UInt64) : State := setRef kend s pa (getKmemRef kend s pa + 1)

/-! ## Pages -/

/-- `memset(pa, c, PGSIZE)` -/
def memset (s : State) (pa : UInt64) (c : UInt8) : State :=
  { s with mem := fun a => if pa.toNat ≤ a ∧ a < pa.toNat + PGSIZE then c else s.mem a }

/-- `r->next` -/
def next (s : State) (r : UInt64) : UInt64 := UInt64.ofNat (Bytes.load s.mem r.toNat 8)

/-- `r->next = kmem.freelist; kmem.freelist = r;` -/
def push (s : State) (r : UInt64) : State :=
  { mem := Bytes.store s.mem r.toNat 8 s.freelist.toNat, freelist := r }

def kfree (kend : UInt64) (s : State) (pa : UInt64) : Except Panic State :=
  if pa.toNat % PGSIZE ≠ 0 ∨ pa < kend ∨ physTop ≤ pa then .error .kfree
  else
    let s := setRef kend s pa (getKmemRef kend s pa - 1)
    if getKmemRef kend s pa ≠ 0 then .ok s
    else .ok (push (memset s pa 1) pa)

/-- The page, or 0. -/
def kalloc (kend : UInt64) (s : State) : State × UInt64 :=
  let r := s.freelist
  if r ≠ 0 then
    let s := { s with freelist := next s r }
    (memset (setRef kend s r 1) r 5, r)
  else (s, r)

/-! ## `kinit` -/

/-- The pages `p` of the loop of `freerange`, in order, for at most `n` turns. -/
def pages (paEnd : UInt64) : Nat → UInt64 → List UInt64
  | 0, _ => []
  | n + 1, p => if p + pgsize ≤ paEnd then p :: pages paEnd n (p + pgsize) else []

/-- The loop of `freerange`, for at most `n` turns. -/
def freerangeLoop (kend paEnd : UInt64) : Nat → UInt64 → State → Except Panic State
  | 0, _, s => .ok s
  | n + 1, p, s =>
      if p + pgsize ≤ paEnd then do
        let s ← kfree kend (setRef kend s p 1) p
        freerangeLoop kend paEnd n (p + pgsize) s
      else .ok s

/-- More turns than pages fit into memory. -/
def maxTurns : Nat := PHYSTOP / PGSIZE

def freerange (kend paStart paEnd : UInt64) (s : State) : Except Panic State :=
  freerangeLoop kend paEnd maxTurns (PGROUNDUP paStart) s

/-- `end + offset` -/
def paStart (kend : UInt64) : UInt64 :=
  let physicalPages := ((physTop - kend) >>> 12) + 1
  let physicalPages := ((physicalPages * 4) >>> 12) + 1
  kend + (physicalPages <<< 12)

/-- Memory holds anything before. -/
def kinit (kend : UInt64) (mem : Nat → UInt8) : Except Panic State :=
  freerange kend (paStart kend) physTop { mem := mem, freelist := 0 }

/-- The pages that `freerange` frees in `kinit`. -/
def freed (kend : UInt64) : List UInt64 := pages physTop maxTurns (PGROUNDUP (paStart kend))

/-! ## Calls -/

inductive Call
  | kalloc
  | kfree (pa : UInt64)
  | addKmemRef (pa : UInt64)
  /-- a holder of the page writes the byte `o` of it -/
  | write (pa : UInt64) (o : Nat) (c : UInt8)

/-- A caller uses only pages that it holds a reference to. -/
def held (kend : UInt64) (s : State) (pa : UInt64) : Bool := (freed kend).contains pa && getKmemRef kend s pa != 0

def step (kend : UInt64) (s : State) : Call → Option State
  | .kalloc => some (kalloc kend s).1
  | .kfree pa => if held kend s pa then (kfree kend s pa).toOption else none
  | .addKmemRef pa => if held kend s pa then some (addKmemRef kend s pa) else none
  | .write pa o c =>
      if held kend s pa && o < PGSIZE then some { s with mem := Function.update s.mem (pa.toNat + o) c } else none

/-! ## Arithmetic -/

theorem toNat_physTop : physTop.toNat = 0x88000000 := rfl

theorem toNat_shiftRight_12 (a : UInt64) : (a >>> 12).toNat = a.toNat / 4096 := by
  rw [UInt64.toNat_shiftRight]
  exact Nat.shiftRight_eq_div_pow _ 12

theorem toInt_shiftRight_12 {a : UInt64} (h : a.toNat < 2 ^ 63) : (a.toInt64 >>> 12).toInt = (a.toNat / 4096 : Nat) := by
  have hbits : a.toBitVec.toInt = a.toNat := BitVec.toInt_eq_toNat_of_lt (show 2 * a.toNat < 2 ^ 64 by omega)
  have hshift : (a.toInt64 >>> 12).toBitVec = a.toBitVec.sshiftRight 12 := by
    rw [Int64.toBitVec_shiftRight, UInt64.toBitVec_toInt64]
    rfl
  rw [← Int64.toInt_toBitVec, hshift, BitVec.toInt_sshiftRight, hbits]
  exact Int.shiftRight_eq_div_pow _ 12

theorem toNat_add_pgsize {p : UInt64} (h : p.toNat < 2 ^ 63) : (p + pgsize).toNat = p.toNat + 4096 := by
  rw [UInt64.toNat_add, toNat_pgsize, Nat.mod_eq_of_lt (by omega)]

/-- The loop of `freerange` visits every page from `p` on that ends before `paEnd`. -/
theorem mem_pages {paEnd : UInt64} (hend : paEnd.toNat < 2 ^ 62) (n : Nat) (hp : p.toNat < 2 ^ 63)
    (halign : p.toNat % 4096 = 0) (hn : paEnd.toNat < p.toNat + (n + 1) * 4096) :
    q ∈ pages paEnd n p ↔ q.toNat % 4096 = 0 ∧ p.toNat ≤ q.toNat ∧ q.toNat + 4096 ≤ paEnd.toNat := by
  induction n generalizing p with
  | zero =>
      rw [pages]
      constructor
      · intro h
        exact absurd h List.not_mem_nil
      · rintro ⟨_, _, _⟩
        omega
  | succ n ih =>
      have hnext := toNat_add_pgsize hp
      rw [pages]
      split
      · rename_i hle
        rw [UInt64.le_iff_toNat_le, hnext] at hle
        rw [List.mem_cons, ih (by omega) (by omega) (by omega), hnext, ← UInt64.toNat_inj]
        omega
      · rename_i hle
        rw [UInt64.le_iff_toNat_le, hnext] at hle
        constructor
        · intro h
          exact absurd h List.not_mem_nil
        · rintro ⟨_, _, _⟩
          omega

section Layout

variable (hlo : KERNBASE ≤ kend.toNat) (hhi : kend.toNat < PHYSTOP)
include hlo hhi

theorem kend_bounds : 0x80000000 ≤ kend.toNat ∧ kend.toNat < 0x88000000 := ⟨hlo, hhi⟩

theorem toNat_base : (PGROUNDUP kend).toNat = (kend.toNat + 4095) / 4096 * 4096 := by
  have := kend_bounds hlo hhi
  exact toNat_PGROUNDUP (by omega)

theorem toNat_paStart :
    (paStart kend).toNat = kend.toNat + (((0x88000000 - kend.toNat) / 4096 + 1) * 4 / 4096 + 1) * 4096 := by
  obtain ⟨hge, hlt⟩ := kend_bounds hlo hhi
  have hsub : (physTop - kend).toNat = 0x88000000 - kend.toNat := by
    rw [UInt64.toNat_sub_of_le _ _ (UInt64.le_iff_toNat_le.mpr hlt.le), toNat_physTop]
  have hone : (((physTop - kend) >>> 12) + 1).toNat = (0x88000000 - kend.toNat) / 4096 + 1 := by
    rw [UInt64.toNat_add, toNat_shiftRight_12, hsub, show (1 : UInt64).toNat = 1 from rfl, Nat.mod_eq_of_lt (by omega)]
  have htwo : (((((((physTop - kend) >>> 12) + 1) * 4) >>> 12) + 1 : UInt64)).toNat =
      ((0x88000000 - kend.toNat) / 4096 + 1) * 4 / 4096 + 1 := by
    rw [UInt64.toNat_add, toNat_shiftRight_12, UInt64.toNat_mul, hone, show (4 : UInt64).toNat = 4 from rfl,
      show (1 : UInt64).toNat = 1 from rfl, Nat.mod_eq_of_lt (by omega), Nat.mod_eq_of_lt (by omega)]
  have hshift : (((((((physTop - kend) >>> 12) + 1) * 4) >>> 12) + 1 : UInt64) <<< 12).toNat =
      (((0x88000000 - kend.toNat) / 4096 + 1) * 4 / 4096 + 1) * 4096 := by
    rw [UInt64.toNat_shiftLeft, htwo, show (12 : UInt64).toNat % 64 = 12 from rfl, Nat.shiftLeft_eq]
    exact Nat.mod_eq_of_lt (by omega)
  rw [paStart, UInt64.toNat_add, hshift, Nat.mod_eq_of_lt (by omega)]

/-- **The pages freed** are those between the table and the end of memory. -/
theorem mem_freed : p ∈ freed kend ↔
    p.toNat % 4096 = 0 ∧ (paStart kend).toNat ≤ p.toNat ∧ p.toNat + 4096 ≤ 0x88000000 := by
  have hstart := toNat_paStart hlo hhi
  obtain ⟨hge, hlt⟩ := kend_bounds hlo hhi
  have hround : (PGROUNDUP (paStart kend)).toNat = ((paStart kend).toNat + 4095) / 4096 * 4096 := toNat_PGROUNDUP (by omega)
  have hturns : maxTurns = 0x88000 := rfl
  rw [freed, mem_pages (by decide) maxTurns (by omega) (by omega) (by rw [toNat_physTop, hturns]; omega), hround, toNat_physTop]
  omega

/-- The address of a count, for the pages above the table. -/
theorem index_of_freed (hp : p ∈ freed kend) :
    (INDEX kend p).toInt = ((p.toNat - (kend.toNat + 4095) / 4096 * 4096) / 4096 : Nat) ∧
      (refAt kend p).toNat = kend.toNat + 4 * ((p.toNat - (kend.toNat + 4095) / 4096 * 4096) / 4096) := by
  obtain ⟨-, hge, htop⟩ := (mem_freed hlo hhi).mp hp
  have hstart := toNat_paStart hlo hhi
  obtain ⟨hlow, hlt⟩ := kend_bounds hlo hhi
  have hbase := toNat_base hlo hhi
  have hsub : (p - PGROUNDUP kend).toNat = p.toNat - (kend.toNat + 4095) / 4096 * 4096 := by
    rw [UInt64.toNat_sub_of_le _ _ (UInt64.le_iff_toNat_le.mpr (by omega)), hbase]
  have hindex : (INDEX kend p).toInt = ((p.toNat - (kend.toNat + 4095) / 4096 * 4096) / 4096 : Nat) := by
    rw [INDEX, toInt_shiftRight_12 (by omega), hsub]
  have hnat : (INDEX kend p).toUInt64.toNat = (p.toNat - (kend.toNat + 4095) / 4096 * 4096) / 4096 := by
    have hnonneg : 0 ≤ INDEX kend p := by
      rw [Int64.le_iff_toInt_le, hindex]
      exact Int.natCast_nonneg _
    rw [Int64.toNat_toUInt64_of_le hnonneg, Int64.toNatClampNeg, hindex, Int.toNat_natCast]
  refine ⟨hindex, ?_⟩
  rw [refAt, UInt64.toNat_add, UInt64.toNat_mul, hnat, show (4 : UInt64).toNat = 4 from rfl, Nat.mod_eq_of_lt (by omega),
    Nat.mod_eq_of_lt (by omega)]

/-- The element of a page starts in the table and ends before every page that is freed. -/
theorem refAt_bounds (hp : p ∈ freed kend) (hq : q ∈ freed kend) :
    kend.toNat ≤ (refAt kend p).toNat ∧ (refAt kend p).toNat + 4 ≤ q.toNat := by
  obtain ⟨-, hge, htop⟩ := (mem_freed hlo hhi).mp hp
  obtain ⟨-, hge', htop'⟩ := (mem_freed hlo hhi).mp hq
  rw [toNat_paStart hlo hhi] at hge hge'
  obtain ⟨hlow, hlt⟩ := kend_bounds hlo hhi
  rw [(index_of_freed hlo hhi hp).2]
  omega

theorem INDEX_nonneg (hp : p ∈ freed kend) : 0 ≤ (INDEX kend p).toInt := by
  rw [(index_of_freed hlo hhi hp).1]
  exact Int.natCast_nonneg _

theorem INDEX_inj (hp : p ∈ freed kend) (hq : q ∈ freed kend) (h : INDEX kend p = INDEX kend q) : p = q := by
  have hint := congrArg Int64.toInt h
  rw [(index_of_freed hlo hhi hp).1, (index_of_freed hlo hhi hq).1] at hint
  obtain ⟨halign, hge, -⟩ := (mem_freed hlo hhi).mp hp
  obtain ⟨halign', hge', -⟩ := (mem_freed hlo hhi).mp hq
  rw [toNat_paStart hlo hhi] at hge hge'
  apply UInt64.toNat_inj.mp
  omega

/-- Elements of different pages do not overlap. -/
theorem refAt_disjoint (hp : p ∈ freed kend) (hq : q ∈ freed kend) (hne : p ≠ q) :
    (refAt kend p).toNat + 4 ≤ (refAt kend q).toNat ∨ (refAt kend q).toNat + 4 ≤ (refAt kend p).toNat := by
  have hindex : (p.toNat - (kend.toNat + 4095) / 4096 * 4096) / 4096 ≠ (q.toNat - (kend.toNat + 4095) / 4096 * 4096) / 4096 := by
    intro heq
    apply hne
    apply INDEX_inj hlo hhi hp hq
    rw [← Int64.toInt_inj, (index_of_freed hlo hhi hp).1, (index_of_freed hlo hhi hq).1, heq]
  rw [(index_of_freed hlo hhi hp).2, (index_of_freed hlo hhi hq).2]
  omega

/-- Pages are disjoint. -/
theorem freed_disjoint (hp : p ∈ freed kend) (hq : q ∈ freed kend) (hne : p ≠ q) :
    p.toNat + 4096 ≤ q.toNat ∨ q.toNat + 4096 ≤ p.toNat := by
  obtain ⟨halign, -, -⟩ := (mem_freed hlo hhi).mp hp
  obtain ⟨halign', -, -⟩ := (mem_freed hlo hhi).mp hq
  have hnat : p.toNat ≠ q.toNat := fun heq => hne (UInt64.toNat_inj.mp heq)
  omega

theorem ne_zero_of_freed (hp : p ∈ freed kend) : p ≠ 0 := by
  rintro rfl
  obtain ⟨-, hge, -⟩ := (mem_freed hlo hhi).mp hp
  rw [toNat_paStart hlo hhi] at hge
  have := (kend_bounds hlo hhi).1
  have hzero : (0 : UInt64).toNat = 0 := rfl
  omega

/-- A page that is freed passes the check of `kfree`. -/
theorem not_kfree_panic (hp : p ∈ freed kend) : ¬(p.toNat % PGSIZE ≠ 0 ∨ p < kend ∨ physTop ≤ p) := by
  obtain ⟨halign, hge, htop⟩ := (mem_freed hlo hhi).mp hp
  rw [toNat_paStart hlo hhi] at hge
  rw [UInt64.lt_iff_toNat_lt, UInt64.le_iff_toNat_le, toNat_physTop, PGSIZE_eq]
  omega

end Layout

/-! ## What a call touches -/

theorem getKmemRef_congr (h : ∀ i, (refAt kend p).toNat ≤ i → i < (refAt kend p).toNat + 4 → s'.mem i = s.mem i) :
    getKmemRef kend s' p = getKmemRef kend s p := by
  rw [getKmemRef, getKmemRef, Bytes.load_congr h]

theorem next_congr (h : ∀ i, p.toNat ≤ i → i < p.toNat + 8 → s'.mem i = s.mem i) : next s' p = next s p := by
  rw [next, next, Bytes.load_congr h]

theorem getKmemRef_setRef (kend : UInt64) (s : State) (p : UInt64) (v : UInt32) :
    getKmemRef kend (setRef kend s p v) p = v := by
  have hv : v.toNat < 256 ^ 4 := v.toNat_lt
  rw [getKmemRef, setRef, Bytes.load_store hv, UInt32.ofNat_toNat]

theorem next_push (s : State) (p : UInt64) : next (push s p) p = s.freelist := by
  have hv : s.freelist.toNat < 256 ^ 8 := s.freelist.toNat_lt
  rw [next, push, Bytes.load_store hv, UInt64.ofNat_toNat]

/-- Only the count of `p` and the page `p` have changed. -/
def Only (kend p : UInt64) (s s' : State) : Prop :=
  ∀ i, (i < (refAt kend p).toNat ∨ (refAt kend p).toNat + 4 ≤ i) → (i < p.toNat ∨ p.toNat + 4096 ≤ i) → s'.mem i = s.mem i

theorem Only.trans {s'' : State} (h : Only kend p s s') (h' : Only kend p s' s'') : Only kend p s s'' :=
  fun i hi hi' => (h' i hi hi').trans (h i hi hi')

theorem only_setRef (kend : UInt64) (s : State) (p : UInt64) (v : UInt32) : Only kend p s (setRef kend s p v) :=
  fun _ hi _ => Bytes.store_of_lt hi

theorem only_memset (kend : UInt64) (s : State) (p : UInt64) (c : UInt8) : Only kend p s (memset s p c) :=
  fun i _ hi => if_neg (by rw [PGSIZE_eq]; omega)

theorem only_push (kend : UInt64) (s : State) (p : UInt64) : Only kend p s (push s p) :=
  fun i _ hi => Bytes.store_of_lt (by omega)

section Layout

variable (hlo : KERNBASE ≤ kend.toNat) (hhi : kend.toNat < PHYSTOP)
include hlo hhi

theorem Only.getKmemRef_eq (h : Only kend p s s') (hp : p ∈ freed kend) (hq : q ∈ freed kend) (hne : q ≠ p) :
    getKmemRef kend s' q = getKmemRef kend s q := by
  have hdisj := refAt_disjoint hlo hhi hq hp hne
  have hbelow := (refAt_bounds hlo hhi hq hp).2
  exact getKmemRef_congr fun i hi hi' => h i (by omega) (by omega)

theorem Only.next_eq (h : Only kend p s s') (hp : p ∈ freed kend) (hq : q ∈ freed kend) (hne : q ≠ p) :
    next s' q = next s q := by
  have hdisj := freed_disjoint hlo hhi hq hp hne
  have habove := (refAt_bounds hlo hhi hp hq).2
  exact next_congr fun i hi hi' => h i (by omega) (by omega)

/-- The counts are not in the pages. -/
theorem getKmemRef_of_page (hp : p ∈ freed kend) (h : ∀ i, i < p.toNat → s'.mem i = s.mem i) :
    getKmemRef kend s' p = getKmemRef kend s p := by
  have hbelow := (refAt_bounds hlo hhi hp hp).2
  exact getKmemRef_congr fun i _ hi' => h i (by omega)

end Layout

/-! ## The free list -/

/-- From `r` on, the pointers lead through the pages of the list. -/
def Chain (s : State) : UInt64 → List UInt64 → Prop
  | r, [] => r = 0
  | r, p :: l => r = p ∧ Chain s (next s p) l

theorem Chain.congr {l : List UInt64} (h : Chain s r l) (hnext : ∀ q ∈ l, next s' q = next s q) : Chain s' r l := by
  induction l generalizing r with
  | nil => exact h
  | cons p l ih =>
      refine ⟨h.1, ?_⟩
      rw [hnext p List.mem_cons_self]
      exact ih h.2 fun q hq => hnext q (List.mem_cons_of_mem _ hq)

/-- The free list: pages that `kinit` has freed, each once and with count 0. -/
structure Listed (kend : UInt64) (s : State) (l : List UInt64) : Prop where
  chain : Chain s s.freelist l
  freed : ∀ p ∈ l, p ∈ freed kend
  zero : ∀ p ∈ l, getKmemRef kend s p = 0
  nodup : l.Nodup

theorem Listed.pop {l : List UInt64} (h : Listed kend s (p :: l)) : Listed kend { s with freelist := next s p } l := by
  have hmem : ∀ q, q ∈ l → q ∈ p :: l := fun q hq => List.mem_cons_of_mem p hq
  refine ⟨h.chain.2.congr fun q _ => next_congr fun _ _ _ => rfl, fun q hq => h.freed q (hmem q hq), fun q hq => ?_,
    (List.nodup_cons.mp h.nodup).2⟩
  have hsame : getKmemRef kend { s with freelist := next s p } q = getKmemRef kend s q := getKmemRef_congr fun _ _ _ => rfl
  rw [hsame]
  exact h.zero q (hmem q hq)

section Layout

variable (hlo : KERNBASE ≤ kend.toNat) (hhi : kend.toNat < PHYSTOP)
include hlo hhi

/-- A page that is not on the list may change. -/
theorem Listed.of_only {l : List UInt64} (h : Listed kend s l) (hp : p ∈ Kalloc.freed kend) (hnot : p ∉ l)
    (honly : Only kend p s s') (hlist : s'.freelist = s.freelist) : Listed kend s' l := by
  have hne : ∀ q ∈ l, q ≠ p := fun q hq heq => hnot (heq ▸ hq)
  refine ⟨?_, h.freed, fun q hq => ?_, h.nodup⟩
  · rw [hlist]
    exact h.chain.congr fun q hq => honly.next_eq hlo hhi hp (h.freed q hq) (hne q hq)
  · rw [honly.getKmemRef_eq hlo hhi hp (h.freed q hq) (hne q hq)]
    exact h.zero q hq

/-- A page whose last reference is given up goes to the front of the list. -/
theorem Listed.push {l : List UInt64} (h : Listed kend s l) (hp : p ∈ Kalloc.freed kend) (hnot : p ∉ l)
    (hzero : getKmemRef kend s p = 0) : Listed kend (push (memset s p 1) p) (p :: l) := by
  have hrest : Listed kend (memset s p 1) l := h.of_only hlo hhi hp hnot (only_memset kend s p 1) rfl
  have hbelow := (refAt_bounds hlo hhi hp hp).2
  refine ⟨⟨rfl, ?_⟩, ?_, ?_, List.nodup_cons.mpr ⟨hnot, h.nodup⟩⟩
  · rw [next_push]
    refine hrest.chain.congr fun q hq => (only_push kend _ p).next_eq hlo hhi hp (h.freed q hq) fun heq => hnot (heq ▸ hq)
  · intro q hq
    rcases List.mem_cons.mp hq with rfl | hq
    · exact hp
    · exact h.freed q hq
  · intro q hq
    rcases List.mem_cons.mp hq with rfl | hq
    · rw [← hzero]
      refine getKmemRef_of_page hlo hhi hp fun i hi => ?_
      exact (Bytes.store_of_lt (.inl hi)).trans (if_neg (by omega))
    · rw [(only_push kend _ p).getKmemRef_eq hlo hhi hp (h.freed q hq) fun heq => hnot (heq ▸ hq)]
      exact hrest.zero q hq

/-- **`kfree`** of a page above the table does not panic; the last reference puts the page on the list. -/
theorem Listed.kfree {l : List UInt64} (h : Listed kend s l) (hp : p ∈ Kalloc.freed kend) (hnot : p ∉ l) :
    ∃ s', kfree kend s p = .ok s' ∧ Listed kend s' (if getKmemRef kend s p - 1 = 0 then p :: l else l) := by
  have hset : Listed kend (setRef kend s p (getKmemRef kend s p - 1)) l :=
    h.of_only hlo hhi hp hnot (only_setRef kend s p _) rfl
  rw [Kalloc.kfree, if_neg (not_kfree_panic hlo hhi hp)]
  by_cases hlast : getKmemRef kend s p - 1 = 0
  · rw [if_pos hlast]
    refine ⟨_, ?_, hset.push hlo hhi hp hnot ?_⟩
    · simp only [getKmemRef_setRef, hlast, ne_eq, not_true_eq_false, if_false]
    · rw [getKmemRef_setRef, hlast]
  · rw [if_neg hlast]
    refine ⟨_, ?_, hset⟩
    simp only [getKmemRef_setRef, ne_eq, hlast, not_false_eq_true, if_true]

/-- **`kalloc`** hands out a page of the list. -/
theorem Listed.kalloc {l : List UInt64} (h : Listed kend s l) :
    (∃ l', Listed kend (kalloc kend s).1 l') ∧ ((kalloc kend s).2 ≠ 0 → (kalloc kend s).2 ∈ l) := by
  cases l with
  | nil =>
      have hnull : s.freelist = 0 := h.chain
      rw [Kalloc.kalloc, if_neg (not_not.mpr hnull)]
      exact ⟨⟨[], h⟩, fun hne => absurd hnull hne⟩
  | cons p l =>
      have hhead : s.freelist = p := h.chain.1
      have hp := h.freed p List.mem_cons_self
      obtain ⟨hnot, -⟩ := List.nodup_cons.mp h.nodup
      have hne : s.freelist ≠ 0 := hhead ▸ ne_zero_of_freed hlo hhi hp
      rw [Kalloc.kalloc, if_pos hne, hhead]
      refine ⟨⟨l, ?_⟩, fun _ => List.mem_cons_self⟩
      exact h.pop.of_only hlo hhi hp hnot ((only_setRef kend _ p 1).trans (only_memset kend _ p 5)) rfl

/-- The loop of `freerange` puts its pages on the list, the last one first. -/
theorem Listed.freerangeLoop (n : Nat) {l : List UInt64} (h : Listed kend s l) (hbelow : ∀ q ∈ l, q.toNat < p.toNat)
    (hpages : ∀ q ∈ pages physTop n p, q ∈ Kalloc.freed kend) :
    ∃ s', freerangeLoop kend physTop n p s = .ok s' ∧ Listed kend s' ((pages physTop n p).reverse ++ l) := by
  induction n generalizing p s l with
  | zero => exact ⟨s, rfl, h⟩
  | succ n ih =>
      rw [pages] at hpages ⊢
      rw [Kalloc.freerangeLoop]
      by_cases hle : p + pgsize ≤ physTop
      · rw [if_pos hle] at hpages ⊢
        rw [if_pos hle]
        have hp : p ∈ Kalloc.freed kend := hpages p List.mem_cons_self
        have hnot : p ∉ l := fun hmem => Nat.lt_irrefl _ (hbelow p hmem)
        have hset : Listed kend (setRef kend s p 1) l := h.of_only hlo hhi hp hnot (only_setRef kend s p 1) rfl
        obtain ⟨s₁, hrun, hl₁⟩ := hset.kfree hlo hhi hp hnot
        rw [getKmemRef_setRef, if_pos (show (1 : UInt32) - 1 = 0 from rfl)] at hl₁
        have hlt := ((mem_freed hlo hhi).mp hp).2.2
        have hnext : (p + pgsize).toNat = p.toNat + 4096 := toNat_add_pgsize (by omega)
        have hbelow₁ : ∀ q ∈ p :: l, q.toNat < (p + pgsize).toNat := by
          intro q hq
          rcases List.mem_cons.mp hq with rfl | hq
          · omega
          · have := hbelow q hq
            omega
        obtain ⟨s₂, hrun₂, hl₂⟩ := ih hl₁ hbelow₁ fun q hq => hpages q (List.mem_cons_of_mem _ hq)
        refine ⟨s₂, ?_, ?_⟩
        · rw [hrun]
          exact hrun₂
        · rw [List.reverse_cons, List.append_assoc]
          exact hl₂
      · rw [if_neg hle, if_neg hle]
        exact ⟨s, rfl, h⟩

/-- **`kinit`** does not panic and leaves the pages above the table on the list. -/
theorem kinit_listed (mem : Nat → UInt8) : ∃ s, kinit kend mem = .ok s ∧ Listed kend s (freed kend).reverse := by
  have hempty : Listed kend { mem := mem, freelist := 0 } [] :=
    ⟨rfl, fun _ hp => absurd hp List.not_mem_nil, fun _ hp => absurd hp List.not_mem_nil, List.nodup_nil⟩
  obtain ⟨s, hrun, hl⟩ := hempty.freerangeLoop hlo hhi maxTurns (p := PGROUNDUP (paStart kend))
    (fun _ hq => absurd hq List.not_mem_nil) fun _ hq => hq
  rw [List.append_nil] at hl
  exact ⟨s, hrun, hl⟩

/-- A call of a holder keeps the list. -/
theorem Listed.step {l : List UInt64} {c : Call} (h : Listed kend s l) (hstep : step kend s c = some s') :
    ∃ l', Listed kend s' l' := by
  have hheld : ∀ pa, held kend s pa = true → pa ∈ Kalloc.freed kend ∧ pa ∉ l := by
    intro pa hpa
    rw [held, Bool.and_eq_true, List.contains_iff_mem, bne_iff_ne] at hpa
    exact ⟨hpa.1, fun hmem => hpa.2 (h.zero pa hmem)⟩
  cases c with
  | kalloc =>
      cases hstep
      exact (h.kalloc hlo hhi).1
  | kfree pa =>
      rw [Kalloc.step, Option.ite_none_right_eq_some] at hstep
      obtain ⟨hpa, hrun⟩ := hstep
      obtain ⟨hp, hnot⟩ := hheld pa hpa
      obtain ⟨s₁, hok, hl₁⟩ := h.kfree hlo hhi hp hnot
      rw [hok] at hrun
      cases hrun
      exact ⟨_, hl₁⟩
  | addKmemRef pa =>
      rw [Kalloc.step, Option.ite_none_right_eq_some] at hstep
      obtain ⟨hpa, hrun⟩ := hstep
      obtain ⟨hp, hnot⟩ := hheld pa hpa
      cases hrun
      exact ⟨l, h.of_only hlo hhi hp hnot (only_setRef kend s pa _) rfl⟩
  | write pa o c =>
      rw [Kalloc.step, Option.ite_none_right_eq_some, Bool.and_eq_true, decide_eq_true_eq] at hstep
      obtain ⟨⟨hpa, ho⟩, hrun⟩ := hstep
      obtain ⟨hp, hnot⟩ := hheld pa hpa
      cases hrun
      rw [PGSIZE_eq] at ho
      refine ⟨l, h.of_only hlo hhi hp hnot (fun i _ hi => ?_) rfl⟩
      exact Function.update_of_ne (by omega) _ _

end Layout

/-- **The layout of the reference counts.** For any address `end` in memory, of every page `p` that `freerange` frees
    in `kinit`: `p` passes the check of `kfree`, its index is not negative, and the element of `ref_count` at that
    index lies between `end` and the first page freed, hence in no page freed. Different pages have different
    indices. And after `kinit`, whatever the holders of pages do, `kalloc` hands out only pages freed in this way. -/
theorem ref_count_layout (kend : UInt64) (hlo : KERNBASE ≤ kend.toNat) (hhi : kend.toNat < PHYSTOP) :
    (∀ p ∈ freed kend, ¬(p.toNat % PGSIZE ≠ 0 ∨ p < kend ∨ physTop ≤ p) ∧ 0 ≤ (INDEX kend p).toInt ∧
      kend.toNat ≤ (refAt kend p).toNat ∧ ∀ q ∈ freed kend, (refAt kend p).toNat + 4 ≤ q.toNat) ∧
    (∀ p ∈ freed kend, ∀ q ∈ freed kend, INDEX kend p = INDEX kend q → p = q) ∧
    ∀ mem, ∃ s, kinit kend mem = .ok s ∧
      ∀ calls s', Trace.run (step kend) s calls = some s' → (kalloc kend s').2 ≠ 0 → (kalloc kend s').2 ∈ freed kend := by
  refine ⟨fun p hp => ?_, fun p hp q hq => INDEX_inj hlo hhi hp hq, fun mem => ?_⟩
  · refine ⟨not_kfree_panic hlo hhi hp, INDEX_nonneg hlo hhi hp, (refAt_bounds hlo hhi hp hp).1, fun q hq => ?_⟩
    exact (refAt_bounds hlo hhi hp hq).2
  · obtain ⟨s, hrun, hl⟩ := kinit_listed hlo hhi mem
    refine ⟨s, hrun, fun calls s' hcalls hne => ?_⟩
    obtain ⟨l, hl'⟩ := Trace.run_invariant (I := fun s => ∃ l, Listed kend s l) ⟨_, hl⟩
      (fun _ _ _ hI hstep => hI.elim fun _ hl => hl.step hlo hhi hstep) hcalls
    exact hl'.freed _ ((hl'.kalloc hlo hhi).2 hne)

/-- An `end` that is not aligned. -/
theorem ref_count_layout_unaligned :
    (KERNBASE ≤ (0x80030001 : UInt64).toNat ∧ (0x80030001 : UInt64).toNat < PHYSTOP) ∧
      ∀ p ∈ freed 0x80030001, 0 ≤ (INDEX 0x80030001 p).toInt :=
  ⟨by decide, fun p hp => ((ref_count_layout 0x80030001 (by decide) (by decide)).1 p hp).2.1⟩

end Xv6.Kalloc
