import Xv6.Vm.Copyin

/-!
# `Vm.Riscv` — addresses and page-table entries of `kernel/riscv.h`

The macros are translated with the operations of C on `uint64`. The lemmas turn them into arithmetic on page
numbers and into statements about single flags, and nothing after this module looks at the bits of an entry.
-/

namespace Xv6.Vm

/-- `PGSIZE` as a `uint64`. -/
def pgsize : UInt64 := 4096

def MAXVA : UInt64 := (1 : UInt64) <<< (9 + 9 + 9 + 12 - 1)
def KERNBASE : Nat := 0x80000000
def PHYSTOP : Nat := KERNBASE + 128 * 1024 * 1024

def PGROUNDUP (sz : UInt64) : UInt64 := (sz + pgsize - 1) &&& ~~~(pgsize - 1)
def PGROUNDDOWN (a : UInt64) : UInt64 := a &&& ~~~(pgsize - 1)

def PTE_V : UInt64 := (1 : UInt64) <<< 0
def PTE_R : UInt64 := (1 : UInt64) <<< 1
def PTE_W : UInt64 := (1 : UInt64) <<< 2
def PTE_X : UInt64 := (1 : UInt64) <<< 3
def PTE_U : UInt64 := (1 : UInt64) <<< 4
def PA2PTE (pa : UInt64) : UInt64 := (pa >>> 12) <<< 10
def PTE2PA (pte : UInt64) : UInt64 := (pte >>> 10) <<< 12
def PTE_FLAGS (pte : UInt64) : UInt64 := pte &&& 0x3FF

def PXMASK : UInt64 := 0x1FF
def PXSHIFT (level : Nat) : UInt64 := 12 + 9 * UInt64.ofNat level
def PX (level : Nat) (va : UInt64) : UInt64 := (va >>> PXSHIFT level) &&& PXMASK

/-- A condition `*pte & f`. -/
def flag (pte f : UInt64) : Bool := pte &&& f != 0

/-- The entries of a table are counted modulo its length. -/
instance neZero_entries : NeZero 512 := ⟨by decide⟩

/-- The index `PX(level, va)` into a table of 512 entries. -/
def index (level : Nat) (va : UInt64) : Fin 512 := Fin.ofNat 512 (PX level va).toNat

/-- The address of a physical page. -/
def addr (pg : Nat) : UInt64 := UInt64.ofNat (pg * PGSIZE)

/-- The physical page an entry points to. -/
def ppage (pte : UInt64) : Nat := (PTE2PA pte).toNat / PGSIZE

/-! ## Addresses -/

variable {a va pa pte f g : UInt64} {pg : Nat}

theorem PGSIZE_eq : PGSIZE = 4096 := rfl

theorem toNat_pgsize : pgsize.toNat = 4096 := rfl

theorem toNat_MAXVA : MAXVA.toNat = 2 ^ 38 := by decide

theorem toNat_shiftRight (a : UInt64) (k : Nat) (hk : k < 64) : (a >>> UInt64.ofNat k).toNat = a.toNat / 2 ^ k := by
  rw [UInt64.toNat_shiftRight, UInt64.toNat_ofNat', Nat.shiftRight_eq_div_pow]
  congr 2
  omega

theorem toNat_shiftLeft (a : UInt64) (k : Nat) (hk : k < 64) :
    (a <<< UInt64.ofNat k).toNat = a.toNat * 2 ^ k % 2 ^ 64 := by
  rw [UInt64.toNat_shiftLeft, UInt64.toNat_ofNat', Nat.shiftLeft_eq]
  congr 3
  omega

/-- Clearing the low 12 bits. -/
theorem and_not_mask (a : UInt64) : (a &&& ~~~(pgsize - 1)).toNat = a.toNat / 4096 * 4096 := by
  have hmask : (~~~(pgsize - 1)).toNat = 2 ^ 12 * (2 ^ 52 - 1) := by decide
  rw [UInt64.toNat_and, hmask]
  refine Nat.eq_of_testBit_eq fun i => ?_
  rw [show a.toNat / 4096 * 4096 = 2 ^ 12 * (a.toNat >>> 12) by rw [Nat.shiftRight_eq_div_pow]; omega,
    Nat.testBit_and, Nat.testBit_two_pow_mul, Nat.testBit_two_pow_mul, Nat.testBit_two_pow_sub_one,
    Nat.testBit_shiftRight]
  by_cases hi : 12 ≤ i
  · rw [Nat.add_sub_cancel' hi]
    by_cases hi' : i < 64
    · simp [hi, show i - 12 < 52 by omega]
    · have hbit : a.toNat.testBit i = false :=
        Nat.testBit_lt_two_pow (a.toNat_lt.trans_le (Nat.pow_le_pow_right (by decide) (by omega)))
      simp [hbit]
  · simp [hi]

theorem toNat_PGROUNDDOWN (a : UInt64) : (PGROUNDDOWN a).toNat = a.toNat / 4096 * 4096 := and_not_mask a

theorem toNat_PGROUNDUP (h : a.toNat + 4095 < 2 ^ 64) : (PGROUNDUP a).toNat = (a.toNat + 4095) / 4096 * 4096 := by
  have hsum : (a + pgsize - 1).toNat = a.toNat + 4095 := by
    rw [show a + pgsize - 1 = a + 4095 by rw [pgsize, add_sub_assoc]; rfl, UInt64.toNat_add]
    exact Nat.mod_eq_of_lt h
  rw [PGROUNDUP, and_not_mask, hsum]

theorem PGROUNDDOWN_le (a : UInt64) : (PGROUNDDOWN a).toNat ≤ a.toNat := by
  rw [toNat_PGROUNDDOWN]
  omega

/-- The three indices of an address are the digits of its page number. -/
theorem index_val (level : Nat) (hl : level ≤ 2) (va : UInt64) :
    (index level va : Nat) = va.toNat / 4096 / 512 ^ level % 512 := by
  have hmask : PXMASK.toNat = 2 ^ 9 - 1 := by decide
  have hshift : PXSHIFT level = UInt64.ofNat (12 + 9 * level) := by
    rw [PXSHIFT, UInt64.ofNat_add, UInt64.ofNat_mul]
    rfl
  rw [index, Fin.val_ofNat, PX, UInt64.toNat_and, hmask, Nat.and_two_pow_sub_one_eq_mod, hshift,
    toNat_shiftRight _ _ (by omega), Nat.mod_mod, Nat.div_div_eq_div_mul]
  congr 2
  rw [pow_add, pow_mul]
  rfl

theorem addr_toNat (h : pg < 2 ^ 52) : (addr pg).toNat = pg * 4096 := by
  rw [addr, UInt64.toNat_ofNat']
  exact Nat.mod_eq_of_lt (by rw [PGSIZE_eq]; omega)

theorem addr_div (h : pg < 2 ^ 52) : (addr pg).toNat / PGSIZE = pg := by
  rw [addr_toNat h, PGSIZE_eq]
  omega

/-! ## Entries -/

theorem toNat_PTE2PA (pte : UInt64) : (PTE2PA pte).toNat = pte.toNat / 1024 % 2 ^ 52 * 4096 := by
  rw [PTE2PA, show (12 : UInt64) = UInt64.ofNat 12 from rfl, show (10 : UInt64) = UInt64.ofNat 10 from rfl,
    toNat_shiftLeft _ _ (by decide), toNat_shiftRight _ _ (by decide)]
  omega

theorem toNat_PA2PTE (pa : UInt64) : (PA2PTE pa).toNat = pa.toNat / 4096 * 1024 := by
  have := pa.toNat_lt
  rw [PA2PTE, show (12 : UInt64) = UInt64.ofNat 12 from rfl, show (10 : UInt64) = UInt64.ofNat 10 from rfl,
    toNat_shiftLeft _ _ (by decide), toNat_shiftRight _ _ (by decide)]
  omega

theorem ppage_eq (pte : UInt64) : ppage pte = pte.toNat / 1024 % 2 ^ 52 := by
  rw [ppage, toNat_PTE2PA, PGSIZE_eq]
  omega

theorem ppage_lt (pte : UInt64) : ppage pte < 2 ^ 52 := by
  rw [ppage_eq]
  exact Nat.mod_lt _ (by decide)

theorem PTE2PA_eq_addr (pte : UInt64) : PTE2PA pte = addr (ppage pte) := by
  rw [← UInt64.toNat_inj, addr_toNat (ppage_lt pte), toNat_PTE2PA, ppage_eq]

/-- The page of an entry does not depend on its flags. -/
theorem ppage_congr (h : pte.toNat / 1024 = g.toNat / 1024) : ppage pte = ppage g := by
  rw [ppage_eq, ppage_eq, h]

theorem div_or (a f : UInt64) (hf : f.toNat < 1024) : (a ||| f).toNat / 1024 = a.toNat / 1024 := by
  rw [UInt64.toNat_or, show 1024 = 2 ^ 10 from rfl, ← Nat.shiftRight_eq_div_pow, ← Nat.shiftRight_eq_div_pow,
    Nat.shiftRight_or_distrib, Nat.shiftRight_eq_div_pow f.toNat, Nat.div_eq_of_lt hf, Nat.or_zero]

theorem ppage_or (hf : f.toNat < 1024) : ppage (pte ||| f) = ppage pte := ppage_congr (div_or pte f hf)

theorem ppage_PA2PTE (h : pg < 2 ^ 52) : ppage (PA2PTE (addr pg)) = pg := by
  rw [ppage_eq, toNat_PA2PTE, addr_toNat h]
  omega

/-! ## Flags -/

theorem flag_or (x y f : UInt64) : flag (x ||| y) f = (flag x f || flag y f) := by
  have hiff : (x ||| y) &&& f = 0 ↔ x &&& f = 0 ∧ y &&& f = 0 := by
    simp only [← UInt64.toNat_inj, UInt64.toNat_or, UInt64.toNat_and, UInt64.toNat_zero, Nat.or_eq_zero_iff,
      Nat.and_or_distrib_right]
  rw [flag, flag, flag, bne, bne, bne, ← Bool.not_and, Bool.not_inj_iff, Bool.eq_iff_iff]
  simp only [beq_iff_eq, Bool.and_eq_true, hiff]

theorem flag_and (x y f : UInt64) : flag (x &&& y) f = flag x (y &&& f) := by
  rw [flag, flag, UInt64.and_assoc]

@[simp] theorem flag_zero (f : UInt64) : flag 0 f = false := by simp [flag]

theorem flag_PTE_FLAGS (hf : 0x3FF &&& f = f) : flag (PTE_FLAGS pte) f = flag pte f := by
  rw [PTE_FLAGS, flag_and, hf]

theorem toNat_PTE_FLAGS (pte : UInt64) : (PTE_FLAGS pte).toNat = pte.toNat % 1024 := by
  rw [PTE_FLAGS, UInt64.toNat_and]
  exact Nat.and_two_pow_sub_one_eq_mod _ 10

end Xv6.Vm
