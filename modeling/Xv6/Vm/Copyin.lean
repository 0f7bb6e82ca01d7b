import Mathlib

/-!
# `Vm.Copyin` — `copyin` of `kernel/vm.c`, seen by a caller that copies from user memory

The page table enters through what `walkaddr` answers: a page number is mapped to the bytes of its page or
to nothing. `copyin` returns the bytes it has moved when it stops, because a caller's buffer holds them
whether or not the call succeeds.
-/

namespace Xv6

def PGSIZE : Nat := 4096

/-- The readable user pages by page number. -/
abbrev Pages := Nat → Option (Nat → UInt8)

/-- The loop of `copyin`; every turn moves at least one byte, so `len` turns are enough. -/
def copyinLoop (pages : Pages) : Nat → Nat → Nat → List UInt8 × Bool
  | 0, _, _ => ([], true)
  | fuel + 1, srcva, len =>
      if len = 0 then ([], true)
      else
        match pages (srcva / PGSIZE) with
        | none => ([], false)
        | some page =>
            let n := min (PGSIZE - srcva % PGSIZE) len
            let rest := copyinLoop pages fuel ((srcva / PGSIZE + 1) * PGSIZE) (len - n)
            ((List.range n).map (fun i => page (srcva % PGSIZE + i)) ++ rest.1, rest.2)

/-- The bytes moved and whether the call returned 0. -/
def copyin (pages : Pages) (srcva len : Nat) : List UInt8 × Bool := copyinLoop pages len srcva len

/-- The byte at a user address; 0 where no page is mapped. -/
def userByte (pages : Pages) (va : Nat) : UInt8 :=
  match pages (va / PGSIZE) with
  | some page => page (va % PGSIZE)
  | none => 0

theorem userByte_of_page {pages : Pages} {page : Nat → UInt8} {srcva k : Nat}
    (hpage : pages (srcva / PGSIZE) = some page) (hk : k < PGSIZE - srcva % PGSIZE) :
    userByte pages (srcva + k) = page (srcva % PGSIZE + k) := by
  have hva : srcva + k = PGSIZE * (srcva / PGSIZE) + (srcva % PGSIZE + k) := by
    have := Nat.div_add_mod srcva PGSIZE
    omega
  have hlt : srcva % PGSIZE + k < PGSIZE := by omega
  rw [userByte, hva, Nat.mul_add_div (by decide), Nat.div_eq_of_lt hlt, Nat.add_zero, hpage]
  simp only [Nat.mul_add_mod, Nat.mod_eq_of_lt hlt]

theorem copyinLoop_of_mapped {pages : Pages} {fuel srcva len : Nat} (hfuel : len ≤ fuel)
    (h : ∀ k < len, (pages ((srcva + k) / PGSIZE)).isSome) :
    copyinLoop pages fuel srcva len = ((List.range len).map fun k => userByte pages (srcva + k), true) := by
  induction fuel generalizing srcva len with
  | zero =>
      obtain rfl : len = 0 := by omega
      rfl
  | succ fuel ih =>
      rw [copyinLoop]
      split
      · rename_i h0
        rw [h0]
        rfl
      · rename_i h0
        obtain ⟨page, hpage⟩ := Option.isSome_iff_exists.mp (h 0 (by omega))
        rw [Nat.add_zero] at hpage
        have hmod : srcva % PGSIZE < PGSIZE := Nat.mod_lt _ (by decide)
        rw [hpage]
        simp only
        obtain ⟨n, hn⟩ : ∃ n, n = min (PGSIZE - srcva % PGSIZE) len := ⟨_, rfl⟩
        rw [← hn]
        -- the rest starts where this turn stops, if there is a rest
        have hrest : copyinLoop pages fuel ((srcva / PGSIZE + 1) * PGSIZE) (len - n) =
            ((List.range (len - n)).map fun k => userByte pages (srcva + n + k), true) := by
          by_cases hlast : len - n = 0
          · rw [hlast]
            exact ih (Nat.zero_le _) fun k hk => absurd hk (Nat.not_lt_zero k)
          · have hnext : (srcva / PGSIZE + 1) * PGSIZE = srcva + n := by
              have := Nat.div_add_mod srcva PGSIZE
              rw [Nat.add_mul, Nat.one_mul, Nat.mul_comm]
              omega
            rw [hnext]
            refine ih (by omega) fun k hk => ?_
            rw [Nat.add_assoc]
            exact h (n + k) (by omega)
        have hsplit : List.range len = List.range n ++ (List.range (len - n)).map (n + ·) := by
          rw [← List.range_add]
          congr 1
          omega
        rw [hrest, hsplit, List.map_append, List.map_map]
        refine Prod.ext ?_ rfl
        refine congrArg₂ (· ++ ·) (List.map_congr_left fun k hk => ?_) (List.map_congr_left fun k _ => ?_)
        · exact (userByte_of_page hpage (by have := List.mem_range.mp hk; omega)).symm
        · rw [Function.comp_apply, Nat.add_assoc]

/-- **`copyin` of mapped memory** returns 0 and moves all the bytes. -/
theorem copyin_of_mapped {pages : Pages} {srcva len : Nat}
    (h : ∀ k < len, (pages ((srcva + k) / PGSIZE)).isSome) :
    copyin pages srcva len = ((List.range len).map fun k => userByte pages (srcva + k), true) :=
  copyinLoop_of_mapped le_rfl h

end Xv6
