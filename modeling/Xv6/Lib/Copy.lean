import Mathlib

/-!
# `Lib.Copy` — copying cells of a memory one after the other

A copy reads a cell and writes another, once for each index of a list, in the order of the list. Every cell gets the
value its source had at the start exactly when no write hits a source that is still to be read: this is a condition
on pairs of indices, one before the other.

Over it, the two loops a C program copies with, on 64-bit addresses: `up` from the first byte on and `down` from the
last byte back.
-/

namespace Copy

/-! ## Cells in a given order -/

section Cells

variable {A V : Type} [DecidableEq A] {dst src : Nat → A} {mem : A → V} {is : List Nat} {a : A} {i : Nat}

/-- Writes to `dst i` what is at `src i`, for each `i` of the list in turn. -/
def cells (dst src : Nat → A) : List Nat → (A → V) → A → V
  | [], mem => mem
  | i :: is, mem => cells dst src is (Function.update mem (dst i) (mem (src i)))

/-- A cell that is not written keeps its value. -/
theorem cells_of_forall_ne (h : ∀ i ∈ is, a ≠ dst i) : cells dst src is mem a = mem a := by
  induction is generalizing mem with
  | nil => rfl
  | cons i is ih =>
      have hi : a ≠ dst i := h i List.mem_cons_self
      rw [cells, ih fun j hj => h j (List.mem_cons_of_mem _ hj), Function.update_of_ne hi]

/-- **A cell that is written gets the value its source had at the start**, if no write hits a cell that is
    written or read after it. -/
theorem cells_dst (hp : is.Pairwise fun i j => dst i ≠ dst j ∧ dst i ≠ src j) (hi : i ∈ is) :
    cells dst src is mem (dst i) = mem (src i) := by
  induction is generalizing mem with
  | nil => exact absurd hi List.not_mem_nil
  | cons j is ih =>
      obtain ⟨hj, hp⟩ := List.pairwise_cons.mp hp
      rw [cells]
      rcases List.mem_cons.mp hi with rfl | hi
      · rw [cells_of_forall_ne fun k hk => (hj k hk).1, Function.update_self]
      · have hsrc : src i ≠ dst j := (hj i hi).2.symm
        rw [ih hp hi, Function.update_of_ne hsrc]

end Cells

/-! ## The loops -/

section Loops

variable {V : Type} {mem : UInt64 → V} {d s a : UInt64} {n : Nat}

/-- `while(n-- > 0) *d++ = *s++;` -/
def up (mem : UInt64 → V) (d s : UInt64) : Nat → UInt64 → V
  | 0 => mem
  | n + 1 => up (Function.update mem d (mem s)) (d + 1) (s + 1) n

/-- `while(n-- > 0) *--d = *--s;` -/
def down (mem : UInt64 → V) (d s : UInt64) : Nat → UInt64 → V
  | 0 => mem
  | n + 1 => down (Function.update mem (d - 1) (mem (s - 1))) (d - 1) (s - 1) n

theorem add_ofNat_succ (p : UInt64) (k : Nat) : p + UInt64.ofNat (k + 1) = p + UInt64.ofNat k + 1 := by
  rw [UInt64.ofNat_add, UInt64.add_assoc]
  rfl

theorem add_ofNat_succ_sub_one (p : UInt64) (k : Nat) : p + UInt64.ofNat (k + 1) - 1 = p + UInt64.ofNat k := by
  rw [add_ofNat_succ, UInt64.add_sub_cancel]

/-- The loop from the first byte on writes the bytes in ascending order. -/
theorem up_eq_cells (mem : UInt64 → V) (d s : UInt64) (k n : Nat) :
    up mem (d + UInt64.ofNat k) (s + UInt64.ofNat k) n =
      cells (fun i => d + UInt64.ofNat i) (fun i => s + UInt64.ofNat i) (List.range' k n) mem := by
  induction n generalizing mem k with
  | zero => rfl
  | succ n ih => rw [up, ← add_ofNat_succ, ← add_ofNat_succ, ih, List.range'_succ, cells]

/-- The loop from the last byte back writes the bytes in descending order. -/
theorem down_eq_cells (mem : UInt64 → V) (d s : UInt64) (n : Nat) :
    down mem (d + UInt64.ofNat n) (s + UInt64.ofNat n) n =
      cells (fun i => d + UInt64.ofNat i) (fun i => s + UInt64.ofNat i) (List.range n).reverse mem := by
  induction n generalizing mem with
  | zero => rfl
  | succ n ih =>
      rw [down, add_ofNat_succ_sub_one, add_ofNat_succ_sub_one, ih, List.range_succ, List.reverse_append,
        List.reverse_singleton, List.singleton_append, cells]

/-- What a copy of `n` bytes from `s` to `d` should do. -/
structure Moved (mem mem' : UInt64 → V) (d s : UInt64) (n : Nat) : Prop where
  copied : ∀ i < n, mem' (d + UInt64.ofNat i) = mem (s + UInt64.ofNat i)
  kept : ∀ a : UInt64, a.toNat < d.toNat ∨ d.toNat + n ≤ a.toNat → mem' a = mem a

theorem add_ofNat_toNat {p : UInt64} {i n : Nat} (hp : p.toNat + n ≤ 2 ^ 64) (hi : i < n) :
    (p + UInt64.ofNat i).toNat = p.toNat + i := by
  rw [UInt64.toNat_add, UInt64.toNat_ofNat', Nat.mod_eq_of_lt (show i < 2 ^ 64 by omega), Nat.mod_eq_of_lt (by omega)]

theorem add_ofNat_ne {p q : UInt64} {i j n : Nat} (hp : p.toNat + n ≤ 2 ^ 64) (hq : q.toNat + n ≤ 2 ^ 64) (hi : i < n)
    (hj : j < n) (hne : p.toNat + i ≠ q.toNat + j) : p + UInt64.ofNat i ≠ q + UInt64.ofNat j := fun heq => by
  apply hne
  rw [← add_ofNat_toNat hp hi, ← add_ofNat_toNat hq hj, heq]

/-- **A copy in any order** of the indices below `n` moves the bytes, if a byte that is written before another
    index's turn is not that index's source. -/
theorem moved_cells (hd : d.toNat + n ≤ 2 ^ 64) (hs : s.toNat + n ≤ 2 ^ 64) {is : List Nat} (his : ∀ i, i ∈ is ↔ i < n)
    (hp : is.Pairwise fun i j => i ≠ j ∧ d.toNat + i ≠ s.toNat + j) :
    Moved mem (cells (fun i => d + UInt64.ofNat i) (fun i => s + UInt64.ofNat i) is mem) d s n := by
  have hsafe : is.Pairwise fun i j => d + UInt64.ofNat i ≠ d + UInt64.ofNat j ∧ d + UInt64.ofNat i ≠ s + UInt64.ofNat j := by
    refine hp.imp_of_mem fun {i j} hi hj hij => ?_
    have hi := (his i).mp hi
    have hj := (his j).mp hj
    exact ⟨add_ofNat_ne hd hd hi hj fun heq => hij.1 (Nat.add_left_cancel heq), add_ofNat_ne hd hs hi hj hij.2⟩
  constructor
  · intro i hi
    exact cells_dst hsafe ((his i).mpr hi)
  · intro a ha
    refine cells_of_forall_ne fun i hi heq => ?_
    have hnat := add_ofNat_toNat hd ((his i).mp hi)
    rw [← heq] at hnat
    have := (his i).mp hi
    omega

/-- The ascending loop is right if no byte it has written is read later. -/
theorem moved_up (hd : d.toNat + n ≤ 2 ^ 64) (hs : s.toNat + n ≤ 2 ^ 64)
    (h : ∀ i j, i < j → j < n → d.toNat + i ≠ s.toNat + j) : Moved mem (up mem d s n) d s n := by
  have heq := up_eq_cells mem d s 0 n
  rw [show UInt64.ofNat 0 = 0 from rfl, UInt64.add_zero, UInt64.add_zero, ← List.range_eq_range'] at heq
  rw [heq]
  refine moved_cells hd hs (fun i => List.mem_range) (List.pairwise_lt_range.imp_of_mem fun {i j} _ hj hij => ?_)
  exact ⟨hij.ne, h i j hij (List.mem_range.mp hj)⟩

/-- The descending loop is right if no byte it has written is read later. -/
theorem moved_down (hd : d.toNat + n ≤ 2 ^ 64) (hs : s.toNat + n ≤ 2 ^ 64)
    (h : ∀ i j, j < i → i < n → d.toNat + i ≠ s.toNat + j) :
    Moved mem (down mem (d + UInt64.ofNat n) (s + UInt64.ofNat n) n) d s n := by
  rw [down_eq_cells]
  refine moved_cells hd hs (fun i => List.mem_reverse.trans List.mem_range) (List.pairwise_reverse.mpr ?_)
  refine List.pairwise_lt_range.imp_of_mem fun {j i} _ hi hji => ?_
  exact ⟨hji.ne', h i j hji (List.mem_range.mp hi)⟩

/-- A copy of the bytes is unique: two memories it may leave are the same. -/
theorem Moved.unique {mem₁ mem₂ : UInt64 → V} (hd : d.toNat + n ≤ 2 ^ 64) (h₁ : Moved mem mem₁ d s n)
    (h₂ : Moved mem mem₂ d s n) : mem₁ = mem₂ := by
  funext a
  by_cases ha : a.toNat < d.toNat ∨ d.toNat + n ≤ a.toNat
  · rw [h₁.kept a ha, h₂.kept a ha]
  · have hi : a.toNat - d.toNat < n := by omega
    have heq : d + UInt64.ofNat (a.toNat - d.toNat) = a := by
      apply UInt64.toNat_inj.mp
      rw [add_ofNat_toNat hd hi]
      omega
    have h := (h₁.copied _ hi).trans (h₂.copied _ hi).symm
    rwa [heq] at h

theorem moved_zero (mem : UInt64 → V) (d s : UInt64) : Moved mem mem d s 0 :=
  ⟨fun _ hi => absurd hi (Nat.not_lt_zero _), fun _ _ => rfl⟩

end Loops

end Copy
