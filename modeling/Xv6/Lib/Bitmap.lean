import Mathlib

/-!
# `Bitmap` — bits in an array of bytes

Bit `i` is bit `i % 8` of byte `i / 8`. It is tested, set and cleared with a mask, as C code does it; the
lemmas say that the array is then a map from positions to bits.
-/

namespace Bitmap

def mask (i : Nat) : UInt8 := 1 <<< UInt8.ofNat (i % 8)

def test (f : Nat → UInt8) (i : Nat) : Bool := f (i / 8) &&& mask i != 0

def set (f : Nat → UInt8) (i : Nat) : Nat → UInt8 := Function.update f (i / 8) (f (i / 8) ||| mask i)

def clear (f : Nat → UInt8) (i : Nat) : Nat → UInt8 := Function.update f (i / 8) (f (i / 8) &&& ~~~mask i)

theorem toBitVec_mask (i : Nat) : (mask i).toBitVec = BitVec.twoPow 8 (i % 8) := by
  have hall : ∀ k : Fin 8, (1 <<< UInt8.ofNat k : UInt8).toBitVec = BitVec.twoPow 8 k := by decide
  exact hall ⟨i % 8, Nat.mod_lt _ (by decide)⟩

/-- The mask singles out one bit. -/
theorem and_mask (x : UInt8) (i : Nat) : (x &&& mask i != 0) = x.toBitVec.getLsbD (i % 8) := by
  have hlt : i % 8 < 8 := Nat.mod_lt _ (by decide)
  have h0 : (x &&& mask i = 0) ↔ x.toBitVec &&& BitVec.twoPow 8 (i % 8) = 0#8 := by
    rw [← toBitVec_mask, ← UInt8.toBitVec_and, ← UInt8.toBitVec_inj]
    rfl
  rw [BitVec.and_twoPow] at h0
  rw [bne, Bool.not_eq_eq_eq_not, beq_eq_decide]
  simp only [h0]
  cases x.toBitVec.getLsbD (i % 8) with
  | false => simp
  | true =>
      simp only [if_true, Bool.not_true, decide_eq_false_iff_not]
      intro h
      have hbit := congrArg (fun v => v.getLsbD (i % 8)) h
      simp [hlt] at hbit

variable {f : Nat → UInt8} {i j : Nat}

/-- Positions in one byte are told apart by their bit. -/
theorem mod_eq_iff (h : j / 8 = i / 8) : j % 8 = i % 8 ↔ j = i := by
  omega

theorem test_set : test (set f i) j = (decide (j = i) || test f j) := by
  have hlt : j % 8 < 8 := Nat.mod_lt _ (by decide)
  have hlt' : i % 8 < 8 := Nat.mod_lt _ (by decide)
  unfold test set
  by_cases hbyte : j / 8 = i / 8
  · rw [hbyte, Function.update_self, and_mask, and_mask, UInt8.toBitVec_or, toBitVec_mask,
      BitVec.getLsbD_or, BitVec.getLsbD_twoPow, Bool.or_comm]
    simp [hlt, hlt', eq_comm (a := i % 8), mod_eq_iff hbyte]
  · rw [Function.update_of_ne hbyte]
    have hne : j ≠ i := fun h => hbyte (by rw [h])
    simp [hne]

theorem test_clear : test (clear f i) j = (decide (j ≠ i) && test f j) := by
  have hlt : j % 8 < 8 := Nat.mod_lt _ (by decide)
  have hlt' : i % 8 < 8 := Nat.mod_lt _ (by decide)
  unfold test clear
  by_cases hbyte : j / 8 = i / 8
  · rw [hbyte, Function.update_self, and_mask, and_mask, UInt8.toBitVec_and, UInt8.toBitVec_not,
      toBitVec_mask, BitVec.getLsbD_and, BitVec.getLsbD_not, BitVec.getLsbD_twoPow, Bool.and_comm]
    simp [hlt, hlt', eq_comm (a := i % 8), mod_eq_iff hbyte]
  · rw [Function.update_of_ne hbyte]
    have hne : j ≠ i := fun h => hbyte (by rw [h])
    simp [hne]

end Bitmap
