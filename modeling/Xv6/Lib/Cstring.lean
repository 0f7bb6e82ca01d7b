import Mathlib

/-!
# `Cstring` — reading a NUL-terminated string byte by byte

`byte` is a memory that may have holes. `scan byte n a` reads from position `a` on until it has read a NUL
(and succeeds), `n` bytes, or comes to a hole. `Terminated` says that there is a string of `k` bytes before its
NUL; a scan succeeds exactly if there is one with `k < n`.
-/

namespace Cstring

variable {byte byte' : Nat → Option UInt8} {n a k : Nat} {c : UInt8}

/-- The bytes read, and whether the last one is the NUL. -/
def scan (byte : Nat → Option UInt8) : Nat → Nat → List UInt8 × Bool
  | 0, _ => ([], false)
  | n + 1, a =>
      match byte a with
      | none => ([], false)
      | some c =>
          if c = 0 then ([0], true)
          else
            let rest := scan byte n (a + 1)
            (c :: rest.1, rest.2)

/-- A string of `k` bytes and its NUL stand at `a`. -/
structure Terminated (byte : Nat → Option UInt8) (a k : Nat) : Prop where
  nul : byte (a + k) = some 0
  text : ∀ j < k, ∃ c, byte (a + j) = some c ∧ c ≠ 0

theorem scan_nul (h : byte a = some 0) : scan byte (n + 1) a = ([0], true) := by
  rw [scan, h]
  rfl

theorem scan_char (h : byte a = some c) (hc : c ≠ 0) :
    scan byte (n + 1) a = (c :: (scan byte n (a + 1)).1, (scan byte n (a + 1)).2) := by
  rw [scan, h]
  exact if_neg hc

theorem scan_hole (h : byte a = none) : scan byte n a = ([], false) := by
  cases n with
  | zero => rfl
  | succ n => rw [scan, h]

theorem length_scan_le (byte : Nat → Option UInt8) (n a : Nat) : (scan byte n a).1.length ≤ n := by
  induction n generalizing a with
  | zero => exact le_rfl
  | succ n ih =>
      rw [scan]
      split
      · exact Nat.zero_le _
      · split
        · exact Nat.succ_le_succ (Nat.zero_le _)
        · exact Nat.succ_le_succ (ih (a + 1))

theorem terminated_zero : Terminated byte a 0 ↔ byte a = some 0 :=
  ⟨fun h => h.nul, fun h => ⟨h, fun j hj => absurd hj (Nat.not_lt_zero j)⟩⟩

theorem terminated_succ : Terminated byte a (k + 1) ↔ ∃ c, byte a = some c ∧ c ≠ 0 ∧ Terminated byte (a + 1) k := by
  have hshift : ∀ j, a + 1 + j = a + (j + 1) := fun j => by omega
  constructor
  · intro h
    obtain ⟨c, hc, hne⟩ := h.text 0 (Nat.succ_pos k)
    refine ⟨c, hc, hne, ?_, fun j hj => ?_⟩
    · rw [hshift]
      exact h.nul
    · rw [hshift]
      exact h.text (j + 1) (Nat.succ_lt_succ hj)
  · rintro ⟨c, hc, hne, hnul, htext⟩
    refine ⟨hshift k ▸ hnul, fun j hj => ?_⟩
    cases j with
    | zero => exact ⟨c, hc, hne⟩
    | succ j => exact hshift j ▸ htext j (Nat.lt_of_succ_lt_succ hj)

/-- **A scan finds a string** that is short enough. -/
theorem scan_of_terminated (h : Terminated byte a k) (hk : k < n) :
    (scan byte n a).2 = true ∧ (scan byte n a).1.map some = (List.range (k + 1)).map fun j => byte (a + j) := by
  obtain ⟨n, rfl⟩ : ∃ n', n = n' + 1 := ⟨n - 1, by omega⟩
  induction k generalizing a n with
  | zero =>
      have hnul := terminated_zero.mp h
      rw [scan_nul hnul]
      simp [← hnul]
  | succ k ih =>
      obtain ⟨c, hc, hne, hrest⟩ := terminated_succ.mp h
      obtain ⟨n, rfl⟩ : ∃ n', n = n' + 1 := ⟨n - 1, by omega⟩
      obtain ⟨hok, heq⟩ := ih hrest n (Nat.lt_of_succ_lt_succ hk)
      rw [scan_char hc hne]
      refine ⟨hok, ?_⟩
      have hrange : List.range (k + 1 + 1) = 0 :: (List.range (k + 1)).map Nat.succ := List.range_succ_eq_map
      rw [List.map_cons, heq, hrange, List.map_cons, List.map_map]
      refine List.cons_eq_cons.mpr ⟨hc.symm, List.map_congr_left fun j _ => ?_⟩
      rw [Function.comp_apply, Nat.succ_eq_add_one, show a + 1 + j = a + (j + 1) by omega]

theorem terminated_of_scan (h : (scan byte n a).2 = true) : ∃ k < n, Terminated byte a k := by
  induction n generalizing a with
  | zero => cases h
  | succ n ih =>
      rw [scan] at h
      split at h
      · cases h
      · rename_i c hc
        split at h
        · rename_i h0
          exact ⟨0, Nat.succ_pos n, terminated_zero.mpr (h0 ▸ hc)⟩
        · rename_i hne
          obtain ⟨k, hk, hrest⟩ := ih h
          exact ⟨k + 1, Nat.succ_lt_succ hk, terminated_succ.mpr ⟨c, hc, hne, hrest⟩⟩

/-- A scan that finds a string reads nothing behind it. -/
theorem scan_congr (h : Terminated byte a k) (heq : ∀ j ≤ k, byte' (a + j) = byte (a + j)) :
    scan byte' n a = scan byte n a := by
  induction n generalizing a k with
  | zero => rfl
  | succ n ih =>
      have h0 : byte' a = byte a := heq 0 (Nat.zero_le k)
      cases k with
      | zero =>
          have hnul := terminated_zero.mp h
          rw [scan_nul (h0.trans hnul), scan_nul hnul]
      | succ k =>
          obtain ⟨c, hc, hne, hrest⟩ := terminated_succ.mp h
          have hih := ih hrest fun j hj => by
            rw [show a + 1 + j = a + (j + 1) by omega]
            exact heq (j + 1) (by omega)
          rw [scan_char (h0.trans hc) hne, scan_char hc hne, hih]

end Cstring
