import Mathlib

/-!
# `Ledger` — what all holders have together

Each of finitely many holders `k` is in a state `g k` that is worth `m (g k)`. The lemmas say what the total is after
one holder has changed, and what a total tells about one or two of its holders.
-/

namespace Ledger

variable {K A : Type*} [Fintype K] {m : A → ℤ} {g : K → A}

theorem sum_update [DecidableEq K] (m : A → ℤ) (g : K → A) (k : K) (a : A) :
    ∑ q, m (Function.update g k a q) = ∑ q, m (g q) + m a - m (g k) := by
  have hrest : ∑ q ∈ Finset.univ.erase k, m (Function.update g k a q) = ∑ q ∈ Finset.univ.erase k, m (g q) :=
    Finset.sum_congr rfl fun q hq => by rw [Function.update_of_ne (Finset.ne_of_mem_erase hq)]
  rw [← Finset.add_sum_erase _ _ (Finset.mem_univ k), ← Finset.add_sum_erase (f := fun q => m (g q)) _ (Finset.mem_univ k),
    hrest, Function.update_self]
  omega

theorem le_sum (h : ∀ q, 0 ≤ m (g q)) (k : K) : m (g k) ≤ ∑ q, m (g q) :=
  Finset.single_le_sum (f := fun q => m (g q)) (fun q _ => h q) (Finset.mem_univ k)

theorem add_le_sum (h : ∀ q, 0 ≤ m (g q)) {k j : K} (hne : k ≠ j) : m (g k) + m (g j) ≤ ∑ q, m (g q) :=
  Finset.add_le_sum (f := fun q => m (g q)) (fun q _ => h q) (Finset.mem_univ k) (Finset.mem_univ j) hne

/-- Somebody has a share in a total that is not zero. -/
theorem exists_pos (h : 0 < ∑ q, m (g q)) : ∃ q, 0 < m (g q) := by
  obtain ⟨q, -, hq⟩ := Finset.exists_lt_of_sum_lt (s := Finset.univ) (f := fun _ : K => (0 : ℤ)) (by simpa using h)
  exact ⟨q, hq⟩

end Ledger
