import Mathlib

/-!
# `Ring` — a circular buffer addressed by free-running counters

A ring of `C` slots is read at counter `r` and written at counter `w`. Both counters run freely modulo
`M` and are reduced modulo `C` only to address a slot, which is sound because `C ∣ M`. `count` is how far
`w` is ahead of `r`, and `slots` lists the slots from `r` on in order.
-/

namespace Ring

variable {α : Type*} {C M : Nat}

/-- `w - r` modulo `M`. -/
def count (M r w : Nat) : Nat := (w + M - r) % M

/-- The contents of `n` consecutive slots from counter `r` on. -/
def slots (C : Nat) (d : Nat → α) (r n : Nat) : List α := (List.range n).map fun k => d ((r + k) % C)

theorem count_lt {r w : Nat} (hr : r < M) : count M r w < M := Nat.mod_lt _ (by omega)

theorem count_self {r : Nat} : count M r r = 0 := by simp [count]

/-- The two ways `w` can stand to `r` without wrapping more than once. -/
theorem count_cases {r w : Nat} (hr : r < M) (hw : w < M) :
    (r ≤ w ∧ count M r w = w - r) ∨ (w < r ∧ count M r w = w + M - r) := by
  unfold count
  by_cases h : r ≤ w
  · refine Or.inl ⟨h, ?_⟩
    rw [show w + M - r = w - r + M by omega, Nat.add_mod_right]
    exact Nat.mod_eq_of_lt (by omega)
  · exact Or.inr ⟨by omega, Nat.mod_eq_of_lt (by omega)⟩

theorem count_eq_zero_iff {r w : Nat} (hr : r < M) (hw : w < M) : count M r w = 0 ↔ r = w := by
  rcases count_cases hr hw with ⟨_, h⟩ | ⟨_, h⟩ <;> omega

/-- One more than `x` modulo `M`, for `x` below `M`. -/
theorem succ_mod_cases {x : Nat} (hx : x < M) :
    (x + 1 < M ∧ (x + 1) % M = x + 1) ∨ (x + 1 = M ∧ (x + 1) % M = 0) := by
  by_cases h : x + 1 < M
  · exact Or.inl ⟨h, Nat.mod_eq_of_lt h⟩
  · have hM : x + 1 = M := by omega
    exact Or.inr ⟨hM, by rw [hM, Nat.mod_self]⟩

/-- The writer's counter has reached `r + c` exactly if the reader is `c` behind. -/
theorem count_eq_iff {r w c : Nat} (hr : r < M) (hw : w < M) (hc : c < M) :
    count M r w = c ↔ w = (r + c) % M := by
  have hrc : (r + c < M ∧ (r + c) % M = r + c) ∨ (M ≤ r + c ∧ (r + c) % M = r + c - M) := by
    by_cases h : r + c < M
    · exact Or.inl ⟨h, Nat.mod_eq_of_lt h⟩
    · refine Or.inr ⟨by omega, ?_⟩
      rw [Nat.mod_eq_sub_mod (by omega)]
      exact Nat.mod_eq_of_lt (by omega)
  rcases count_cases hr hw with ⟨_, h⟩ | ⟨_, h⟩ <;> rcases hrc with ⟨_, h'⟩ | ⟨_, h'⟩ <;> omega

theorem count_succ_right {r w : Nat} (hr : r < M) (hw : w < M) (h : count M r w + 1 < M) :
    count M r ((w + 1) % M) = count M r w + 1 := by
  have hw' : (w + 1) % M < M := Nat.mod_lt _ (by omega)
  rcases count_cases hr hw with ⟨_, h1⟩ | ⟨_, h1⟩ <;>
  rcases count_cases hr hw' with ⟨_, h2⟩ | ⟨_, h2⟩ <;>
  rcases succ_mod_cases hw with ⟨_, h3⟩ | ⟨_, h3⟩ <;> omega

theorem count_succ_left {r w : Nat} (hr : r < M) (hw : w < M) (h : count M r w ≠ 0) :
    count M ((r + 1) % M) w = count M r w - 1 := by
  have hr' : (r + 1) % M < M := Nat.mod_lt _ (by omega)
  rcases count_cases hr hw with ⟨_, h1⟩ | ⟨_, h1⟩ <;>
  rcases count_cases hr' hw with ⟨_, h2⟩ | ⟨_, h2⟩ <;>
  rcases succ_mod_cases hr with ⟨_, h3⟩ | ⟨_, h3⟩ <;> omega

@[simp] theorem length_slots (d : Nat → α) (r n : Nat) : (slots C d r n).length = n := by simp [slots]

theorem slots_succ (d : Nat → α) (r n : Nat) :
    slots C d r (n + 1) = slots C d r n ++ [d ((r + n) % C)] := by
  simp [slots, List.range_succ]

theorem slots_cons (d : Nat → α) (r n : Nat) :
    slots C d r (n + 1) = d (r % C) :: slots C d (r + 1) n := by
  simp only [slots, List.range_succ_eq_map, List.map_cons, List.map_map, Nat.add_zero]
  refine congrArg _ (List.map_congr_left fun k _ => ?_)
  simp only [Function.comp_apply, Nat.succ_eq_add_one]
  rw [show r + (k + 1) = r + 1 + k by omega]

theorem slots_add (d : Nat → α) (r m n : Nat) : slots C d r (m + n) = slots C d r m ++ slots C d (r + m) n := by
  simp only [slots, List.range_add, List.map_append, List.map_map]
  refine congrArg _ (List.map_congr_left fun k _ => ?_)
  rw [Function.comp_apply, Nat.add_assoc]

/-- Reducing the counter modulo `M` does not change which slots it addresses. -/
theorem slots_mod (hCM : C ∣ M) (d : Nat → α) (r n : Nat) : slots C d (r % M) n = slots C d r n := by
  refine List.map_congr_left fun k _ => ?_
  rw [Nat.add_mod, Nat.mod_mod_of_dvd r hCM, ← Nat.add_mod]

/-- Writing the first slot after `n < C` occupied ones changes none of them. -/
theorem slots_update (d : Nat → α) (r : Nat) {n : Nat} (hn : n < C) (x : α) :
    slots C (Function.update d ((r + n) % C) x) r n = slots C d r n := by
  refine List.map_congr_left fun k hk => Function.update_of_ne ?_ _ _
  intro he
  have hk' : k < n := List.mem_range.mp hk
  have hsub : (r + n - (r + k)) % C = 0 := Nat.sub_mod_eq_zero_of_mod_eq he.symm
  rw [show r + n - (r + k) = n - k by omega, Nat.mod_eq_of_lt (by omega)] at hsub
  omega

/-- The slot the writer's counter addresses is the one after the occupied slots. -/
theorem slot_of_count (hCM : C ∣ M) {r w : Nat} (hr : r < M) (hw : w < M) :
    (r + count M r w) % C = w % C := by
  have h := (count_eq_iff hr hw (count_lt hr)).mp rfl
  conv_rhs => rw [h]
  exact (Nat.mod_mod_of_dvd _ hCM).symm

/-- A write at the writer's counter appends to the occupied slots. -/
theorem slots_push (hCM : C ∣ M) (hC : C < M) {r w : Nat} (hr : r < M) (hw : w < M) (hn : count M r w < C) (d : Nat → α)
    (x : α) : slots C (Function.update d (w % C) x) r (count M r ((w + 1) % M)) = slots C d r (count M r w) ++ [x] := by
  rw [count_succ_right hr hw (by omega), slots_succ, ← slot_of_count hCM hr hw, slots_update d r hn,
    Function.update_self]

/-- A step of the reader's counter takes the first of the occupied slots. -/
theorem slots_pop (hCM : C ∣ M) {r w : Nat} (hr : r < M) (hw : w < M) (hne : r ≠ w) (d : Nat → α) :
    slots C d r (count M r w) = d (r % C) :: slots C d ((r + 1) % M) (count M ((r + 1) % M) w) := by
  have hpos : count M r w ≠ 0 := fun h => hne ((count_eq_zero_iff hr hw).mp h)
  obtain ⟨n, hn⟩ := Nat.exists_eq_succ_of_ne_zero hpos
  rw [count_succ_left hr hw hpos, hn, slots_cons, slots_mod hCM]
  rfl

end Ring
