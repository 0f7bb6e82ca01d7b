import Mathlib

/-!
# `Outcome` — what a computation that may fail can end with

`Sat E Q x` says that `x` returns a value with property `Q` or fails with an error in `E`. The rules follow
the program text: one for a value, one for a failure, one for sequencing, one for a loop over a list.
-/

namespace Outcome

variable {ε α β γ : Type}

inductive Sat (E : ε → Prop) (Q : α → Prop) : Except ε α → Prop
  | ok {a : α} (h : Q a) : Sat E Q (.ok a)
  | error {e : ε} (h : E e) : Sat E Q (.error e)

variable {E : ε → Prop} {Q : α → Prop} {R : β → Prop} {x : Except ε α}

theorem Sat.of_ok {a : α} (h : Sat E Q (.ok a)) : Q a := by
  cases h with
  | ok h => exact h

theorem Sat.of_error {e : ε} (h : Sat E Q (.error e)) : E e := by
  cases h with
  | error h => exact h

theorem Sat.mono {E' : ε → Prop} {Q' : α → Prop} (h : Sat E Q x) (hE : ∀ e, E e → E' e)
    (hQ : ∀ a, Q a → Q' a) : Sat E' Q' x := by
  cases h with
  | ok h => exact .ok (hQ _ h)
  | error h => exact .error (hE _ h)

/-- **Sequencing.** -/
theorem Sat.bind {f : α → Except ε β} (h : Sat E Q x) (hf : ∀ a, Q a → Sat E R (f a)) :
    Sat E R (x >>= f) := by
  cases h with
  | ok h => exact hf _ h
  | error h => exact .error h

/-- A computation that cannot fail returns. -/
theorem Sat.exists_ok (h : Sat (fun _ : ε => False) Q x) : ∃ a, x = .ok a ∧ Q a := by
  cases h with
  | ok h => exact ⟨_, rfl, h⟩
  | error h => exact h.elim

/-- **Loops.** `I k` holds before the loop takes its `k`-th turn. -/
theorem Sat.foldlM {f : α → γ → Except ε α} {I : List γ → α → Prop} {xs : List γ} {a : α}
    (h0 : I xs a) (hstep : ∀ y ys a, I (y :: ys) a → Sat E (I ys) (f a y)) :
    Sat E (I []) (xs.foldlM f a) := by
  induction xs generalizing a with
  | nil => exact .ok h0
  | cons y ys ih =>
      rw [List.foldlM_cons]
      exact (hstep y ys a h0).bind fun b hb => ih hb

end Outcome
