import Mathlib

/-!
# `Locks` — who holds which lock

A lock table says who holds each lock. Independently of it, the program text says which locks each holder
believes to have: its *claims*. `Exact` says that the two agree and that nobody claims a lock twice, so that
claims can be used for mutual exclusion: two holders never claim the same lock.
-/

namespace Locks

variable {L C : Type*} [DecidableEq L] [DecidableEq C]

def Exact (lock : L → Option C) (claims : C → List L) : Prop :=
  ∀ c x, (claims c).count x = if lock x = some c then 1 else 0

variable {lock : L → Option C} {claims claims' : C → List L} {c c' : C} {x lk : L}

theorem Exact.mem_iff (h : Exact lock claims) : x ∈ claims c ↔ lock x = some c := by
  rw [← List.count_pos_iff, h c x]
  split <;> simp_all

/-- The claims are listed in another order. -/
theorem Exact.congr (h : Exact lock claims) (hp : ∀ c, (claims' c).Perm (claims c)) : Exact lock claims' := by
  intro c x
  rw [(hp c).count_eq x]
  exact h c x

theorem Exact.acquire (h : Exact lock claims) (hfree : lock lk = none)
    (hc : (claims' c).Perm (lk :: claims c)) (hother : ∀ c', c' ≠ c → claims' c' = claims c') :
    Exact (Function.update lock lk (some c)) claims' := by
  intro d x
  by_cases hx : x = lk
  · subst hx
    have hnone := h d x
    rw [hfree] at hnone
    rw [Function.update_self]
    by_cases hd : d = c
    · subst hd
      rw [hc.count_eq, List.count_cons_self, hnone]
      simp
    · rw [hother d hd, hnone]
      simp [Ne.symm hd]
  · rw [Function.update_of_ne hx]
    by_cases hd : d = c
    · subst hd
      rw [hc.count_eq, List.count_cons_of_ne (Ne.symm hx)]
      exact h d x
    · rw [hother d hd]
      exact h d x

theorem Exact.release (h : Exact lock claims) (hc : (claims c).Perm (lk :: claims' c))
    (hother : ∀ c', c' ≠ c → claims' c' = claims c') : Exact (Function.update lock lk none) claims' := by
  have hheld : lock lk = some c := h.mem_iff.mp (hc.symm.subset List.mem_cons_self)
  intro d x
  by_cases hx : x = lk
  · subst hx
    rw [Function.update_self]
    have hcount := h d x
    rw [hheld] at hcount
    by_cases hd : d = c
    · subst hd
      rw [hc.count_eq, List.count_cons_self, if_pos rfl] at hcount
      simpa using hcount
    · rw [hother d hd, hcount]
      simp [Ne.symm hd]
  · rw [Function.update_of_ne hx]
    by_cases hd : d = c
    · subst hd
      have hcount := h d x
      rwa [hc.count_eq, List.count_cons_of_ne (Ne.symm hx)] at hcount
    · rw [hother d hd]
      exact h d x

/-- A holder of one lock that it claims holds no other. -/
theorem Exact.eq_singleton (h : Exact lock claims) (hlen : (claims c).length = 1) (hx : lock x = some c) :
    claims c = [x] := by
  obtain ⟨y, hy⟩ := List.length_eq_one_iff.mp hlen
  have hmem := h.mem_iff.mpr hx
  rw [hy, List.mem_singleton] at hmem
  rw [hy, hmem]

end Locks
