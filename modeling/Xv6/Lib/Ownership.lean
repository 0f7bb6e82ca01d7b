import Mathlib

/-!
# `Ownership` — places that own distinct resources of a pool

`refs` says which resource a place refers to and `used` which resources are marked as taken. `Owned` is the
safe half of the book-keeping (no resource has two owners, whatever is owned is marked), `Tight` the other
half (whatever is marked is owned). Taking a free resource and giving resources back keep both.
-/

namespace Ownership

variable {K B : Type*} {refs refs' : K → Option B} {used used' : B → Prop} {k : K} {b : B}

structure Owned (refs : K → Option B) (used : B → Prop) : Prop where
  inj : ∀ {k k' b}, refs k = some b → refs k' = some b → k = k'
  used : ∀ {k b}, refs k = some b → used b

/-- Nothing that is marked is without an owner. -/
def Tight (refs : K → Option B) (used : B → Prop) : Prop := ∀ b, used b → ∃ k, refs k = some b

section
variable [DecidableEq K]

/-- A free resource gets an owner. -/
theorem Owned.attach (h : Owned refs used) (hb : ¬used b) (hr : refs' = Function.update refs k (some b))
    (hu : ∀ b', used' b' ↔ b' = b ∨ used b') : Owned refs' used' := by
  subst hr
  have hfresh : ∀ k', refs k' ≠ some b := fun k' hk' => hb (h.used hk')
  refine ⟨fun {k₁ k₂ b'} h₁ h₂ => ?_, fun {k' b'} h₁ => ?_⟩
  · rw [Function.update_apply] at h₁ h₂
    split at h₁ <;> split at h₂
    · exact (by assumption : k₁ = k).trans (by assumption : k₂ = k).symm
    · cases h₁
      exact absurd h₂ (hfresh k₂)
    · cases h₂
      exact absurd h₁ (hfresh k₁)
    · exact h.inj h₁ h₂
  · rw [Function.update_apply] at h₁
    rw [hu]
    split at h₁
    · cases h₁
      exact Or.inl rfl
    · exact Or.inr (h.used h₁)

theorem Tight.attach (h : Tight refs used) (hk : refs k = none)
    (hr : refs' = Function.update refs k (some b)) (hu : ∀ b', used' b' ↔ b' = b ∨ used b') :
    Tight refs' used' := by
  subst hr
  intro b' hb'
  rcases (hu b').mp hb' with rfl | hb'
  · exact ⟨k, Function.update_self _ _ _⟩
  · obtain ⟨k', hk'⟩ := h b' hb'
    have hne : k' ≠ k := by
      rintro rfl
      rw [hk] at hk'
      cases hk'
    exact ⟨k', by rw [Function.update_of_ne hne, hk']⟩

end

/-- The places in `S` give back what they own. -/
theorem Owned.release {S : K → Prop} (h : Owned refs used) (hS : ∀ k, S k → refs' k = none)
    (hr : ∀ k, ¬S k → refs' k = refs k)
    (hu : ∀ b, used' b ↔ used b ∧ ∀ k, S k → refs k ≠ some b) : Owned refs' used' := by
  have hback : ∀ {k b}, refs' k = some b → ¬S k ∧ refs k = some b := by
    intro k b hk
    by_cases hSk : S k
    · rw [hS k hSk] at hk
      cases hk
    · exact ⟨hSk, hr k hSk ▸ hk⟩
  refine ⟨fun h₁ h₂ => h.inj (hback h₁).2 (hback h₂).2, fun {k b} hk => ?_⟩
  obtain ⟨hSk, hk⟩ := hback hk
  refine (hu b).mpr ⟨h.used hk, fun k' hSk' hk' => ?_⟩
  exact hSk (h.inj hk hk' ▸ hSk')

theorem Tight.release {S : K → Prop} (h : Tight refs used) (hr : ∀ k, ¬S k → refs' k = refs k)
    (hu : ∀ b, used' b ↔ used b ∧ ∀ k, S k → refs k ≠ some b) : Tight refs' used' := by
  intro b hb
  obtain ⟨hused, hnot⟩ := (hu b).mp hb
  obtain ⟨k, hk⟩ := h b hused
  exact ⟨k, by rw [hr k fun hS => hnot k hS hk, hk]⟩

end Ownership
