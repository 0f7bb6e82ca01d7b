import Mathlib

/-!
# `Radix` — a tree of tables in a heap of nodes

A table is a node whose entries may point to further nodes; `kid x i` is the node that entry `i` of `x` points
to. `descend` follows a path of entries. A tree of depth `d` is a root from which no node is reached by two
paths of length at most `d`: every table has one place. Linking a fresh, empty table into an empty entry
keeps this and adds one path (**`Tree.descend_link`**, **`Tree.link`**).
-/

namespace Radix

variable {P I : Type*} {kid kid' : P → I → Option P} {root x y : P} {p q : List I} {i : I} {d : Nat}

/-- The node at the end of a path. -/
def descend (kid : P → I → Option P) : P → List I → Option P
  | x, [] => some x
  | x, i :: p => (kid x i).bind fun y => descend kid y p

@[simp] theorem descend_nil (x : P) : descend kid x [] = some x := rfl

theorem descend_append (x : P) (p q : List I) :
    descend kid x (p ++ q) = (descend kid x p).bind fun y => descend kid y q := by
  induction p generalizing x with
  | nil => rfl
  | cons i p ih =>
      simp only [List.cons_append, descend]
      cases kid x i with
      | none => rfl
      | some y => simpa using ih y

theorem descend_snoc (x : P) (p : List I) (i : I) :
    descend kid x (p ++ [i]) = (descend kid x p).bind fun y => kid y i := by
  rw [descend_append]
  refine congrArg _ (funext fun y => ?_)
  cases h : kid y i with
  | none => simp [descend, h]
  | some z => simp [descend, h]

/-- A path reads only the tables above its end. -/
theorem descend_congr (h : ∀ q x, q.length < p.length → descend kid root q = some x → ∀ i, kid' x i = kid x i) :
    descend kid' root p = descend kid root p := by
  induction p using List.reverseRecOn with
  | nil => rfl
  | append_singleton p i ih =>
      have hlen : p.length < (p ++ [i]).length := by simp
      rw [descend_snoc, descend_snoc, ih fun q x hq => h q x (hq.trans hlen)]
      cases hx : descend kid root p with
      | none => rfl
      | some x => exact h p x hlen hx i

/-- Every table down to depth `d` is reached by one path. -/
structure Tree (kid : P → I → Option P) (root : P) (d : Nat) : Prop where
  unique : ∀ {p q x}, p.length ≤ d → q.length ≤ d → descend kid root p = some x →
    descend kid root q = some x → p = q

/-- The tables down to depth `d`. -/
def Reaches (kid : P → I → Option P) (root : P) (d : Nat) (x : P) : Prop :=
  ∃ p : List I, p.length ≤ d ∧ descend kid root p = some x

/-- A change of nodes that are no tables of the tree above depth `d`. -/
theorem Tree.congr (ht : Tree kid root d)
    (h : ∀ q x, q.length < d → descend kid root q = some x → ∀ i, kid' x i = kid x i) :
    Tree kid' root d ∧ ∀ p, p.length ≤ d → descend kid' root p = descend kid root p := by
  have heq : ∀ p, p.length ≤ d → descend kid' root p = descend kid root p := fun p hp =>
    descend_congr fun q x hq => h q x (by omega)
  refine ⟨⟨fun {p q x} hp hq hpx hqx => ?_⟩, heq⟩
  rw [heq p hp] at hpx
  rw [heq q hq] at hqx
  exact ht.unique hp hq hpx hqx

/-- `kid'` is `kid` with the fresh, empty table `y` linked into entry `i` of `x`. -/
structure Linked (kid kid' : P → I → Option P) (x : P) (i : I) (y : P) : Prop where
  entry : kid' x i = some y
  other : ∀ j, j ≠ i → kid' x j = kid x j
  fresh : ∀ j, kid' y j = none
  frame : ∀ z, z ≠ x → z ≠ y → ∀ j, kid' z j = kid z j

section
variable [DecidableEq I] (ht : Tree kid root d) (hx : descend kid root p = some x) (hp : p.length < d)
  (hnone : kid x i = none) (hy : ¬Reaches kid root d y) (hl : Linked kid kid' x i y)

include ht hx hp hnone hy hl

/-- **The paths after linking.** -/
theorem Tree.descend_link (hq : q.length ≤ d) :
    descend kid' root q = if q = p ++ [i] then some y else descend kid root q := by
  induction q using List.reverseRecOn with
  | nil =>
      rw [if_neg (by simp)]
      rfl
  | append_singleton q j ih =>
      have hqd : q.length < d := by simpa using hq
      have hxy : x ≠ y := fun heq => hy ⟨p, hp.le, heq ▸ hx⟩
      rw [descend_snoc, ih hqd.le]
      by_cases hqp : q = p ++ [i]
      · -- below the new table there is nothing, as before
        have hne : q ++ [j] ≠ p ++ [i] := fun heq => by
          have := congrArg List.length heq
          rw [hqp] at this
          simp at this
        rw [if_pos hqp, if_neg hne, Option.bind_some, hl.fresh, descend_snoc, hqp, descend_snoc, hx,
          Option.bind_some, hnone]
        rfl
      · rw [if_neg hqp, descend_snoc]
        cases hz : descend kid root q with
        | none =>
            rw [if_neg]
            · rfl
            · intro heq
              rw [(List.append_inj' heq rfl).1, hx] at hz
              cases hz
        | some z =>
            have hzy : z ≠ y := fun heq => hy ⟨q, hqd.le, heq ▸ hz⟩
            rw [Option.bind_some, Option.bind_some]
            by_cases hzx : z = x
            · -- `x` has one path
              subst hzx
              obtain rfl := ht.unique hqd.le hp.le hz hx
              by_cases hji : j = i
              · subst hji
                rw [if_pos rfl, hl.entry]
              · have hne : q ++ [j] ≠ q ++ [i] := fun heq => hji (List.cons.inj (List.append_cancel_left heq)).1
                rw [if_neg hne, hl.other j hji]
            · rw [hl.frame z hzx hzy, if_neg]
              intro heq
              rw [(List.append_inj' heq rfl).1, hx] at hz
              exact hzx (Option.some.inj hz).symm

theorem Tree.link : Tree kid' root d := by
  refine ⟨fun {q r z} hq hr hqz hrz => ?_⟩
  rw [ht.descend_link hx hp hnone hy hl hq] at hqz
  rw [ht.descend_link hx hp hnone hy hl hr] at hrz
  split at hqz <;> split at hrz
  · rename_i h₁ h₂
    rw [h₁, h₂]
  · cases hqz
    exact absurd ⟨r, hr, hrz⟩ hy
  · cases hrz
    exact absurd ⟨q, hq, hqz⟩ hy
  · exact ht.unique hq hr hqz hrz

end

end Radix
