import Mathlib

/-!
# `Dlist` — circular doubly linked lists with a head node

The links of all nodes are two functions. `Ring L h xs` says that the nodes reached from the head `h` through
`next` are `xs`, each once and none of them `h`, before `h` is reached again, and that `prev` runs through
the same nodes backwards. The two pointer updates of a least-recently-used list, `unlink` and `insertAfter`,
keep it, and a loop over the list (`walk`) is a search in `xs`.
-/

namespace Dlist

variable {ν : Type*}

structure Links (ν : Type*) where
  next : ν → ν
  prev : ν → ν

/-- The same links read in the other direction. -/
def Links.rev (L : Links ν) : Links ν := ⟨L.prev, L.next⟩

/-- From `a` the links lead through `xs` to `z`, and back. -/
def Seg (L : Links ν) : ν → List ν → ν → Prop
  | a, [], z => L.next a = z ∧ L.prev z = a
  | a, x :: xs, z => (L.next a = x ∧ L.prev x = a) ∧ Seg L x xs z

structure Ring (L : Links ν) (h : ν) (xs : List ν) : Prop where
  nodup : (h :: xs).Nodup
  seg : Seg L h xs h

/-! ## Segments -/

section Segments

variable {L L' : Links ν} {a b c z h : ν} {xs ys : List ν}

theorem seg_append : Seg L a (xs ++ b :: ys) z ↔ Seg L a xs b ∧ Seg L b ys z := by
  induction xs generalizing a with
  | nil => exact Iff.rfl
  | cons x xs ih =>
      show (_ ∧ Seg L x (xs ++ b :: ys) z) ↔ (_ ∧ Seg L x xs b) ∧ _
      rw [ih, ← and_assoc]

/-- A segment reads `next` of its nodes but the last, and `prev` of its nodes but the first. -/
theorem Seg.congr (hs : Seg L a xs z) (hn : ∀ y ∈ a :: xs, L'.next y = L.next y)
    (hp : ∀ y ∈ xs ++ [z], L'.prev y = L.prev y) : Seg L' a xs z := by
  induction xs generalizing a with
  | nil =>
      obtain ⟨hna, hpz⟩ := hs
      exact ⟨(hn a (by simp)).trans hna, (hp z (by simp)).trans hpz⟩
  | cons x xs ih =>
      obtain ⟨⟨hna, hpx⟩, hs⟩ := hs
      refine ⟨⟨(hn a (by simp)).trans hna, (hp x (by simp)).trans hpx⟩, ?_⟩
      apply ih hs
      · intro y hy
        exact hn y (List.mem_cons_of_mem a hy)
      · intro y hy
        exact hp y (List.mem_cons_of_mem x hy)

/-- The node before the end is one of the segment. -/
theorem Seg.prev_mem (hs : Seg L a xs z) : L.prev z ∈ a :: xs := by
  induction xs generalizing a with
  | nil => exact hs.2 ▸ List.mem_cons_self
  | cons x xs ih => exact List.mem_cons_of_mem a (ih hs.2)

theorem Seg.rev (hs : Seg L a xs z) : Seg L.rev z xs.reverse a := by
  induction xs generalizing a with
  | nil => exact ⟨hs.2, hs.1⟩
  | cons x xs ih =>
      obtain ⟨⟨hna, hpx⟩, hs⟩ := hs
      rw [List.reverse_cons, seg_append]
      exact ⟨ih hs, hpx, hna⟩

theorem Ring.rev (hr : Ring L h xs) : Ring L.rev h xs.reverse := by
  refine ⟨?_, hr.seg.rev⟩
  have hn := hr.nodup
  rw [List.nodup_cons] at hn ⊢
  exact ⟨fun hm => hn.1 (List.mem_reverse.mp hm), List.nodup_reverse.mpr hn.2⟩

end Segments

/-! ## Loops -/

section Loops

variable [DecidableEq ν]

/-- `for(b = a; b != h; b = f(b)) if(p(b)) return b;` with a bound on the number of turns. -/
def walk (f : ν → ν) (h : ν) (p : ν → Bool) : Nat → ν → Option ν
  | 0, _ => none
  | n + 1, b => if b = h then none else if p b then some b else walk f h p n (f b)

variable {L : Links ν} {h a : ν} {xs : List ν} {p : ν → Bool} {n : Nat}

theorem Seg.walk_next (hs : Seg L a xs h) (hh : h ∉ xs) (hn : xs.length < n) :
    walk L.next h p n (L.next a) = xs.find? p := by
  induction xs generalizing a n with
  | nil =>
      obtain ⟨m, rfl⟩ := Nat.exists_eq_add_one_of_ne_zero (Nat.ne_of_gt hn)
      rw [hs.1, walk, if_pos rfl]
      rfl
  | cons x xs ih =>
      obtain ⟨m, rfl⟩ := Nat.exists_eq_add_one_of_ne_zero (Nat.ne_of_gt (Nat.zero_lt_of_lt hn))
      obtain ⟨hhx, hhxs⟩ := not_or.mp (List.mem_cons.not.mp hh)
      rw [hs.1.1, walk, if_neg (Ne.symm hhx), List.find?_cons]
      cases p x with
      | true => rfl
      | false => exact ih hs.2 hhxs (Nat.lt_of_succ_lt_succ hn)

/-- A loop from `head.next` finds the first node. -/
theorem Ring.walk_next (hr : Ring L h xs) (hn : xs.length < n) :
    walk L.next h p n (L.next h) = xs.find? p :=
  hr.seg.walk_next (List.nodup_cons.mp hr.nodup).1 hn

/-- A loop from `head.prev` finds the last node. -/
theorem Ring.walk_prev (hr : Ring L h xs) (hn : xs.length < n) :
    walk L.prev h p n (L.prev h) = xs.reverse.find? p := by
  apply hr.rev.walk_next
  rwa [List.length_reverse]

end Loops

/-! ## Updates -/

section Updates

variable [DecidableEq ν]

def Links.setNext (L : Links ν) (a v : ν) : Links ν := { L with next := Function.update L.next a v }

def Links.setPrev (L : Links ν) (a v : ν) : Links ν := { L with prev := Function.update L.prev a v }

/-- `b->next->prev = b->prev; b->prev->next = b->next;` -/
def Links.unlink (L : Links ν) (b : ν) : Links ν :=
  let L := L.setPrev (L.next b) (L.prev b)
  L.setNext (L.prev b) (L.next b)

/-- `b->next = h->next; b->prev = h; h->next->prev = b; h->next = b;` -/
def Links.insertAfter (L : Links ν) (h b : ν) : Links ν :=
  let L := L.setNext b (L.next h)
  let L := L.setPrev b h
  let L := L.setPrev (L.next h) b
  L.setNext h b

variable {L L' : Links ν} {a b c h : ν} {xs ys : List ν}

/-- A segment up to `b` becomes one up to `c` if the node before `b` and `c` are linked to each other. -/
theorem Seg.redirect (hs : Seg L a xs b) (hnd : (a :: xs).Nodup) (hc : c ∉ xs)
    (hn : L'.next = Function.update L.next (L.prev b) c)
    (hp : L'.prev = Function.update L.prev c (L.prev b)) : Seg L' a xs c := by
  induction xs generalizing a with
  | nil =>
      obtain ⟨_, hpb⟩ := hs
      rw [hpb] at hn hp
      exact ⟨by rw [hn, Function.update_self], by rw [hp, Function.update_self]⟩
  | cons x xs ih =>
      obtain ⟨⟨hna, hpx⟩, hs⟩ := hs
      obtain ⟨hcx, hcxs⟩ := not_or.mp (List.mem_cons.not.mp hc)
      have hne : a ≠ L.prev b := fun h => (List.nodup_cons.mp hnd).1 (h ▸ hs.prev_mem)
      refine ⟨⟨?_, ?_⟩, ih hs (List.nodup_cons.mp hnd).2 hcxs⟩
      · rw [hn, Function.update_of_ne hne, hna]
      · rw [hp, Function.update_of_ne (Ne.symm hcx), hpx]

theorem Ring.unlink (hr : Ring L h (xs ++ b :: ys)) : Ring (L.unlink b) h (xs ++ ys) := by
  obtain ⟨hs, ht⟩ := seg_append.mp hr.seg
  have hnd : (h :: (xs ++ b :: ys)).Nodup := hr.nodup
  have hnd' : (h :: (xs ++ ys)).Nodup := by
    refine hnd.sublist (List.Sublist.cons_cons h ?_)
    exact (List.Sublist.refl xs).append (List.sublist_cons_self b ys)
  have hbnext : L.next b ≠ b := by
    intro hb
    cases ys with
    | nil =>
        have hbh : b = h := by rw [← hb, ht.1]
        simp [hbh] at hnd
    | cons y ys =>
        have hby : b = y := by rw [← hb, ht.1.1]
        simp [hby, List.nodup_append] at hnd
  have hprev : (L.unlink b).prev = Function.update L.prev (L.next b) (L.prev b) := rfl
  have hnext : (L.unlink b).next = Function.update L.next (L.prev b) (L.next b) := by
    show Function.update L.next (Function.update L.prev (L.next b) (L.prev b) b) (L.next b) = _
    rw [Function.update_of_ne (Ne.symm hbnext)]
  refine ⟨hnd', ?_⟩
  have hxs : (h :: xs).Nodup := hnd.sublist (List.Sublist.cons_cons h (List.sublist_append_left xs _))
  cases ys with
  | nil =>
      rw [ht.1] at hprev hnext
      rw [List.append_nil]
      exact hs.redirect hxs (fun hm => (List.nodup_cons.mp hxs).1 hm) hnext hprev
  | cons y ys =>
      obtain ⟨⟨hny, _⟩, ht⟩ := ht
      rw [hny] at hprev hnext
      simp only [List.nodup_cons, List.nodup_append, List.mem_append, List.mem_cons] at hnd'
      obtain ⟨hh, _, ⟨hyys, _⟩, hdisj⟩ := hnd'
      rw [seg_append]
      refine ⟨hs.redirect hxs (fun hm => hdisj y hm y (Or.inl rfl) rfl) hnext hprev, ?_⟩
      apply ht.congr
      · intro z hz
        rw [hnext]
        refine Function.update_of_ne ?_ _ _
        -- the node before `b` is not one of those after it
        rintro rfl
        have hmem := hs.prev_mem
        rcases List.mem_cons.mp hmem with hzh | hzx
        · exact hh (Or.inr (hzh ▸ List.mem_cons.mp hz))
        · exact hdisj _ hzx _ (List.mem_cons.mp hz) rfl
      · intro z hz
        rw [hprev]
        refine Function.update_of_ne ?_ _ _
        rintro rfl
        rcases List.mem_append.mp hz with hz | hz
        · exact hyys hz
        · exact hh (Or.inr (Or.inl (List.mem_singleton.mp hz).symm))

theorem Ring.insertAfter (hr : Ring L h xs) (hb : b ∉ h :: xs) : Ring (L.insertAfter h b) h (b :: xs) := by
  obtain ⟨hbh, hbx⟩ := not_or.mp (List.mem_cons.not.mp hb)
  obtain ⟨hhx, hxs⟩ := List.nodup_cons.mp hr.nodup
  have hnext : (L.insertAfter h b).next = Function.update (Function.update L.next b (L.next h)) h b := rfl
  have hprev : (L.insertAfter h b).prev = Function.update (Function.update L.prev b h) (L.next h) b := by
    show Function.update (Function.update L.prev b h) (Function.update L.next b (L.next h) h) b = _
    rw [Function.update_of_ne (Ne.symm hbh)]
  have hnh : (L.insertAfter h b).next h = b := by rw [hnext, Function.update_self]
  have hnb : (L.insertAfter h b).next b = L.next h := by
    rw [hnext, Function.update_of_ne hbh, Function.update_self]
  refine ⟨?_, ?_⟩
  · simp only [List.nodup_cons, List.mem_cons, not_or]
    exact ⟨⟨Ne.symm hbh, hhx⟩, hbx, hxs⟩
  cases xs with
  | nil =>
      obtain ⟨hn, _⟩ := hr.seg
      rw [hn] at hprev hnb
      refine ⟨⟨hnh, ?_⟩, hnb, ?_⟩
      · rw [hprev, Function.update_of_ne hbh, Function.update_self]
      · rw [hprev, Function.update_self]
  | cons x xs =>
      obtain ⟨⟨hn, _⟩, hs⟩ := hr.seg
      rw [hn] at hprev hnb
      obtain ⟨hbx', _⟩ := not_or.mp (List.mem_cons.not.mp hbx)
      obtain ⟨hhx', hhxs⟩ := not_or.mp (List.mem_cons.not.mp hhx)
      refine ⟨⟨hnh, ?_⟩, ⟨hnb, ?_⟩, hs.congr ?_ ?_⟩
      · rw [hprev, Function.update_of_ne hbx', Function.update_self]
      · rw [hprev, Function.update_self]
      · intro y hy
        have hyh : y ≠ h := fun he => hhx (he ▸ hy)
        have hyb : y ≠ b := fun he => hbx (he ▸ hy)
        rw [hnext, Function.update_of_ne hyh, Function.update_of_ne hyb]
      · intro y hy
        have hyx : y ≠ x := by
          rintro rfl
          rcases List.mem_append.mp hy with hy | hy
          · exact (List.nodup_cons.mp hxs).1 hy
          · exact hhx' (List.mem_singleton.mp hy).symm
        have hyb : y ≠ b := by
          rintro rfl
          rcases List.mem_append.mp hy with hy | hy
          · exact hbx (List.mem_cons_of_mem x hy)
          · exact hbh (List.mem_singleton.mp hy)
        rw [hprev, Function.update_of_ne hyx, Function.update_of_ne hyb]

/-- Moving a node to the front. -/
theorem Ring.moveFront (hr : Ring L h (xs ++ b :: ys)) :
    Ring ((L.unlink b).insertAfter h b) h (b :: (xs ++ ys)) := by
  apply hr.unlink.insertAfter
  have hnd := hr.nodup
  simp only [List.nodup_cons, List.nodup_append, List.mem_append, List.mem_cons, not_or] at hnd ⊢
  obtain ⟨⟨_, hhb, _⟩, _, ⟨hby, _⟩, hdisj⟩ := hnd
  exact ⟨Ne.symm hhb, fun hm => hdisj b hm b (Or.inl rfl) rfl, hby⟩

end Updates

end Dlist
