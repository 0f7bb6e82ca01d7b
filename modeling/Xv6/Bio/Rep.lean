import Xv6.Bio.Model

/-!
# `Bio.Rep` — what the buffer cache keeps, whoever calls it

`Rep` is the representation invariant of the cache together with the calls in progress: the links are one
ring through all buffers, no block of a device is cached twice, a call keeps the block it asked for,
and `refcnt` counts the callers and the pins. Each critical section of `bio.c` keeps it (`rep_hit` to
`rep_unpin`); `bget_cases` says what `bget` finds.
-/

namespace Xv6.Bcache

open Logging (Block NBUF)
open Dlist (Ring)

variable {c c' : Cache} {call : Fin NPROC → Option Call} {pins : Fin NBUF → Nat} {i j : Fin NBUF}
  {p q : Fin NPROC} {dev b : Nat} {x : Buf}

/-! ## Reading and writing buffers -/

/-- The block a buffer is for. -/
def Buf.key (x : Buf) : Nat × Nat := (x.dev, x.blockno)

@[simp] theorem set_buf_self : (c.set i x).buf i = x := by
  simp [Cache.set]

theorem set_buf_of_ne (h : j ≠ i) : (c.set i x).buf j = c.buf j := by
  simp [Cache.set, h]

@[simp] theorem set_links : (c.set i x).links = c.links := rfl

/-- A field that a write leaves alone. -/
theorem set_buf_field {β : Type} (f : Buf → β) (j : Fin NBUF) (h : f x = f (c.buf i)) :
    f ((c.set i x).buf j) = f (c.buf j) := by
  by_cases hj : j = i
  · subst hj
    rw [set_buf_self, h]
  · rw [set_buf_of_ne hj]

/-- Change `refcnt`. -/
def setRef (c : Cache) (i : Fin NBUF) (n : UInt32) : Cache := c.set i { c.buf i with refcnt := n }

/-- Give a buffer another block. -/
def recycle (c : Cache) (i : Fin NBUF) (dev b : Nat) : Cache :=
  c.set i { c.buf i with dev := dev, blockno := b, valid := false, refcnt := 1 }

section Fields

variable {n : UInt32} {d : Block} {l : Option (Fin NPROC)} (j : Fin NBUF)

theorem setRef_key : ((setRef c i n).buf j).key = (c.buf j).key := set_buf_field Buf.key j (by rfl)
theorem setRef_lock : ((setRef c i n).buf j).lock = (c.buf j).lock := set_buf_field Buf.lock j (by rfl)
theorem setRef_valid : ((setRef c i n).buf j).valid = (c.buf j).valid := set_buf_field Buf.valid j (by rfl)
theorem setRef_data : ((setRef c i n).buf j).data = (c.buf j).data := set_buf_field Buf.data j (by rfl)

theorem setRef_refcnt : ((setRef c i n).buf j).refcnt = if j = i then n else (c.buf j).refcnt := by
  by_cases hj : j = i
  · subst hj
    rw [setRef, set_buf_self, if_pos rfl]
  · rw [setRef, set_buf_of_ne hj, if_neg hj]

theorem setData_key : ((setData c i d).buf j).key = (c.buf j).key := set_buf_field Buf.key j (by rfl)
theorem setData_lock : ((setData c i d).buf j).lock = (c.buf j).lock := set_buf_field Buf.lock j (by rfl)
theorem setData_valid : ((setData c i d).buf j).valid = (c.buf j).valid := set_buf_field Buf.valid j (by rfl)
theorem setData_refcnt : ((setData c i d).buf j).refcnt = (c.buf j).refcnt := set_buf_field Buf.refcnt j (by rfl)

theorem setData_data : ((setData c i d).buf j).data = if j = i then d else (c.buf j).data := by
  by_cases hj : j = i
  · subst hj
    rw [setData, set_buf_self, if_pos rfl]
  · rw [setData, set_buf_of_ne hj, if_neg hj]

theorem setLock_key : ((setLock c i l).buf j).key = (c.buf j).key := set_buf_field Buf.key j (by rfl)
theorem setLock_valid : ((setLock c i l).buf j).valid = (c.buf j).valid := set_buf_field Buf.valid j (by rfl)
theorem setLock_data : ((setLock c i l).buf j).data = (c.buf j).data := set_buf_field Buf.data j (by rfl)
theorem setLock_refcnt : ((setLock c i l).buf j).refcnt = (c.buf j).refcnt := set_buf_field Buf.refcnt j (by rfl)

theorem setLock_lock : ((setLock c i l).buf j).lock = if j = i then l else (c.buf j).lock := by
  by_cases hj : j = i
  · subst hj
    rw [setLock, set_buf_self, if_pos rfl]
  · rw [setLock, set_buf_of_ne hj, if_neg hj]

theorem recycle_lock : ((recycle c i dev b).buf j).lock = (c.buf j).lock := set_buf_field Buf.lock j (by rfl)

theorem recycle_self : (recycle c i dev b).buf i =
    { c.buf i with dev := dev, blockno := b, valid := false, refcnt := 1 } := set_buf_self

theorem recycle_of_ne {j : Fin NBUF} (h : j ≠ i) : (recycle c i dev b).buf j = c.buf j := set_buf_of_ne h

end Fields

/-! ## The ring -/

/-- The list through `head` is well formed and contains each buffer once. -/
def Cache.Ordered (c : Cache) : Prop :=
  ∃ order : List (Fin NBUF), order.Nodup ∧ (∀ i, i ∈ order) ∧ Ring c.links .head (order.map .buf)

theorem find?_any (f : Fin NBUF → Bool) (order : List (Fin NBUF)) :
    ((order.map Node.buf).find? (Node.any f)).bind Node.index = order.find? f := by
  rw [List.find?_map]
  show ((order.find? f).map Node.buf).bind Node.index = _
  cases order.find? f <;> rfl

theorem length_lt_of_nodup {order : List (Fin NBUF)} (hn : order.Nodup) :
    (order.map Node.buf).length < NBUF + 1 := by
  have hle := hn.length_le_card
  rw [Fintype.card_fin] at hle
  rw [List.length_map]
  exact Nat.lt_succ_of_le hle

theorem cached_eq_some (ho : c.Ordered) (h : c.cached dev b = some i) : (c.buf i).key = (dev, b) := by
  obtain ⟨order, hn, _, hr⟩ := ho
  rw [Cache.cached, hr.walk_next (length_lt_of_nodup hn), find?_any] at h
  have hf := List.find?_some h
  rw [Bool.and_eq_true, beq_iff_eq, beq_iff_eq] at hf
  exact Prod.ext hf.1 hf.2

theorem cached_eq_none (ho : c.Ordered) (h : c.cached dev b = none) (i : Fin NBUF) :
    (c.buf i).key ≠ (dev, b) := by
  obtain ⟨order, hn, hall, hr⟩ := ho
  rw [Cache.cached, hr.walk_next (length_lt_of_nodup hn), find?_any, List.find?_eq_none] at h
  intro hk
  obtain ⟨hd, hb⟩ := Prod.mk.inj hk
  exact h i (hall i) (by rw [hd, hb]; simp)

theorem lru_eq_some (ho : c.Ordered) (h : c.lru = some i) : (c.buf i).refcnt = 0 := by
  obtain ⟨order, hn, _, hr⟩ := ho
  rw [Cache.lru, hr.walk_prev (length_lt_of_nodup hn), ← List.map_reverse, find?_any] at h
  simpa using List.find?_some h

theorem lru_eq_none (ho : c.Ordered) (h : c.lru = none) (i : Fin NBUF) : (c.buf i).refcnt ≠ 0 := by
  obtain ⟨order, hn, hall, hr⟩ := ho
  rw [Cache.lru, hr.walk_prev (length_lt_of_nodup hn), ← List.map_reverse, find?_any, List.find?_eq_none] at h
  intro hz
  exact h i (List.mem_reverse.mpr (hall i)) (by rw [hz]; rfl)

/-- **What `bget` does**: it takes the buffer that has the block, or, if there is none, one without
    references. -/
theorem bget_cases (ho : c.Ordered) (h : bget c dev b = some (c', i)) :
    ((c.buf i).key = (dev, b) ∧ c' = setRef c i ((c.buf i).refcnt + 1)) ∨
      ((∀ j, (c.buf j).key ≠ (dev, b)) ∧ (c.buf i).refcnt = 0 ∧
        c' = recycle c i dev b) := by
  unfold bget at h
  cases hc : c.cached dev b with
  | some k =>
      rw [hc] at h
      cases h
      exact Or.inl ⟨cached_eq_some ho hc, rfl⟩
  | none =>
      rw [hc] at h
      cases hl : c.lru with
      | none =>
          rw [hl] at h
          cases h
      | some k =>
          rw [hl] at h
          cases h
          exact Or.inr ⟨cached_eq_none ho hc, lru_eq_some ho hl, rfl⟩

theorem Cache.Ordered.set (ho : c.Ordered) : (c.set i x).Ordered := ho

theorem Cache.Ordered.moveFront (ho : c.Ordered) :
    Cache.Ordered { c with links := (c.links.unlink (.buf i)).insertAfter .head (.buf i) } := by
  obtain ⟨order, hn, hall, hr⟩ := ho
  obtain ⟨xs, ys, rfl⟩ := List.append_of_mem (hall i)
  refine ⟨i :: (xs ++ ys), ?_, ?_, ?_⟩
  · exact (List.perm_middle.nodup_iff).mp hn
  · intro k
    exact List.perm_middle.mem_iff.mp (hall k)
  · rw [List.map_append, List.map_cons] at hr
    rw [List.map_cons, List.map_append]
    exact hr.moveFront

/-- The loop of `binit`: what it has linked so far, the last first. -/
theorem ring_binit : Ring binit.links .head ((List.finRange NBUF).reverse.map .buf) := by
  have hloop : ∀ (xs done : List (Fin NBUF)) (L : Dlist.Links Node), (xs ++ done).Nodup →
      Ring L .head (done.map Node.buf) →
      Ring (xs.foldl (fun L i => L.insertAfter .head (.buf i)) L) .head ((xs.reverse ++ done).map .buf) := by
    intro xs
    induction xs with
    | nil => exact fun done L _ hr => hr
    | cons x xs ih =>
        intro done L hn hr
        have hx : x ∉ xs ++ done := (List.nodup_cons.mp hn).1
        have hnext : Ring (L.insertAfter .head (.buf x)) .head ((x :: done).map Node.buf) := by
          refine hr.insertAfter ?_
          simp only [List.mem_cons, List.mem_map, reduceCtorEq, Node.buf.injEq, exists_eq_right, false_or]
          exact fun hm => hx (List.mem_append_right xs hm)
        have hperm : (xs ++ x :: done).Nodup := List.perm_middle.nodup_iff.mpr hn
        have hrest := ih (x :: done) _ hperm hnext
        rwa [List.reverse_cons, List.append_assoc]
  have h := hloop (List.finRange NBUF) [] ⟨fun _ => .head, fun _ => .head⟩
    (by simpa using List.nodup_finRange NBUF) ⟨by simp, rfl, rfl⟩
  rwa [List.append_nil] at h

theorem ordered_binit : binit.Ordered :=
  ⟨(List.finRange NBUF).reverse, List.nodup_reverse.mpr (List.nodup_finRange NBUF),
    fun i => List.mem_reverse.mpr (List.mem_finRange i), ring_binit⟩

/-! ## Counting references -/

/-- The buffer a call counts for, beside the holder of its lock. -/
def Call.ref : Call → Option (Fin NBUF)
  | .acquiresleep i _ _ => some i
  | .fill _ _ _ => none
  | .brelse i => some i

/-- The processes waiting for the buffer or on their way out of `brelse`. -/
def waiting (call : Fin NPROC → Option Call) (i : Fin NBUF) : Nat :=
  ∑ p, if (call p).bind Call.ref = some i then 1 else 0

/-- The callers that hold the buffer or wait for it. -/
def callers (c : Cache) (call : Fin NPROC → Option Call) (i : Fin NBUF) : Nat :=
  (if (c.buf i).lock.isSome then 1 else 0) + waiting call i

theorem waiting_le (call : Fin NPROC → Option Call) (i : Fin NBUF) : waiting call i ≤ NPROC := by
  have h := Finset.sum_le_card_nsmul Finset.univ
    (fun p => if (call p).bind Call.ref = some i then 1 else 0) 1 (fun p _ => by split <;> simp)
  simpa [waiting] using h

/-- One process changes its call. -/
theorem waiting_update (call : Fin NPROC → Option Call) (p : Fin NPROC) (i : Fin NBUF) (v : Option Call) :
    waiting (Function.update call p v) i + (if (call p).bind Call.ref = some i then 1 else 0) =
      waiting call i + (if v.bind Call.ref = some i then 1 else 0) := by
  unfold waiting
  rw [← Finset.add_sum_erase _ _ (Finset.mem_univ p),
    ← Finset.add_sum_erase Finset.univ (fun p => if (call p).bind Call.ref = some i then 1 else 0)
      (Finset.mem_univ p)]
  have hrest : ∑ q ∈ Finset.univ.erase p,
        (if (Function.update call p v q).bind Call.ref = some i then 1 else 0) =
      ∑ q ∈ Finset.univ.erase p, if (call q).bind Call.ref = some i then 1 else 0 :=
    Finset.sum_congr rfl fun q hq => by rw [Function.update_of_ne (Finset.ne_of_mem_erase hq)]
  rw [hrest, Function.update_self]
  omega

theorem waiting_pos {k : Call} (hp : call p = some k) (hk : k.ref = some i) : 0 < waiting call i := by
  have h := Finset.single_le_sum (f := fun p => if (call p).bind Call.ref = some i then 1 else 0)
    (fun q _ => Nat.zero_le _) (Finset.mem_univ p)
  rw [hp] at h
  simpa [waiting, hk] using h

/-! ## The invariant -/

structure Rep (c : Cache) (call : Fin NPROC → Option Call) (pins : Fin NBUF → Nat) : Prop where
  ordered : c.Ordered
  unique : ∀ i j, (c.buf i).dev ≠ 0 → (c.buf i).key = (c.buf j).key → i = j
  waits : ∀ p i dev b, call p = some (.acquiresleep i dev b) → (c.buf i).key = (dev, b)
  fills : ∀ p i dev b, call p = some (.fill i dev b) → (c.buf i).key = (dev, b) ∧ (c.buf i).lock = some p
  valid : ∀ p i, (c.buf i).lock = some p → (∀ dev b, call p ≠ some (.fill i dev b)) →
    (c.buf i).valid = true
  refs : ∀ i, (c.buf i).refcnt.toNat = callers c call i + pins i
  few : ∀ i, pins i ≤ 1

theorem rep_binit : Rep binit (fun _ => none) (fun _ => 0) where
  ordered := ordered_binit
  unique := fun i j h => absurd rfl h
  waits := fun p i dev b h => by cases h
  fills := fun p i dev b h => by cases h
  valid := fun p i h => by cases h
  refs := fun i => by simp [binit, callers, waiting]
  few := fun i => Nat.zero_le 1

/-- A buffer that a caller holds or waits for, or that is pinned, is not recycled. -/
theorem Rep.callers_eq_zero (h : Rep c call pins) (hz : (c.buf i).refcnt = 0) :
    (c.buf i).lock = none ∧ waiting call i = 0 ∧ pins i = 0 := by
  have hr := h.refs i
  rw [hz] at hr
  have hsum : callers c call i + pins i = 0 := hr.symm
  unfold callers at hsum
  refine ⟨?_, by omega, by omega⟩
  cases hl : (c.buf i).lock with
  | none => rfl
  | some p =>
      rw [hl] at hsum
      simp only [Option.isSome_some, if_true] at hsum
      omega

/-- The count never reaches the end of a `uint`. -/
theorem Rep.refcnt_succ (h : Rep c call pins) : ((c.buf i).refcnt + 1).toNat = (c.buf i).refcnt.toNat + 1 := by
  have hr := h.refs i
  have hw := waiting_le call i
  have hf := h.few i
  have hlock : (if (c.buf i).lock.isSome then 1 else 0) ≤ 1 := by split <;> simp
  unfold callers NPROC at *
  rw [UInt32.toNat_add, show (1 : UInt32).toNat = 1 from rfl]
  omega

theorem refcnt_pred (h : 0 < x.refcnt.toNat) : (x.refcnt - 1).toNat = x.refcnt.toNat - 1 := by
  have hle : (1 : UInt32) ≤ x.refcnt := UInt32.le_iff_toNat_le.mpr h
  rw [UInt32.toNat_sub_of_le _ _ hle]
  rfl

/-! ## The critical sections -/

/-- A write that keeps every block and lock, and every call. -/
theorem Rep.keep {pins' : Fin NBUF → Nat} (h : Rep c call pins) (ho : c'.Ordered)
    (hkey : ∀ j, (c'.buf j).key = (c.buf j).key) (hlock : ∀ j, (c'.buf j).lock = (c.buf j).lock)
    (hvalid : ∀ j, (c.buf j).valid = true → (c'.buf j).valid = true)
    (hrefs : ∀ j, (c'.buf j).refcnt.toNat = callers c call j + pins' j) (hfew : ∀ j, pins' j ≤ 1) :
    Rep c' call pins' where
  ordered := ho
  unique := by
    intro i j hd hij
    have hk := hkey i
    rw [hkey, hkey] at hij
    exact h.unique i j (fun h0 => hd ((congrArg Prod.fst hk).trans h0)) hij
  waits := fun p i dev b hp => (hkey i).trans (h.waits p i dev b hp)
  fills := by
    intro p i dev b hp
    obtain ⟨hk, hl⟩ := h.fills p i dev b hp
    exact ⟨(hkey i).trans hk, (hlock i).trans hl⟩
  valid := fun p i hl hn => hvalid i (h.valid p i ((hlock i).symm.trans hl) hn)
  refs := by
    intro j
    rw [hrefs, callers, callers, hlock]
  few := hfew

/-- One process moves on to `w`. -/
theorem Rep.move {w : Option Call} (h : Rep c call pins) (ho : c'.Ordered)
    (hkey : ∀ j, (c'.buf j).key = (c.buf j).key)
    (hlock : ∀ j q, q ≠ p → ((c'.buf j).lock = some q ↔ (c.buf j).lock = some q))
    (hwaits : ∀ i dev b, w = some (.acquiresleep i dev b) → (c.buf i).key = (dev, b))
    (hfills : ∀ i dev b, w = some (.fill i dev b) → (c.buf i).key = (dev, b) ∧ (c'.buf i).lock = some p)
    (hvalid : ∀ j, (c.buf j).valid = true → (c'.buf j).valid = true)
    (hself : ∀ i, (c'.buf i).lock = some p → (∀ dev b, w ≠ some (.fill i dev b)) → (c'.buf i).valid = true)
    (hrefs : ∀ j, (c'.buf j).refcnt.toNat = callers c' (Function.update call p w) j + pins j) :
    Rep c' (Function.update call p w) pins where
  ordered := ho
  unique := by
    intro i j hd hij
    have hk := hkey i
    rw [hkey, hkey] at hij
    exact h.unique i j (fun h0 => hd ((congrArg Prod.fst hk).trans h0)) hij
  waits := by
    intro q i dev b hq
    rw [hkey]
    by_cases hqp : q = p
    · subst hqp
      rw [Function.update_self] at hq
      exact hwaits i dev b hq
    · rw [Function.update_of_ne hqp] at hq
      exact h.waits q i dev b hq
  fills := by
    intro q i dev b hq
    rw [hkey]
    by_cases hqp : q = p
    · subst hqp
      rw [Function.update_self] at hq
      exact hfills i dev b hq
    · rw [Function.update_of_ne hqp] at hq
      obtain ⟨hk, hl⟩ := h.fills q i dev b hq
      exact ⟨hk, (hlock i q hqp).mpr hl⟩
  valid := by
    intro q i hl hn
    by_cases hqp : q = p
    · subst hqp
      rw [Function.update_self] at hn
      exact hself i hl hn
    · rw [Function.update_of_ne hqp] at hn
      exact hvalid i (h.valid q i ((hlock i q hqp).mp hl) hn)
  refs := hrefs
  few := h.few

/-- `bget` finds the block. -/
theorem rep_hit (h : Rep c call pins) (hp : call p = none) (hk : (c.buf i).key = (dev, b)) :
    Rep (setRef c i ((c.buf i).refcnt + 1))
      (Function.update call p (some (.acquiresleep i dev b))) pins := by
  refine h.move h.ordered.set setRef_key ?_ ?_ ?_ ?_ ?_ ?_
  · intro j q _
    rw [setRef_lock]
  · intro i' dev' b' he
    cases he
    exact hk
  · intro i' dev' b' he
    cases he
  · intro j hv
    rwa [setRef_valid]
  · intro j hl _
    rw [setRef_lock] at hl
    rw [setRef_valid]
    exact h.valid p j hl (fun _ _ hc => by rw [hp] at hc; cases hc)
  · intro j
    have hw := waiting_update call p j (some (.acquiresleep i dev b))
    have hr := h.refs j
    rw [hp] at hw
    simp only [Option.bind_none, reduceCtorEq, if_false, Option.bind_some, Call.ref, Option.some.injEq] at hw
    rw [callers, setRef_lock, setRef_refcnt]
    rw [callers] at hr
    by_cases hj : j = i
    · subst hj
      rw [if_pos rfl] at hw
      rw [if_pos rfl, h.refcnt_succ]
      omega
    · rw [if_neg (Ne.symm hj)] at hw
      rw [if_neg hj]
      omega

/-- `bget` recycles a buffer. -/
theorem rep_miss (h : Rep c call pins) (hp : call p = none) (hno : ∀ j, (c.buf j).key ≠ (dev, b))
    (hz : (c.buf i).refcnt = 0) :
    Rep (recycle c i dev b)
      (Function.update call p (some (.acquiresleep i dev b))) pins := by
  obtain ⟨hfree, hwait, hpin⟩ := h.callers_eq_zero hz
  -- nobody refers to the buffer that changes
  have hother : ∀ q k, call q = some k → k.ref = some i → False := by
    intro q k hq hk
    have := waiting_pos hq hk
    omega
  have hfillne : ∀ q j dev' b', call q = some (.fill j dev' b') → j ≠ i := by
    rintro q j dev' b' hq rfl
    obtain ⟨_, hl⟩ := h.fills q j dev' b' hq
    rw [hfree] at hl
    cases hl
  have hlocks : ∀ j q, ((recycle c i dev b).buf j).lock = some q → j ≠ i ∧ (c.buf j).lock = some q := by
    intro j q hl
    rw [recycle_lock] at hl
    refine ⟨?_, hl⟩
    rintro rfl
    rw [hfree] at hl
    cases hl
  refine ⟨h.ordered.set, ?_, ?_, ?_, ?_, ?_, h.few⟩
  · intro j k hd hjk
    by_cases hj : j = i
    · by_cases hk : k = i
      · rw [hj, hk]
      · subst hj
        rw [recycle_self, recycle_of_ne hk] at hjk
        exact absurd hjk.symm (hno k)
    · rw [recycle_of_ne hj] at hd hjk
      by_cases hk : k = i
      · subst hk
        rw [recycle_self] at hjk
        exact absurd hjk (hno j)
      · rw [recycle_of_ne hk] at hjk
        exact h.unique j k hd hjk
  · intro q j dev' b' hq
    by_cases hqp : q = p
    · subst hqp
      rw [Function.update_self] at hq
      cases hq
      rw [recycle_self]
      rfl
    · rw [Function.update_of_ne hqp] at hq
      have hj : j ≠ i := by
        rintro rfl
        exact hother q _ hq rfl
      rw [recycle_of_ne hj]
      exact h.waits q j dev' b' hq
  · intro q j dev' b' hq
    by_cases hqp : q = p
    · subst hqp
      rw [Function.update_self] at hq
      cases hq
    · rw [Function.update_of_ne hqp] at hq
      rw [recycle_of_ne (hfillne q j dev' b' hq)]
      exact h.fills q j dev' b' hq
  · intro q j hl hn
    obtain ⟨hj, hl⟩ := hlocks j q hl
    rw [recycle_of_ne hj]
    refine h.valid q j hl ?_
    by_cases hqp : q = p
    · subst hqp
      intro _ _ hc
      rw [hp] at hc
      cases hc
    · rwa [Function.update_of_ne hqp] at hn
  · intro j
    have hw := waiting_update call p j (some (.acquiresleep i dev b))
    have hr := h.refs j
    rw [hp] at hw
    simp only [Option.bind_none, reduceCtorEq, if_false, Option.bind_some, Call.ref, Option.some.injEq] at hw
    rw [callers, recycle_lock]
    by_cases hj : j = i
    · subst hj
      rw [recycle_self, hfree, hpin]
      rw [if_pos rfl] at hw
      simp only [Option.isSome_none, Bool.false_eq_true, if_false]
      rw [show (1 : UInt32).toNat = 1 from rfl]
      omega
    · rw [recycle_of_ne hj, hr, callers]
      rw [if_neg (Ne.symm hj)] at hw
      omega

/-- `acquiresleep` gets the lock. -/
theorem rep_lock (h : Rep c call pins) (hp : call p = some (.acquiresleep i dev b))
    (hl : (c.buf i).lock = none) :
    Rep (setLock c i (some p)) (Function.update call p (some (.fill i dev b))) pins := by
  have hlock := setLock_lock (c := c) (i := i) (l := some p)
  refine h.move h.ordered.set setLock_key ?_ ?_ ?_ ?_ ?_ ?_
  · intro j q hq
    rw [hlock]
    split
    · rename_i hj
      rw [hj, hl]
      exact ⟨fun he => absurd (Option.some.inj he).symm hq, fun he => by cases he⟩
    · exact Iff.rfl
  · intro i' dev' b' he
    cases he
  · intro i' dev' b' he
    cases he
    exact ⟨h.waits p i dev b hp, by rw [hlock, if_pos rfl]⟩
  · intro j hv
    rwa [setLock_valid]
  · intro j hj hn
    rw [hlock] at hj
    by_cases hji : j = i
    · exact absurd (by rw [hji]) (hn dev b)
    · rw [if_neg hji] at hj
      rw [setLock_valid]
      exact h.valid p j hj (fun _ _ hc => by rw [hp] at hc; cases hc)
  · intro j
    have hw := waiting_update call p j (some (.fill i dev b))
    have hr := h.refs j
    rw [hp] at hw
    simp only [Option.bind_some, Call.ref, Option.some.injEq, reduceCtorEq, if_false] at hw
    rw [callers, hlock, setLock_refcnt, hr, callers]
    by_cases hj : j = i
    · subst hj
      rw [if_pos rfl] at hw
      rw [if_pos rfl, hl]
      simp only [Option.isSome_none, Option.isSome_some, Bool.false_eq_true, if_false, if_true]
      omega
    · rw [if_neg (Ne.symm hj)] at hw
      rw [if_neg hj]
      omega

theorem fill_field {β : Type} {disk : Nat → Block} (f : Buf → β)
    (h : ∀ x d, f { x with data := d, valid := true } = f x) (j : Fin NBUF) :
    f ((fill disk c i).buf j) = f (c.buf j) := by
  unfold fill
  split
  · rfl
  · exact set_buf_field f j (h _ _)

theorem fill_links {disk : Nat → Block} : (fill disk c i).links = c.links := by
  unfold fill
  split <;> rfl

theorem fill_valid {disk : Nat → Block} : ((fill disk c i).buf i).valid = true := by
  unfold fill
  split
  · assumption
  · rw [set_buf_self]

/-- `bread` returns. -/
theorem rep_fill {disk : Nat → Block} (h : Rep c call pins) (hp : call p = some (.fill i dev b)) :
    Rep (fill disk c i) (Function.update call p none) pins := by
  have hvalid : ∀ j, (c.buf j).valid = true → ((fill disk c i).buf j).valid = true := by
    intro j hv
    by_cases hj : j = i
    · subst hj
      exact fill_valid
    · unfold fill
      split
      · exact hv
      · rwa [set_buf_of_ne hj]
  refine h.move ?_ (fill_field Buf.key fun _ _ => rfl) ?_ ?_ ?_ hvalid ?_ ?_
  · unfold Cache.Ordered
    rw [fill_links]
    exact h.ordered
  · intro j q _
    rw [fill_field Buf.lock fun _ _ => rfl]
  · intro i' dev' b' he
    cases he
  · intro i' dev' b' he
    cases he
  · intro j hl _
    rw [fill_field Buf.lock fun _ _ => rfl] at hl
    by_cases hj : j = i
    · subst hj
      exact fill_valid
    · refine hvalid j (h.valid p j hl ?_)
      intro _ _ hc
      rw [hp] at hc
      cases hc
      exact hj rfl
  · intro j
    have hw := waiting_update call p j none
    rw [hp] at hw
    simp only [Option.bind_some, Option.bind_none, Call.ref, reduceCtorEq, if_false] at hw
    rw [callers, fill_field Buf.lock fun _ _ => rfl, fill_field Buf.refcnt fun _ _ => rfl, h.refs j, callers]
    omega

/-- Changing `data`. -/
theorem rep_data {d : Block} (h : Rep c call pins) : Rep (setData c i d) call pins := by
  refine h.keep h.ordered.set setData_key setData_lock ?_ ?_ h.few
  · intro j hv
    rwa [setData_valid]
  · intro j
    rw [setData_refcnt]
    exact h.refs j

/-- `brelse` up to `releasesleep`. -/
theorem rep_unlock (h : Rep c call pins) (hp : call p = none) (hl : (c.buf i).lock = some p) :
    Rep (setLock c i none) (Function.update call p (some (.brelse i))) pins := by
  have hlock := setLock_lock (c := c) (i := i) (l := none)
  refine h.move h.ordered.set setLock_key ?_ ?_ ?_ ?_ ?_ ?_
  · intro j q hq
    rw [hlock]
    split
    · rename_i hj
      rw [hj, hl]
      exact ⟨fun he => (by cases he), fun he => absurd (Option.some.inj he).symm hq⟩
    · exact Iff.rfl
  · intro i' dev' b' he
    cases he
  · intro i' dev' b' he
    cases he
  · intro j hv
    rwa [setLock_valid]
  · intro j hj _
    rw [hlock] at hj
    split at hj
    · cases hj
    · rw [setLock_valid]
      exact h.valid p j hj (fun _ _ hc => by rw [hp] at hc; cases hc)
  · intro j
    have hw := waiting_update call p j (some (.brelse i))
    have hr := h.refs j
    rw [hp] at hw
    simp only [Option.bind_none, reduceCtorEq, if_false, Option.bind_some, Call.ref, Option.some.injEq] at hw
    rw [callers, hlock, setLock_refcnt, hr, callers]
    by_cases hj : j = i
    · subst hj
      rw [if_pos rfl] at hw
      rw [if_pos rfl, hl]
      simp only [Option.isSome_none, Option.isSome_some, Bool.false_eq_true, if_false, if_true]
      omega
    · rw [if_neg (Ne.symm hj)] at hw
      rw [if_neg hj]
      omega

theorem unref_buf : (unref c i).buf = (setRef c i ((c.buf i).refcnt - 1)).buf := by
  show Cache.buf (if _ = (0 : UInt32) then _ else _) = _
  split <;> rfl

/-- The critical section of `brelse`. -/
theorem rep_unref (h : Rep c call pins) (hp : call p = some (.brelse i)) :
    Rep (unref c i) (Function.update call p none) pins := by
  refine h.move ?_ (fun j => by rw [unref_buf, setRef_key]) ?_ ?_ ?_ ?_ ?_ ?_
  · show Cache.Ordered (if _ = (0 : UInt32) then _ else _)
    split
    · exact h.ordered.set.moveFront
    · exact h.ordered.set
  · intro j q _
    rw [unref_buf, setRef_lock]
  · intro i' dev' b' he
    cases he
  · intro i' dev' b' he
    cases he
  · intro j hv
    rwa [unref_buf, setRef_valid]
  · intro j hl _
    rw [unref_buf, setRef_lock] at hl
    rw [unref_buf, setRef_valid]
    exact h.valid p j hl (fun _ _ hc => by rw [hp] at hc; cases hc)
  · intro j
    have hw := waiting_update call p j none
    have hr := h.refs j
    rw [hp] at hw
    simp only [Option.bind_some, Option.bind_none, Call.ref, Option.some.injEq, reduceCtorEq, if_false] at hw
    rw [callers, unref_buf, setRef_lock, setRef_refcnt]
    rw [callers] at hr
    by_cases hj : j = i
    · subst hj
      rw [if_pos rfl] at hw
      rw [if_pos rfl, refcnt_pred (by omega)]
      omega
    · rw [if_neg (Ne.symm hj)] at hw
      rw [if_neg hj]
      omega

/-- `bpin` of a buffer that is not pinned. -/
theorem rep_pin (h : Rep c call pins) (hi : pins i = 0) :
    Rep (bpin c i) call (Function.update pins i (pins i + 1)) := by
  refine h.keep h.ordered.set setRef_key setRef_lock ?_ ?_ ?_
  · intro j hv
    exact (setRef_valid j).trans hv
  · intro j
    have hr := h.refs j
    have hn : ((bpin c i).buf j).refcnt = _ := setRef_refcnt j
    rw [hn]
    by_cases hj : j = i
    · subst hj
      rw [if_pos rfl, Function.update_self, h.refcnt_succ]
      omega
    · rw [if_neg hj, Function.update_of_ne hj]
      exact hr
  · intro j
    by_cases hj : j = i
    · subst hj
      rw [Function.update_self]
      omega
    · rw [Function.update_of_ne hj]
      exact h.few j

/-- `bunpin` of a pinned buffer. -/
theorem rep_unpin (h : Rep c call pins) (hi : 0 < pins i) :
    Rep (bunpin c i) call (Function.update pins i (pins i - 1)) := by
  refine h.keep h.ordered.set setRef_key setRef_lock ?_ ?_ ?_
  · intro j hv
    exact (setRef_valid j).trans hv
  · intro j
    have hr := h.refs j
    have hn : ((bunpin c i).buf j).refcnt = _ := setRef_refcnt j
    rw [hn]
    by_cases hj : j = i
    · subst hj
      rw [if_pos rfl, Function.update_self, refcnt_pred (by omega)]
      omega
    · rw [if_neg hj, Function.update_of_ne hj]
      exact hr
  · intro j
    have hf := h.few j
    by_cases hj : j = i
    · subst hj
      rw [Function.update_self]
      omega
    · rw [Function.update_of_ne hj]
      exact hf

end Xv6.Bcache
