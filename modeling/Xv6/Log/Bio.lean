import Xv6.Lib.Bytes
import Xv6.Vm.Copyin

/-!
# `Log.Bio` — the buffer cache of `kernel/bio.c`

The cache is the list of all buffers in the order of `bcache.head.next`, most recently used first. A buffer
that somebody references keeps its block number, so the block number serves as the pointer to it. The two
halves of `bget` are separate functions because a process can wait between them: `bget` is the part under
`bcache.lock`, `acquire` is `acquiresleep` with the disk read of `bread`.

`CacheOk` is what the cache keeps over every use: block numbers are distinct, `refcnt` counts the waiting
and holding processes and the pin of the log, and an unpinned buffer that nobody has changed shows its block
of the disk.
-/

namespace Xv6.Logging

def BSIZE : Nat := 1024
def NBUF : Nat := 30

/-- The `BSIZE` bytes of a block. -/
abbrev Block := Nat → UInt8

/-- `struct buf`. `blockno` is `none` in a buffer that has never been used (its `dev` is 0); `lock` is the
    holder of the sleep lock. `dirty` says where the holder is: it has changed `data` and not yet called
    `log_write` (the code has no such field). -/
structure Buf where
  blockno : Option Nat
  valid : Bool
  refcnt : Nat
  lock : Option Nat
  data : Block
  dirty : Bool

/-- The cache after `binit`. -/
def binit : List Buf :=
  List.replicate NBUF
    { blockno := none, valid := false, refcnt := 0, lock := none, data := fun _ => 0, dirty := false }

def lookup (c : List Buf) (b : Nat) : Option Buf := c.find? fun x => x.blockno = some b

/-- Change the buffer of block `b`. -/
def setBuf (c : List Buf) (b : Nat) (f : Buf → Buf) : List Buf :=
  c.map fun x => if x.blockno = some b then f x else x

/-- The second loop of `bget`: the last unreferenced buffer of the list takes block `b`. -/
def recycle (b : Nat) : List Buf → Option (List Buf)
  | [] => none
  | x :: xs =>
      match recycle b xs with
      | some ys => some (x :: ys)
      | none =>
          if x.refcnt = 0 then some ({ x with blockno := some b, valid := false, refcnt := 1 } :: xs)
          else none

/-- `bget` up to `acquiresleep`; `none` is `panic("bget: no buffers")`. -/
def bget (c : List Buf) (b : Nat) : Option (List Buf) :=
  if (lookup c b).isSome then some (setBuf c b fun x => { x with refcnt := x.refcnt + 1 })
  else recycle b c

/-- The buffer once process `p` has the lock and the data, `d` being the block on disk. -/
def Buf.acquired (p : Nat) (d : Block) (x : Buf) : Buf :=
  { x with lock := some p, valid := true, data := if x.valid then x.data else d }

/-- `acquiresleep` of a referenced buffer by process `p` and `bread`'s read of the disk; `none` while
    another process holds the lock. -/
def acquire (disk : Nat → Block) (p : Nat) (c : List Buf) (b : Nat) : Option (List Buf) :=
  match lookup c b with
  | none => none
  | some x =>
      if x.lock = none then some (setBuf c b (Buf.acquired p (disk b))) else none

def bread (disk : Nat → Block) (p : Nat) (c : List Buf) (b : Nat) : Option (List Buf) :=
  (bget c b).bind fun c => acquire disk p c b

/-- What `brelse` does to the buffer itself. -/
def Buf.release (x : Buf) : Buf := { x with lock := none, refcnt := x.refcnt - 1 }

/-- `releasesleep` and the critical section of `brelse`. -/
def brelse (c : List Buf) (b : Nat) : List Buf :=
  match lookup c b with
  | none => c
  | some x =>
      if x.refcnt - 1 = 0 then
        x.release :: c.filter fun y => y.blockno ≠ some b
      else setBuf c b Buf.release

def bpin (c : List Buf) (b : Nat) : List Buf := setBuf c b fun x => { x with refcnt := x.refcnt + 1 }

def bunpin (c : List Buf) (b : Nat) : List Buf := setBuf c b fun x => { x with refcnt := x.refcnt - 1 }

/-- Change `data` of a buffer the process holds. -/
def setData (c : List Buf) (b : Nat) (d : Block) : List Buf := setBuf c b fun x => { x with data := d }

/-- `b->data` -/
def bufData (c : List Buf) (b : Nat) : Block :=
  match lookup c b with
  | some x => x.data
  | none => fun _ => 0

/-! ## Looking up -/

variable {c c' : List Buf} {b b' p : Nat} {x y : Buf} {f : Buf → Buf} {disk : Nat → Block}

theorem blockno_of_lookup (h : lookup c b = some x) : x.blockno = some b := by
  simpa using List.find?_some h

theorem mem_of_lookup (h : lookup c b = some x) : x ∈ c := List.mem_of_find?_eq_some h

/-- Changing a buffer without moving it to another block. -/
theorem lookup_setBuf (hf : ∀ x, (f x).blockno = x.blockno) :
    lookup (setBuf c b f) b' = if b' = b then (lookup c b).map f else lookup c b' := by
  unfold lookup setBuf
  induction c with
  | nil => simp
  | cons x c ih =>
      rw [List.map_cons, List.find?_cons, List.find?_cons]
      by_cases hx : x.blockno = some b
      · by_cases hb : b' = b
        · subst hb
          simp [hx, hf]
        · have hbb : some b ≠ some b' := fun h => hb (Option.some.inj h).symm
          rw [if_pos hx, if_neg hb] at *
          simp only [hf, hx, hbb, decide_false]
          rw [ih, List.find?_cons]
          simp [hx, hbb]
      · rw [if_neg hx]
        by_cases hb' : x.blockno = some b'
        · have hb : b' ≠ b := fun h => hx (h ▸ hb')
          simp [hb', hb]
        · simp only [hb', decide_false, ih, hx]
          split
          · rfl
          · rw [List.find?_cons]
            simp [hb']

theorem lookup_setBuf_self (hf : ∀ x, (f x).blockno = x.blockno) (hx : lookup c b = some x) :
    lookup (setBuf c b f) b = some (f x) := by
  rw [lookup_setBuf hf, if_pos rfl, hx]
  rfl

theorem lookup_setBuf_of_ne (hf : ∀ x, (f x).blockno = x.blockno) (hb : b' ≠ b) :
    lookup (setBuf c b f) b' = lookup c b' := by
  rw [lookup_setBuf hf, if_neg hb]

/-- The recycled buffer, between the buffers that stay as they are. -/
theorem recycle_eq_some (h : recycle b c = some c') :
    ∃ l v r, c = l ++ v :: r ∧ v.refcnt = 0 ∧
      c' = l ++ { v with blockno := some b, valid := false, refcnt := 1 } :: r := by
  induction c generalizing c' with
  | nil => cases h
  | cons x xs ih =>
      rw [recycle] at h
      cases hr : recycle b xs with
      | some ys =>
          rw [hr] at h
          cases h
          obtain ⟨l, v, r, rfl, hv, rfl⟩ := ih hr
          exact ⟨x :: l, v, r, rfl, hv, rfl⟩
      | none =>
          rw [hr] at h
          simp only at h
          split at h
          · cases h
            exact ⟨[], x, xs, rfl, by assumption, rfl⟩
          · cases h

/-! ## Distinct block numbers -/

/-- No two buffers hold the same block. -/
def Distinct (c : List Buf) : Prop := (c.filterMap Buf.blockno).Nodup

theorem lookup_eq_none : lookup c b = none ↔ b ∉ c.filterMap Buf.blockno := by
  simp [lookup, List.find?_eq_none]

/-- A buffer is found under its own number. -/
theorem lookup_of_mem (hd : Distinct c) (hx : x ∈ c) (hb : x.blockno = some b) : lookup c b = some x := by
  induction c with
  | nil => cases hx
  | cons y c ih =>
      unfold Distinct at hd
      rw [List.filterMap_cons] at hd
      rcases List.mem_cons.mp hx with rfl | hx
      · simp [lookup, hb]
      · have hmem : b ∈ c.filterMap Buf.blockno := List.mem_filterMap.mpr ⟨x, hx, hb⟩
        cases hy : y.blockno with
        | none =>
            rw [hy] at hd
            have := ih hd hx
            simpa [lookup, hy] using this
        | some b' =>
            rw [hy] at hd
            obtain ⟨hnot, hd⟩ := List.nodup_cons.mp hd
            have hne : b' ≠ b := fun h => hnot (h ▸ hmem)
            have := ih hd hx
            simpa [lookup, hy, hne] using this

theorem filterMap_setBuf (hf : ∀ x, (f x).blockno = x.blockno) :
    (setBuf c b f).filterMap Buf.blockno = c.filterMap Buf.blockno := by
  unfold setBuf
  rw [List.filterMap_map]
  refine List.filterMap_congr fun x _ => ?_
  simp only [Function.comp_apply]
  split
  · exact hf x
  · rfl

/-! ## The invariant of the cache -/

/-- One buffer, of a block with contents `d` on disk that `n` processes wait for. -/
structure BufOk (x : Buf) (d : Block) (n : Nat) (pinned : Bool) : Prop where
  refcnt : x.refcnt = n + (if x.lock = none then 0 else 1) + pinned.toNat
  held : x.lock ≠ none → x.valid = true
  dirty : x.dirty = true → x.lock ≠ none
  pin : pinned = true → x.valid = true
  clean : x.valid = true → x.dirty = false → pinned = false → x.data = d

/-- `w` lists the blocks processes wait for and `pinned` the blocks the log has pinned. -/
structure CacheOk (c : List Buf) (disk : Nat → Block) (w pinned : List Nat) : Prop where
  distinct : Distinct c
  idle : ∀ x ∈ c, x.refcnt = 0 → x.lock = none ∧ x.dirty = false
  each : ∀ {b x}, lookup c b = some x → BufOk x (disk b) (w.count b) (decide (b ∈ pinned))
  pin : ∀ b ∈ pinned, (lookup c b).isSome
  wait : ∀ b ∈ w, (lookup c b).isSome

variable {w w' pinned pinned' : List Nat} {disk' : Nat → Block}

theorem BufOk.idle {d : Block} {n : Nat} {pin : Bool} (h : BufOk x d n pin) (h0 : x.refcnt = 0) :
    x.lock = none ∧ x.dirty = false := by
  have hr := h.refcnt
  rw [h0] at hr
  have hlock : x.lock = none := by
    by_contra hc
    rw [if_neg hc] at hr
    omega
  refine ⟨hlock, ?_⟩
  by_contra hc
  exact h.dirty (by simpa using hc) hlock

theorem cacheOk_binit (disk : Nat → Block) : CacheOk binit disk [] [] := by
  have hnone : ∀ b, lookup binit b = none := by
    intro b
    simp [lookup, binit]
  refine ⟨?_, ?_, ?_, by simp, by simp⟩
  · simp [Distinct, binit]
  · intro x hx _
    rw [List.eq_of_mem_replicate hx]
    exact ⟨rfl, rfl⟩
  · intro b x hx
    rw [hnone b] at hx
    cases hx

/-- The invariant speaks of the buffers through `lookup` only, up to their order. -/
theorem CacheOk.of_lookup (h : CacheOk c disk w pinned) (hd : Distinct c')
    (hidle : ∀ x ∈ c', x.refcnt = 0 → x.lock = none ∧ x.dirty = false)
    (hl : ∀ b, lookup c' b = lookup c b) : CacheOk c' disk w pinned := by
  refine ⟨hd, hidle, ?_, ?_, ?_⟩
  · intro b x hx
    exact h.each (hl b ▸ hx)
  · intro b hb
    rw [hl]
    exact h.pin b hb
  · intro b hb
    rw [hl]
    exact h.wait b hb

/-- It speaks of the waiting processes by their number only. -/
theorem CacheOk.of_perm (h : CacheOk c disk w pinned) (hw : w.Perm w') : CacheOk c disk w' pinned := by
  refine ⟨h.distinct, h.idle, ?_, h.pin, fun b hb => h.wait b (hw.mem_iff.mpr hb)⟩
  intro b x hx
  have := h.each hx
  rwa [hw.count_eq] at this

/-- **One buffer changes.** The rest of the cache, of the disk, of the waiting processes and of the pins
    stays as it is. -/
theorem CacheOk.setBuf (h : CacheOk c disk w pinned) (hx : lookup c b = some x)
    (hf : ∀ x, (f x).blockno = x.blockno)
    (hdisk : ∀ b', b' ≠ b → disk' b' = disk b') (hw : ∀ b', b' ≠ b → w'.count b' = w.count b')
    (hpin : ∀ b', b' ≠ b → (b' ∈ pinned' ↔ b' ∈ pinned))
    (hok : BufOk (f x) (disk' b) (w'.count b) (decide (b ∈ pinned'))) :
    CacheOk (setBuf c b f) disk' w' pinned' := by
  refine ⟨?_, ?_, ?_, ?_, ?_⟩
  · unfold Distinct
    rw [filterMap_setBuf hf]
    exact h.distinct
  · intro y hy hy0
    obtain ⟨z, hz, rfl⟩ := List.mem_map.mp hy
    split at hy0
    · rename_i hzb
      rw [if_pos hzb]
      have hzx := lookup_of_mem h.distinct hz hzb
      rw [hx] at hzx
      cases hzx
      exact hok.idle hy0
    · rename_i hzb
      rw [if_neg hzb]
      exact h.idle z hz hy0
  · intro b' y hy
    by_cases hb : b' = b
    · subst hb
      rw [lookup_setBuf_self hf hx] at hy
      cases hy
      exact hok
    · rw [lookup_setBuf_of_ne hf hb] at hy
      have := h.each hy
      rwa [← hdisk b' hb, ← hw b' hb, ← decide_eq_decide.mpr (hpin b' hb)] at this
  · intro b' hb'
    by_cases hb : b' = b
    · subst hb
      rw [lookup_setBuf_self hf hx]
      rfl
    · rw [lookup_setBuf_of_ne hf hb]
      exact h.pin b' ((hpin b' hb).mp hb')
  · intro b' hb'
    by_cases hb : b' = b
    · subst hb
      rw [lookup_setBuf_self hf hx]
      rfl
    · rw [lookup_setBuf_of_ne hf hb]
      have hcount : 0 < w.count b' := by
        rw [← hw b' hb]
        exact List.count_pos_iff.mpr hb'
      exact h.wait b' (List.count_pos_iff.mp hcount)

/-! ## `bget` -/

section Recycle

variable {l r : List Buf} {v : Buf}

/-- Only the recycled buffer is found under another number than before. -/
theorem lookup_recycled (hd : Distinct (l ++ v :: r)) (hb : lookup (l ++ v :: r) b = none) (b' : Nat) :
    lookup (l ++ { v with blockno := some b, valid := false, refcnt := 1 } :: r) b' =
      if b' = b then some { v with blockno := some b, valid := false, refcnt := 1 }
      else if v.blockno = some b' then none
      else lookup (l ++ v :: r) b' := by
  have hl : ∀ y ∈ l, y.blockno ≠ some b := by
    intro y hy hyb
    exact lookup_eq_none.mp hb (List.mem_filterMap.mpr ⟨y, by simp [hy], hyb⟩)
  by_cases hbb : b' = b
  · subst hbb
    rw [if_pos rfl, lookup, List.find?_append]
    have : l.find? (fun x => decide (x.blockno = some b')) = none := by simpa using hl
    rw [this]
    simp
  · rw [if_neg hbb]
    have hbb' : some b ≠ some b' := fun h => hbb (Option.some.inj h).symm
    split
    · -- the number of the victim disappears, since no other buffer has it
      rename_i hv
      rw [lookup_eq_none]
      unfold Distinct at hd
      rw [List.filterMap_append, List.filterMap_cons, hv] at hd
      obtain ⟨_, hr, hdisj⟩ := List.nodup_append'.mp hd
      rw [List.filterMap_append, List.filterMap_cons]
      simp only [List.mem_append, List.mem_cons, not_or]
      refine ⟨fun hm => hdisj hm List.mem_cons_self, hbb, ?_⟩
      exact (List.nodup_cons.mp hr).1
    · rename_i hv
      unfold lookup
      rw [List.find?_append, List.find?_append, List.find?_cons, List.find?_cons]
      simp [hv, hbb']

theorem distinct_recycled (hd : Distinct (l ++ v :: r)) (hb : lookup (l ++ v :: r) b = none) :
    Distinct (l ++ { v with blockno := some b, valid := false, refcnt := 1 } :: r) := by
  rw [lookup_eq_none] at hb
  have hsub : ((l ++ r).filterMap Buf.blockno).Sublist ((l ++ v :: r).filterMap Buf.blockno) :=
    ((List.sublist_cons_self v r).append_left l).filterMap Buf.blockno
  have hnot : b ∉ (l ++ r).filterMap Buf.blockno := fun hm => hb (hsub.subset hm)
  have hd' : ((l ++ r).filterMap Buf.blockno).Nodup := List.Nodup.sublist hsub hd
  unfold Distinct
  rw [List.filterMap_append] at hnot hd' ⊢
  rw [List.filterMap_cons]
  exact List.nodup_middle.mpr (List.nodup_cons.mpr ⟨hnot, hd'⟩)

end Recycle

/-- `bget` references the block's buffer. -/
theorem CacheOk.bget (h : CacheOk c disk w pinned) (hg : bget c b = some c') :
    CacheOk c' disk (b :: w) pinned := by
  unfold Logging.bget at hg
  split at hg
  · -- the block is cached
    rename_i hsome
    obtain ⟨x, hx⟩ := Option.isSome_iff_exists.mp hsome
    cases hg
    have hok := h.each hx
    refine h.setBuf hx (fun _ => rfl) (fun _ _ => rfl) (fun b' hb => ?_) (fun _ _ => Iff.rfl) ?_
    · exact List.count_cons_of_ne (fun h => hb h.symm)
    · refine ⟨?_, hok.held, hok.dirty, hok.pin, hok.clean⟩
      have := hok.refcnt
      rw [List.count_cons_self]
      show x.refcnt + 1 = w.count b + 1 + (if x.lock = none then 0 else 1) + _
      omega
  · -- an unreferenced buffer takes the block
    rename_i hnone
    have hb : lookup c b = none := by simpa using hnone
    obtain ⟨l, v, r, rfl, hv, rfl⟩ := recycle_eq_some hg
    have hlook := lookup_recycled h.distinct hb
    have hidle := h.idle v (by simp) hv
    have hwb : b ∉ w := fun hm => by simpa [hb] using h.wait b hm
    have hpb : b ∉ pinned := fun hm => by simpa [hb] using h.pin b hm
    -- a block that is waited for or pinned is not the victim's
    have hkeep : ∀ b', b' ∈ w ∨ b' ∈ pinned → v.blockno ≠ some b' := by
      intro b' hb' hvb
      have hrc := (h.each (lookup_of_mem h.distinct (by simp) hvb)).refcnt
      rw [hv] at hrc
      rcases hb' with hb' | hb'
      · have := List.count_pos_iff.mpr hb'
        omega
      · rw [decide_eq_true hb', Bool.toNat_true] at hrc
        omega
    refine ⟨distinct_recycled h.distinct hb, ?_, ?_, ?_, ?_⟩
    · intro x hx h0
      rcases List.mem_append.mp hx with hx | hx
      · exact h.idle x (by simp [hx]) h0
      · rcases List.mem_cons.mp hx with rfl | hx
        · cases h0
        · exact h.idle x (by simp [hx]) h0
    · intro b' x hx
      rw [hlook] at hx
      split at hx
      · rename_i hbb
        subst hbb
        cases hx
        refine ⟨?_, fun hc => absurd hidle.1 hc, fun hc => ?_, fun hc => ?_, nofun⟩
        · rw [List.count_cons_self, List.count_eq_zero_of_not_mem hwb]
          simp [hidle.1, hpb]
        · exact absurd hc (by simp [hidle.2])
        · simp [hpb] at hc
      · rename_i hbb
        split at hx
        · cases hx
        · have := h.each hx
          rwa [List.count_cons_of_ne (fun h => hbb h.symm)]
    · intro b' hb'
      have hne : b' ≠ b := fun h => hpb (h ▸ hb')
      rw [hlook, if_neg hne, if_neg (hkeep b' (Or.inr hb'))]
      exact h.pin b' hb'
    · intro b' hb'
      rw [hlook]
      by_cases hbb : b' = b
      · rw [if_pos hbb]
        rfl
      · have hbw := (List.mem_cons.mp hb').resolve_left hbb
        rw [if_neg hbb, if_neg (hkeep b' (Or.inl hbw))]
        exact h.wait b' hbw

/-! ## The other operations -/

theorem acquire_eq_some (h : acquire disk p c b = some c') :
    ∃ x, lookup c b = some x ∧ x.lock = none ∧ c' = setBuf c b (Buf.acquired p (disk b)) := by
  unfold acquire at h
  split at h
  · cases h
  · rename_i x hx
    split at h
    · cases h
      exact ⟨x, hx, by assumption, rfl⟩
    · cases h

/-- A waiting process takes the lock and reads the block if nobody has. -/
theorem CacheOk.acquire (h : CacheOk c disk w pinned) (hw : b ∈ w) (ha : acquire disk p c b = some c') :
    CacheOk c' disk (w.erase b) pinned := by
  obtain ⟨x, hx, hlock, rfl⟩ := acquire_eq_some ha
  have hok := h.each hx
  have hcount := List.count_pos_iff.mpr hw
  refine h.setBuf hx (fun _ => rfl) (fun _ _ => rfl) (fun b' hb => List.count_erase_of_ne hb)
    (fun _ _ => Iff.rfl) ?_
  refine ⟨?_, fun _ => rfl, fun _ => nofun, fun _ => rfl, fun _ hd hp => ?_⟩
  · have hr := hok.refcnt
    rw [if_pos hlock] at hr
    rw [List.count_erase_self]
    show x.refcnt = _ + (if some p = none then 0 else 1) + _
    rw [if_neg (by simp)]
    omega
  · show (if x.valid then x.data else disk b) = disk b
    split
    · rename_i hv
      exact hok.clean hv hd hp
    · rfl

theorem lookup_brelse (hx : lookup c b = some x) (b' : Nat) :
    lookup (brelse c b) b' =
      if b' = b then some x.release else lookup c b' := by
  unfold brelse
  simp only [hx]
  split
  · -- the buffer moves to the front
    unfold lookup
    rw [List.find?_cons]
    by_cases hb : b' = b
    · subst hb
      simp [Buf.release, blockno_of_lookup hx]
    · have hbb : x.release.blockno ≠ some b' := by
        rw [Buf.release, blockno_of_lookup hx]
        exact fun h => hb (Option.some.inj h).symm
      simp only [hbb, decide_false, if_neg hb, List.find?_filter]
      congr 1
      funext y
      by_cases hy : y.blockno = some b'
      · have : y.blockno ≠ some b := by
          rw [hy]
          exact fun h => hb (Option.some.inj h)
        simp [hy, hb]
      · simp [hy]
  · rw [lookup_setBuf (f := Buf.release) fun _ => rfl, hx]
    rfl

theorem distinct_brelse (h : Distinct c) : Distinct (brelse c b) := by
  unfold brelse
  split
  · exact h
  · rename_i x hx
    split
    · unfold Distinct at *
      rw [List.filterMap_cons, Buf.release, blockno_of_lookup hx]
      refine List.nodup_cons.mpr ⟨?_, h.sublist (List.filter_sublist.filterMap _)⟩
      intro hm
      obtain ⟨y, hy, hyb⟩ := List.mem_filterMap.mp hm
      simp [hyb] at hy
    · unfold Distinct
      rw [filterMap_setBuf (f := Buf.release) fun _ => rfl]
      exact h

theorem CacheOk.brelse (h : CacheOk c disk w pinned) (hx : lookup c b = some x) (hlock : x.lock ≠ none)
    (hd : x.dirty = false) : CacheOk (brelse c b) disk w pinned := by
  have hok := h.each hx
  have hset : CacheOk (Logging.setBuf c b Buf.release) disk w pinned := by
    refine h.setBuf hx (fun _ => rfl) (fun _ _ => rfl) (fun _ _ => rfl) (fun _ _ => Iff.rfl) ?_
    refine ⟨?_, fun hc => absurd rfl hc, fun hc => ?_, hok.pin, hok.clean⟩
    · have hr := hok.refcnt
      rw [if_neg hlock] at hr
      show x.refcnt - 1 = _ + (if none = none then 0 else 1) + _
      rw [if_pos rfl]
      omega
    · exact absurd hc (by simp [Buf.release, hd])
  refine hset.of_lookup (distinct_brelse h.distinct) ?_ fun b' => ?_
  · intro y hy h0
    unfold Logging.brelse at hy
    simp only [hx] at hy
    split at hy
    · rcases List.mem_cons.mp hy with rfl | hy
      · exact ⟨rfl, hd⟩
      · exact h.idle y (List.mem_of_mem_filter hy) h0
    · exact hset.idle y hy h0
  · rw [lookup_brelse hx, lookup_setBuf (f := Buf.release) fun _ => rfl, hx]
    rfl

/-- The holder changes the data without writing it anywhere. -/
theorem CacheOk.modify (h : CacheOk c disk w pinned) (hx : lookup c b = some x) (hlock : x.lock ≠ none)
    (d : Block) :
    CacheOk (Logging.setBuf c b fun x => { x with data := d, dirty := true }) disk w pinned := by
  have hok := h.each hx
  refine h.setBuf hx (fun _ => rfl) (fun _ _ => rfl) (fun _ _ => rfl) (fun _ _ => Iff.rfl) ?_
  exact ⟨hok.refcnt, hok.held, fun _ => hlock, hok.pin, nofun⟩

/-- The holder changes the data of a pinned buffer, or does not really change it. -/
theorem CacheOk.setData (h : CacheOk c disk w pinned) (hx : lookup c b = some x) {d : Block}
    (hd : d = x.data ∨ b ∈ pinned) : CacheOk (setData c b d) disk w pinned := by
  have hok := h.each hx
  refine h.setBuf hx (fun _ => rfl) (fun _ _ => rfl) (fun _ _ => rfl) (fun _ _ => Iff.rfl) ?_
  refine ⟨hok.refcnt, hok.held, hok.dirty, hok.pin, fun hv hnd hp => ?_⟩
  rcases hd with rfl | hb
  · exact hok.clean hv hnd hp
  · simp [hb] at hp

/-- `bwrite` of new data. -/
theorem CacheOk.writeThrough (h : CacheOk c disk w pinned) (hx : lookup c b = some x) (d : Block) :
    CacheOk (Logging.setData c b d) (Function.update disk b d) w pinned := by
  have hok := h.each hx
  refine h.setBuf hx (fun _ => rfl) (fun _ hb => Function.update_of_ne hb _ _) (fun _ _ => rfl)
    (fun _ _ => Iff.rfl) ?_
  exact ⟨hok.refcnt, hok.held, hok.dirty, hok.pin, fun _ _ _ => (Function.update_self b d disk).symm⟩

/-- `log_write` of a block that is new to the log. -/
theorem CacheOk.pinNew (h : CacheOk c disk w pinned) (hx : lookup c b = some x) (hlock : x.lock ≠ none)
    (hb : b ∉ pinned) :
    CacheOk (Logging.setBuf c b fun x => { x with refcnt := x.refcnt + 1, dirty := false }) disk w
      (pinned ++ [b]) := by
  have hok := h.each hx
  refine h.setBuf hx (fun _ => rfl) (fun _ _ => rfl) (fun _ _ => rfl) (fun b' hb' => by simp [hb']) ?_
  refine ⟨?_, hok.held, nofun, fun _ => hok.held hlock, fun _ _ hc => by simp at hc⟩
  have hr := hok.refcnt
  rw [decide_eq_false hb, Bool.toNat_false] at hr
  show x.refcnt + 1 = _ + (if x.lock = none then 0 else 1) + _
  rw [decide_eq_true (by simp), Bool.toNat_true]
  omega

/-- `log_write` of a block that is in the log. -/
theorem CacheOk.absorb (h : CacheOk c disk w pinned) (hx : lookup c b = some x) (hb : b ∈ pinned) :
    CacheOk (Logging.setBuf c b fun x => { x with dirty := false }) disk w pinned := by
  have hok := h.each hx
  refine h.setBuf hx (fun _ => rfl) (fun _ _ => rfl) (fun _ _ => rfl) (fun _ _ => Iff.rfl) ?_
  exact ⟨hok.refcnt, hok.held, nofun, hok.pin, fun _ _ hc => by simp [hb] at hc⟩

/-- `bunpin` of a block whose buffer shows the disk. -/
theorem CacheOk.bunpin (h : CacheOk c disk w (b :: pinned)) (hx : lookup c b = some x)
    (hb : b ∉ pinned) (hdata : x.data = disk b) : CacheOk (bunpin c b) disk w pinned := by
  have hok := h.each hx
  refine h.setBuf hx (fun _ => rfl) (fun _ _ => rfl) (fun _ _ => rfl) (fun b' hb' => by simp [hb']) ?_
  refine ⟨?_, hok.held, hok.dirty, fun _ => hok.pin (by simp), fun _ _ _ => hdata⟩
  have hr := hok.refcnt
  rw [decide_eq_true (by simp), Bool.toNat_true] at hr
  show x.refcnt - 1 = _ + (if x.lock = none then 0 else 1) + _
  rw [decide_eq_false hb, Bool.toNat_false]
  omega

/-! ## What a reader sees -/

/-- The contents of a block as `bread` would return them. -/
def shown (c : List Buf) (disk : Nat → Block) (b : Nat) : Block :=
  match lookup c b with
  | some x => if x.valid then x.data else disk b
  | none => disk b

theorem shown_of_valid (hx : lookup c b = some x) (hv : x.valid = true) : shown c disk b = x.data := by
  simp [shown, hx, hv]

/-- Through a buffer that nobody has changed a reader sees the disk. -/
theorem CacheOk.shown_eq_disk (h : CacheOk c disk w pinned) (hb : b ∉ pinned)
    (hd : ∀ x, lookup c b = some x → x.dirty = false) : shown c disk b = disk b := by
  unfold shown
  split
  · rename_i x hx
    split
    · rename_i hv
      exact (h.each hx).clean hv (hd x hx) (by simp [hb])
    · rfl
  · rfl

theorem shown_setBuf (hf : ∀ x, (f x).blockno = x.blockno)
    (hdisk : ∀ b', b' ≠ b → disk' b' = disk b') (hb' : b' ≠ b) :
    shown (setBuf c b f) disk' b' = shown c disk b' := by
  unfold shown
  rw [lookup_setBuf_of_ne hf hb', hdisk b' hb']

theorem CacheOk.shown_bget (h : CacheOk c disk w pinned) (hg : Logging.bget c b = some c') (b' : Nat) :
    shown c' disk b' = shown c disk b' := by
  unfold Logging.bget at hg
  split at hg
  · rename_i hsome
    obtain ⟨x, hx⟩ := Option.isSome_iff_exists.mp hsome
    cases hg
    by_cases hb : b' = b
    · subst hb
      simp [shown, lookup_setBuf (f := fun x => { x with refcnt := x.refcnt + 1 }) (fun _ => rfl), hx]
    · exact shown_setBuf (fun _ => rfl) (fun _ _ => rfl) hb
  · rename_i hnone
    have hb : lookup c b = none := by simpa using hnone
    obtain ⟨l, v, r, rfl, hv, rfl⟩ := recycle_eq_some hg
    unfold shown
    rw [lookup_recycled h.distinct hb]
    split
    · rename_i x hx
      split at hx
      · rename_i hbb
        cases hx
        simp [hbb, hb]
      · split at hx
        · cases hx
        · rw [hx]
    · rename_i hx
      split at hx
      · cases hx
      · split at hx
        · -- the victim was not referenced, so it showed the disk
          rename_i hvb
          have hlv := lookup_of_mem h.distinct (by simp) hvb
          have hok := h.each hlv
          have hidle := hok.idle hv
          rw [hlv]
          simp only
          split
          · rename_i hvalid
            refine (hok.clean hvalid hidle.2 ?_).symm
            by_contra hp
            have hr := hok.refcnt
            rw [hv, (by simpa using hp : decide (b' ∈ pinned) = true), Bool.toNat_true] at hr
            omega
          · rfl
        · rw [hx]

theorem shown_acquire (ha : acquire disk p c b = some c') (b' : Nat) :
    shown c' disk b' = shown c disk b' := by
  obtain ⟨x, hx, _, rfl⟩ := acquire_eq_some ha
  by_cases hb : b' = b
  · subst hb
    unfold shown
    rw [lookup_setBuf_self (f := Buf.acquired p (disk b')) (fun _ => rfl) hx, hx]
    rfl
  · exact shown_setBuf (fun _ => rfl) (fun _ _ => rfl) hb

theorem shown_brelse (hx : lookup c b = some x) (b' : Nat) :
    shown (brelse c b) disk b' = shown c disk b' := by
  unfold shown
  rw [lookup_brelse hx]
  split
  · rename_i y hy
    split at hy
    · rename_i hb
      subst hb
      cases hy
      rw [hx]
      rfl
    · rw [hy]
  · rename_i hy
    split at hy
    · cases hy
    · rw [hy]

/-- A change of a buffer's book-keeping. -/
theorem shown_setBuf_same (hf : ∀ x, (f x).blockno = x.blockno) (hx : lookup c b = some x)
    (hv : (f x).valid = x.valid) (hd : (f x).data = x.data) (b' : Nat) :
    shown (setBuf c b f) disk b' = shown c disk b' := by
  by_cases hb : b' = b
  · subst hb
    unfold shown
    rw [lookup_setBuf_self hf hx, hx]
    simp only [hv, hd]
  · exact shown_setBuf hf (fun _ _ => rfl) hb

/-- A change of a buffer's data, written to the disk or not. -/
theorem shown_setBuf_data (hf : ∀ x, (f x).blockno = x.blockno) (hx : lookup c b = some x)
    (hv : (f x).valid = true) (hdisk : ∀ b', b' ≠ b → disk' b' = disk b') :
    shown (setBuf c b f) disk' = Function.update (shown c disk) b (f x).data := by
  funext b'
  by_cases hb : b' = b
  · subst hb
    rw [Function.update_self]
    exact shown_of_valid (lookup_setBuf_self hf hx) hv
  · rw [Function.update_of_ne hb]
    exact shown_setBuf hf hdisk hb

/-! ## `bread` as a whole -/

/-- Every lock held in `c'` was already held in `c`, and every change pending in `c'` was pending in `c`. -/
def NoNewLocks (c c' : List Buf) : Prop :=
  ∀ b y, lookup c' b = some y → y.lock ≠ none →
    ∃ x, lookup c b = some x ∧ x.lock = y.lock ∧ (y.dirty = true → x.dirty = true)

theorem noNewLocks_setBuf (hf : ∀ x, (f x).blockno = x.blockno) (hl : ∀ x, (f x).lock = x.lock)
    (hd : ∀ x, (f x).dirty = true → x.dirty = true) : NoNewLocks c (setBuf c b f) := by
  intro b' y hy hlock
  rw [lookup_setBuf hf] at hy
  split at hy
  · rename_i hb
    obtain ⟨x, hx, rfl⟩ := Option.map_eq_some_iff.mp hy
    exact ⟨x, by rw [hb, hx], (hl x).symm, hd x⟩
  · exact ⟨y, hy, rfl, id⟩

theorem noNewLocks_brelse (hx : lookup c b = some x) : NoNewLocks c (brelse c b) := by
  intro b' y hy hlock
  rw [lookup_brelse hx] at hy
  split at hy
  · cases hy
    exact absurd rfl hlock
  · exact ⟨y, hy, rfl, id⟩

theorem NoNewLocks.trans {c'' : List Buf} (h : NoNewLocks c c') (h' : NoNewLocks c' c'') :
    NoNewLocks c c'' := by
  intro b y hy hlock
  obtain ⟨x, hx, hxl, hxd⟩ := h' b y hy hlock
  obtain ⟨z, hz, hzl, hzd⟩ := h b x hx (by rwa [hxl])
  exact ⟨z, hz, hzl.trans hxl, fun hd => hzd (hxd hd)⟩

theorem CacheOk.lookup_bget_of_ne (h : CacheOk c disk w pinned) (hg : Logging.bget c b = some c')
    (hb : b' ≠ b) :
    lookup c' b' = lookup c b' ∨ lookup c' b' = none ∧ ∃ v, lookup c b' = some v ∧ v.refcnt = 0 := by
  unfold Logging.bget at hg
  split at hg
  · cases hg
    exact Or.inl (lookup_setBuf_of_ne (fun _ => rfl) hb)
  · rename_i hnone
    have hb0 : lookup c b = none := by simpa using hnone
    obtain ⟨l, v, r, rfl, hv, rfl⟩ := recycle_eq_some hg
    rw [lookup_recycled h.distinct hb0, if_neg hb]
    split
    · rename_i hvb
      exact Or.inr ⟨rfl, v, lookup_of_mem h.distinct (by simp) hvb, hv⟩
    · exact Or.inl rfl

theorem CacheOk.noNewLocks_bget (h : CacheOk c disk w pinned) (hg : Logging.bget c b = some c') :
    NoNewLocks c c' := by
  intro b' y hy hlock
  by_cases hb : b' = b
  · subst hb
    unfold Logging.bget at hg
    split at hg
    · cases hg
      exact noNewLocks_setBuf (f := fun x => { x with refcnt := x.refcnt + 1 }) (fun _ => rfl)
        (fun _ => rfl) (fun _ => id) _ y hy hlock
    · rename_i hnone
      obtain ⟨l, v, r, rfl, hv, rfl⟩ := recycle_eq_some hg
      rw [lookup_recycled h.distinct (by simpa using hnone), if_pos rfl] at hy
      cases hy
      exact absurd (h.idle v (by simp) hv).1 hlock
  · rcases h.lookup_bget_of_ne hg hb with heq | ⟨hn, _⟩
    · exact ⟨y, heq ▸ hy, rfl, id⟩
    · rw [hn] at hy
      cases hy

/-- What `bread` returns and what it leaves alone. -/
structure Read (c : List Buf) (disk : Nat → Block) (w pinned : List Nat) (p b : Nat) (c' : List Buf) :
    Prop where
  ok : CacheOk c' disk w pinned
  held : ∃ x, lookup c' b = some x ∧ x.lock = some p ∧ x.valid = true ∧ x.dirty = false ∧
    x.data = shown c disk b
  shown_eq : shown c' disk = shown c disk
  unheld : ∀ x, lookup c b = some x → x.lock = none
  kept : ∀ {b' x}, b' ≠ b → lookup c b' = some x → x.lock ≠ none → lookup c' b' = some x
  old : ∀ {b' x}, b' ≠ b → lookup c' b' = some x → lookup c b' = some x

theorem CacheOk.bread (h : CacheOk c disk w pinned) (hr : bread disk p c b = some c') :
    Read c disk w pinned p b c' := by
  obtain ⟨c₁, hg, ha⟩ := Option.bind_eq_some_iff.mp hr
  have h₁ := h.bget hg
  have h₂ := h₁.acquire List.mem_cons_self ha
  rw [List.erase_cons_head] at h₂
  have hshown : ∀ b', shown c' disk b' = shown c disk b' := fun b' => by
    rw [shown_acquire ha, h.shown_bget hg]
  obtain ⟨x, hx, hlock, rfl⟩ := acquire_eq_some ha
  have hx' := lookup_setBuf_self (f := Buf.acquired p (disk b)) (fun _ => rfl) hx
  refine ⟨h₂, ⟨_, hx', rfl, rfl, ?_, ?_⟩, funext hshown, ?_, ?_, ?_⟩
  · -- an unlocked buffer is not dirty
    by_contra hd
    exact (h₁.each hx).dirty (by simpa [Buf.acquired] using hd) hlock
  · rw [← hshown b]
    exact (shown_of_valid hx' rfl).symm
  · intro y hy
    have hgy : lookup c₁ b = some { y with refcnt := y.refcnt + 1 } := by
      unfold Logging.bget at hg
      rw [hy] at hg
      cases hg
      exact lookup_setBuf_self (f := fun x => { x with refcnt := x.refcnt + 1 }) (fun _ => rfl) hy
    rw [hx] at hgy
    cases hgy
    exact hlock
  · intro b' y hb hy hl
    rw [lookup_setBuf_of_ne (f := Buf.acquired p (disk b)) (fun _ => rfl) hb]
    rcases h.lookup_bget_of_ne hg hb with heq | ⟨_, v, hv, hv0⟩
    · rw [heq, hy]
    · rw [hy] at hv
      cases hv
      exact absurd ((h.each hy).idle hv0).1 hl
  · intro b' y hb hy
    rw [lookup_setBuf_of_ne (f := Buf.acquired p (disk b)) (fun _ => rfl) hb] at hy
    rcases h.lookup_bget_of_ne hg hb with heq | ⟨hn, _⟩
    · rw [← heq, hy]
    · rw [hn] at hy
      cases hy

theorem bufData_of_lookup (hx : lookup c b = some x) : bufData c b = x.data := by
  rw [bufData, hx]

end Xv6.Logging
