import Xv6.Bio.Commit

/-!
# `Bio.Buffers` — when `bget` runs out of buffers

A buffer is in use if a process holds its lock, waits for it or is on its way out of `brelse`, or if its
block is in the log. **`bget_panics_iff`**: in every state that the processes, the log and the boot can
reach, a call of `bget` ends in `panic("bget: no buffers")` exactly if the block is not cached and all `NBUF`
buffers are in use. The kernel does not keep that from happening: there are more processes than buffers, and
each may wait for the disk with a buffer of its own (`readers_exhaust_buffers`).
-/

namespace Xv6.Bcache

open Logging (Block NBUF)
open Trace (run)

variable {s : Sys} {a : Act} {i : Fin NBUF} {dev b : Nat}

/-- A process holds buffer `i`, waits for it or leaves it, or the log has its block. -/
def Sys.Busy (s : Sys) (i : Fin NBUF) : Prop :=
  (s.cache.buf i).lock.isSome ∨ (∃ p k, s.call p = some k ∧ k.ref = some i) ∨
    ∃ b ∈ s.pinned, s.key i = (ROOTDEV, b)

/-- The next step calls `bget(dev, b)`: a process that is in no other call does, or the log's code. -/
def CallsBget (s : Sys) (a : Act) (dev b : Nat) : Prop :=
  ∃ p, Starts s a p (.bget p dev b) fun x => dev = ROOTDEV ∧ ∃ r, x = .bread r b

/-- The step ends in `panic("bget: no buffers")`. -/
def NoBuffers (s : Sys) (a : Act) : Prop :=
  ∃ dev b, CallsBget s a dev b ∧ bget s.cache dev b = none

/-! ## Free buffers -/

theorem waiting_eq_zero {call : Fin NPROC → Option Call}
    (h : ¬∃ p k, call p = some k ∧ k.ref = some i) : waiting call i = 0 := by
  unfold waiting
  refine Finset.sum_eq_zero fun p _ => ?_
  rw [if_neg]
  intro hp
  obtain ⟨k, hk, hr⟩ := Option.bind_eq_some_iff.mp hp
  exact h ⟨p, k, hk, hr⟩

/-- `refcnt` tells the buffers in use from the others. -/
theorem Inv.busy_iff (hI : Inv s) : s.Busy i ↔ (s.cache.buf i).refcnt ≠ 0 := by
  constructor
  · rintro (hl | ⟨p, k, hp, hk⟩ | ⟨b, hb, hk⟩)
    · obtain ⟨p, hp⟩ := Option.isSome_iff_exists.mp hl
      exact hI.refcnt_ne_zero_of_held hp
    · intro hz
      have hw := waiting_pos hp hk
      obtain ⟨_, h0, _⟩ := hI.rep.callers_eq_zero hz
      omega
    · exact hI.refcnt_ne_zero_of_pinned hb hk
  · intro hz
    by_contra hno
    obtain ⟨hl, hw, hp⟩ : (s.cache.buf i).lock.isSome = false ∧ waiting s.call i = 0 ∧ s.pins i = 0 := by
      unfold Sys.Busy at hno
      rw [not_or, not_or] at hno
      obtain ⟨hl, hw, hp⟩ := hno
      refine ⟨Bool.eq_false_iff.mpr hl, waiting_eq_zero hw, hI.unpinned i ?_⟩
      exact fun b hb hk => hp ⟨b, hb, hk⟩
    apply hz
    rw [← UInt32.toNat_inj, hI.rep.refs i, callers, hl, hw, hp]
    rfl

/-- `bget` fails if neither of its loops finds a buffer. -/
theorem bget_eq_none_iff {c : Cache} (ho : c.Ordered) :
    bget c dev b = none ↔ (∀ i, (c.buf i).key ≠ (dev, b)) ∧ ∀ i, (c.buf i).refcnt ≠ 0 := by
  unfold bget
  cases hc : c.cached dev b with
  | some i =>
      refine iff_of_false (by simp) ?_
      rintro ⟨hno, _⟩
      exact hno i (cached_eq_some ho hc)
  | none =>
      have hno := cached_eq_none ho hc
      cases hl : c.lru with
      | some i =>
          refine iff_of_false (by simp) ?_
          rintro ⟨_, hz⟩
          exact hz i (lru_eq_some ho hl)
      | none => exact iff_of_true rfl ⟨hno, lru_eq_none ho hl⟩

/-! ## The panic -/

/-- Boot on an empty log: `initlog` reads and writes the header. -/
def bootLog (p : Fin NPROC) : List Act :=
  [.log, .acquiresleep p, .fill p, .log, .log, .unref p, .log, .log, .acquiresleep p, .fill p, .log, .log,
    .log, .unref p, .log]

/-- One process after the other calls `bread` for a block of its own, and waits for the disk. -/
def readers (n : Nat) : List Act :=
  ((List.finRange NPROC).take n).flatMap fun p => [.bget p ROOTDEV (100 + p.val), .acquiresleep p]

/-- Thirty processes wait for thirty blocks, and the next one to read finds no buffer. -/
theorem readers_exhaust_buffers : ∃ p q s,
    run step (boot 2 30 (fun _ _ => 0) p) (bootLog p ++ readers NBUF) = some s ∧
      CallsBget s (.bget q ROOTDEV 200) ROOTDEV 200 ∧ NoBuffers s (.bget q ROOTDEV 200) := by
  obtain ⟨p, q, hpq⟩ : ∃ p q, (run step (boot 2 30 (fun _ _ => 0) p) (bootLog p ++ readers NBUF)).any
      (fun s => s.idle q && (bget s.cache ROOTDEV 200).isNone) = true :=
    ⟨⟨0, by decide⟩, ⟨40, by decide⟩, by decide +kernel⟩
  obtain ⟨s, hs, hz⟩ := (Option.any_eq_true _ _).mp hpq
  obtain ⟨hidle, hnone⟩ := Bool.and_eq_true_iff.mp hz
  have hcall : CallsBget s (.bget q ROOTDEV 200) ROOTDEV 200 := ⟨q, .inl ⟨rfl, hidle⟩⟩
  exact ⟨p, q, s, hs, hcall, ROOTDEV, 200, hcall, Option.isNone_iff_eq_none.mp hnone⟩

/-- **When buffers suffice.** A step from a reachable state ends in `panic("bget: no buffers")` exactly if it
    calls `bget` for a block that is not cached, and every buffer is held, waited for or pinned by the log. -/
theorem bget_panics_iff {start size : Nat} {disk : Nat → Block} {init : Fin NPROC} {acts : List Act}
    (hrun : run step (boot start size disk init) acts = some s) (a : Act) :
    NoBuffers s a ↔ ∃ dev b, CallsBget s a dev b ∧ (∀ i, s.key i ≠ (dev, b)) ∧ ∀ i, s.Busy i := by
  have hI := inv_run hrun
  refine exists_congr fun dev => exists_congr fun b => and_congr_right fun _ => ?_
  rw [bget_eq_none_iff hI.rep.ordered]
  exact and_congr_right fun _ => forall_congr' fun i => hI.busy_iff.symm

/-- The boot finds a buffer for the header of the log. -/
theorem boot_finds_buffer : CallsBget (boot 2 30 (fun _ _ => 0) ⟨0, by decide⟩) .log ROOTDEV 2 ∧
    ¬NoBuffers (boot 2 30 (fun _ _ => 0) ⟨0, by decide⟩) .log := by
  refine ⟨⟨_, .inr ⟨rfl, _, _, _, rfl, rfl, rfl, rfl, rfl, _, rfl⟩⟩, ?_⟩
  rw [bget_panics_iff (Trace.run_nil _)]
  rintro ⟨dev, b, _, _, hbusy⟩
  rcases hbusy ⟨0, by decide⟩ with hl | ⟨p, k, hp, _⟩ | ⟨b, hb, _⟩
  · cases hl
  · cases hp
  · cases hb

end Xv6.Bcache
