import Xv6.Lib.Ring
import Xv6.Pipe.Step

/-!
# `Pipe.Fifo` — which bytes come out of a pipe

The ring is read as a queue (`Pipe.contents`), and the bytes that entered it are compared with the bytes
`piperead` calls report plus those still queued. `piperead` advances `nread` before it knows whether
`copyout` succeeded, so a byte whose `copyout` fails is neither reported nor queued: the pipe is a
lossless FIFO exactly along the runs without such a failure (`fifo_iff_no_loss`).
-/

namespace Xv6.Pipes

variable {N : Nat}

/-- `pi->nwrite - pi->nread` as a `uint`. -/
def Pipe.count (pi : Pipe) : Nat := Ring.count (2 ^ 32) pi.nread pi.nwrite

/-- The bytes in the ring, oldest first. -/
def Pipe.contents (pi : Pipe) : List UInt8 := Ring.slots PIPESIZE pi.data pi.nread pi.count

/-- The counters are `uint`s and at most `PIPESIZE` apart. -/
structure Pipe.Ok (pi : Pipe) : Prop where
  nread_lt : pi.nread < 2 ^ 32
  nwrite_lt : pi.nwrite < 2 ^ 32
  count_le : pi.count ≤ PIPESIZE

theorem pipesize_dvd : PIPESIZE ∣ 2 ^ 32 := by decide

@[simp] theorem length_contents (pi : Pipe) : pi.contents.length = pi.count := by simp [Pipe.contents]

theorem count_ne_zero {pi : Pipe} (h : pi.Ok) (he : pi.empty = false) : pi.count ≠ 0 := by
  intro h0
  have hrw := (Ring.count_eq_zero_iff h.nread_lt h.nwrite_lt).mp h0
  simp [Pipe.empty, hrw] at he

theorem count_lt_of_not_full {pi : Pipe} (h : pi.Ok) (hf : pi.full = false) : pi.count < PIPESIZE := by
  refine Nat.lt_of_le_of_ne h.count_le fun hc => ?_
  have hw := (Ring.count_eq_iff h.nread_lt h.nwrite_lt (by decide)).mp hc
  rw [Pipe.full, uint, ← hw, beq_self_eq_true] at hf
  cases hf

theorem count_push {pi : Pipe} (h : pi.Ok) (hf : pi.full = false) (ch : UInt8) :
    (pi.push ch).count = pi.count + 1 := by
  have hlt := count_lt_of_not_full h hf
  refine Ring.count_succ_right h.nread_lt h.nwrite_lt ?_
  have : pi.count + 1 < 2 ^ 32 := by unfold PIPESIZE at hlt; omega
  exact this

theorem count_pop {pi : Pipe} (h : pi.Ok) (he : pi.empty = false) : pi.pop.count = pi.count - 1 :=
  Ring.count_succ_left h.nread_lt h.nwrite_lt (count_ne_zero h he)

theorem push_ok {pi : Pipe} (h : pi.Ok) (hf : pi.full = false) (ch : UInt8) : (pi.push ch).Ok where
  nread_lt := h.nread_lt
  nwrite_lt := Nat.mod_lt _ (by decide)
  count_le := by rw [count_push h hf]; exact count_lt_of_not_full h hf

theorem pop_ok {pi : Pipe} (h : pi.Ok) (he : pi.empty = false) : pi.pop.Ok where
  nread_lt := Nat.mod_lt _ (by decide)
  nwrite_lt := h.nwrite_lt
  count_le := by have := h.count_le; rw [count_pop h he]; omega

/-- A stored byte joins the queue at its end. -/
theorem contents_push {pi : Pipe} (h : pi.Ok) (hf : pi.full = false) (ch : UInt8) :
    (pi.push ch).contents = pi.contents ++ [ch] := by
  have hslot : (pi.nread + pi.count) % PIPESIZE = pi.nwrite % PIPESIZE :=
    Ring.slot_of_count pipesize_dvd h.nread_lt h.nwrite_lt
  unfold Pipe.contents
  rw [count_push h hf, Ring.slots_succ]
  show Ring.slots PIPESIZE (Function.update pi.data (pi.nwrite % PIPESIZE) ch) pi.nread pi.count ++ _ = _
  rw [← hslot, Ring.slots_update _ _ (count_lt_of_not_full h hf)]
  simp [Pipe.push, hslot]

/-- The byte at `nread` leaves the queue at its front. -/
theorem contents_pop {pi : Pipe} (h : pi.Ok) (he : pi.empty = false) :
    pi.contents = pi.front :: pi.pop.contents := by
  have h0 := count_ne_zero h he
  unfold Pipe.contents
  rw [count_pop h he]
  conv_lhs => rw [show pi.count = pi.count - 1 + 1 by omega, Ring.slots_cons]
  refine congrArg _ ?_
  exact (Ring.slots_mod pipesize_dvd pi.data (pi.nread + 1) _).symm

/-! ## What has been reported -/

def Pc.copied : Pc → List UInt8
  | .readCopy _ got => got
  | _ => []

/-- What the `piperead` call that is in its copy loop has copied out so far. -/
def Sys.copying (s : Sys N) : List UInt8 :=
  match s.lock with
  | some p => (s.procs p).pc.copied
  | none => []

/-- The bytes `piperead` calls report, in the order of their copy loops. -/
def Sys.reported (s : Sys N) : List UInt8 := s.reads.flatten ++ s.copying

/-- The pipe is a lossless FIFO: what was reported and what is queued are what was stored. -/
def Fifo (s : Sys N) : Prop :=
  s.pipe.count ≤ PIPESIZE ∧ s.reported ++ s.pipe.contents = s.stored

/-- The label of a `copyout` that fails. -/
def Act.loses : Act N → Bool
  | .copyout _ false => true
  | _ => false

theorem copying_setProc {s : Sys N} {p : Fin N} {pr : Proc} (h : pr.pc.copied = (s.procs p).pc.copied) :
    (s.setProc p pr).copying = s.copying := by
  unfold Sys.copying
  rw [setProc_lock]
  cases s.lock with
  | none => rfl
  | some q =>
      by_cases hq : q = p
      · subst hq; simpa using h
      · simp [hq]

theorem copying_goto {s : Sys N} {p : Fin N} {k : Pc} (h : k.copied = (s.procs p).pc.copied) :
    (s.goto p k).copying = s.copying := copying_setProc h

theorem copying_take {s : Sys N} {p : Fin N} {k : Pc} (hfree : s.lock = none) (hk : k.copied = []) :
    ({ s with lock := some p }.goto p k).copying = s.copying := by
  simp [Sys.copying, hfree, hk]

theorem copying_drop {s : Sys N} {p : Fin N} {k : Pc} (hl : LockInv s)
    (hold : (s.procs p).pc.holds = true) (hc : (s.procs p).pc.copied = []) :
    ({ s with lock := none }.goto p k).copying = s.copying := by
  simp [Sys.copying, (hl.lock_iff p).mpr hold, hc]

/-- The relation between a run's labels and its last state: each failed `copyout` accounts for one byte
    that is neither reported nor queued, and without one the order is exact. -/
structure Ledger (acts : List (Act N)) (s : Sys N) : Prop where
  lock : LockInv s
  ok : s.pipe.Ok
  length_eq : s.stored.length = s.reported.length + acts.countP Act.loses + s.pipe.count
  exact_of : acts.countP Act.loses = 0 → s.reported ++ s.pipe.contents = s.stored

theorem ledger_init (data : Nat → UInt8) (killed : Fin N → Bool) : Ledger [] (init data killed) where
  lock := lockInv_init data killed
  ok := ⟨by simp [init], by simp [init], by simp [init, Pipe.count, Ring.count_self]⟩
  length_eq := by simp [init, Sys.reported, Sys.copying, Pipe.count, Ring.count_self]
  exact_of _ := by simp [init, Sys.reported, Sys.copying, Pipe.contents, Pipe.count, Ring.count_self,
    Ring.slots]

/-- A step that moves no byte keeps the ledger. -/
theorem Ledger.quiet {acts : List (Act N)} {s t : Sys N} {a : Act N} (h : Ledger acts s)
    (hl : LockInv t) (ha : a.loses = false) (hd : t.pipe.data = s.pipe.data)
    (hr : t.pipe.nread = s.pipe.nread) (hw : t.pipe.nwrite = s.pipe.nwrite)
    (hst : t.stored = s.stored) (hrep : t.reported = s.reported) : Ledger (acts ++ [a]) t := by
  have hcount : t.pipe.count = s.pipe.count := by unfold Pipe.count; rw [hr, hw]
  have hcont : t.pipe.contents = s.pipe.contents := by unfold Pipe.contents; rw [hcount, hd, hr]
  have hloss : (acts ++ [a]).countP Act.loses = acts.countP Act.loses := by simp [ha]
  refine ⟨hl, ⟨hr ▸ h.ok.nread_lt, hw ▸ h.ok.nwrite_lt, hcount ▸ h.ok.count_le⟩, ?_, ?_⟩
  · rw [hst, hrep, hloss, hcount]; exact h.length_eq
  · rw [hst, hrep, hloss, hcont]; exact h.exact_of

theorem ledger_step {acts : List (Act N)} {s t : Sys N} {a : Act N} (h : Ledger acts s)
    (hst : step s a = some t) : Ledger (acts ++ [a]) t := by
  have hl := lockInv_step h.lock hst
  -- `quiet` steps differ only in why the bytes being copied stay the same
  have hquiet : a.loses = false → t.pipe.data = s.pipe.data → t.pipe.nread = s.pipe.nread →
      t.pipe.nwrite = s.pipe.nwrite → t.stored = s.stored → t.reads = s.reads →
      t.copying = s.copying → Ledger (acts ++ [a]) t := by
    intro ha hd hr hw hs hreads hc
    refine h.quiet hl ha hd hr hw hs ?_
    unfold Sys.reported
    rw [hreads, hc]
  cases step_cases hst with
  | call hpc _ => exact hquiet rfl rfl rfl rfl rfl rfl (copying_goto (by rw [hpc]; rfl))
  | @enter p c hpc hfree =>
      cases c with
      | write n => exact hquiet rfl rfl rfl rfl rfl rfl (copying_take hfree rfl)
      | read n => exact hquiet rfl rfl rfl rfl rfl rfl (copying_take hfree rfl)
      | close w =>
          cases w <;>
          exact hquiet rfl rfl rfl rfl rfl rfl (copying_take (s := s) (k := .wakeup _ 0 .close) hfree rfl)
  | writeStop hpc _ _ => exact hquiet rfl rfl rfl rfl rfl rfl (copying_goto (by rw [hpc]; rfl))
  | writeFull hpc _ _ => exact hquiet rfl rfl rfl rfl rfl rfl (copying_goto (by rw [hpc]; rfl))
  | writeEnd hpc _ => exact hquiet rfl rfl rfl rfl rfl rfl (copying_goto (by rw [hpc]; rfl))
  | readKilled hpc => exact hquiet rfl rfl rfl rfl rfl rfl (copying_goto (by rw [hpc]; rfl))
  | readSleep hpc _ _ => exact hquiet rfl rfl rfl rfl rfl rfl (copying_goto (by rw [hpc]; rfl))
  | readGo hpc => exact hquiet rfl rfl rfl rfl rfl rfl (copying_goto (by rw [hpc]; rfl))
  | @copyEnd p n got hpc =>
      refine h.quiet hl rfl rfl rfl rfl rfl ?_
      have hold : (s.procs p).pc.holds = true := by rw [hpc]; rfl
      have hlock := (h.lock.lock_iff p).mpr hold
      simp [Sys.reported, hpc, Sys.endCopy, Sys.copying, hlock, Pc.copied]
  | wakeSelf hpc _ => exact hquiet rfl rfl rfl rfl rfl rfl (copying_goto (by rw [hpc]; rfl))
  | @wakeOne p q c r hpc hne _ =>
      refine hquiet rfl rfl rfl rfl rfl rfl ?_
      have hp : (s.setProc q ((s.procs q).wake c)).procs p = s.procs p := by simp [hne.symm]
      rw [copying_goto (by rw [hp, hpc]; rfl)]
      exact copying_setProc (by rw [wake_pc])
  | @wakeDone p c j r hpc _ =>
      cases r with
      | writeFull n i => exact hquiet rfl rfl rfl rfl rfl rfl (copying_goto (by rw [hpc]; rfl))
      | writeDone i => exact hquiet rfl rfl rfl rfl rfl rfl (copying_goto (by rw [hpc]; rfl))
      | readDone got => exact hquiet rfl rfl rfl rfl rfl rfl (copying_goto (by rw [hpc]; rfl))
      | close =>
          exact hquiet rfl rfl rfl rfl rfl rfl (copying_goto (s := s) (k := .release 0) (by rw [hpc]; rfl))
  | sleepAcquire hpc _ => exact hquiet rfl rfl rfl rfl rfl rfl (copying_setProc (by rw [hpc]; rfl))
  | sleepRelease hpc =>
      exact hquiet rfl rfl rfl rfl rfl rfl
        (copying_drop h.lock (by rw [hpc]; rfl) (by rw [hpc]; rfl))
  | sleepMark hpc => exact hquiet rfl rfl rfl rfl rfl rfl (copying_setProc (by rw [hpc]; rfl))
  | schedOut hpc => exact hquiet rfl rfl rfl rfl rfl rfl (copying_setProc (by rw [hpc]; rfl))
  | resume hpc => exact hquiet rfl rfl rfl rfl rfl rfl (copying_setProc (by rw [hpc]; rfl))
  | @reacquire p l hpc hfree =>
      cases l with
      | write n i => exact hquiet rfl rfl rfl rfl rfl rfl (copying_take hfree rfl)
      | read n => exact hquiet rfl rfl rfl rfl rfl rfl (copying_take hfree rfl)
  | release hpc =>
      exact hquiet rfl rfl rfl rfl rfl rfl
        (copying_drop h.lock (by rw [hpc]; rfl) (by rw [hpc]; rfl))
  | copyinFail hpc => exact hquiet rfl rfl rfl rfl rfl rfl (copying_goto (by rw [hpc]; rfl))
  | @copyinOk p n i₀ i ch hpc _ _ hnf =>
      have hrep : ({ s with pipe := s.pipe.push ch, stored := s.stored ++ [ch] }.goto p
          (.writeLoop n i₀ (i + 1))).reported = s.reported := by
        unfold Sys.reported
        exact congrArg _ (copying_goto (s := s) (k := .writeLoop n i₀ (i + 1)) (by rw [hpc]; rfl))
      refine ⟨hl, push_ok h.ok hnf ch, ?_, fun hz => ?_⟩
      · rw [hrep]
        simp [Act.loses, h.length_eq, count_push h.ok hnf]
        omega
      · rw [hrep]
        simp only [goto_pipe, goto_stored, contents_push h.ok hnf, ← List.append_assoc]
        rw [h.exact_of (by simpa [List.countP_cons, Act.loses] using hz)]
  | @copyoutOk p n got hpc hne =>
      have hold : (s.procs p).pc.holds = true := by rw [hpc]; rfl
      have hlock := (h.lock.lock_iff p).mpr hold
      have hrep : ({ s with pipe := s.pipe.pop }.goto p
          (.readCopy n (got ++ [s.pipe.front]))).reported = s.reported ++ [s.pipe.front] := by
        simp [Sys.reported, hpc, Sys.copying, hlock, Pc.copied]
      have hpos := count_ne_zero h.ok hne
      refine ⟨hl, pop_ok h.ok hne, ?_, fun hz => ?_⟩
      · rw [hrep]
        simp [Act.loses, h.length_eq, count_pop h.ok hne]
        omega
      · rw [hrep]
        have := h.exact_of (by simpa [List.countP_cons, Act.loses] using hz)
        rw [contents_pop h.ok hne] at this
        simpa using this
  | @copyoutFail p n got hpc hne =>
      have hold : (s.procs p).pc.holds = true := by rw [hpc]; rfl
      have hlock := (h.lock.lock_iff p).mpr hold
      have hrep : ({ s with pipe := s.pipe.pop }.endCopy p got).reported = s.reported := by
        simp [Sys.reported, hpc, Sys.endCopy, Sys.copying, hlock, Pc.copied]
      have hpos := count_ne_zero h.ok hne
      refine ⟨hl, pop_ok h.ok hne, ?_, fun hz => ?_⟩
      · rw [hrep]
        simp [Act.loses, h.length_eq, count_pop h.ok hne, Sys.endCopy]
        omega
      · simp [List.countP_cons, Act.loses] at hz
  | schedIn hpc _ _ => exact hquiet rfl rfl rfl rfl rfl rfl (copying_setProc (by rw [hpc]; rfl))
  | kill _ => exact hquiet rfl rfl rfl rfl rfl rfl (copying_setProc rfl)

/-- Every run keeps the ledger. -/
theorem ledger_run {data : Nat → UInt8} {killed : Fin N → Bool} {acts : List (Act N)} {s : Sys N}
    (h : Trace.run step (init data killed) acts = some s) : Ledger acts s :=
  Trace.run_history (ledger_init data killed) (fun _ _ _ _ _ hP hst => ledger_step hP hst) h

/-- **A pipe is a lossless FIFO exactly as long as no `copyout` of a byte fails.** For any number of
    processes, any interleaving of their `pipewrite`, `piperead` and `pipeclose` calls and runs of any
    length (the counters wrap), the counters are never more than `PIPESIZE` apart and the bytes reported
    by `piperead` followed by the bytes still queued are the bytes stored if and only if no `copyout` has
    failed. -/
theorem fifo_iff_no_loss {data : Nat → UInt8} {killed : Fin N → Bool} {acts : List (Act N)} {s : Sys N}
    (h : Trace.run step (init data killed) acts = some s) :
    s.pipe.count ≤ PIPESIZE ∧ (Fifo s ↔ ∀ p, Act.copyout p false ∉ acts) := by
  have hL := ledger_run h
  have hcount : acts.countP Act.loses = 0 ↔ ∀ p, Act.copyout p false ∉ acts := by
    rw [List.countP_eq_zero]
    constructor
    · intro hall p hp
      exact hall _ hp rfl
    · intro hno a ha hlose
      match a, hlose with
      | .copyout p false, _ => exact hno p ha
  refine ⟨hL.ok.count_le, ?_⟩
  rw [← hcount]
  constructor
  · rintro ⟨_, heq⟩
    -- the lengths leave no room for a lost byte
    have hlen := congrArg List.length heq
    rw [List.length_append, length_contents, hL.length_eq] at hlen
    omega
  · intro hz
    exact ⟨hL.ok.count_le, hL.exact_of hz⟩

/-- One process stores a byte and reads it back into an unmapped buffer. -/
def lossyRun : List (Act 1) :=
  [.call 0 (.write 1), .next 0, .copyin 0 (some 7), .next 0, .next 0, .next 0, .next 0,
   .call 0 (.read 1), .next 0, .next 0, .copyout 0 false, .next 0, .next 0, .next 0]

/-- The byte of `lossyRun` is gone: it was stored, it is not queued, and the call reports 0 bytes. -/
theorem copyout_failure_loses_byte :
    ∃ s : Sys 1, Trace.run step (init (fun _ => 0) fun _ => false) lossyRun = some s ∧
      s.stored = [7] ∧ s.reads = [[]] ∧ s.pipe.contents = [] ∧ ¬Fifo s := by
  refine ⟨_, rfl, rfl, rfl, rfl, fun h => ?_⟩
  exact absurd h.2 (by decide)

/-- The first half of `lossyRun`, where the byte is still queued. -/
theorem fifo_of_stored_byte :
    ∃ s : Sys 1, Trace.run step (init (fun _ => 0) fun _ => false) (lossyRun.take 7) = some s ∧
      s.stored = [7] ∧ Fifo s := by
  obtain ⟨s, hs, hst⟩ : ∃ s : Sys 1,
      Trace.run step (init (fun _ => 0) fun _ => false) (lossyRun.take 7) = some s ∧ s.stored = [7] :=
    ⟨_, rfl, rfl⟩
  exact ⟨s, hs, hst, (fifo_iff_no_loss hs).2.mpr (by decide)⟩

end Xv6.Pipes
