import Xv6.Pipe.Model

/-!
# `Pipe.Step` — what one step can do, and who holds the locks

`Step` lists the branches of `step` one by one with their guards, so that an invariant is proved branch by
branch and no later proof unfolds the machine. `LockInv` is the lock discipline every other invariant
rests on: the program point of a process decides which locks it holds.
-/

namespace Xv6.Pipes

variable {N : Nat}

/-- The branches of `step`. -/
inductive Step (s : Sys N) : Act N → Sys N → Prop
  | call {p c} : (s.procs p).pc = .user → s.freed = false → Step s (.call p c) (s.goto p (.acquire c))
  | enter {p c} : (s.procs p).pc = .acquire c → s.lock = none → Step s (.next p) (s.enter p c)
  | writeStop {p n i₀ i} : (s.procs p).pc = .writeLoop n i₀ i → (i : Int) < n →
      s.pipe.readopen = false ∨ (s.procs p).killed = true → Step s (.next p) (s.goto p (.release (-1)))
  | writeFull {p n i₀ i} : (s.procs p).pc = .writeLoop n i₀ i → s.pipe.readopen = true →
      s.pipe.full = true → Step s (.next p) (s.goto p (.wakeup .nread 0 (.writeFull n i)))
  | writeEnd {p n i₀ i} : (s.procs p).pc = .writeLoop n i₀ i → ¬(i : Int) < n →
      Step s (.next p) (s.goto p (.wakeup .nread 0 (.writeDone i)))
  | readKilled {p n} : (s.procs p).pc = .readLoop n → Step s (.next p) (s.goto p (.release (-1)))
  | readSleep {p n} : (s.procs p).pc = .readLoop n → s.pipe.empty = true → s.pipe.writeopen = true →
      Step s (.next p) (s.goto p (.sleepAcquire .nread (.read n)))
  | readGo {p n} : (s.procs p).pc = .readLoop n → Step s (.next p) (s.goto p (.readCopy n []))
  | copyEnd {p n got} : (s.procs p).pc = .readCopy n got → Step s (.next p) (s.endCopy p got)
  | wakeSelf {p c j r} : (s.procs p).pc = .wakeup c j r → j = p.val →
      Step s (.next p) (s.goto p (.wakeup c (j + 1) r))
  | wakeOne {p q : Fin N} {c r} : (s.procs p).pc = .wakeup c q r → q ≠ p → (s.procs q).locked = false →
      Step s (.next p) ((s.setProc q ((s.procs q).wake c)).goto p (.wakeup c (q + 1) r))
  | wakeDone {p c j r} : (s.procs p).pc = .wakeup c j r → N ≤ j → Step s (.next p) (s.afterWakeup p r)
  | sleepAcquire {p c l} : (s.procs p).pc = .sleepAcquire c l → (s.procs p).locked = false →
      Step s (.next p) (s.setProc p { s.procs p with locked := true, pc := .sleepRelease c l })
  | sleepRelease {p c l} : (s.procs p).pc = .sleepRelease c l →
      Step s (.next p) ({ s with lock := none }.goto p (.sleepMark c l))
  | sleepMark {p c l} : (s.procs p).pc = .sleepMark c l →
      Step s (.next p)
        (s.setProc p { s.procs p with chan := some c, state := .sleeping, pc := .sched l })
  | schedOut {p l} : (s.procs p).pc = .sched l →
      Step s (.next p) (s.setProc p { s.procs p with locked := false, pc := .asleep l })
  | resume {p l} : (s.procs p).pc = .resume l →
      Step s (.next p)
        (s.setProc p { s.procs p with chan := none, locked := false, pc := .reacquire l })
  | reacquire {p l} : (s.procs p).pc = .reacquire l → s.lock = none → Step s (.next p) (s.afterSleep p l)
  | release {p r} : (s.procs p).pc = .release r → Step s (.next p) ({ s with lock := none }.goto p .user)
  | copyinFail {p n i₀ i} : (s.procs p).pc = .writeLoop n i₀ i →
      Step s (.copyin p none) (s.goto p (.wakeup .nread 0 (.writeDone i)))
  | copyinOk {p n i₀ i ch} : (s.procs p).pc = .writeLoop n i₀ i → s.pipe.readopen = true →
      (s.procs p).killed = false → s.pipe.full = false →
      Step s (.copyin p (some ch))
        ({ s with pipe := s.pipe.push ch, stored := s.stored ++ [ch] }.goto p (.writeLoop n i₀ (i + 1)))
  | copyoutOk {p n got} : (s.procs p).pc = .readCopy n got → s.pipe.empty = false →
      Step s (.copyout p true)
        ({ s with pipe := s.pipe.pop }.goto p (.readCopy n (got ++ [s.pipe.front])))
  | copyoutFail {p n got} : (s.procs p).pc = .readCopy n got → s.pipe.empty = false →
      Step s (.copyout p false) ({ s with pipe := s.pipe.pop }.endCopy p got)
  | schedIn {p l} : (s.procs p).pc = .asleep l → (s.procs p).state = .runnable →
      (s.procs p).locked = false →
      Step s (.sched p) (s.setProc p { s.procs p with state := .running, locked := true, pc := .resume l })
  | kill {q} : (s.procs q).locked = false → Step s (.kill q) (s.setProc q (s.procs q).kill)

theorem step_next {s t : Sys N} {p : Fin N} (h : next s p = some t) : Step s (.next p) t := by
  unfold next at h
  cases hpc : (s.procs p).pc with
  | user => simp [hpc] at h
  | acquire c =>
      simp only [hpc] at h
      split at h <;> cases h
      exact .enter hpc ‹_›
  | writeLoop n i₀ i =>
      simp only [hpc] at h
      split at h
      · split at h
        · rename_i hstop
          cases h
          rw [Bool.or_eq_true, Bool.not_eq_true'] at hstop
          exact .writeStop hpc ‹_› hstop
        · rename_i hopen
          simp only [Bool.or_eq_true, Bool.not_eq_true', not_or, Bool.not_eq_false] at hopen
          split at h <;> cases h
          exact .writeFull hpc hopen.1 ‹_›
      · cases h
        exact .writeEnd hpc ‹_›
  | readLoop n =>
      simp only [hpc] at h
      split at h
      · rename_i hwait
        rw [Bool.and_eq_true] at hwait
        split at h <;> cases h
        · exact .readKilled hpc
        · exact .readSleep hpc hwait.1 hwait.2
      · cases h
        exact .readGo hpc
  | readCopy n got =>
      simp only [hpc] at h
      split at h <;> cases h
      exact .copyEnd hpc
  | wakeup c j r =>
      simp only [hpc] at h
      split at h
      · rename_i hj
        split at h
        · cases h
          exact .wakeSelf hpc (congrArg Fin.val ‹_›)
        · split at h <;> cases h
          exact .wakeOne (q := ⟨j, hj⟩) hpc ‹_› (by simpa using ‹¬_ = true›)
      · cases h
        exact .wakeDone hpc (by omega)
  | sleepAcquire c l =>
      simp only [hpc] at h
      split at h <;> cases h
      exact .sleepAcquire hpc (by simpa using ‹¬_ = true›)
  | sleepRelease c l => simp only [hpc] at h; cases h; exact .sleepRelease hpc
  | sleepMark c l => simp only [hpc] at h; cases h; exact .sleepMark hpc
  | sched l => simp only [hpc] at h; cases h; exact .schedOut hpc
  | asleep l => simp [hpc] at h
  | resume l => simp only [hpc] at h; cases h; exact .resume hpc
  | reacquire l =>
      simp only [hpc] at h
      split at h <;> cases h
      exact .reacquire hpc ‹_›
  | release r => simp only [hpc] at h; cases h; exact .release hpc

/-- **Inversion of a step.** -/
theorem step_cases {s t : Sys N} {a : Act N} (h : step s a = some t) : Step s a t := by
  cases a with
  | call p c =>
      simp only [step] at h
      split at h <;> cases h
      rename_i hc
      exact .call hc.1 hc.2
  | next p => exact step_next h
  | copyin p r =>
      simp only [step, copyin] at h
      split at h
      · rename_i n i₀ i hpc
        split at h
        · rename_i hc
          cases r <;> cases h
          · exact .copyinFail hpc
          · exact .copyinOk hpc hc.2.1 hc.2.2.1 hc.2.2.2
        · cases h
      · cases h
  | copyout p ok =>
      simp only [step, copyout] at h
      split at h
      · rename_i n got hpc
        split at h
        · rename_i hc
          cases ok <;> cases h
          · exact .copyoutFail hpc hc.2
          · exact .copyoutOk hpc hc.2
        · cases h
      · cases h
  | sched p =>
      simp only [step] at h
      split at h
      · rename_i l hpc
        split at h <;> cases h
        rename_i hc
        exact .schedIn hpc hc.1 hc.2
      · cases h
  | kill q =>
      simp only [step] at h
      split at h <;> cases h
      exact .kill (by simpa using ‹¬_ = true›)

/-! ## Reading an updated process table -/

@[simp] theorem goto_procs_self (s : Sys N) (p : Fin N) (pc : Pc) :
    (s.goto p pc).procs p = { s.procs p with pc := pc } := by simp [Sys.goto, Sys.setProc]

@[simp] theorem goto_procs_ne (s : Sys N) {p q : Fin N} (pc : Pc) (h : q ≠ p) :
    (s.goto p pc).procs q = s.procs q := by simp [Sys.goto, Sys.setProc, h]

@[simp] theorem setProc_procs_self (s : Sys N) (p : Fin N) (pr : Proc) :
    (s.setProc p pr).procs p = pr := by simp [Sys.setProc]

@[simp] theorem setProc_procs_ne (s : Sys N) {p q : Fin N} (pr : Proc) (h : q ≠ p) :
    (s.setProc p pr).procs q = s.procs q := by simp [Sys.setProc, h]

@[simp] theorem goto_lock (s : Sys N) (p : Fin N) (pc : Pc) : (s.goto p pc).lock = s.lock := rfl
@[simp] theorem goto_pipe (s : Sys N) (p : Fin N) (pc : Pc) : (s.goto p pc).pipe = s.pipe := rfl
@[simp] theorem goto_stored (s : Sys N) (p : Fin N) (pc : Pc) : (s.goto p pc).stored = s.stored := rfl
@[simp] theorem goto_reads (s : Sys N) (p : Fin N) (pc : Pc) : (s.goto p pc).reads = s.reads := rfl
@[simp] theorem setProc_lock (s : Sys N) (p : Fin N) (pr : Proc) : (s.setProc p pr).lock = s.lock := rfl
@[simp] theorem setProc_pipe (s : Sys N) (p : Fin N) (pr : Proc) : (s.setProc p pr).pipe = s.pipe := rfl
@[simp] theorem setProc_stored (s : Sys N) (p : Fin N) (pr : Proc) :
    (s.setProc p pr).stored = s.stored := rfl
@[simp] theorem setProc_reads (s : Sys N) (p : Fin N) (pr : Proc) :
    (s.setProc p pr).reads = s.reads := rfl

@[simp] theorem wake_pc (c : Chan) (pr : Proc) : (pr.wake c).pc = pr.pc := by
  unfold Proc.wake; split <;> rfl

@[simp] theorem wake_locked (c : Chan) (pr : Proc) : (pr.wake c).locked = pr.locked := by
  unfold Proc.wake; split <;> rfl

@[simp] theorem wake_killed (c : Chan) (pr : Proc) : (pr.wake c).killed = pr.killed := by
  unfold Proc.wake; split <;> rfl

@[simp] theorem wake_chan (c : Chan) (pr : Proc) : (pr.wake c).chan = pr.chan := by
  unfold Proc.wake; split <;> rfl

theorem wake_sleeping {c : Chan} {pr : Proc} (h : (pr.wake c).state = .sleeping) :
    pr.state = .sleeping ∧ pr.chan ≠ some c := by
  unfold Proc.wake at h
  split at h
  · cases h
  · rename_i hc
    exact ⟨h, fun hch => hc ⟨h, hch⟩⟩

theorem kill_not_sleeping (pr : Proc) : pr.kill.state ≠ .sleeping := by
  unfold Proc.kill
  cases pr.state <;> simp

/-! ## The lock discipline -/

/-- Program points at which the process holds `pi->lock`. -/
def Pc.holds : Pc → Bool
  | .writeLoop .. | .readLoop _ | .readCopy .. | .wakeup .. | .sleepAcquire .. | .sleepRelease ..
  | .release _ => true
  | _ => false

/-- Program points at which the process (or the scheduler on its behalf) holds `p->lock`. -/
def Pc.locks : Pc → Bool
  | .sleepRelease .. | .sleepMark .. | .sched _ | .resume _ => true
  | _ => false

/-- Program points at which `p->state` can be `SLEEPING`. -/
def Pc.sleeps : Pc → Bool
  | .sched _ | .asleep _ => true
  | _ => false

structure LockInv (s : Sys N) : Prop where
  lock_iff : ∀ p, s.lock = some p ↔ (s.procs p).pc.holds = true
  locked_eq : ∀ p, (s.procs p).locked = (s.procs p).pc.locks
  sleeping_pc : ∀ p, (s.procs p).state = .sleeping → (s.procs p).pc.sleeps = true

/-- Only `lock` and `procs` matter. -/
theorem LockInv.congr {s t : Sys N} (h : LockInv s) (hl : t.lock = s.lock) (hp : t.procs = s.procs) :
    LockInv t := by
  constructor
  · intro p; rw [hl, hp]; exact h.lock_iff p
  · intro p; rw [hp]; exact h.locked_eq p
  · intro p; rw [hp]; exact h.sleeping_pc p

/-- Moving one process to a point that holds `pi->lock` exactly if its old one did. -/
theorem LockInv.setProc {s : Sys N} (h : LockInv s) {p : Fin N} {pr : Proc}
    (hh : pr.pc.holds = (s.procs p).pc.holds) (hl : pr.locked = pr.pc.locks)
    (hs : pr.state = .sleeping → pr.pc.sleeps = true) : LockInv (s.setProc p pr) := by
  constructor <;> intro q <;> by_cases hq : q = p
  · subst hq; simpa [hh] using h.lock_iff q
  · simpa [hq] using h.lock_iff q
  · subst hq; simpa using hl
  · simpa [hq] using h.locked_eq q
  · subst hq; simpa using hs
  · simpa [hq] using h.sleeping_pc q

theorem LockInv.goto {s : Sys N} (h : LockInv s) {p : Fin N} {k : Pc}
    (hh : k.holds = (s.procs p).pc.holds) (hl : k.locks = (s.procs p).pc.locks)
    (hs : (s.procs p).pc.sleeps = false) : LockInv (s.goto p k) := by
  refine h.setProc hh ((h.locked_eq p).trans hl.symm) fun hst => ?_
  have hpc := h.sleeping_pc p hst
  rw [hs] at hpc
  cases hpc

/-- `acquire(&pi->lock)` -/
theorem LockInv.take {s : Sys N} (h : LockInv s) {p : Fin N} {k : Pc} (hfree : s.lock = none)
    (hh : k.holds = true) (hl : k.locks = (s.procs p).pc.locks) (hs : (s.procs p).pc.sleeps = false) :
    LockInv ({ s with lock := some p }.goto p k) := by
  have hnone : ∀ q, (s.procs q).pc.holds = false := by
    intro q
    have := h.lock_iff q
    rw [hfree] at this
    simpa using this
  constructor <;> intro q <;> by_cases hq : q = p
  · subst hq; simp [hh]
  · have hpq : p ≠ q := fun he => hq he.symm
    simp [hq, hpq, hnone q]
  · subst hq; simpa [hl] using h.locked_eq q
  · simpa [hq] using h.locked_eq q
  · subst hq
    intro hst
    have hpc := h.sleeping_pc q (by simpa using hst)
    rw [hs] at hpc
    cases hpc
  · simpa [hq] using h.sleeping_pc q

/-- `release(&pi->lock)` -/
theorem LockInv.drop {s : Sys N} (h : LockInv s) {p : Fin N} {k : Pc}
    (hold : (s.procs p).pc.holds = true) (hh : k.holds = false)
    (hl : k.locks = (s.procs p).pc.locks) (hs : (s.procs p).pc.sleeps = false) :
    LockInv ({ s with lock := none }.goto p k) := by
  constructor <;> intro q <;> by_cases hq : q = p
  · subst hq; simp [hh]
  · have hother : ¬(s.procs q).pc.holds = true := by
      rw [← h.lock_iff q, (h.lock_iff p).mpr hold]
      intro he
      exact hq (Option.some.inj he).symm
    simpa [hq] using hother
  · subst hq; simpa [hl] using h.locked_eq q
  · simpa [hq] using h.locked_eq q
  · subst hq
    intro hst
    have hpc := h.sleeping_pc q (by simpa using hst)
    rw [hs] at hpc
    cases hpc
  · simpa [hq] using h.sleeping_pc q

theorem lockInv_init (data : Nat → UInt8) (killed : Fin N → Bool) : LockInv (init data killed) := by
  constructor <;> intro p <;> simp [init, Pc.holds, Pc.locks]

theorem lockInv_step {s t : Sys N} {a : Act N} (h : LockInv s) (hst : step s a = some t) : LockInv t := by
  cases step_cases hst with
  | call hpc _ => exact h.goto (by rw [hpc]; rfl) (by rw [hpc]; rfl) (by rw [hpc]; rfl)
  | @enter p c hpc hfree =>
      cases c with
      | write n => exact h.take hfree rfl (by rw [hpc]; rfl) (by rw [hpc]; rfl)
      | read n => exact h.take hfree rfl (by rw [hpc]; rfl) (by rw [hpc]; rfl)
      | close w =>
          cases w <;>
          exact (h.take (k := .wakeup _ 0 .close) hfree rfl (by rw [hpc]; rfl) (by rw [hpc]; rfl)).congr
            rfl rfl
  | writeStop hpc _ _ => exact h.goto (by rw [hpc]; rfl) (by rw [hpc]; rfl) (by rw [hpc]; rfl)
  | writeFull hpc _ _ => exact h.goto (by rw [hpc]; rfl) (by rw [hpc]; rfl) (by rw [hpc]; rfl)
  | writeEnd hpc _ => exact h.goto (by rw [hpc]; rfl) (by rw [hpc]; rfl) (by rw [hpc]; rfl)
  | readKilled hpc => exact h.goto (by rw [hpc]; rfl) (by rw [hpc]; rfl) (by rw [hpc]; rfl)
  | readSleep hpc _ _ => exact h.goto (by rw [hpc]; rfl) (by rw [hpc]; rfl) (by rw [hpc]; rfl)
  | readGo hpc => exact h.goto (by rw [hpc]; rfl) (by rw [hpc]; rfl) (by rw [hpc]; rfl)
  | copyEnd hpc =>
      exact (h.goto (k := .wakeup _ _ _) (by rw [hpc]; rfl) (by rw [hpc]; rfl) (by rw [hpc]; rfl)).congr
        rfl rfl
  | wakeSelf hpc _ => exact h.goto (by rw [hpc]; rfl) (by rw [hpc]; rfl) (by rw [hpc]; rfl)
  | @wakeOne p q c r hpc hne hfree =>
      have hq : LockInv (s.setProc q ((s.procs q).wake c)) := by
        refine h.setProc (by simp) (by simpa using h.locked_eq q) fun hw => ?_
        simpa using h.sleeping_pc q (wake_sleeping hw).1
      have hp : (s.setProc q ((s.procs q).wake c)).procs p = s.procs p := by simp [hne.symm]
      exact hq.goto (by rw [hp, hpc]; rfl) (by rw [hp, hpc]; rfl) (by rw [hp, hpc]; rfl)
  | @wakeDone p c j r hpc _ =>
      cases r with
      | writeFull n i => exact h.goto (by rw [hpc]; rfl) (by rw [hpc]; rfl) (by rw [hpc]; rfl)
      | writeDone i => exact h.goto (by rw [hpc]; rfl) (by rw [hpc]; rfl) (by rw [hpc]; rfl)
      | readDone got => exact h.goto (by rw [hpc]; rfl) (by rw [hpc]; rfl) (by rw [hpc]; rfl)
      | close =>
          exact (h.goto (k := .release 0) (by rw [hpc]; rfl) (by rw [hpc]; rfl)
            (by rw [hpc]; rfl)).congr rfl rfl
  | sleepAcquire hpc _ =>
      exact h.setProc (by rw [hpc]; rfl) rfl fun hst => by
        have := h.sleeping_pc _ hst
        rw [hpc] at this
        cases this
  | sleepRelease hpc => exact h.drop (by rw [hpc]; rfl) rfl (by rw [hpc]; rfl) (by rw [hpc]; rfl)
  | @sleepMark p c l hpc =>
      refine h.setProc (by rw [hpc]; rfl) ?_ fun _ => rfl
      rw [h.locked_eq p, hpc]
      rfl
  | schedOut hpc => exact h.setProc (by rw [hpc]; rfl) rfl fun _ => rfl
  | resume hpc =>
      exact h.setProc (by rw [hpc]; rfl) rfl fun hst => by
        have := h.sleeping_pc _ hst
        rw [hpc] at this
        cases this
  | @reacquire p l hpc hfree =>
      cases l with
      | write n i => exact h.take hfree rfl (by rw [hpc]; rfl) (by rw [hpc]; rfl)
      | read n => exact h.take hfree rfl (by rw [hpc]; rfl) (by rw [hpc]; rfl)
  | release hpc => exact h.drop (by rw [hpc]; rfl) rfl (by rw [hpc]; rfl) (by rw [hpc]; rfl)
  | copyinFail hpc => exact h.goto (by rw [hpc]; rfl) (by rw [hpc]; rfl) (by rw [hpc]; rfl)
  | copyinOk hpc _ _ _ =>
      exact (h.goto (k := .writeLoop _ _ _) (by rw [hpc]; rfl) (by rw [hpc]; rfl)
        (by rw [hpc]; rfl)).congr rfl rfl
  | copyoutOk hpc _ =>
      exact (h.goto (k := .readCopy _ _) (by rw [hpc]; rfl) (by rw [hpc]; rfl)
        (by rw [hpc]; rfl)).congr rfl rfl
  | copyoutFail hpc _ =>
      exact (h.goto (k := .wakeup _ _ _) (by rw [hpc]; rfl) (by rw [hpc]; rfl)
        (by rw [hpc]; rfl)).congr rfl rfl
  | schedIn hpc _ _ =>
      exact h.setProc (by rw [hpc]; rfl) rfl fun hst => by cases hst
  | @kill q _ =>
      refine h.setProc rfl (h.locked_eq q) fun hst => absurd hst (kill_not_sleeping _)

end Xv6.Pipes
