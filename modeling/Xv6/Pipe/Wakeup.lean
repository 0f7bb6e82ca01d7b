import Xv6.Pipe.Step

/-!
# `Pipe.Wakeup` — no process sleeps through its event

A reader sleeps on `&pi->nread` because the pipe is empty and writable, a writer on `&pi->nwrite` because
it is full and readable (`Blocked`). The invariant `WakeInv` says that when this stops being true for a
process that is asleep, or that has released `pi->lock` and is about to be, the process holding `pi->lock`
is on its way to the `wakeup` that will reach the sleeper. The one path on which `pipewrite` drops the lock
after storing bytes without that `wakeup` is the `return -1` for a `killed` writer, so the property holds
along every run in which no writer is killed in the middle of a transfer while a reader sleeps.
-/

namespace Xv6.Pipes

variable {N : Nat}

/-- What a process that goes to sleep on `c` has seen under `pi->lock`. -/
def Blocked (pi : Pipe) : Chan → Prop
  | .nread => pi.empty = true ∧ pi.writeopen = true
  | .nwrite => pi.full = true ∧ pi.readopen = true

/-- The process sleeps on `c`, or holds its own lock and is about to. -/
def Waits (c : Chan) (pr : Proc) : Prop :=
  (∃ l, pr.pc = .sleepMark c l) ∨ (pr.state = .sleeping ∧ pr.chan = some c)

/-- From where it is the process reaches, in the same hold of `pi->lock`, a `wakeup(c)` that still visits
    slot `q`. A writer with bytes left does so only if it has not been killed. -/
def WillWake (c : Chan) (q : Nat) (pr : Proc) : Prop :=
  match pr.pc with
  | .writeLoop n i₀ i => c = .nread ∧ i₀ < i ∧ ((i : Int) < n → pr.killed = false)
  | .readCopy _ _ => c = .nwrite
  | .wakeup c' j _ => c' = c ∧ j ≤ q
  | _ => False

/-- What the holder of `pi->lock` knows. -/
def HolderOk (pi : Pipe) (pr : Proc) : Prop :=
  match pr.pc with
  | .writeLoop _ i₀ i => i₀ ≤ i ∧ (i₀ < i → pi.readopen = true)
  | .sleepAcquire c _ => Blocked pi c
  | .sleepRelease c _ => Blocked pi c
  | .wakeup _ _ (.writeFull _ _) => Blocked pi .nwrite
  | _ => True

def WaitsOk (s : Sys N) : Prop :=
  ∀ (q : Fin N) (c : Chan), Waits c (s.procs q) →
    Blocked s.pipe c ∨ ∃ p, s.lock = some p ∧ WillWake c q (s.procs p)

structure WakeInv (s : Sys N) : Prop where
  lock : LockInv s
  holder : ∀ p, s.lock = some p → HolderOk s.pipe (s.procs p)
  waits : WaitsOk s

/-- In a state with `pi->lock` free, every sleeper has reason to sleep. -/
def NoMissedEvent (s : Sys N) : Prop :=
  s.lock = none → ∀ q, (s.procs q).state = .sleeping →
    ((s.procs q).chan = some .nread → s.pipe.empty = true ∧ s.pipe.writeopen = true) ∧
    ((s.procs q).chan = some .nwrite → s.pipe.full = true ∧ s.pipe.readopen = true)

/-- While a reader is asleep, `kill` does not hit a process that holds `pi->lock` in `pipewrite`, has stored
    a byte since it took it and has bytes left to store. -/
def KillSafe (s : Sys N) : Act N → Prop
  | .kill q => ∀ n i₀ i, (s.procs q).pc = .writeLoop n i₀ i → i₀ < i → (i : Int) < n →
      ∀ r, ¬Waits .nread (s.procs r)
  | _ => True

/-! ## Waiting processes -/

/-- A waiting process does not hold `pi->lock`. -/
theorem not_holds_of_waits {s : Sys N} (hl : LockInv s) {q : Fin N} {c : Chan}
    (hw : Waits c (s.procs q)) : (s.procs q).pc.holds = false := by
  rcases hw with ⟨l, hpc⟩ | ⟨hst, _⟩
  · rw [hpc]; rfl
  · have hsl := hl.sleeping_pc q hst
    cases hpc : (s.procs q).pc <;> simp [hpc, Pc.sleeps] at hsl <;> rfl

/-- With `pi->lock` free every waiting process is blocked. -/
theorem blocked_of_free {s : Sys N} (h : WaitsOk s) (hfree : s.lock = none) {q : Fin N} {c : Chan}
    (hw : Waits c (s.procs q)) : Blocked s.pipe c := by
  rcases h q c hw with hb | ⟨p, hp, _⟩
  · exact hb
  · rw [hfree] at hp
    cases hp

/-- With `pi->lock` held by `p`, a process that is not blocked is one `p` will wake. -/
theorem willWake_of_held {s : Sys N} (h : WaitsOk s) {p : Fin N} (hp : s.lock = some p) {q : Fin N}
    {c : Chan} (hw : Waits c (s.procs q)) :
    Blocked s.pipe c ∨ WillWake c q (s.procs p) := by
  rcases h q c hw with hb | ⟨p', hp', hk⟩
  · exact Or.inl hb
  · rw [hp] at hp'
    cases hp'
    exact Or.inr hk

/-- Moving one process without touching the pipe or `pi->lock`: it must not start waiting, and if it holds
    `pi->lock` it must keep its promises to the others. -/
theorem WaitsOk.setProc {s : Sys N} (h : WaitsOk s) (hl : LockInv s) {p : Fin N} {pr : Proc}
    (hw : ∀ c, Waits c pr → Waits c (s.procs p))
    (hk : s.lock = some p → ∀ q c, q ≠ p → Waits c (s.procs q) →
      WillWake c q (s.procs p) → WillWake c q pr) : WaitsOk (s.setProc p pr) := by
  intro q c hq
  have hold : Waits c (s.procs q) := by
    by_cases he : q = p
    · subst he; exact hw c (by simpa using hq)
    · simpa [he] using hq
  rcases h q c hold with hb | ⟨p', hp', hwake⟩
  · exact Or.inl hb
  · refine Or.inr ⟨p', hp', ?_⟩
    by_cases he : p' = p
    · subst he
      have hne : q ≠ p' := by
        rintro rfl
        have hh := (hl.lock_iff q).mp hp'
        rw [not_holds_of_waits hl hold] at hh
        cases hh
      simpa using hk hp' q c hne hold hwake
    · simpa [he] using hwake

/-- A step inside one hold of `pi->lock`. -/
theorem WaitsOk.goto {s : Sys N} (h : WaitsOk s) (hl : LockInv s) {p : Fin N} {k : Pc}
    (hk0 : ∀ c l, k ≠ .sleepMark c l)
    (hk : ∀ q c, q ≠ p → Waits c (s.procs q) → WillWake c q (s.procs p) →
      WillWake c q { s.procs p with pc := k }) :
    WaitsOk (s.goto p k) := by
  refine h.setProc hl (fun c hw => ?_) fun _ => hk
  rcases hw with ⟨l, hpc⟩ | hst
  · exact absurd hpc (hk0 c l)
  · exact Or.inr hst

/-- Taking the free `pi->lock` without changing what the sleepers wait for. -/
theorem WaitsOk.take {s : Sys N} (h : WaitsOk s) (hfree : s.lock = none) {p : Fin N} {k : Pc}
    (hk0 : ∀ c l, k ≠ .sleepMark c l) : WaitsOk ({ s with lock := some p }.goto p k) := by
  intro q c hq
  refine Or.inl (blocked_of_free h hfree (q := q) ?_)
  by_cases he : q = p
  · subst he
    rcases hq with ⟨l, hpc⟩ | hst
    · simp at hpc
      exact absurd hpc (hk0 c l)
    · exact Or.inr (by simpa using hst)
  · simpa [he] using hq

/-- The holder's knowledge when another process moves. -/
theorem holder_setProc {s : Sys N} (h : ∀ p, s.lock = some p → HolderOk s.pipe (s.procs p)) {p : Fin N}
    {pr : Proc} (hp : s.lock = some p → HolderOk s.pipe pr) :
    ∀ q, (s.setProc p pr).lock = some q → HolderOk (s.setProc p pr).pipe ((s.setProc p pr).procs q) := by
  intro q hq
  by_cases he : q = p
  · subst he; simpa using hp hq
  · simpa [he] using h q hq

/-! ## The invariant is kept by every step -/

theorem WakeInv.goto {s : Sys N} (h : WakeInv s) {p : Fin N} {k : Pc} (hl : LockInv (s.goto p k))
    (hH : HolderOk s.pipe { s.procs p with pc := k }) (hk0 : ∀ c l, k ≠ .sleepMark c l)
    (hk : ∀ q c, q ≠ p → Waits c (s.procs q) → WillWake c q (s.procs p) →
      WillWake c q { s.procs p with pc := k }) :
    WakeInv (s.goto p k) :=
  ⟨hl, holder_setProc h.holder fun _ => hH, h.waits.goto h.lock hk0 hk⟩

theorem WakeInv.take {s : Sys N} (h : WakeInv s) (hfree : s.lock = none) {p : Fin N} {k : Pc}
    (hl : LockInv ({ s with lock := some p }.goto p k)) (hH : HolderOk s.pipe { s.procs p with pc := k })
    (hk0 : ∀ c l, k ≠ .sleepMark c l) : WakeInv ({ s with lock := some p }.goto p k) := by
  refine ⟨hl, fun q hq => ?_, h.waits.take hfree hk0⟩
  have he : p = q := by simpa using hq
  subst he
  simpa using hH

/-- A step of a process that does not hold `pi->lock` and does not start to wait. -/
theorem WakeInv.other {s : Sys N} (h : WakeInv s) {p : Fin N} {pr : Proc} (hl : LockInv (s.setProc p pr))
    (hno : (s.procs p).pc.holds = false) (hw : ∀ c, Waits c pr → Waits c (s.procs p)) :
    WakeInv (s.setProc p pr) := by
  have hlock : s.lock ≠ some p := by
    rw [Ne, h.lock.lock_iff p, hno]
    exact Bool.false_ne_true
  exact ⟨hl, holder_setProc h.holder fun hp => absurd hp hlock,
    h.waits.setProc h.lock hw fun hp => absurd hp hlock⟩

/-- `release(&pi->lock)` by a process that owes nobody a `wakeup`; it may be about to sleep. -/
theorem WakeInv.drop {s : Sys N} (h : WakeInv s) {p : Fin N} {k : Pc}
    (hl : LockInv ({ s with lock := none }.goto p k)) (hold : (s.procs p).pc.holds = true)
    (hno : ∀ q c, ¬WillWake c q (s.procs p))
    (hk : ∀ c l, k = .sleepMark c l → Blocked s.pipe c) : WakeInv ({ s with lock := none }.goto p k) := by
  refine ⟨hl, fun q hq => (by cases hq), fun q c hq => Or.inl ?_⟩
  have hp := (h.lock.lock_iff p).mpr hold
  have hblocked : ∀ c, Waits c (s.procs q) → Blocked s.pipe c := fun c hw =>
    (willWake_of_held h.waits hp hw).resolve_right (hno q c)
  by_cases he : q = p
  · subst he
    rcases hq with ⟨l, hpc⟩ | hst
    · exact hk c l (by simpa using hpc)
    · exact hblocked c (Or.inr (by simpa using hst))
  · exact hblocked c (by simpa [he] using hq)

/-- Only the locks, the processes and the pipe matter. -/
theorem WakeInv.congr {s t : Sys N} (h : WakeInv s) (hl : t.lock = s.lock) (hp : t.procs = s.procs)
    (hpi : t.pipe = s.pipe) : WakeInv t := by
  refine ⟨h.lock.congr hl hp, fun p hlp => ?_, fun q c hw => ?_⟩
  · rw [hp, hpi]
    exact h.holder p (hl ▸ hlp)
  · rw [hpi, hl, hp]
    exact h.waits q c (hp ▸ hw)

/-- `pipeclose` clears a flag; whoever slept on the strength of it is ahead of its `wakeup`. -/
theorem wakeInv_close {s : Sys N} (h : WakeInv s) {p : Fin N} {w : Bool} (hfree : s.lock = none)
    (hpc : (s.procs p).pc = .acquire (.close w)) (hl : LockInv (s.enter p (.close w))) :
    WakeInv (s.enter p (.close w)) := by
  have hold : ∀ q c, Waits c ((s.enter p (.close w)).procs q) → Waits c (s.procs q) := by
    intro q c hq
    by_cases he : q = p
    · subst he
      rcases hq with ⟨l, hk⟩ | hst
      · cases w <;> simp [Sys.enter] at hk
      · exact Or.inr (by cases w <;> simpa [Sys.enter] using hst)
    · cases w <;> simpa [Sys.enter, he] using hq
  refine ⟨hl, fun q hq => ?_, fun q c hq => ?_⟩
  · have he : p = q := by cases w <;> simpa [Sys.enter] using hq
    subst he
    cases w <;> simp [Sys.enter, HolderOk]
  · have hb := blocked_of_free h.waits hfree (hold q c hq)
    cases w with
    | false =>
        cases c with
        | nread => exact Or.inl hb
        | nwrite => exact Or.inr ⟨p, rfl, by simp [Sys.enter, WillWake]⟩
    | true =>
        cases c with
        | nread => exact Or.inr ⟨p, rfl, by simp [Sys.enter, WillWake]⟩
        | nwrite => exact Or.inl hb

/-- Storing a byte: no writer can be asleep, and readers are now owed a `wakeup`. -/
theorem wakeInv_push {s : Sys N} (h : WakeInv s) {p : Fin N} {n : Int} {i₀ i : Nat} {ch : UInt8}
    (hpc : (s.procs p).pc = .writeLoop n i₀ i) (hopen : s.pipe.readopen = true)
    (hkill : (s.procs p).killed = false) (hnf : s.pipe.full = false)
    (hl : LockInv ({ s with pipe := s.pipe.push ch, stored := s.stored ++ [ch] }.goto p
      (.writeLoop n i₀ (i + 1)))) :
    WakeInv ({ s with pipe := s.pipe.push ch, stored := s.stored ++ [ch] }.goto p
      (.writeLoop n i₀ (i + 1))) := by
  have hp : s.lock = some p := (h.lock.lock_iff p).mpr (by rw [hpc]; rfl)
  have hH := h.holder p hp
  simp only [HolderOk, hpc] at hH
  refine ⟨hl, fun q hq => ?_, fun q c hq => ?_⟩
  · have he : p = q := by simpa [hp] using hq
    subst he
    simp only [goto_procs_self, goto_pipe, HolderOk]
    exact ⟨by omega, fun _ => hopen⟩
  · have hold : Waits c (s.procs q) := by
      by_cases he : q = p
      · subst he
        rcases hq with ⟨l, hk⟩ | hst
        · simp at hk
        · exact Or.inr (by simpa using hst)
      · simpa [he] using hq
    cases c with
    | nread =>
        refine Or.inr ⟨p, hp, ?_⟩
        rw [goto_procs_self]
        exact ⟨rfl, by omega, fun _ => hkill⟩
    | nwrite =>
        exfalso
        rcases willWake_of_held h.waits hp hold with hb | hk
        · have := hb.1
          rw [hnf] at this
          cases this
        · unfold WillWake at hk
          rw [hpc] at hk
          cases hk.1

/-- Taking a byte: no reader can be asleep, and writers are owed a `wakeup` at the new point `k`. -/
theorem wakeInv_pop {s : Sys N} (h : WakeInv s) {p : Fin N} {n : Int} {got : List UInt8} {k : Pc}
    (hpc : (s.procs p).pc = .readCopy n got) (hne : s.pipe.empty = false)
    (hk0 : ∀ c l, k ≠ .sleepMark c l) (hkw : ∀ q, WillWake .nwrite q { s.procs p with pc := k })
    (hH : ∀ pi, HolderOk pi { s.procs p with pc := k })
    (hl : LockInv ({ s with pipe := s.pipe.pop }.goto p k)) :
    WakeInv ({ s with pipe := s.pipe.pop }.goto p k) := by
  have hp : s.lock = some p := (h.lock.lock_iff p).mpr (by rw [hpc]; rfl)
  refine ⟨hl, fun q hq => ?_, fun q c hq => ?_⟩
  · have he : p = q := by simpa [hp] using hq
    subst he
    simpa using hH s.pipe.pop
  · have hold : Waits c (s.procs q) := by
      by_cases he : q = p
      · subst he
        rcases hq with ⟨l, hk⟩ | hst
        · exact absurd (by simpa using hk) (hk0 c l)
        · exact Or.inr (by simpa using hst)
      · simpa [he] using hq
    cases c with
    | nwrite => exact Or.inr ⟨p, hp, by simpa using hkw q⟩
    | nread =>
        exfalso
        rcases willWake_of_held h.waits hp hold with hb | hk
        · have := hb.1
          rw [hne] at this
          cases this
        · unfold WillWake at hk
          rw [hpc] at hk
          cases hk

/-- One visit of `wakeup(c)` to slot `q`. -/
theorem wakeInv_wakeOne {s : Sys N} (h : WakeInv s) {p q : Fin N} {c : Chan} {r : Ret}
    (hpc : (s.procs p).pc = .wakeup c q r) (hne : q ≠ p) (hfree : (s.procs q).locked = false)
    (hl : LockInv ((s.setProc q ((s.procs q).wake c)).goto p (.wakeup c (q + 1) r))) :
    WakeInv ((s.setProc q ((s.procs q).wake c)).goto p (.wakeup c (q + 1) r)) := by
  have hp : s.lock = some p := (h.lock.lock_iff p).mpr (by rw [hpc]; rfl)
  have hpp : (s.setProc q ((s.procs q).wake c)).procs p = s.procs p := by simp [hne.symm]
  refine ⟨hl, fun p' hp' => ?_, fun q' c' hq' => ?_⟩
  · have he : p = p' := by simpa [hp] using hp'
    subst he
    have hH := h.holder p hp
    simp only [HolderOk, hpc] at hH
    simp only [goto_procs_self, goto_pipe, setProc_pipe, HolderOk]
    cases r <;> exact hH
  · -- a process that still waits for `c'` waited before, and slot `q` no longer waits for `c`
    have hold : Waits c' (s.procs q') ∧ (q' = q → c' ≠ c) := by
      by_cases he : q' = p
      · subst he
        rcases hq' with ⟨l, hk⟩ | hst
        · simp at hk
        · exact ⟨Or.inr (by simpa [hne.symm] using hst), fun hqq => absurd hqq hne.symm⟩
      · by_cases he' : q' = q
        · subst he'
          simp only [goto_procs_ne _ _ he, setProc_procs_self] at hq'
          rcases hq' with ⟨l, hk⟩ | ⟨hst, hch⟩
          · have hlk := h.lock.locked_eq q'
            rw [hfree, ← wake_pc c, hk] at hlk
            cases hlk
          · obtain ⟨hs0, hc0⟩ := wake_sleeping hst
            rw [wake_chan] at hch
            refine ⟨Or.inr ⟨hs0, hch⟩, fun _ hcc => hc0 ?_⟩
            rw [hch, hcc]
        · refine ⟨by simpa [he, he'] using hq', fun hqq => absurd hqq he'⟩
    rcases willWake_of_held h.waits hp hold.1 with hb | hk
    · exact Or.inl hb
    · unfold WillWake at hk
      rw [hpc] at hk
      obtain ⟨hcc, hle⟩ := hk
      have hqq : q' ≠ q := fun hqq => hold.2 hqq hcc.symm
      have hval : q'.val ≠ q.val := fun hv => hqq (Fin.ext hv)
      refine Or.inr ⟨p, hp, ?_⟩
      rw [goto_procs_self]
      exact ⟨hcc, by omega⟩

theorem holderOk_kill {pi : Pipe} {pr : Proc} (h : HolderOk pi pr) : HolderOk pi pr.kill := h

/-- Being killed breaks a promise only where `pipewrite` has stored bytes and has bytes left. -/
theorem willWake_kill {c : Chan} {q : Nat} {pr : Proc} (h : WillWake c q pr)
    (hC : ∀ n i₀ i, pr.pc = .writeLoop n i₀ i → i₀ < i → ¬(i : Int) < n) : WillWake c q pr.kill := by
  obtain ⟨pc, state, chan, locked, killed⟩ := pr
  cases pc with
  | writeLoop n i₀ i => exact ⟨h.1, h.2.1, fun hlt => absurd hlt (hC n i₀ i rfl h.2.1)⟩
  | _ => exact h

theorem wakeInv_step {s t : Sys N} {a : Act N} (h : WakeInv s) (hC : KillSafe s a)
    (hst : step s a = some t) : WakeInv t := by
  have hl := lockInv_step h.lock hst
  -- an invariant-keeping move of the lock holder from a point that owes nothing
  have howes : ∀ {p : Fin N} {k : Pc}, (∀ q c, ¬WillWake c q (s.procs p)) → ∀ q c, q ≠ p →
      Waits c (s.procs q) → WillWake c q (s.procs p) → WillWake c q { s.procs p with pc := k } :=
    fun hno q c _ _ hk => absurd hk (hno q c)
  cases step_cases hst with
  | @call p c hpc _ =>
      refine h.other hl (by rw [hpc]; rfl) fun c hw => ?_
      rcases hw with ⟨l, hk⟩ | hs
      · cases hk
      · exact Or.inr hs
  | @enter p c hpc hfree =>
      cases c with
      | write n =>
          exact h.take hfree hl ⟨Nat.le_refl 0, fun h0 => absurd h0 (Nat.lt_irrefl 0)⟩ (by simp)
      | read n => exact h.take hfree hl trivial (by simp)
      | close w => exact wakeInv_close h hfree hpc hl
  | @writeStop p n i₀ i hpc hlt hstop =>
      refine h.goto hl trivial (by simp) (howes fun q c hk => ?_)
      have hH := h.holder p ((h.lock.lock_iff p).mpr (by rw [hpc]; rfl))
      unfold WillWake at hk
      rw [hpc] at hk
      simp only [HolderOk, hpc] at hH
      rcases hstop with hc | hc
      · rw [hH.2 hk.2.1] at hc; cases hc
      · rw [hk.2.2 hlt] at hc; cases hc
  | writeFull hpc hopen hfull =>
      refine h.goto hl ⟨hfull, hopen⟩ (by simp) fun q c _ _ hk => ?_
      unfold WillWake at hk
      rw [hpc] at hk
      exact ⟨hk.1.symm, Nat.zero_le _⟩
  | writeEnd hpc _ =>
      refine h.goto hl trivial (by simp) fun q c _ _ hk => ?_
      unfold WillWake at hk
      rw [hpc] at hk
      exact ⟨hk.1.symm, Nat.zero_le _⟩
  | readKilled hpc => exact h.goto hl trivial (by simp) (howes (by unfold WillWake; rw [hpc]; exact fun _ _ hk => hk))
  | readSleep hpc hemp hopen =>
      exact h.goto hl ⟨hemp, hopen⟩ (by simp) (howes (by unfold WillWake; rw [hpc]; exact fun _ _ hk => hk))
  | readGo hpc => exact h.goto hl trivial (by simp) (howes (by unfold WillWake; rw [hpc]; exact fun _ _ hk => hk))
  | @copyEnd p n got hpc =>
      refine (h.goto (p := p) (k := .wakeup .nwrite 0 (.readDone got)) (hl.congr rfl rfl) trivial (by simp)
        fun q c _ _ hk => ?_).congr rfl rfl rfl
      unfold WillWake at hk
      rw [hpc] at hk
      exact ⟨hk.symm, Nat.zero_le _⟩
  | @wakeSelf p c j r hpc hj =>
      refine h.goto hl ?_ (by simp) fun q c' hq _ hk => ?_
      · have hH := h.holder p ((h.lock.lock_iff p).mpr (by rw [hpc]; rfl))
        simp only [HolderOk, hpc] at hH
        cases r <;> exact hH
      · unfold WillWake at hk
        rw [hpc] at hk
        have hval : q.val ≠ p.val := fun hv => hq (Fin.ext hv)
        exact ⟨hk.1, by have := hk.2; omega⟩
  | wakeOne hpc hne hfree => exact wakeInv_wakeOne h hpc hne hfree hl
  | @wakeDone p c j r hpc hN =>
      have hno : ∀ (q : Fin N) (c' : Chan), ¬WillWake c' q (s.procs p) := by
        intro q c' hk
        unfold WillWake at hk
        rw [hpc] at hk
        have := q.isLt
        have := hk.2
        omega
      have hH := h.holder p ((h.lock.lock_iff p).mpr (by rw [hpc]; rfl))
      simp only [HolderOk, hpc] at hH
      have hnext : ∀ q c', q ≠ p → Waits c' (s.procs q) → WillWake c' q (s.procs p) → False :=
        fun q c' _ _ hk => hno q c' hk
      cases r with
      | writeFull n i => exact h.goto hl hH (by simp) fun q c' h1 h2 h3 => (hnext q c' h1 h2 h3).elim
      | writeDone i => exact h.goto hl trivial (by simp) fun q c' h1 h2 h3 => (hnext q c' h1 h2 h3).elim
      | readDone got => exact h.goto hl trivial (by simp) fun q c' h1 h2 h3 => (hnext q c' h1 h2 h3).elim
      | close =>
          exact (h.goto (p := p) (k := .release 0) (hl.congr rfl rfl) trivial (by simp)
            fun q c' h1 h2 h3 => (hnext q c' h1 h2 h3).elim).congr rfl rfl rfl
  | @sleepAcquire p c l hpc _ =>
      have hp := (h.lock.lock_iff p).mpr (by rw [hpc]; rfl)
      have hH := h.holder p hp
      simp only [HolderOk, hpc] at hH
      refine ⟨hl, holder_setProc h.holder fun _ => hH, h.waits.setProc h.lock (fun c' hw => ?_) ?_⟩
      · rcases hw with ⟨l', hk⟩ | hs
        · cases hk
        · exact Or.inr hs
      · intro _ q c' _ _ hk
        unfold WillWake at hk
        rw [hpc] at hk
        cases hk
  | @sleepRelease p c l hpc =>
      have hH := h.holder p ((h.lock.lock_iff p).mpr (by rw [hpc]; rfl))
      simp only [HolderOk, hpc] at hH
      refine h.drop hl (by rw [hpc]; rfl) (by unfold WillWake; rw [hpc]; exact fun _ _ hk => hk) fun c' l' hk => ?_
      cases hk
      exact hH
  | @sleepMark p c l hpc =>
      refine h.other hl (by rw [hpc]; rfl) fun c' hw => ?_
      rcases hw with ⟨l', hk⟩ | ⟨_, hch⟩
      · cases hk
      · cases hch
        exact Or.inl ⟨l, hpc⟩
  | schedOut hpc =>
      refine h.other hl (by rw [hpc]; rfl) fun c' hw => ?_
      rcases hw with ⟨l', hk⟩ | hs
      · cases hk
      · exact Or.inr hs
  | resume hpc =>
      refine h.other hl (by rw [hpc]; rfl) fun c' hw => ?_
      rcases hw with ⟨l', hk⟩ | ⟨_, hch⟩
      · cases hk
      · cases hch
  | @reacquire p l hpc hfree =>
      cases l with
      | write n i =>
          exact h.take hfree hl ⟨Nat.le_refl i, fun h0 => absurd h0 (Nat.lt_irrefl i)⟩ (by simp)
      | read n => exact h.take hfree hl trivial (by simp)
  | release hpc =>
      exact h.drop hl (by rw [hpc]; rfl) (by unfold WillWake; rw [hpc]; exact fun _ _ hk => hk) fun _ _ hk => by cases hk
  | copyinFail hpc =>
      refine h.goto hl trivial (by simp) fun q c _ _ hk => ?_
      unfold WillWake at hk
      rw [hpc] at hk
      exact ⟨hk.1.symm, Nat.zero_le _⟩
  | copyinOk hpc hopen hkill hnf => exact wakeInv_push h hpc hopen hkill hnf hl
  | copyoutOk hpc hne => exact wakeInv_pop h hpc hne (by simp) (fun _ => rfl) (fun _ => trivial) hl
  | @copyoutFail p n got hpc hne =>
      exact (wakeInv_pop (k := .wakeup .nwrite 0 (.readDone got)) h hpc hne (by simp)
        (fun q => ⟨rfl, Nat.zero_le q⟩) (fun _ => trivial) (hl.congr rfl rfl)).congr rfl rfl rfl
  | schedIn hpc _ _ =>
      refine h.other hl (by rw [hpc]; rfl) fun c' hw => ?_
      rcases hw with ⟨l', hk⟩ | ⟨hs, _⟩
      · cases hk
      · cases hs
  | @kill q hfree =>
      -- the killed process waits no longer; if it owes a reader a `wakeup`, `KillSafe` excludes the reader
      refine ⟨hl, holder_setProc h.holder fun hq => holderOk_kill (h.holder q hq),
        h.waits.setProc h.lock (fun c hw => ?_) fun hq r c _ hw hk => ?_⟩
      · rcases hw with ⟨l, hk⟩ | ⟨hs, _⟩
        · exact Or.inl ⟨l, hk⟩
        · exact absurd hs (kill_not_sleeping _)
      · refine willWake_kill hk fun n i₀ i hpc hlt hmore => ?_
        unfold WillWake at hk
        rw [hpc] at hk
        exact hC n i₀ i hpc hlt hmore r (hk.1 ▸ hw)

theorem wakeInv_init (data : Nat → UInt8) (killed : Fin N → Bool) : WakeInv (init data killed) := by
  refine ⟨lockInv_init data killed, fun p hp => (by cases hp), fun q c hw => ?_⟩
  rcases hw with ⟨l, hk⟩ | ⟨hs, _⟩
  · cases hk
  · cases hs

theorem noMissedEvent_of_wakeInv {s : Sys N} (h : WakeInv s) : NoMissedEvent s := by
  intro hfree q hs
  exact ⟨fun hc => blocked_of_free h.waits hfree (c := .nread) (Or.inr ⟨hs, hc⟩),
    fun hc => blocked_of_free h.waits hfree (c := .nwrite) (Or.inr ⟨hs, hc⟩)⟩

/-- Process 0 sleeps in `piperead`; process 1 stores one of two bytes, is killed, and returns -1. -/
def strandedRun : List (Act 2) :=
  [.call 0 (.read 1), .next 0, .next 0, .next 0, .next 0, .next 0, .next 0,
   .call 1 (.write 2), .next 1, .copyin 1 (some 7), .kill 1, .next 1, .next 1]

end Xv6.Pipes
