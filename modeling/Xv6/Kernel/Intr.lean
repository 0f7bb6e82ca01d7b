import Xv6.Lib.Trace

/-!
# `Kernel.Intr` — interrupts, `push_off`, `pop_off` and the switch between threads

Each CPU has its interrupt flag and its fields `noff` and `intena`; `push_off`, `pop_off` and `sched` run on it one
statement at a time, with `mycpu()` read where the source reads it. A thread is a process in the kernel or the
scheduler of a CPU. Between calls a process runs any code: it calls `push_off` (in `acquire`) and `pop_off` (in
`release`) properly nested, turns interrupts on and off outside of them, and gives up the CPU in `sched` at depth 1; any
scheduler may resume it. When the flag is set an interrupt may arrive between any two statements; its handler runs on
the thread's stack, may itself give up the CPU, and returns with interrupts on. The locks themselves are left out, and a
nesting depth is far from overflowing an `int`.

**`interrupts_follow_thread`**: `pop_off` never panics, `noff` is the depth of the thread on the CPU, and a
process that gets back to depth 0 has interrupts as it had them when it left depth 0.
-/

namespace Xv6.Intr

/-- `struct cpu`, with the flag `SIE` of its `sstatus`. -/
structure Cpu where
  noff : Int
  intena : Bool
  intr : Bool

variable {C T : Type}

/-- The next statement of a frame on a kernel stack. -/
inductive Pc (C : Type)
  /-- outside of `push_off`, `pop_off` and `sched` -/
  | run
  /-- `push_off` after `old = intr_get()` -/
  | gotOld (old : Bool)
  /-- `push_off` after `intr_off()` -/
  | disabled (old : Bool)
  /-- `push_off` after the assignment to `intena` -/
  | recorded
  /-- `pop_off` after `c = mycpu()` -/
  | popping (c : C)
  /-- `pop_off` after `c->noff -= 1` -/
  | popped (c : C)
  /-- `sched` after `intena = mycpu()->intena` -/
  | saved (intena : Bool)
  /-- off the CPU, in the `swtch` of `sched` -/
  | switched (intena : Bool)
  /-- `sched` after its `swtch` -/
  | resumed (intena : Bool)
  /-- off the CPU, about to start in `forkret` -/
  | forkret
  /-- the scheduler in its `swtch`, while a process has the CPU -/
  | scheduling

structure Thread (C : Type) where
  pc : Pc C
  /-- the frames that interrupts have come upon -/
  frames : List (Pc C)
  /-- how often `push_off` has been called without its `pop_off` -/
  depth : Nat
  /-- whether interrupts were enabled when the thread last left depth 0, once it has -/
  left : Option Bool

inductive Who (C T : Type)
  | scheduler (c : C)
  | proc (t : T)

inductive Panic
  /-- `pop_off - interruptible` -/
  | popOffInterruptible
  /-- `pop_off` -/
  | popOff
  /-- `sched locks` -/
  | schedLocks
  /-- `sched interruptible` -/
  | schedInterruptible

structure State (C T : Type) where
  cpu : C → Cpu
  /-- the process that has the CPU -/
  cur : C → Option T
  thread : Who C T → Thread C
  halt : Option Panic

inductive Act (T : Type)
  /-- `intr_on()` or `intr_off()` -/
  | intr (on : Bool)
  | pushOff
  | popOff
  | sched
  /-- the next statement of `push_off`, `pop_off` or `sched` -/
  | next
  /-- an interrupt arrives -/
  | trap
  /-- its handler returns -/
  | sret
  /-- the scheduler chooses a process -/
  | swtch (t : T)

/-! ## Steps -/

section Step

variable [DecidableEq C] [DecidableEq T]

def State.current (s : State C T) (c : C) : Who C T :=
  match s.cur c with
  | none => .scheduler c
  | some t => .proc t

instance : DecidableEq (Who C T)
  | .scheduler c, .scheduler c' => decidable_of_iff (c = c') ⟨congrArg _, fun h => by cases h; rfl⟩
  | .proc t, .proc t' => decidable_of_iff (t = t') ⟨congrArg _, fun h => by cases h; rfl⟩
  | .scheduler _, .proc _ => isFalse fun h => by cases h
  | .proc _, .scheduler _ => isFalse fun h => by cases h

def State.setThread (s : State C T) (w : Who C T) (th : Thread C) : State C T :=
  { s with thread := Function.update s.thread w th }

def State.setCpu (s : State C T) (c : C) (x : Cpu) : State C T := { s with cpu := Function.update s.cpu c x }

/-- The loop of `scheduler()` itself, not a handler that has interrupted it. -/
def inScheduler (w : Who C T) (th : Thread C) : Bool :=
  match w with
  | .scheduler _ => th.frames.isEmpty
  | .proc _ => false

/-- Whether the code may call `intr_on()` or `intr_off()` here. -/
def mayIntr (w : Who C T) (th : Thread C) (on : Bool) : Bool :=
  match th.pc with
  | .run => th.depth == 0 && (on || !inScheduler w th)
  | _ => false

/-- The scheduler acquires one lock at a time. -/
def mayPush (w : Who C T) (th : Thread C) : Bool :=
  match th.pc with
  | .run => th.depth == 0 || !inScheduler w th
  | _ => false

def mayPop (th : Thread C) : Bool :=
  match th.pc with
  | .run => 0 < th.depth
  | _ => false

/-- Only a process calls `sched`, at depth 1. -/
def maySched (w : Who C T) (th : Thread C) : Bool :=
  match w, th.pc with
  | .proc _, .run => th.depth == 1
  | _, _ => false

/-- The scheduler switches with the lock of the process held. -/
def maySwtch (w : Who C T) (th : Thread C) : Bool :=
  match th.pc with
  | .run => inScheduler w th && th.depth == 1
  | _ => false

/-- Where a process that is off the CPU goes on. -/
def resume : Pc C → Option (Pc C)
  | .switched intena => some (.resumed intena)
  | .forkret => some .run
  | _ => none

/-- `swtch(&p->context, &mycpu()->context)`: the scheduler of the CPU goes on, with `c->proc = 0`. -/
def State.toScheduler (s : State C T) (c : C) (w : Who C T) (th : Thread C) : State C T :=
  { (s.setThread w th).setThread (.scheduler c) { s.thread (.scheduler c) with pc := .run } with
    cur := Function.update s.cur c none }

/-- `c->proc = p; swtch(&c->context, &p->context);` -/
def State.toProc (s : State C T) (c : C) (t : T) (th : Thread C) : State C T :=
  { (s.setThread (.scheduler c) { s.thread (.scheduler c) with pc := .scheduling }).setThread (.proc t) th with
    cur := Function.update s.cur c (some t) }

/-- The next statement of `push_off`, `pop_off` or `sched` of the thread `w` on the CPU `c`. -/
def next (s : State C T) (c : C) (w : Who C T) (th : Thread C) : Option (State C T) :=
  match th.pc with
  | .gotOld old =>
      let left := if th.depth = 0 then some (s.cpu c).intr else th.left
      some ((s.setCpu c { s.cpu c with intr := false }).setThread w { th with pc := .disabled old, left := left })
  | .disabled old =>
      let intena := if (s.cpu c).noff = 0 then old else (s.cpu c).intena
      some ((s.setCpu c { s.cpu c with intena := intena }).setThread w { th with pc := .recorded })
  | .recorded =>
      some ((s.setCpu c { s.cpu c with noff := (s.cpu c).noff + 1 }).setThread w
        { th with pc := .run, depth := th.depth + 1 })
  | .popping d =>
      if (s.cpu c).intr then some { s with halt := some .popOffInterruptible }
      else if (s.cpu d).noff < 1 then some { s with halt := some .popOff }
      else some ((s.setCpu d { s.cpu d with noff := (s.cpu d).noff - 1 }).setThread w
        { th with pc := .popped d, depth := th.depth - 1 })
  | .popped d =>
      let s := if (s.cpu d).noff = 0 ∧ (s.cpu d).intena = true then s.setCpu c { s.cpu c with intr := true } else s
      some (s.setThread w { th with pc := .run })
  | .saved intena =>
      some (s.toScheduler c w { th with pc := .switched intena })
  | .resumed intena =>
      some ((s.setCpu c { s.cpu c with intena := intena }).setThread w { th with pc := .run })
  | _ => none

/-- A step of the thread that has the CPU `c`. -/
def step (s : State C T) : C × Act T → Option (State C T)
  | (c, a) =>
      let w := s.current c
      let th := s.thread w
      if s.halt.isSome then none
      else
        match a with
        | .intr on => if mayIntr w th on then some (s.setCpu c { s.cpu c with intr := on }) else none
        | .pushOff => if mayPush w th then some (s.setThread w { th with pc := .gotOld (s.cpu c).intr }) else none
        | .popOff => if mayPop th then some (s.setThread w { th with pc := .popping c }) else none
        | .sched =>
            if maySched w th then
              if (s.cpu c).noff ≠ 1 then some { s with halt := some .schedLocks }
              else if (s.cpu c).intr then some { s with halt := some .schedInterruptible }
              else some (s.setThread w { th with pc := .saved (s.cpu c).intena })
            else none
        | .next => next s c w th
        | .trap =>
            if (s.cpu c).intr then
              some ((s.setCpu c { s.cpu c with intr := false }).setThread w
                { th with pc := .run, frames := th.pc :: th.frames })
            else none
        | .sret =>
            match th.pc, th.frames with
            | .run, pc :: frames =>
                if th.depth = 0 then
                  some ((s.setCpu c { s.cpu c with intr := true }).setThread w { th with pc := pc, frames := frames })
                else none
            | _, _ => none
        | .swtch t =>
            if maySwtch w th then
              (resume (s.thread (.proc t)).pc).map fun pc =>
                s.toProc c t { s.thread (.proc t) with pc := pc }
            else none

/-- Every CPU is about to run its scheduler, and no process has run. -/
structure Init (s : State C T) : Prop where
  noff : ∀ c, (s.cpu c).noff = 0
  cur : ∀ c, s.cur c = none
  scheduler : ∀ c, s.thread (.scheduler c) = { pc := .run, frames := [], depth := 0, left := none }
  proc : ∀ t, s.thread (.proc t) = { pc := .forkret, frames := [], depth := 1, left := none }
  halt : s.halt = none

end Step

/-! ## The invariant -/

/-- `intena` holds what the process had when it left depth 0. -/
def Keeps (w : Who C T) (th : Thread C) (intena : Bool) : Prop :=
  match w with
  | .scheduler _ => True
  | .proc _ => ∀ b, th.left = some b → intena = b

/-- A frame that an interrupt can come upon. -/
def Open (pc : Pc C) : Prop := pc = .run ∨ pc = .gotOld true

/-- What holds at each statement of the thread on the CPU `c`. -/
def PcOk (x : Cpu) (c : C) (w : Who C T) (th : Thread C) : Prop :=
  match th.pc with
  | .run => th.depth ≠ 0 → Keeps w th x.intena
  | .gotOld old => old = x.intr ∧ (th.depth ≠ 0 → Keeps w th x.intena)
  | .disabled old => (th.depth = 0 → th.left = some old) ∧ (th.depth ≠ 0 → Keeps w th x.intena)
  | .recorded => Keeps w th x.intena
  | .popping d => d = c ∧ 0 < th.depth ∧ Keeps w th x.intena
  | .popped d => d = c ∧ Keeps w th x.intena
  | .saved intena => (∃ t, w = .proc t) ∧ th.depth = 1 ∧ Keeps w th intena
  | .resumed intena => th.depth = 1 ∧ Keeps w th intena
  | .switched _ | .forkret | .scheduling => False

/-- The thread on the CPU `c`. -/
structure Active (x : Cpu) (c : C) (w : Who C T) (th : Thread C) : Prop where
  noff : x.noff = th.depth
  quiet : x.intr = true → th.depth = 0 ∧ Open th.pc
  frames : ∀ pc ∈ th.frames, Open pc
  pc : PcOk x c w th

/-- A process that is off the CPU. -/
structure Parked (t : T) (th : Thread C) : Prop where
  depth : th.depth = 1
  frames : ∀ pc ∈ th.frames, Open pc
  pc : (∃ intena, th.pc = .switched intena ∧ Keeps (.proc t) th intena) ∨ (th.pc = .forkret ∧ th.left = none)

structure Inv (s : State C T) : Prop where
  halt : s.halt = none
  active : ∀ c, Active (s.cpu c) c (s.current c) (s.thread (s.current c))
  scheduler : ∀ c t, s.cur c = some t → ∃ left, s.thread (.scheduler c) = { pc := .scheduling, frames := [], depth := 1, left := left }
  parked : ∀ t, (∀ c, s.cur c ≠ some t) → Parked t (s.thread (.proc t))
  unique : ∀ {c d t}, s.cur c = some t → s.cur d = some t → c = d

variable {s s' : State C T} {c d : C} {t : T} {x : Cpu} {th : Thread C} {w : Who C T}

theorem current_eq_proc : s.current c = .proc t ↔ s.cur c = some t := by
  unfold State.current
  cases h : s.cur c with
  | none =>
      constructor
      · intro heq
        cases heq
      · intro heq
        cases heq
  | some u => exact ⟨fun heq => by cases heq; rfl, fun heq => by cases heq; rfl⟩

theorem scheduler_ne_proc (c : C) (t : T) : Who.scheduler c ≠ Who.proc t := fun heq => by cases heq

theorem current_of_none (h : s.cur c = none) : s.current c = .scheduler c := by
  rw [State.current, h]

theorem current_of_scheduler (h : s.current c = .scheduler d) : d = c ∧ s.cur c = none := by
  unfold State.current at h
  cases hc : s.cur c with
  | none =>
      rw [hc] at h
      cases h
      exact ⟨rfl, rfl⟩
  | some t =>
      rw [hc] at h
      cases h

/-- Interrupts are off while the depth is not 0. -/
theorem Active.intr_off (h : Active x c w th) (hd : th.depth ≠ 0) : x.intr = false := by
  cases hx : x.intr with
  | false => rfl
  | true => exact absurd (h.quiet hx).1 hd

theorem of_mayIntr {on : Bool} (h : mayIntr w th on = true) : th.pc = .run ∧ th.depth = 0 := by
  unfold mayIntr at h
  cases hpc : th.pc with
  | run =>
      simp only [hpc, Bool.and_eq_true, beq_iff_eq] at h
      exact ⟨rfl, h.1⟩
  | _ =>
      simp only [hpc] at h
      cases h

theorem of_mayPush (h : mayPush w th = true) : th.pc = .run := by
  unfold mayPush at h
  cases hpc : th.pc with
  | run => rfl
  | _ =>
      simp only [hpc] at h
      cases h

theorem of_mayPop (h : mayPop th = true) : th.pc = .run ∧ 0 < th.depth := by
  unfold mayPop at h
  cases hpc : th.pc with
  | run =>
      simp only [hpc, decide_eq_true_eq] at h
      exact ⟨rfl, h⟩
  | _ =>
      simp only [hpc] at h
      cases h

theorem of_maySched (h : maySched w th = true) : (∃ t, w = .proc t) ∧ th.pc = .run ∧ th.depth = 1 := by
  unfold maySched at h
  cases w with
  | scheduler c => cases h
  | proc t =>
      cases hpc : th.pc with
      | run =>
          simp only [hpc, beq_iff_eq] at h
          exact ⟨⟨t, rfl⟩, rfl, h⟩
      | _ =>
          simp only [hpc] at h
          cases h

theorem of_maySwtch (h : maySwtch w th = true) : (∃ c, w = .scheduler c) ∧ th.frames = [] ∧ th.depth = 1 := by
  unfold maySwtch at h
  cases hpc : th.pc with
  | run =>
      simp only [hpc, Bool.and_eq_true, beq_iff_eq] at h
      cases w with
      | scheduler c => exact ⟨⟨c, rfl⟩, List.isEmpty_iff.mp h.1, h.2⟩
      | proc t => cases h.1
  | _ =>
      simp only [hpc] at h
      cases h

theorem keeps_of_left {b : Bool} (h : th.left = some b) : Keeps w th b := by
  cases w with
  | scheduler c => trivial
  | proc t =>
      intro b' hb'
      exact Option.some.inj (h.symm.trans hb')

/-- Different CPUs run different threads. -/
theorem Inv.current_ne (hI : Inv s) (hne : d ≠ c) : s.current d ≠ s.current c := by
  intro heq
  cases hw : s.current c with
  | scheduler e =>
      rw [hw] at heq
      exact hne ((current_of_scheduler heq).1.symm.trans (current_of_scheduler hw).1)
  | proc t =>
      rw [hw] at heq
      exact hne (hI.unique (current_eq_proc.mp heq) (current_eq_proc.mp hw))

theorem Init.inv (h : Init s) : Inv s := by
  refine ⟨h.halt, fun c => ?_, fun c t hc => ?_, fun t _ => ?_, fun {c d t} hc _ => ?_⟩
  · rw [current_of_none (h.cur c), h.scheduler]
    exact ⟨h.noff c, fun _ => ⟨rfl, .inl rfl⟩, fun pc hpc => absurd hpc List.not_mem_nil, fun hne => absurd rfl hne⟩
  · cases (h.cur c).symm.trans hc
  · rw [h.proc]
    exact ⟨rfl, fun pc hpc => absurd hpc List.not_mem_nil, .inr ⟨rfl, rfl⟩⟩
  · cases (h.cur c).symm.trans hc

section Step

variable [DecidableEq C]

theorem setCpu_self (s : State C T) (c : C) : s.setCpu c (s.cpu c) = s := by
  rw [State.setCpu, Function.update_eq_self]

variable [DecidableEq T]

/-- **A step of one thread on its own CPU** keeps the invariant, if the thread is in order afterwards. -/
theorem Inv.local (hI : Inv s) (h : Active x c (s.current c) th) : Inv ((s.setCpu c x).setThread (s.current c) th) := by
  have hcur : ∀ d, State.current ((s.setCpu c x).setThread (s.current c) th) d = s.current d := fun _ => rfl
  refine ⟨hI.halt, fun d => ?_, fun d t hd => ?_, fun t ht => ?_, hI.unique⟩
  · rw [hcur]
    show Active (Function.update s.cpu c x d) d (s.current d) (Function.update s.thread (s.current c) th (s.current d))
    by_cases hdc : d = c
    · rw [hdc, Function.update_self, Function.update_self]
      exact h
    · rw [Function.update_of_ne hdc, Function.update_of_ne (hI.current_ne hdc)]
      exact hI.active d
  · have hne : Who.scheduler d ≠ s.current c := by
      intro heq
      obtain ⟨rfl, hnone⟩ := current_of_scheduler heq.symm
      cases hnone.symm.trans hd
    show ∃ left, Function.update s.thread (s.current c) th (.scheduler d) = _
    rw [Function.update_of_ne hne]
    exact hI.scheduler d t hd
  · have hne : Who.proc t ≠ s.current c := fun heq => ht c (current_eq_proc.mp heq.symm)
    show Parked t (Function.update s.thread (s.current c) th (.proc t))
    rw [Function.update_of_ne hne]
    exact hI.parked t ht

theorem setThread_self (s : State C T) (w : Who C T) : s.setThread w (s.thread w) = s := by
  rw [State.setThread, Function.update_eq_self]

theorem Inv.setThread (hI : Inv s) (h : Active (s.cpu c) c (s.current c) th) : Inv (s.setThread (s.current c) th) := by
  have hlocal := hI.local h
  rwa [setCpu_self] at hlocal

theorem Inv.setCpu (hI : Inv s) (h : Active x c (s.current c) (s.thread (s.current c))) : Inv (s.setCpu c x) := by
  have hlocal := hI.local h
  have hself : (s.setCpu c x).setThread (s.current c) (s.thread (s.current c)) = s.setCpu c x :=
    setThread_self (s.setCpu c x) (s.current c)
  rwa [hself] at hlocal

theorem toScheduler_scheduler (s : State C T) (c : C) (w : Who C T) (th : Thread C) :
    (s.toScheduler c w th).thread (.scheduler c) = { s.thread (.scheduler c) with pc := .run } :=
  Function.update_self _ _ _

theorem toScheduler_proc (s : State C T) (c : C) (t : T) (th : Thread C) :
    (s.toScheduler c (.proc t) th).thread (.proc t) = th := by
  show Function.update (Function.update s.thread (.proc t) th) (.scheduler c)
    { s.thread (.scheduler c) with pc := .run } (.proc t) = th
  rw [Function.update_of_ne (scheduler_ne_proc c t).symm, Function.update_self]

theorem toScheduler_thread {u : Who C T} (hu : u ≠ .scheduler c) (hw : u ≠ w) :
    (s.toScheduler c w th).thread u = s.thread u := by
  show Function.update (Function.update s.thread w th) (.scheduler c) _ u = s.thread u
  rw [Function.update_of_ne hu, Function.update_of_ne hw]

theorem toProc_proc (s : State C T) (c : C) (t : T) (th : Thread C) : (s.toProc c t th).thread (.proc t) = th :=
  Function.update_self _ _ _

theorem toProc_thread {u : Who C T} (hu : u ≠ .scheduler c) (hw : u ≠ .proc t) : (s.toProc c t th).thread u = s.thread u := by
  show Function.update (Function.update s.thread (.scheduler c) _) (.proc t) _ u = s.thread u
  rw [Function.update_of_ne hw, Function.update_of_ne hu]

theorem toProc_scheduler (s : State C T) (c : C) (t : T) (th : Thread C) :
    (s.toProc c t th).thread (.scheduler c) = { s.thread (.scheduler c) with pc := .scheduling } := by
  show Function.update (Function.update s.thread (.scheduler c) { s.thread (.scheduler c) with pc := .scheduling })
    (.proc t) th (.scheduler c) = _
  rw [Function.update_of_ne (scheduler_ne_proc c t), Function.update_self]

/-- **A switch on the CPU `c`** between its scheduler and the process `t` keeps the invariant, if the one that gets
    the CPU is in order and so is the other one. -/
theorem Inv.switch (hI : Inv s) (hhalt : s'.halt = s.halt) (hcpu : s'.cpu = s.cpu)
    (hcur : ∀ d, d ≠ c → s'.cur d = s.cur d) (hthread : ∀ w, w ≠ .scheduler c → w ≠ .proc t → s'.thread w = s.thread w)
    (hfree : ∀ d, d ≠ c → s.cur d ≠ some t) (hactive : Active (s.cpu c) c (s'.current c) (s'.thread (s'.current c)))
    (honly : ∀ u, s'.cur c = some u → u = t ∧
      ∃ left, s'.thread (.scheduler c) = { pc := .scheduling, frames := [], depth := 1, left := left })
    (hold : ∀ u, s.cur c = some u → u = t) (hparked : s'.cur c ≠ some t → Parked t (s'.thread (.proc t))) : Inv s' := by
  refine ⟨hhalt.trans hI.halt, fun d => ?_, fun d u hd => ?_, fun u hu => ?_, fun {d e u} hd he => ?_⟩
  · rw [hcpu]
    by_cases hdc : d = c
    · rw [hdc]
      exact hactive
    · have hsame : s'.current d = s.current d := by
        rw [State.current, State.current, hcur d hdc]
      rw [hsame]
      cases hw : s.current d with
      | scheduler e =>
          obtain ⟨rfl, -⟩ := current_of_scheduler hw
          rw [hthread _ (fun heq => hdc (by cases heq; rfl)) (scheduler_ne_proc _ t), ← hw]
          exact hI.active _
      | proc u =>
          have hu : u ≠ t := fun heq => hfree d hdc (heq ▸ current_eq_proc.mp hw)
          rw [hthread _ (fun heq => scheduler_ne_proc c u heq.symm) (fun heq => hu (by cases heq; rfl)), ← hw]
          exact hI.active d
  · by_cases hdc : d = c
    · rw [hdc] at hd ⊢
      exact (honly u hd).2
    · rw [hthread _ (fun heq => hdc (by cases heq; rfl)) (scheduler_ne_proc d t)]
      exact hI.scheduler d u ((hcur d hdc).symm.trans hd)
  · by_cases hut : u = t
    · rw [hut] at hu ⊢
      exact hparked (hu c)
    · rw [hthread _ (fun heq => scheduler_ne_proc c u heq.symm) (fun heq => hut (by cases heq; rfl))]
      refine hI.parked u fun d hd => ?_
      by_cases hdc : d = c
      · exact hut (hold u (hdc ▸ hd))
      · exact hu d ((hcur d hdc).trans hd)
  · by_cases hdc : d = c
    · by_cases hec : e = c
      · exact hdc.trans hec.symm
      · rw [hdc] at hd
        rw [hcur e hec, (honly u hd).1] at he
        exact absurd he (hfree e hec)
    · rw [hcur d hdc] at hd
      by_cases hec : e = c
      · rw [hec] at he
        rw [(honly u he).1] at hd
        exact absurd hd (hfree d hdc)
      · rw [hcur e hec] at he
        exact hI.unique hd he

/-- A process that gives up the CPU in `sched` leaves it to the scheduler. -/
theorem Inv.leave {intena : Bool} (hI : Inv s) (hcur : s.cur c = some t) (hd : (s.thread (.proc t)).depth = 1)
    (hkeeps : Keeps (.proc t) (s.thread (.proc t)) intena) :
    Inv (s.toScheduler c (.proc t) { s.thread (.proc t) with pc := .switched intena }) := by
  obtain ⟨left, hsched⟩ := hI.scheduler c t hcur
  have hA := hI.active c
  rw [current_eq_proc.mpr hcur] at hA
  have hcur' : (s.toScheduler c (.proc t) { s.thread (.proc t) with pc := .switched intena }).cur c = none :=
    Function.update_self _ _ _
  refine hI.switch (t := t) (c := c) rfl rfl (fun d hdc => Function.update_of_ne hdc _ _)
    (fun w hw hw' => toScheduler_thread hw hw') (fun d hdc hd => hdc (hI.unique hd hcur)) ?_ (fun u hu => ?_)
    (fun u hu => ?_) fun _ => ?_
  · rw [current_of_none hcur', toScheduler_scheduler, hsched]
    refine ⟨?_, fun hx => ?_, fun pc hpc => absurd hpc List.not_mem_nil, fun _ => trivial⟩
    · rw [hA.noff, hd]
    · rw [hA.intr_off (by omega)] at hx
      cases hx
  · cases hcur'.symm.trans hu
  · exact (Option.some.inj (hcur.symm.trans hu)).symm
  · rw [toScheduler_proc]
    exact ⟨hd, hA.frames, .inl ⟨intena, rfl, hkeeps⟩⟩

/-- A process that the scheduler has chosen gets the CPU. -/
theorem Inv.enter {pc : Pc C} (hI : Inv s) (hmay : maySwtch (s.current c) (s.thread (s.current c)) = true)
    (hpc : resume (s.thread (.proc t)).pc = some pc) : Inv (s.toProc c t { s.thread (.proc t) with pc := pc }) := by
  -- the scheduler has the CPU, at depth 1 and in its own loop
  have hA := hI.active c
  obtain ⟨hnone, hdepth, hframes⟩ : s.cur c = none ∧ (s.thread (.scheduler c)).depth = 1 ∧ (s.thread (.scheduler c)).frames = [] := by
    obtain ⟨⟨d, hw⟩, hframes, hdepth⟩ := of_maySwtch hmay
    obtain ⟨rfl, hnone⟩ := current_of_scheduler hw
    rw [hw] at hframes hdepth
    exact ⟨hnone, hdepth, hframes⟩
  rw [current_of_none hnone] at hA
  -- and the process is on no CPU
  have hoff : ∀ d, s.cur d ≠ some t := by
    intro d hd
    have hok := (hI.active d).pc
    rw [current_eq_proc.mpr hd] at hok
    unfold PcOk at hok
    cases hth : (s.thread (.proc t)).pc with
    | switched intena =>
        simp only [hth] at hok
    | forkret =>
        simp only [hth] at hok
    | _ =>
        rw [hth] at hpc
        cases hpc
  obtain ⟨hdepth', hframes', hcase⟩ := hI.parked t hoff
  have hcur' : (s.toProc c t { s.thread (.proc t) with pc := pc }).cur c = some t := Function.update_self _ _ _
  refine hI.switch (t := t) (c := c) rfl rfl (fun d hdc => Function.update_of_ne hdc _ _)
    (fun w hw hw' => toProc_thread hw hw') (fun d _ => hoff d) ?_ (fun u hu => ?_)
    (fun u hu => ?_) fun hne => absurd hcur' hne
  · rw [current_eq_proc.mpr hcur', toProc_proc]
    refine ⟨?_, fun hx => ?_, hframes', ?_⟩
    · rw [hA.noff, hdepth]
      exact congrArg Nat.cast hdepth'.symm
    · rw [hA.intr_off (by omega)] at hx
      cases hx
    · rcases hcase with ⟨intena, hth, hkeeps⟩ | ⟨hth, hleft⟩
      · rw [hth] at hpc
        cases hpc
        exact ⟨hdepth', hkeeps⟩
      · rw [hth] at hpc
        cases hpc
        intro _ b hb
        cases hleft.symm.trans hb
  · refine ⟨(Option.some.inj (hcur'.symm.trans hu)).symm, (s.thread (.scheduler c)).left, ?_⟩
    rw [toProc_scheduler, ← hframes, ← hdepth]
  · cases hnone.symm.trans hu

/-- **The next statement** of `push_off`, `pop_off` or `sched` does not panic and keeps the invariant. -/
theorem Inv.next (hI : Inv s) (h : Intr.next s c (s.current c) (s.thread (s.current c)) = some s') : Inv s' := by
  obtain ⟨th, hth⟩ : ∃ th, th = s.thread (s.current c) := ⟨_, rfl⟩
  have hA := hI.active c
  rw [← hth] at h hA
  have hpc := hA.pc
  unfold PcOk at hpc
  unfold Intr.next at h
  cases hth' : th.pc with
  | gotOld old =>
      -- interrupts are still as `intr_get()` has found them
      simp only [hth'] at h hpc
      cases h
      refine hI.local ⟨hA.noff, fun hx => absurd hx Bool.false_ne_true, hA.frames, ?_, fun hd => ?_⟩
      · intro hd
        have hd : th.depth = 0 := hd
        show (if th.depth = 0 then some (s.cpu c).intr else th.left) = some old
        rw [if_pos hd, hpc.1]
      · have hd : th.depth ≠ 0 := hd
        simp only [if_neg hd]
        exact hpc.2 hd
  | disabled old =>
      simp only [hth'] at h hpc
      cases h
      refine hI.local ⟨hA.noff, fun hx => ?_, hA.frames, ?_⟩
      · have hopen := (hA.quiet hx).2
        rw [hth'] at hopen
        rcases hopen with hopen | hopen <;> cases hopen
      · show Keeps _ _ (if (s.cpu c).noff = 0 then old else (s.cpu c).intena)
        by_cases hd : th.depth = 0
        · rw [if_pos (by rw [hA.noff, hd]; rfl)]
          exact keeps_of_left (hpc.1 hd)
        · rw [if_neg (by rw [hA.noff]; exact_mod_cast hd)]
          exact hpc.2 hd
  | recorded =>
      simp only [hth'] at h hpc
      cases h
      refine hI.local ⟨?_, fun hx => ?_, hA.frames, fun _ => hpc⟩
      · show (s.cpu c).noff + 1 = ((th.depth + 1 : Nat) : Int)
        rw [hA.noff, Int.natCast_succ]
      · have hopen := (hA.quiet hx).2
        rw [hth'] at hopen
        rcases hopen with hopen | hopen <;> cases hopen
  | popping d =>
      simp only [hth'] at h hpc
      obtain ⟨rfl, hd, hkeeps⟩ := hpc
      have hnoff := hA.noff
      rw [hA.intr_off (by omega), if_neg Bool.false_ne_true, if_neg (by omega)] at h
      cases h
      refine hI.local ⟨?_, fun hx => ?_, hA.frames, rfl, hkeeps⟩
      · show (s.cpu d).noff - 1 = ((th.depth - 1 : Nat) : Int)
        omega
      · exact absurd hx Bool.false_ne_true
  | popped d =>
      simp only [hth'] at h hpc
      obtain ⟨rfl, hkeeps⟩ := hpc
      cases h
      have hnoff := hA.noff
      by_cases hon : (s.cpu d).noff = 0 ∧ (s.cpu d).intena = true
      · rw [if_pos hon]
        have hd : th.depth = 0 := by omega
        exact hI.local ⟨hnoff, fun _ => ⟨hd, .inl rfl⟩, hA.frames, fun _ => hkeeps⟩
      · rw [if_neg hon]
        refine hI.setThread ⟨hnoff, fun hx => ?_, hA.frames, fun _ => hkeeps⟩
        exact ⟨(hA.quiet hx).1, .inl rfl⟩
  | saved intena =>
      simp only [hth'] at h hpc
      obtain ⟨⟨t, hw⟩, hd, hkeeps⟩ := hpc
      cases h
      rw [hw] at hth hkeeps ⊢
      rw [hth] at hd hkeeps ⊢
      exact hI.leave (current_eq_proc.mp hw) hd hkeeps
  | resumed intena =>
      simp only [hth'] at h hpc
      cases h
      refine hI.local ⟨hA.noff, fun hx => ?_, hA.frames, fun _ => hpc.2⟩
      exact absurd (hA.quiet hx).1 (by rw [hpc.1]; decide)
  | run | switched | forkret | scheduling =>
      simp only [hth'] at h
      cases h

/-- **Every step** keeps the invariant. -/
theorem Inv.step {a : Act T} (hI : Inv s) (h : Intr.step s (c, a) = some s') : Inv s' := by
  have hA := hI.active c
  unfold Intr.step at h
  simp only [hI.halt, Option.isSome_none, Bool.false_eq_true, if_false] at h
  cases a with
  | intr on =>
      simp only [Option.ite_none_right_eq_some] at h
      obtain ⟨hmay, h⟩ := h
      obtain ⟨hpc, hd⟩ := of_mayIntr hmay
      cases h
      refine hI.setCpu ⟨hA.noff, fun _ => ⟨hd, .inl hpc⟩, hA.frames, ?_⟩
      unfold PcOk
      simp only [hpc]
      intro hne
      exact absurd hd hne
  | pushOff =>
      simp only [Option.ite_none_right_eq_some] at h
      obtain ⟨hmay, h⟩ := h
      have hpc := of_mayPush hmay
      have hok := hA.pc
      unfold PcOk at hok
      simp only [hpc] at hok
      cases h
      refine hI.setThread ⟨hA.noff, fun hx => ⟨(hA.quiet hx).1, .inr ?_⟩, hA.frames, rfl, hok⟩
      exact congrArg Pc.gotOld hx
  | popOff =>
      simp only [Option.ite_none_right_eq_some] at h
      obtain ⟨hmay, h⟩ := h
      obtain ⟨hpc, hd⟩ := of_mayPop hmay
      have hok := hA.pc
      unfold PcOk at hok
      simp only [hpc] at hok
      cases h
      refine hI.setThread ⟨hA.noff, fun hx => ?_, hA.frames, rfl, hd, hok (by omega)⟩
      exact absurd (hA.quiet hx).1 (by omega)
  | sched =>
      simp only [Option.ite_none_right_eq_some] at h
      obtain ⟨hmay, h⟩ := h
      obtain ⟨hw, hpc, hd⟩ := of_maySched hmay
      have hok := hA.pc
      unfold PcOk at hok
      simp only [hpc] at hok
      rw [if_neg (not_not.mpr (by rw [hA.noff, hd]; rfl)), hA.intr_off (by omega), if_neg Bool.false_ne_true] at h
      cases h
      refine hI.setThread ⟨hA.noff, fun hx => ?_, hA.frames, hw, hd, hok (by omega)⟩
      exact absurd (hA.quiet hx).1 (by omega)
  | next => exact hI.next h
  | trap =>
      simp only [Option.ite_none_right_eq_some] at h
      obtain ⟨hintr, h⟩ := h
      obtain ⟨hd, hopen⟩ := hA.quiet hintr
      cases h
      refine hI.local ⟨hA.noff, fun hx => absurd hx Bool.false_ne_true, fun pc hpc => ?_, fun hne => absurd hd hne⟩
      rcases List.mem_cons.mp hpc with rfl | hpc
      · exact hopen
      · exact hA.frames pc hpc
  | sret =>
      cases hpc : (s.thread (s.current c)).pc with
      | run =>
          cases hframes : (s.thread (s.current c)).frames with
          | nil =>
              simp only [hpc, hframes] at h
              cases h
          | cons pc frames =>
              simp only [hpc, hframes, Option.ite_none_right_eq_some] at h
              obtain ⟨hd, h⟩ := h
              have hopen : ∀ pc' ∈ pc :: frames, Open pc' := by
                rw [← hframes]
                exact hA.frames
              have hpc' : Open pc := hopen pc List.mem_cons_self
              cases h
              refine hI.local ⟨hA.noff, fun _ => ⟨hd, hpc'⟩, fun pc' h' => hopen pc' (List.mem_cons_of_mem _ h'), ?_⟩
              rcases hpc' with rfl | rfl
              · exact fun hne => absurd hd hne
              · exact ⟨rfl, fun hne => absurd hd hne⟩
      | _ =>
          simp only [hpc] at h
          cases h
  | swtch t =>
      simp only [Option.ite_none_right_eq_some, Option.map_eq_some_iff] at h
      obtain ⟨hmay, pc, hpc, rfl⟩ := h
      exact hI.enter hmay hpc

/-- Every state of a run is in order. -/
theorem run_inv {s₀ : State C T} {as : List (C × Act T)} (h0 : Init s₀) (hrun : Trace.run step s₀ as = some s) : Inv s :=
  Trace.run_invariant h0.inv (fun _ _ _ hI hstep => hI.step hstep) hrun

/-- **Interrupts follow the thread.** In every state of every run, over any CPUs and processes: neither `pop_off` nor
    `sched` has panicked; `noff` of each CPU is the depth of the thread on it; and a process that is about to return from
    `pop_off` to depth 0, and has left depth 0 since it started, does so with interrupts enabled on its CPU exactly
    if they were when it last left depth 0. -/
theorem interrupts_follow_thread {s₀ s : State C T} {as : List (C × Act T)} (h0 : Init s₀)
    (hrun : Trace.run step s₀ as = some s) :
    s.halt = none ∧ (∀ c, (s.cpu c).noff = (s.thread (s.current c)).depth) ∧
      ∀ c t d b, s.cur c = some t → (s.thread (.proc t)).pc = .popped d → (s.thread (.proc t)).depth = 0 →
        (s.thread (.proc t)).left = some b → ∃ s', step s (c, .next) = some s' ∧ s'.cur c = some t ∧
          s'.thread (.proc t) = { s.thread (.proc t) with pc := .run } ∧ (s'.cpu c).intr = b := by
  have hI := run_inv h0 hrun
  refine ⟨hI.halt, fun c => (hI.active c).noff, fun c t d b hcur hpc hd hleft => ?_⟩
  have hw := current_eq_proc.mpr hcur
  have hA := hI.active c
  rw [hw] at hA
  have hok := hA.pc
  unfold PcOk at hok
  simp only [hpc] at hok
  obtain ⟨rfl, hkeeps⟩ := hok
  have hintena : (s.cpu d).intena = b := hkeeps b hleft
  have hnoff : (s.cpu d).noff = 0 := by
    rw [hA.noff, hd]
    rfl
  have hoff : (s.cpu d).intr = false := by
    cases hx : (s.cpu d).intr with
    | false => rfl
    | true =>
        have hopen := (hA.quiet hx).2
        rw [hpc] at hopen
        rcases hopen with hopen | hopen <;> cases hopen
  have hstep : step s (d, .next) = Intr.next s d (.proc t) (s.thread (.proc t)) := by
    simp only [step, hI.halt, hw, Option.isSome_none, Bool.false_eq_true, if_false]
  rw [hstep]
  unfold Intr.next
  simp only [hpc]
  cases b with
  | true =>
      refine ⟨_, rfl, ?_, Function.update_self _ _ _, ?_⟩
      · rw [if_pos ⟨hnoff, hintena⟩]
        exact hcur
      · rw [if_pos ⟨hnoff, hintena⟩]
        show (Function.update s.cpu d { s.cpu d with intr := true } d).intr = true
        rw [Function.update_self]
  | false =>
      have hnot : ¬((s.cpu d).noff = 0 ∧ (s.cpu d).intena = true) := by
        rw [hintena]
        exact fun h => Bool.false_ne_true h.2
      refine ⟨_, rfl, ?_, Function.update_self _ _ _, ?_⟩
      · rw [if_neg hnot]
        exact hcur
      · rw [if_neg hnot]
        exact hoff

end Step

/-- Two CPUs and one process, with interrupts off. -/
def twoCpus : State Bool Unit where
  cpu _ := { noff := 0, intena := false, intr := false }
  cur _ := none
  thread
    | .scheduler _ => { pc := .run, frames := [], depth := 0, left := none }
    | .proc _ => { pc := .forkret, frames := [], depth := 1, left := none }
  halt := none

/-- The process starts on the first CPU, turns interrupts on, acquires a lock, gives up the CPU and is resumed on the
    second CPU, whose interrupts were off; there it releases the lock. -/
def migration : List (Bool × Act Unit) :=
  [(false, .pushOff), (false, .next), (false, .next), (false, .next), (false, .swtch ()),
    (false, .popOff), (false, .next), (false, .next), (false, .intr true),
    (false, .pushOff), (false, .next), (false, .next), (false, .next), (false, .sched), (false, .next),
    (true, .pushOff), (true, .next), (true, .next), (true, .next), (true, .swtch ()), (true, .next),
    (true, .popOff), (true, .next)]

/-- The process is on the second CPU, about to return from `pop_off` to depth 0 that it left with interrupts on. -/
def returning (s : State Bool Unit) : Bool :=
  let th := s.thread (.proc ())
  s.cur true == some () && th.depth == 0 && th.left == some true && match th.pc with
    | .popped _ => true
    | _ => false

theorem migrated_thread_enables :
    Init twoCpus ∧ ∃ s, Trace.run step twoCpus migration = some s ∧ s.halt = none ∧
      ∃ s', step s (true, .next) = some s' ∧ (s'.cpu true).intr = true := by
  have h0 : Init twoCpus := ⟨fun _ => rfl, fun _ => rfl, fun _ => rfl, fun _ => rfl, rfl⟩
  have hany : (Trace.run step twoCpus migration).any returning = true := by decide +kernel
  obtain ⟨s, hrun, hs⟩ := (Option.any_eq_true _ _).mp hany
  have h := interrupts_follow_thread h0 hrun
  unfold returning at hs
  simp only [Bool.and_eq_true, beq_iff_eq] at hs
  obtain ⟨⟨⟨hcur, hd⟩, hleft⟩, hpc⟩ := hs
  cases hth : (s.thread (.proc ())).pc with
  | popped d =>
      obtain ⟨s', hstep, -, -, hintr⟩ := h.2.2 true () d true hcur hth hd hleft
      exact ⟨h0, s, hrun, h.1, s', hstep, hintr⟩
  | _ =>
      simp only [hth] at hpc
      cases hpc

end Xv6.Intr
