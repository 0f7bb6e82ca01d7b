import Xv6.Proc.Frames

/-!
# `Proc.Inv` — contexts, stacks and locks

`Inv` collects what holds in every reachable state about the hand-over of a process between its own kernel
thread and the schedulers: who holds `p->lock`, whose stack a CPU is on, and what has been saved in
`p->context`. The lock of a process is taken on one side of a `swtch` and released on the other, so the
claims of the two sides have to fit: a saved thread claims exactly its own lock.
-/

namespace Xv6.Procs

variable {N M : Nat}

def Sys.claims (s : Sys N M) (c : Fin M) : List (Lock N) := claimsOf (s.cpus c).proc (s.stack (s.thread c))

/-- No CPU executes on the kernel stack of `p`. -/
def Sys.Off (s : Sys N M) (p : Fin N) : Prop := ∀ c, (s.cpus c).on ≠ some p

/-- `c->proc` while the scheduler is at a point. -/
def SchedPt.proc : SchedPt N → Option (Fin N)
  | .swtch q | .back q => some q
  | _ => none

/-- The points at which a thread goes on when a scheduler resumes it, with the state it can be in. -/
inductive SavedAt (r : Proc N) : Frame N → Prop
  | forkret (h : r.state = .runnable ∨ r.state = .running) : SavedAt r (.forkret false)
  | yield (h : r.state = .runnable ∨ r.state = .running) : SavedAt r (.yield .release)
  | sleep {chan : Chan N} {lk : Lock N} (hchan : r.chan = chan)
      (h : r.state = .sleeping ∨ r.state = .runnable ∨ r.state = .running) : SavedAt r (.sleep chan lk .tidy)
  | exit {status : Int} (h : r.state = .zombie) : SavedAt r (.exit status .dead)

/-- The context of a thread that has left its CPU. -/
structure Saved (p : Fin N) (r : Proc N) (fs : Stack N) : Prop where
  context : r.context = fs
  top : ∃ f rest, fs = f :: rest ∧ SavedAt r f ∧ claimsOf (some p) rest = []

/-- The states of a process whose thread exists. -/
def PState.started : PState → Prop
  | .unused | .used => False
  | _ => True

/-- What a call relies on while it holds the lock of the process in question. -/
def Frame.Facts (s : Sys N M) (myproc : Option (Fin N)) : Frame N → Prop
  | .sched (.setProc q) | .sched (.swtch q) => (s.procs q).state = .running ∧ s.Off q
  | .wait _ (.found q _) | .wait _ (.freeMem q _ _) | .wait _ (.freeproc q _ _) => (s.procs q).state = .zombie
  | .fork (.pidAcquire q) | .fork (.pidRead q) | .fork (.pidRelease q _) | .fork (.used q _) =>
      (s.procs q).state = .unused
  | .sleep chan _ .state | .sleep chan _ .sched => ∀ p, myproc = some p → (s.procs p).chan = chan
  | _ => True

/-- The slot that a `fork` has taken and not yet made runnable. -/
def Frame.owns : Frame N → Option (Fin N)
  | .fork (.alloc q _) | .fork (.uvmcopy q _) | .fork (.freeproc q) | .fork (.unlock q _)
  | .fork (.acquireWait q _) | .fork (.parent q _) | .fork (.releaseWait q _) | .fork (.relock q _)
  | .fork (.runnable q _) => some q
  | _ => none

/-- Its thread is ready once `allocproc` is done. -/
def Frame.ready : Frame N → Option (Fin N)
  | .fork (.uvmcopy q _) | .fork (.unlock q _) | .fork (.acquireWait q _) | .fork (.parent q _)
  | .fork (.releaseWait q _) | .fork (.relock q _) | .fork (.runnable q _) => some q
  | _ => none

/-- The thread of `q` is at its start. -/
def Sys.Fresh (s : Sys N M) (q : Fin N) : Prop := (s.procs q).context = start ∧ s.stack (.proc q) = start

structure Inv (s : Sys N M) : Prop where
  locks : Locks.Exact s.lock s.claims
  noff : ∀ c, (s.cpus c).noff = (s.claims c).length
  /-- a CPU without a process is in its scheduler -/
  sched : ∀ {c}, (s.cpus c).on = none → Shape Frame.isSched (s.stack (.sched c)) ∧
    (∀ f ∈ s.stack (.sched c), f.onSched) ∧ ∀ pt, .sched pt ∈ s.stack (.sched c) → (s.cpus c).proc = pt.proc
  shape : ∀ p, s.stack (.proc p) = [] ∨ Shape Frame.isCode (s.stack (.proc p))
  /-- a CPU with a process has left its scheduler at the `swtch` to this process -/
  on : ∀ {c p}, (s.cpus c).on = some p →
    (s.cpus c).proc = some p ∧ (s.cpus c).context = [.sched (.back p)]
  state : ∀ {c p}, (s.cpus c).on = some p →
    ∃ f rest, s.stack (.proc p) = f :: rest ∧ (s.procs p).state = f.pstate
  inj : ∀ {c c' p}, (s.cpus c).on = some p → (s.cpus c').on = some p → c = c'
  saved : ∀ {p}, s.Off p → (s.procs p).state.started → Saved p (s.procs p) (s.stack (.proc p))
  facts : ∀ {c f}, f ∈ s.stack (s.thread c) → f.Facts s (s.cpus c).proc
  owned : ∀ {p f q}, f ∈ s.stack (.proc p) → f.owns = some q → (s.procs q).state = .used
  ready : ∀ {p f q}, f ∈ s.stack (.proc p) → f.ready = some q → s.Fresh q
  owner : ∀ {p p' f f' q}, f ∈ s.stack (.proc p) → f' ∈ s.stack (.proc p') →
    f.owns = some q → f'.owns = some q → p = p'

variable {s t : Sys N M} {c c' : Fin M} {p q : Fin N} {f k : Frame N} {rest fs : Stack N} {ch : Choice}
  {m : Micro N} {myproc : Option (Fin N)}

/-! ## Threads -/

theorem thread_of_on (h : (s.cpus c).on = some p) : s.thread c = .proc p := by
  unfold Sys.thread
  rw [h]

theorem thread_of_off (h : (s.cpus c).on = none) : s.thread c = .sched c := by
  unfold Sys.thread
  rw [h]

theorem on_of_thread (h : s.thread c = .proc p) : (s.cpus c).on = some p := by
  unfold Sys.thread at h
  split at h
  · cases h
  · rename_i hon
    cases h
    exact hon

theorem Inv.thread_inj (hI : Inv s) (h : s.thread c = s.thread c') : c = c' := by
  cases hon : (s.cpus c).on with
  | none =>
      rw [thread_of_off hon] at h
      cases hon' : (s.cpus c').on with
      | none =>
          rw [thread_of_off hon'] at h
          cases h
          rfl
      | some p =>
          rw [thread_of_on hon'] at h
          cases h
  | some p =>
      rw [thread_of_on hon] at h
      exact hI.inj hon (on_of_thread h.symm)

/-- The process of a call that is not made on a scheduler's stack. -/
theorem Inv.proc_of_not_onSched (hI : Inv s) (hf : f ∈ s.stack (s.thread c)) (hns : ¬f.onSched) :
    ∃ p, (s.cpus c).on = some p ∧ (s.cpus c).proc = some p := by
  cases hon : (s.cpus c).on with
  | none =>
      rw [thread_of_off hon] at hf
      exact absurd ((hI.sched hon).2.1 f hf) hns
  | some p => exact ⟨p, rfl, (hI.on hon).1⟩

theorem mem_claims {lk : Lock N} (hf : f ∈ s.stack (s.thread c)) (h : lk ∈ f.holds (s.cpus c).proc) :
    lk ∈ s.claims c := List.mem_flatMap.mpr ⟨f, hf, h⟩

theorem Inv.holds (hI : Inv s) {lk : Lock N} (hf : f ∈ s.stack (s.thread c)) (h : lk ∈ f.holds (s.cpus c).proc) :
    s.lock lk = some c := hI.locks.mem_iff.mp (mem_claims hf h)

/-- A process that runs elsewhere while its lock is taken is in state `RUNNING`. -/
theorem Inv.running_of_locked (hI : Inv s) (hl : s.lock (.proc q) = some c) (hon : (s.cpus c').on = some q)
    (hne : c' ≠ c) : (s.procs q).state = .running := by
  obtain ⟨f, rest, hstack, hst⟩ := hI.state hon
  by_contra hrun
  rw [hst] at hrun
  have hmem : f ∈ s.stack (s.thread c') := by
    rw [thread_of_on hon, hstack]
    exact List.mem_cons_self
  have hheld : s.lock (.proc q) = some c' :=
    hI.holds hmem (by rw [(hI.on hon).1]; exact Frame.mem_holds_of_pstate hrun)
  rw [hl] at hheld
  exact hne (Option.some.inj hheld).symm

/-- A process that nobody has set to run is on no CPU, if its lock is held by another thread or by nobody. -/
theorem Inv.off (hI : Inv s) (hl : ∀ c', (s.cpus c').on = some q → s.lock (.proc q) ≠ some c')
    (hst : (s.procs q).state ≠ .running) : s.Off q := by
  intro c' hon
  obtain ⟨f, rest, hstack, hst'⟩ := hI.state hon
  rw [hst'] at hst
  refine hl c' hon (hI.holds (f := f) ?_ ?_)
  · rw [thread_of_on hon, hstack]
    exact List.mem_cons_self
  · rw [(hI.on hon).1]
    exact Frame.mem_holds_of_pstate hst

/-- A slot without a thread is on no CPU. -/
theorem Inv.off_of_not_started (hI : Inv s) (hst : ¬(s.procs q).state.started) : s.Off q := by
  intro c hon
  obtain ⟨f, rest, -, hst'⟩ := hI.state hon
  refine hst ?_
  rw [hst']
  unfold Frame.pstate
  split <;> trivial

/-! ## From one point to the next -/

/-- What holds at `f` is enough for what holds at `k`. -/
structure Frame.Leads (s : Sys N M) (myproc : Option (Fin N)) (f k : Frame N) : Prop where
  facts : f.Facts s myproc → k.Facts s myproc
  owns : ∀ q, k.owns = some q → f.owns = some q
  ready : ∀ q, k.ready = some q → f.ready = some q ∨ s.Fresh q

/-- A call that relies on nothing. -/
structure Frame.Plain (s : Sys N M) (myproc : Option (Fin N)) (f : Frame N) : Prop where
  facts : f.Facts s myproc
  owns : f.owns = none
  ready : f.ready = none

def Micro.Leads (s : Sys N M) (myproc : Option (Fin N)) (f : Frame N) : Micro N → Prop
  | .acquire _ k | .release _ k | .goto k | .nextpid k => f.Leads s myproc k
  | .call g k => f.Leads s myproc k ∧ g.Plain s myproc
  | _ => True

theorem Frame.Plain.leads (h : k.Plain s myproc) : f.Leads s myproc k where
  facts _ := h.facts
  owns q hq := by rw [h.owns] at hq; cases hq
  ready q hq := by rw [h.ready] at hq; cases hq

/-- The calls whose points all rely on nothing. -/
def Frame.isPlain : Frame N → Prop
  | .sleep _ _ _ | .wait _ _ | .fork _ | .sched _ => False
  | _ => True

theorem Frame.isPlain.plain (h : f.isPlain) : f.Plain s myproc := by
  cases f <;> first | exact ⟨trivial, rfl, rfl⟩ | exact h.elim

theorem Frame.Same.isPlain (hs : f.Same k) (h : f.isPlain) : k.isPlain := by
  cases hs <;> exact h

theorem regain_plain (f k : Frame N) :
    f.regain k = k ∨ (f.regain k).Plain s myproc := by
  unfold Frame.regain
  split
  · exact .inr ⟨trivial, rfl, rfl⟩
  · exact .inr ⟨trivial, rfl, rfl⟩
  · exact .inl rfl

/-- A function starts with nothing to rely on. -/
theorem code_call {held : List Nat} {g : Frame N} (h : code s p held ch = some (.call g k)) :
    g.Plain s (some p) := by
  cases ch <;> simp only [code] at h
  case sleep => split at h <;> cases h; exact ⟨trivial, rfl, rfl⟩
  case exit => split at h <;> cases h; exact ⟨trivial, rfl, rfl⟩
  case unlock => split at h <;> cases h
  all_goals cases h
  all_goals exact ⟨trivial, rfl, rfl⟩

theorem exit_call {status : Int} {pt : ExitPt} {g : Frame N} (h : exit s p status pt = some (.call g k)) :
    g.Plain s (some p) := by
  cases pt <;> simp only [exit] at h
  case reparent => split at h <;> [split at h; skip] <;> cases h
  all_goals cases h
  all_goals exact ⟨trivial, rfl, rfl⟩

theorem sleep_leads {chan : Chan N} {lk : Lock N} {pt : SleepPt} :
    (sleep s p chan lk pt).Leads s (some p) (.sleep chan lk pt) := by
  cases pt with
  | chan => trivial
  | state => trivial
  | tidy => trivial
  | done => trivial
  | sched => trivial
  | acquire => exact Frame.Plain.leads ⟨trivial, rfl, rfl⟩
  | release => exact Frame.Plain.leads ⟨trivial, rfl, rfl⟩
  | unlock => exact Frame.Plain.leads ⟨trivial, rfl, rfl⟩
  | reacquire => exact Frame.Plain.leads ⟨trivial, rfl, rfl⟩

theorem scheduler_leads {pt : SchedPt N} :
    (scheduler s pt).Leads s myproc (.sched pt) := by
  cases pt with
  | loop i =>
      simp only [scheduler]
      split
      · exact Frame.Plain.leads ⟨trivial, rfl, rfl⟩
      · exact Frame.Plain.leads ⟨trivial, rfl, rfl⟩
  | locked q =>
      simp only [scheduler]
      split
      · trivial
      · exact Frame.Plain.leads ⟨trivial, rfl, rfl⟩
  | setProc q => trivial
  | swtch q => trivial
  | back q => trivial
  | unlock q => exact Frame.Plain.leads ⟨trivial, rfl, rfl⟩

/-- The next point relies on the same things. -/
theorem leads_same (hf : f.Facts s myproc → k.Facts s myproc) (ho : k.owns = f.owns)
    (hr : k.ready = f.ready) : f.Leads s myproc k :=
  ⟨hf, fun _ h => ho ▸ h, fun _ h => .inl (hr ▸ h)⟩

theorem wait_leads {addr : Bool} {pt : WaitPt N} (h : wait s p addr pt ch = some m) :
    m.Leads s (some p) (.wait addr pt) := by
  have plain : ∀ {pt' : WaitPt N}, (Frame.wait addr pt').Facts s (some p) →
      (Frame.wait addr pt).Leads s (some p) (.wait addr pt') := fun hf => Frame.Plain.leads ⟨hf, rfl, rfl⟩
  cases pt with
  | acquireWait => cases h; exact plain trivial
  | scan i havekids =>
      simp only [wait] at h
      split at h
      · split at h <;> cases h <;> exact plain trivial
      · split at h <;> cases h
        · exact plain trivial
        · exact ⟨plain trivial, trivial, rfl, rfl⟩
  | locked q =>
      simp only [wait] at h
      split at h <;> cases h
      · rename_i hz
        exact plain hz
      · exact plain trivial
  | unlock q => cases h; exact plain trivial
  | found q pid =>
      simp only [wait] at h
      split at h
      · split at h <;> cases h
        · exact leads_same id rfl rfl
        · exact plain trivial
      · cases h
        exact leads_same id rfl rfl
  | freeMem q pid copied => cases h; trivial
  | freeproc q pid copied => cases h; trivial
  | freed q pid => cases h; exact plain trivial
  | failed q => cases h; exact plain trivial
  | asleep => cases h
  | releaseWait ret => cases h; exact plain trivial
  | done ret => cases h; trivial

theorem fork_leads {pt : ForkPt N} (h : fork s p pt ch = some m) :
    m.Leads s (some p) (.fork pt) := by
  cases pt with
  | loop i =>
      simp only [fork] at h
      split at h <;> cases h <;> exact Frame.Plain.leads ⟨trivial, rfl, rfl⟩
  | locked q =>
      simp only [fork] at h
      split at h <;> cases h
      · rename_i hu
        exact Frame.Plain.leads ⟨hu, rfl, rfl⟩
      · exact Frame.Plain.leads ⟨trivial, rfl, rfl⟩
  | miss q => cases h; exact Frame.Plain.leads ⟨trivial, rfl, rfl⟩
  | pidAcquire q => cases h; exact leads_same id rfl rfl
  | pidRead q => cases h; exact leads_same id rfl rfl
  | pidRelease q pid => cases h; exact leads_same id rfl rfl
  | used q pid => cases h; trivial
  | alloc q pid =>
      cases ch <;> simp only [fork] at h <;> cases h
      · trivial
      · exact leads_same id rfl rfl
  | uvmcopy q pid =>
      cases ch <;> simp only [fork] at h <;> cases h
      · trivial
      · exact ⟨id, fun _ h => h, fun _ h => by cases h⟩
  | freeproc q => cases h; trivial
  | unlockFreed q => cases h; exact Frame.Plain.leads ⟨trivial, rfl, rfl⟩
  | unlock q pid => cases h; exact leads_same id rfl rfl
  | acquireWait q pid => cases h; exact leads_same id rfl rfl
  | parent q pid => cases h; trivial
  | releaseWait q pid => cases h; exact leads_same id rfl rfl
  | relock q pid => cases h; exact leads_same id rfl rfl
  | runnable q pid => cases h; trivial
  | unlockRunnable q pid => cases h; exact Frame.Plain.leads ⟨trivial, rfl, rfl⟩
  | done ret => cases h; trivial


/-- For the other functions it is enough that they go on in the same call. -/
theorem Micro.Fits.leads (h : m.Fits myproc f) (hf : f.isPlain)
    (hcall : ∀ g k, m = .call g k → g.Plain s myproc) : m.Leads s myproc f := by
  cases m with
  | acquire lk k => exact (h.2.2.isPlain hf).plain.leads
  | release lk k => exact (h.2.2.isPlain hf).plain.leads
  | goto k => exact (h.2.2.isPlain hf).plain.leads
  | nextpid k => exact (h.2.2.isPlain hf).plain.leads
  | call g k => exact ⟨(h.2.2.2.2.1.isPlain hf).plain.leads, hcall g k rfl⟩
  | swtch k => trivial
  | assign q r ev k => trivial
  | spawn q k => trivial
  | setProc q k => trivial
  | ret ev => trivial
  | resume q k => trivial

theorem next_leads (h : f.next s c ch = some m) (hfit : m.Fits (s.cpus c).proc f) :
    m.Leads s (s.cpus c).proc f := by
  unfold Frame.next at h
  split at h
  · refine hfit.leads trivial fun g k hm => ?_
    subst hm
    cases ch <;> simp only [intr] at h
    case wakeup => cases h; exact ⟨trivial, rfl, rfl⟩
    case yield =>
      split at h
      · cases h
      · split at h <;> cases h
        exact ⟨trivial, rfl, rfl⟩
    case unlock => split at h <;> cases h
    case ret => split at h <;> cases h
    all_goals cases h
  · refine hfit.leads trivial fun g k hm => ?_
    subst hm
    simp only [wakeup] at h
    grind
  · cases h
    exact scheduler_leads
  all_goals rename_i p hp
  all_goals rw [hp] at hfit ⊢
  · refine hfit.leads trivial fun g k hm => ?_
    subst hm
    exact code_call h
  · refine hfit.leads trivial fun g k hm => ?_
    subst hm
    simp only [forkret] at h
    grind
  · refine hfit.leads trivial fun g k hm => ?_
    subst hm
    simp only [yield] at h
    grind
  · cases h
    exact sleep_leads
  · refine hfit.leads trivial fun g k hm => ?_
    subst hm
    simp only [kill] at h
    grind
  · refine hfit.leads trivial fun g k hm => ?_
    subst hm
    exact exit_call h
  · exact wait_leads h
  · exact fork_leads h
  · cases h

end Xv6.Procs
