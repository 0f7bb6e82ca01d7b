import Xv6.Proc.Assign

/-!
# `Proc.Handover` — one CPU for each process context

The statements that hand a process over between its own thread and a scheduler: the fresh context of
`allocproc`, `c->proc = p`, and the two directions of `swtch`. With them every step keeps `Inv`, and `Inv`
says that a process executes on one CPU at a time.
-/

namespace Xv6.Procs

variable {N M : Nat} {s t : Sys N M} {c c' : Fin M} {p q : Fin N} {f k g : Frame N} {rest fs old : Stack N}
  {ch : Choice} {m : Micro N} {myproc : Option (Fin N)} {r : Proc N} {ev : List (Event N)}

/-! ## A new thread -/

/-- The state after `allocproc` has set up the context of `q`. -/
def Sys.spawn (s : Sys N M) (q : Fin N) : Sys N M :=
  (s.setProc q { s.procs q with mem := true, context := start }).setStack (.proc q) start

theorem spawn_procs (p : Fin N) :
    ((s.spawn q).procs p).state = (s.procs p).state ∧ ((s.spawn q).procs p).chan = (s.procs p).chan := by
  show (Function.update s.procs q _ p).state = _ ∧ (Function.update s.procs q _ p).chan = _
  by_cases hp : p = q
  · subst hp
    rw [Function.update_self]
    exact ⟨rfl, rfl⟩
  · rw [Function.update_of_ne hp]
    exact ⟨rfl, rfl⟩

theorem spawn_procs_of_ne (h : p ≠ q) : (s.spawn q).procs p = s.procs p := Function.update_of_ne h _ _

theorem spawn_fresh : (s.spawn q).Fresh q := by
  refine ⟨?_, Function.update_self _ _ _⟩
  show (Function.update s.procs q _ q).context = _
  rw [Function.update_self]

theorem spawn_stack_of_ne {θ : Thread N M} (h : θ ≠ .proc q) : (s.spawn q).stack θ = s.stack θ :=
  Function.update_of_ne h _ _

/-- A slot without a thread gets one. -/
theorem Inv.spawn (hI : Inv s) (hst : ¬(s.procs q).state.started) : Inv (s.spawn q) := by
  have hoff := hI.off_of_not_started hst
  have hth : ∀ c, s.thread c ≠ .proc q := fun c h => hoff c (on_of_thread h)
  have hclaims : (s.spawn q).claims = s.claims := by
    funext c
    show claimsOf (s.cpus c).proc ((s.spawn q).stack (s.thread c)) = _
    rw [spawn_stack_of_ne (hth c)]
    rfl
  -- no call of a fresh thread owns anything
  have hold : ∀ {p f q'}, f ∈ (s.spawn q).stack (.proc p) → f.owns = some q' → f ∈ s.stack (.proc p) := by
    intro p f q' hf ho
    by_cases hp : p = q
    · subst hp
      rw [spawn_fresh.2] at hf
      simp only [start, List.mem_cons, List.not_mem_nil, or_false] at hf
      rcases hf with rfl | rfl <;> cases ho
    · rwa [spawn_stack_of_ne fun h => hp (Thread.proc.inj h)] at hf
  constructor
  case locks =>
    rw [hclaims]
    exact hI.locks
  case noff =>
    rw [hclaims]
    exact hI.noff
  case sched =>
    intro c hon
    rw [spawn_stack_of_ne (fun h => by cases h)]
    exact hI.sched hon
  case shape =>
    intro p
    by_cases hp : p = q
    · subst hp
      rw [spawn_fresh.2]
      exact .inr ⟨.forkret _ _, trivial⟩
    · rw [spawn_stack_of_ne fun h => hp (Thread.proc.inj h)]
      exact hI.shape p
  case on => exact hI.on
  case state =>
    intro c p (hon : (s.cpus c).on = some p)
    rw [spawn_stack_of_ne (by rw [← thread_of_on hon]; exact hth c), (spawn_procs p).1]
    exact hI.state hon
  case inj => exact hI.inj
  case saved =>
    intro p (hp : s.Off p) hstart
    rw [(spawn_procs p).1] at hstart
    have hne : p ≠ q := by
      rintro rfl
      exact hst hstart
    rw [spawn_stack_of_ne fun h => hne (Thread.proc.inj h), spawn_procs_of_ne hne]
    exact hI.saved hp hstart
  case facts =>
    intro c f hf
    have hf : f ∈ s.stack (s.thread c) := by
      rwa [show (s.spawn q).thread c = s.thread c from rfl, spawn_stack_of_ne (hth c)] at hf
    exact (hI.facts hf).congr (fun _ _ h => h) fun q' _ => spawn_procs q'
  case owned =>
    intro p f q' hf ho
    rw [(spawn_procs q').1]
    exact hI.owned (hold hf ho) ho
  case ready =>
    intro p f q' hf hr
    by_cases hq : q' = q
    · subst hq
      exact spawn_fresh
    · unfold Sys.Fresh
      rw [spawn_procs_of_ne hq, spawn_stack_of_ne fun h => hq (Thread.proc.inj h)]
      exact hI.ready (hold hf (Frame.owns_of_ready hr)) hr
  case owner =>
    intro p p' f f' q' hf hf' ho ho'
    exact hI.owner (hold hf ho) (hold hf' ho') ho ho'

/-! ## The hand-over between a process and a scheduler -/

/-- The stack of a scheduler that executes its own statements. -/
theorem Inv.sched_top {pt : SchedPt N} (hI : Inv s) (hstack : s.stack (s.thread c) = .sched pt :: rest) :
    (s.cpus c).on = none ∧ rest = [] ∧ (s.cpus c).proc = pt.proc := by
  cases hon : (s.cpus c).on with
  | none =>
      rw [thread_of_off hon] at hstack
      obtain ⟨h1, -, h3⟩ := hI.sched hon
      rw [hstack] at h1 h3
      exact ⟨rfl, h1.sched, h3 pt List.mem_cons_self⟩
  | some p =>
      rw [thread_of_on hon] at hstack
      rcases hI.shape p with h | h
      · rw [h] at hstack
        cases hstack
      · rw [hstack] at h
        have := h.sched
        subst this
        exact h.elim

theorem setCpu_self {r : Cpu N} : (s.setCpu c r).cpus c = r := Function.update_self _ _ _

theorem setCpu_of_ne {r : Cpu N} (h : c' ≠ c) : (s.setCpu c r).cpus c' = s.cpus c' := Function.update_of_ne h _ _

/-- `c->proc = p` in the scheduler. -/
theorem Inv.setProc {p : Option (Fin N)} (hI : Inv s) (hstack : s.stack (s.thread c) = f :: rest)
    (hset : SetsProc f p k) : Inv ((s.setCpu c { s.cpus c with proc := p }).goto c (k :: rest)) := by
  have hmem : f ∈ s.stack (s.thread c) := by rw [hstack]; exact List.mem_cons_self
  obtain ⟨pt, pt', hf, hk, hp, hholds⟩ : ∃ pt pt', f = .sched pt ∧ k = .sched pt' ∧ p = pt'.proc ∧
      pt'.holds = pt.holds := by
    cases hset with
    | set q => exact ⟨_, _, rfl, rfl, rfl, rfl⟩
    | clear q => exact ⟨_, _, rfl, rfl, rfl, rfl⟩
  subst hf hk
  obtain ⟨hon, rfl, -⟩ := hI.sched_top hstack
  have hth := thread_of_off hon
  generalize ht : (s.setCpu c { s.cpus c with proc := p }).goto c [.sched pt'] = t
  have hself : t.cpus c = { s.cpus c with proc := p } := by rw [← ht]; exact setCpu_self
  have hother : ∀ {c'}, c' ≠ c → t.cpus c' = s.cpus c' := fun h => by rw [← ht]; exact setCpu_of_ne h
  have hon' : ∀ c', (t.cpus c').on = (s.cpus c').on := by
    intro c'
    by_cases hc : c' = c
    · rw [hc, hself]
    · rw [hother hc]
  have hthread : ∀ c', t.thread c' = s.thread c' := fun c' => by
    unfold Sys.thread
    rw [hon']
  have hst : t.stack = Function.update s.stack (.sched c) [.sched pt'] := by
    rw [← ht]
    show Function.update s.stack (Sys.thread _ c) _ = _
    rw [thread_of_off (by rw [setCpu_self]; exact hon)]
  have hprocs : t.procs = s.procs := by rw [← ht]; rfl
  have hproc : ∀ p', t.stack (.proc p') = s.stack (.proc p') := fun p' => by
    rw [hst, Function.update_of_ne (fun h => by cases h)]
  have hclaims : t.claims = s.claims := by
    funext c'
    unfold Sys.claims
    rw [hthread]
    by_cases hc : c' = c
    · subst hc
      rw [hstack, hth, hst, Function.update_self]
      simp [claimsOf, Frame.holds, hholds]
    · rw [hother hc, hst, Function.update_of_ne fun h => hc (hI.thread_inj (h.trans hth.symm))]
  constructor
  case locks =>
    rw [hclaims, ← ht]
    exact hI.locks
  case noff =>
    intro c'
    rw [hclaims, ← hI.noff]
    by_cases hc : c' = c
    · rw [hc, hself]
    · rw [hother hc]
  case sched =>
    intro c' h
    by_cases hc : c' = c
    · subst hc
      rw [hst, Function.update_self, hself]
      refine ⟨trivial, fun f' hf' => ?_, fun pt'' h'' => ?_⟩
      · rw [List.mem_singleton.mp hf']
        trivial
      · cases List.mem_singleton.mp h''
        exact hp
    · rw [hon'] at h
      rw [hother hc, hst, Function.update_of_ne fun h => hc (Thread.sched.inj h)]
      exact hI.sched h
  case shape =>
    intro p'
    rw [hproc]
    exact hI.shape p'
  case on =>
    intro c' p' h
    have hc : c' ≠ c := by
      rintro rfl
      rw [hon', hon] at h
      cases h
    rw [hother hc] at h ⊢
    exact hI.on h
  case state =>
    intro c' p' h
    rw [hon'] at h
    rw [hproc, hprocs]
    exact hI.state h
  case inj =>
    intro c₁ c₂ p' h₁ h₂
    rw [hon'] at h₁ h₂
    exact hI.inj h₁ h₂
  case saved =>
    intro p' hoff hstart
    have hoff' : s.Off p' := fun c' h => hoff c' (by rw [hon']; exact h)
    rw [hprocs] at hstart ⊢
    rw [hproc]
    exact hI.saved hoff' hstart
  case facts =>
    intro c' f' hf'
    have hmono : ∀ {myproc}, f'.Facts s myproc → f'.Facts t myproc := fun h =>
      h.congr (fun q _ hq c' => by rw [hon']; exact hq c') fun q _ => by rw [hprocs]; exact ⟨rfl, rfl⟩
    rw [hthread] at hf'
    by_cases hc : c' = c
    · subst hc
      rw [hth, hst, Function.update_self] at hf'
      rw [List.mem_singleton.mp hf'] at hmono ⊢
      cases hset with
      | set q => exact hmono (hI.facts hmem)
      | clear q => trivial
    · rw [hst, Function.update_of_ne fun h => hc (hI.thread_inj (h.trans hth.symm))] at hf'
      rw [hother hc]
      exact hmono (hI.facts hf')
  case owned =>
    intro p' f' q hf' ho
    rw [hproc] at hf'
    rw [hprocs]
    exact hI.owned hf' ho
  case ready =>
    intro p' f' q hf' hr
    rw [hproc] at hf'
    unfold Sys.Fresh
    rw [hprocs, hproc]
    exact hI.ready hf' hr
  case owner =>
    intro p₁ p₂ f₁ f₂ q h₁ h₂
    rw [hproc] at h₁ h₂
    exact hI.owner h₁ h₂

theorem SavedAt.holds (h : SavedAt r f) : f.holds (some p) = [.proc p] := by
  cases h <;> rfl

theorem SavedAt.pstate (h : SavedAt r f) : f.pstate = .running := by
  cases h <;> rfl

theorem SavedAt.facts (h : SavedAt r f) : f.Facts s myproc := by
  cases h <;> trivial

/-- A call without a lock relies on nothing. -/
theorem Frame.facts_of_holds_nil (h : f.holds (some p) = []) : f.Facts s (some p) := by
  unfold Frame.Facts
  split <;> simp_all [Frame.holds, SchedPt.holds, WaitPt.holds, ForkPt.holds, SleepPt.holds]

theorem holds_of_claimsOf_nil (h : claimsOf (some p) fs = []) (hf : f ∈ fs) : f.holds (some p) = [] :=
  List.flatMap_eq_nil_iff.mp h f hf

/-- `swtch(&c->context, &q->context)`: the scheduler hands its lock of `q` over to `q`. -/
theorem Inv.resume (hI : Inv s) (hstack : s.stack (s.thread c) = .sched (.swtch q) :: rest) :
    Inv (((s.goto c (.sched (.back q) :: rest)).setCpu c
      { s.cpus c with context := .sched (.back q) :: rest, on := some q }).setStack (.proc q)
        (s.procs q).context) := by
  have hmem : .sched (.swtch q) ∈ s.stack (s.thread c) := by rw [hstack]; exact List.mem_cons_self
  obtain ⟨hon, rfl, hproc⟩ := hI.sched_top hstack
  obtain ⟨hrun, hoff⟩ : (s.procs q).state = .running ∧ s.Off q := hI.facts hmem
  obtain ⟨hcon, f, rest, hq, hat, hrest⟩ := hI.saved hoff (by rw [hrun]; trivial)
  have hth := thread_of_off hon
  generalize ht : ((s.goto c [.sched (.back q)]).setCpu c
    { s.cpus c with context := [.sched (.back q)], on := some q }).setStack (.proc q) (s.procs q).context = t
  have hself : t.cpus c = { s.cpus c with context := [.sched (.back q)], on := some q } := by
    rw [← ht]
    exact setCpu_self
  have hother : ∀ {c'}, c' ≠ c → t.cpus c' = s.cpus c' := fun h => by
    rw [← ht]
    exact setCpu_of_ne h
  have hprocs : t.procs = s.procs := by rw [← ht]; rfl
  have hst : ∀ p, t.stack (.proc p) = s.stack (.proc p) := by
    intro p
    rw [← ht]
    show Function.update (Function.update s.stack (s.thread c) _) (.proc q) _ (.proc p) = _
    by_cases hp : p = q
    · rw [hp, Function.update_self, hcon]
    · rw [Function.update_of_ne fun h => hp (Thread.proc.inj h), hth, Function.update_of_ne (fun h => by cases h)]
  have hsched : ∀ {c'}, c' ≠ c → t.stack (.sched c') = s.stack (.sched c') := by
    intro c' hc
    rw [← ht]
    show Function.update (Function.update s.stack (s.thread c) [.sched (.back q)]) (.proc q) (s.procs q).context
      (.sched c') = _
    rw [Function.update_of_ne (fun h => by cases h), hth, Function.update_of_ne fun h => hc (Thread.sched.inj h)]
  have hth' : t.thread c = .proc q := thread_of_on (by rw [hself])
  have hthread : ∀ {c'}, c' ≠ c → t.thread c' = s.thread c' := by
    intro c' hc
    unfold Sys.thread
    rw [hother hc]
  -- the stacks that other CPUs execute on are the same
  have hcurrent : ∀ {c'}, c' ≠ c → t.stack (t.thread c') = s.stack (s.thread c') := by
    intro c' hc
    rw [hthread hc]
    cases hon' : (s.cpus c').on with
    | none => rw [thread_of_off hon', hsched hc]
    | some p => rw [thread_of_on hon', hst]
  have hclaims : t.claims = s.claims := by
    funext c'
    unfold Sys.claims
    by_cases hc : c' = c
    · subst hc
      rw [hth', hself, hst, hq, hstack]
      show claimsOf (s.cpus c').proc _ = _
      rw [hproc]
      show f.holds (some q) ++ claimsOf (some q) rest = [.proc q]
      rw [hat.holds, hrest]
      rfl
    · rw [hcurrent hc, hother hc]
  constructor
  case locks =>
    rw [hclaims, ← ht]
    exact hI.locks
  case noff =>
    intro c'
    rw [hclaims, ← hI.noff]
    by_cases hc : c' = c
    · rw [hc, hself]
    · rw [hother hc]
  case sched =>
    intro c' h
    have hc : c' ≠ c := by
      rintro rfl
      rw [hself] at h
      cases h
    rw [hother hc] at h ⊢
    rw [hsched hc]
    exact hI.sched h
  case shape =>
    intro p
    rw [hst]
    exact hI.shape p
  case on =>
    intro c' p h
    by_cases hc : c' = c
    · subst hc
      rw [hself] at h ⊢
      cases h
      exact ⟨hproc, rfl⟩
    · rw [hother hc] at h ⊢
      exact hI.on h
  case state =>
    intro c' p h
    rw [hst, hprocs]
    by_cases hc : c' = c
    · subst hc
      rw [hself] at h
      cases h
      exact ⟨f, rest, hq, hrun.trans hat.pstate.symm⟩
    · rw [hother hc] at h
      exact hI.state h
  case inj =>
    intro c₁ c₂ p h₁ h₂
    by_cases hc₁ : c₁ = c
    · by_cases hc₂ : c₂ = c
      · rw [hc₁, hc₂]
      · rw [hc₁, hself] at h₁
        cases h₁
        rw [hother hc₂] at h₂
        exact absurd h₂ (hoff c₂)
    · rw [hother hc₁] at h₁
      by_cases hc₂ : c₂ = c
      · rw [hc₂, hself] at h₂
        cases h₂
        exact absurd h₁ (hoff c₁)
      · rw [hother hc₂] at h₂
        exact hI.inj h₁ h₂
  case saved =>
    intro p hoff' hstart
    rw [hprocs] at hstart ⊢
    rw [hst]
    refine hI.saved (fun c' h => ?_) hstart
    by_cases hc : c' = c
    · rw [hc, hon] at h
      cases h
    · exact hoff' c' (by rw [hother hc]; exact h)
  case facts =>
    intro c' f' hf'
    by_cases hc : c' = c
    · subst hc
      rw [hth', hst, hq] at hf'
      rw [hself]
      show f'.Facts t (s.cpus c').proc
      rw [hproc]
      rcases List.mem_cons.mp hf' with rfl | hf'
      · exact hat.facts
      · exact Frame.facts_of_holds_nil (holds_of_claimsOf_nil hrest hf')
    · rw [hcurrent hc] at hf'
      rw [hother hc]
      refine (hI.facts hf').congr (fun q' hq' hoff' c'' h => ?_) fun q' _ => by rw [hprocs]; exact ⟨rfl, rfl⟩
      by_cases hc' : c'' = c
      · -- another CPU does not pick the process whose lock is handed over
        subst hc'
        rw [hself] at h
        cases h
        have hown : .proc q ∈ (Frame.sched (.swtch q)).holds (s.cpus c'').proc := List.mem_cons_self
        exact (hI.not_claimed hstack hown).2 c' hc f' hf' hq'
      · rw [hother hc'] at h
        exact hoff' c'' h
  case owned =>
    intro p f' q' hf' ho
    rw [hst] at hf'
    rw [hprocs]
    exact hI.owned hf' ho
  case ready =>
    intro p f' q' hf' hr
    rw [hst] at hf'
    unfold Sys.Fresh
    rw [hprocs, hst]
    exact hI.ready hf' hr
  case owner =>
    intro p₁ p₂ f₁ f₂ q' h₁ h₂
    rw [hst] at h₁ h₂
    exact hI.owner h₁ h₂

theorem Parks.holds (h : Parks f k) : f.holds (some p) = [.proc p] := by
  cases h <;> rfl

theorem Parks.owns (h : Parks f k) : k.owns = none := by
  cases h <;> rfl

theorem Parks.same (h : Parks f k) : f.Same k := by
  cases h <;> constructor

/-- The saved point of a process that leaves its CPU. -/
theorem Parks.saved (h : Parks f k) (hst : (s.procs p).state = f.pstate) (hf : f.Facts s (some p)) :
    SavedAt (s.procs p) k := by
  cases h with
  | yield => exact .yield (.inl hst)
  | sleep chan lk => exact .sleep (hf p rfl) (.inl hst)
  | exit status => exact .exit hst

/-- `swtch(&p->context, &mycpu()->context)` in `sched()`: `p` hands its lock over to the scheduler. -/
theorem Inv.swtch (hI : Inv s) (hstack : s.stack (s.thread c) = f :: rest) (hpark : Parks f k)
    (hp : (s.cpus c).proc = some p) (hl : s.lock (.proc p) = some c) (hnoff : (s.cpus c).noff = 1) :
    Inv ((((s.goto c (k :: rest)).setProc p { s.procs p with context := k :: rest }).setCpu c
      { s.cpus c with on := none }).setStack (.sched c) (s.cpus c).context) := by
  have hmem : f ∈ s.stack (s.thread c) := by rw [hstack]; exact List.mem_cons_self
  obtain ⟨p', hon, hp'⟩ := hI.proc_of_not_onSched hmem (by cases hpark <;> exact id)
  rw [hp] at hp'
  cases hp'
  have hth := thread_of_on hon
  obtain ⟨-, hcontext⟩ := hI.on hon
  obtain ⟨f', rest', heq, hstate⟩ := hI.state hon
  rw [hth, heq] at hstack
  cases hstack
  -- the process holds its own lock only
  have hown : s.claims c = [.proc p] := hI.locks.eq_singleton (by rw [← hI.noff, hnoff]) hl
  have hrest : claimsOf (some p) rest = [] := by
    have h := claims_eq (by rw [hth, heq] : s.stack (s.thread c) = f :: rest)
    rw [hown, hp, hpark.holds] at h
    exact (List.cons.inj h).2.symm
  have hsaved : SavedAt (s.procs p) k := hpark.saved hstate (by rw [← hp]; exact hI.facts hmem)
  generalize ht : (((s.goto c (k :: rest)).setProc p { s.procs p with context := k :: rest }).setCpu c
    { s.cpus c with on := none }).setStack (.sched c) (s.cpus c).context = t
  have hself : t.cpus c = { s.cpus c with on := none } := by
    rw [← ht]
    exact setCpu_self
  have hother : ∀ {c'}, c' ≠ c → t.cpus c' = s.cpus c' := fun h => by
    rw [← ht]
    exact setCpu_of_ne h
  have hprocs : t.procs = Function.update s.procs p { s.procs p with context := k :: rest } := by
    rw [← ht]
    rfl
  have hfield : ∀ q, (t.procs q).state = (s.procs q).state ∧ (t.procs q).chan = (s.procs q).chan := by
    intro q
    rw [hprocs]
    by_cases hq : q = p
    · rw [hq, Function.update_self]
      exact ⟨rfl, rfl⟩
    · rw [Function.update_of_ne hq]
      exact ⟨rfl, rfl⟩
  have hst : t.stack (.proc p) = k :: rest := by
    rw [← ht]
    show Function.update (Function.update s.stack (s.thread c) (k :: rest)) (.sched c) (s.cpus c).context
      (.proc p) = _
    rw [Function.update_of_ne (fun h => by cases h), hth, Function.update_self]
  have hst_ne : ∀ {q}, q ≠ p → t.stack (.proc q) = s.stack (.proc q) := by
    intro q hq
    rw [← ht]
    show Function.update (Function.update s.stack (s.thread c) (k :: rest)) (.sched c) (s.cpus c).context
      (.proc q) = _
    rw [Function.update_of_ne (fun h => by cases h), hth, Function.update_of_ne fun h => hq (Thread.proc.inj h)]
  have hsched : t.stack (.sched c) = [.sched (.back p)] := by
    rw [← ht]
    show Function.update (Function.update s.stack (s.thread c) (k :: rest)) (.sched c) _ (.sched c) = _
    rw [Function.update_self, hcontext]
  have hsched_ne : ∀ {c'}, c' ≠ c → t.stack (.sched c') = s.stack (.sched c') := by
    intro c' hc
    rw [← ht]
    show Function.update (Function.update s.stack (s.thread c) (k :: rest)) (.sched c) (s.cpus c).context
      (.sched c') = _
    rw [Function.update_of_ne fun h => hc (Thread.sched.inj h), hth, Function.update_of_ne (fun h => by cases h)]
  have hth' : t.thread c = .sched c := thread_of_off (by rw [hself])
  have hcurrent : ∀ {c'}, c' ≠ c → t.stack (t.thread c') = s.stack (s.thread c') := by
    intro c' hc
    have hthread : t.thread c' = s.thread c' := by
      unfold Sys.thread
      rw [hother hc]
    rw [hthread]
    cases hon' : (s.cpus c').on with
    | none => rw [thread_of_off hon', hsched_ne hc]
    | some q => rw [thread_of_on hon', hst_ne fun h => hc (hI.inj hon' (by rw [h]; exact hon))]
  have hclaims : t.claims = s.claims := by
    funext c'
    by_cases hc : c' = c
    · subst hc
      rw [hown]
      unfold Sys.claims
      rw [hth', hsched]
      rfl
    · unfold Sys.claims
      rw [hcurrent hc, hother hc]
  have hoff : ∀ {q}, s.Off q → t.Off q := by
    intro q hq c' h
    by_cases hc : c' = c
    · rw [hc, hself] at h
      cases h
    · rw [hother hc] at h
      exact hq c' h
  -- the calls of a process own what they owned
  have hold : ∀ {q f' q'}, f' ∈ t.stack (.proc q) → f'.owns = some q' → f' ∈ s.stack (.proc q) := by
    intro q f' q' hf' ho
    by_cases hq : q = p
    · subst hq
      rw [hst] at hf'
      rw [heq]
      rcases List.mem_cons.mp hf' with rfl | hf'
      · rw [hpark.owns] at ho
        cases ho
      · exact List.mem_cons_of_mem _ hf'
    · rwa [hst_ne hq] at hf'
  constructor
  case locks =>
    rw [hclaims, ← ht]
    exact hI.locks
  case noff =>
    intro c'
    rw [hclaims, ← hI.noff]
    by_cases hc : c' = c
    · rw [hc, hself]
    · rw [hother hc]
  case sched =>
    intro c' h
    by_cases hc : c' = c
    · subst hc
      rw [hsched, hself]
      refine ⟨trivial, fun f' hf' => ?_, fun pt h' => ?_⟩
      · rw [List.mem_singleton.mp hf']
        trivial
      · cases List.mem_singleton.mp h'
        exact hp
    · rw [hother hc] at h ⊢
      rw [hsched_ne hc]
      exact hI.sched h
  case shape =>
    intro q
    by_cases hq : q = p
    · subst hq
      rw [hst]
      rcases hI.shape q with h | h
      · rw [heq] at h
        cases h
      · rw [heq] at h
        exact .inr (h.replace hpark.same hpark.same.isCode)
    · rw [hst_ne hq]
      exact hI.shape q
  case on =>
    intro c' q h
    have hc : c' ≠ c := by
      rintro rfl
      rw [hself] at h
      cases h
    rw [hother hc] at h ⊢
    exact hI.on h
  case state =>
    intro c' q h
    have hc : c' ≠ c := by
      rintro rfl
      rw [hself] at h
      cases h
    rw [hother hc] at h
    rw [hst_ne fun hq => hc (hI.inj h (by rw [hq]; exact hon)), (hfield q).1]
    exact hI.state h
  case inj =>
    intro c₁ c₂ q h₁ h₂
    have hc : ∀ {c'}, (t.cpus c').on = some q → (s.cpus c').on = some q := by
      intro c' h
      by_cases hc : c' = c
      · rw [hc, hself] at h
        cases h
      · rwa [hother hc] at h
    exact hI.inj (hc h₁) (hc h₂)
  case saved =>
    intro q hq hstart
    by_cases hqp : q = p
    · subst hqp
      rw [hst, hprocs, Function.update_self]
      exact ⟨rfl, k, rest, rfl, hsaved.congr rfl rfl, hrest⟩
    · rw [hst_ne hqp]
      rw [hprocs, Function.update_of_ne hqp] at hstart ⊢
      refine hI.saved (fun c' h => ?_) hstart
      by_cases hc : c' = c
      · rw [hc, hon] at h
        exact hqp (Option.some.inj h).symm
      · exact hq c' (by rw [hother hc]; exact h)
  case facts =>
    intro c' f' hf'
    by_cases hc : c' = c
    · subst hc
      rw [hth', hsched] at hf'
      rw [List.mem_singleton.mp hf']
      trivial
    · rw [hcurrent hc] at hf'
      rw [hother hc]
      exact (hI.facts hf').congr (fun _ _ => hoff) fun q _ => hfield q
  case owned =>
    intro q f' q' hf' ho
    rw [(hfield q').1]
    exact hI.owned (hold hf' ho) ho
  case ready =>
    intro q f' q' hf' hr
    have ho := Frame.owns_of_ready hr
    have hne : q' ≠ p := by
      rintro rfl
      exact hI.owned_thread (c := c) (hold hf' ho) ho hth
    unfold Sys.Fresh
    rw [hprocs, Function.update_of_ne hne, hst_ne hne]
    exact hI.ready (hold hf' ho) hr
  case owner =>
    intro q₁ q₂ f₁ f₂ q' h₁ h₂ ho₁ ho₂
    exact hI.owner (hold h₁ ho₁) (hold h₂ ho₂) ho₁ ho₂

/-! ## Every step -/

theorem Shape.sched_loop (h : Shape Frame.isSched (f :: rest)) (hf : ¬f.isSched) :
    ∃ i, .sched (.loop i) ∈ rest := by
  induction rest generalizing f with
  | nil => exact absurd h hf
  | cons b rest ih =>
      by_cases hb : b.isSched
      · obtain ⟨hc, -⟩ := h
        cases hc with
        | intrLoop held i => exact ⟨i, List.mem_cons_self⟩
        | intr held hns => exact absurd hb hns
        | _ => exact hb.elim
      · obtain ⟨i, hi⟩ := ih h.2 hb
        exact ⟨i, List.mem_cons_of_mem _ hi⟩

/-- An interrupt handler on a scheduler's stack has no process. -/
theorem Inv.proc_none (hI : Inv s) (hstack : s.stack (s.thread c) = f :: rest) (hon : (s.cpus c).on = none)
    (hf : ¬f.isSched) : (s.cpus c).proc = none := by
  rw [thread_of_off hon] at hstack
  obtain ⟨h1, -, h3⟩ := hI.sched hon
  rw [hstack] at h1 h3
  obtain ⟨i, hi⟩ := h1.sched_loop hf
  exact h3 (.loop i) (List.mem_cons_of_mem _ hi)

/-- The process of the executing call is in the state that the call's point says. -/
theorem Inv.pstate (hI : Inv s) (hstack : s.stack (s.thread c) = f :: rest) (hp : (s.cpus c).proc = some p)
    (hf : ¬f.isSched) : (s.procs p).state = f.pstate := by
  cases hon : (s.cpus c).on with
  | none =>
      rw [hI.proc_none hstack hon hf] at hp
      cases hp
  | some p' =>
      rw [(hI.on hon).1] at hp
      cases hp
      obtain ⟨f', rest', heq, hst⟩ := hI.state hon
      rw [thread_of_on hon, heq] at hstack
      cases hstack
      exact hst

/-- The process that a call prepares or frees does not run. -/
theorem Inv.child (hI : Inv s) (hstack : s.stack (s.thread c) = f :: rest) (hq : f.child = some q) :
    (s.procs q).state ≠ .running := by
  have hfacts := hI.facts (by rw [hstack]; exact List.mem_cons_self : f ∈ s.stack (s.thread c))
  by_cases ho : f.owns = some q
  · obtain ⟨-, -, -, hst⟩ := hI.owned_top hstack ho
    rw [hst]
    simp
  · unfold Frame.child at hq
    split at hq <;> cases hq <;> first | exact absurd rfl ho | (simp only [Frame.Facts] at hfacts; simp [hfacts])

/-- The frame that a statement goes on with. -/
def Micro.target : Micro N → Option (Frame N)
  | .acquire _ k | .release _ k | .goto k | .nextpid k => some k
  | _ => none

theorem next_target_proc {pt pt' : SchedPt N} (h : (Frame.sched pt).next s c ch = some m)
    (hk : m.target = some (.sched pt')) : pt.proc = pt'.proc := by
  cases pt with
  | loop i =>
      simp only [Frame.next, scheduler] at h
      split at h <;> cases h <;> cases hk <;> rfl
  | locked q =>
      simp only [Frame.next, scheduler] at h
      split at h <;> cases h <;> cases hk
      rfl
  | unlock q => cases h; cases hk; rfl
  | setProc q => cases h; cases hk
  | swtch q => cases h; cases hk
  | back q => cases h; cases hk

theorem next_call_onSched (h : f.next s c ch = some (.call g k)) (hf : f.onSched)
    (hnone : (s.cpus c).proc = none) : g.onSched := by
  cases f with
  | intr held =>
      cases ch <;> simp only [Frame.next, intr, hnone] at h
      case wakeup => cases h; trivial
      case unlock => split at h <;> cases h
      case ret => split at h <;> cases h
      all_goals cases h
  | wakeup chan pt =>
      cases pt <;> simp only [Frame.next, wakeup] at h
      case loop => split at h <;> [split at h; skip] <;> cases h
      all_goals cases h
  | sched pt =>
      cases pt <;> simp only [Frame.next, scheduler] at h
      case loop => split at h <;> cases h
      case locked => split at h <;> cases h
      all_goals cases h
  | _ => exact hf.elim

theorem next_call_not_sched {pt : SchedPt N} (h : (Frame.sched pt).next s c ch = some (.call g k)) : False := by
  cases pt <;> simp only [Frame.next, scheduler] at h
  case loop => split at h <;> cases h
  case locked => split at h <;> cases h
  all_goals cases h

/-- The caller of the executing call. -/
theorem Inv.calls {b : Frame N} (hI : Inv s) (hstack : s.stack (s.thread c) = f :: b :: rest) : Calls f b := by
  cases hon : (s.cpus c).on with
  | none =>
      rw [thread_of_off hon] at hstack
      have h := (hI.sched hon).1
      rw [hstack] at h
      exact h.1
  | some p =>
      rw [thread_of_on hon] at hstack
      rcases hI.shape p with h | h
      · rw [hstack] at h
        cases h
      · rw [hstack] at h
        exact h.1

theorem Inv.exec (hI : Inv s) (hstack : s.stack (s.thread c) = f :: rest) (hnext : f.next s c ch = some m)
    (h : m.exec s c f rest = some t) : Inv t := by
  have hfit := next_fits hnext (fun p hp hf => hI.pstate hstack hp hf) fun q hq => hI.child hstack hq
  have hlead := next_leads hnext hfit
  have hproc : ∀ k, m.target = some k → ∀ pt pt', f = .sched pt → k = .sched pt' → pt.proc = pt'.proc := by
    rintro k hk pt pt' rfl rfl
    exact next_target_proc hnext hk
  cases m with
  | acquire lk k =>
      obtain ⟨hperm, hp, hs⟩ := hfit
      simp only [Micro.exec] at h
      split at h
      · rename_i hfree
        cases h
        exact hI.acquire hstack hfree (.step hs hp hlead (hproc k rfl)) hperm
      · cases h
  | release lk k =>
      obtain ⟨hperm, hp, hs⟩ := hfit
      simp only [Micro.exec] at h
      split at h
      · cases h
        exact hI.release hstack (.step hs hp hlead (hproc k rfl)) hperm
      · cases h
  | goto k =>
      obtain ⟨hperm, hp, hs⟩ := hfit
      cases h
      exact hI.goto hstack (.step hs hp hlead (hproc k rfl)) (hperm.append_right _) rfl rfl rfl rfl
  | nextpid k =>
      obtain ⟨hperm, hp, hs⟩ := hfit
      cases h
      exact hI.goto hstack (.step hs hp hlead (hproc k rfl)) (hperm.append_right _) rfl rfl rfl rfl
  | assign q r ev k =>
      cases h
      exact hI.assign hstack (next_assign hnext) hfit
  | spawn q k =>
      obtain ⟨pid, rfl, rfl⟩ := hfit
      cases h
      obtain ⟨p, hth, -, hused⟩ := hI.owned_top hstack (q := q) rfl
      have hI' := hI.spawn (q := q) (by rw [hused]; exact id)
      have hstack' : (s.spawn q).stack ((s.spawn q).thread c) = .fork (.alloc q pid) :: rest := by
        rw [← hstack]
        refine spawn_stack_of_ne fun heq => ?_
        exact hI.off_of_not_started (q := q) (by rw [hused]; exact id) c (on_of_thread heq)
      refine hI'.goto hstack' (.step (k := .fork (.uvmcopy q pid)) (.fork _ _) rfl ⟨fun _ => trivial, fun _ h => h, fun q' hq' => ?_⟩ ?_) .rfl
        rfl rfl rfl rfl
      · cases hq'
        exact .inr spawn_fresh
      · intro pt pt' h
        cases h
  | setProc p k =>
      cases h
      exact hI.setProc hstack hfit
  | call g k =>
      obtain ⟨hperm, hf, hg, hk, hs, hc⟩ := hfit
      cases h
      have hns : ¬f.isSched := fun hsched => by
        cases f with
        | sched pt => exact next_call_not_sched hnext
        | _ => exact hsched
      have hadv : Advance s c (f :: rest) (g :: k :: rest) := by
        refine .trans (.step hs (hk.trans hf.symm) hlead.1 fun pt _ h => ?_)
          (.push hc (hg.trans hk.symm) hlead.2 hc.not_isSched fun hon hos => ?_)
        · subst h
          exact absurd trivial hns
        · exact next_call_onSched hnext (hs.symm.onSched hos) (hI.proc_none hstack hon hns)
      refine hI.goto hstack hadv ?_ rfl rfl rfl rfl
      rw [claimsOf_cons, claimsOf_cons, ← List.append_assoc]
      exact hperm.append_right _
  | ret ev =>
      obtain ⟨hf, hret⟩ := hfit
      cases rest with
      | nil => cases h
      | cons b rest =>
          cases h
          have hc : Calls f b := hI.calls hstack
          obtain ⟨hb, hperm, hs⟩ := hret b hc
          have hadv : Advance s c (f :: b :: rest) (f.regain b :: rest) := by
            refine .trans (.pop (hc.pstate.trans hf.symm))
              (.step hs (hb.trans hc.pstate.symm) ?_ fun pt pt' hpt hpt' => ?_)
            · rcases regain_plain f b with heq | hplain
              · rw [heq]
                exact .refl b
              · exact hplain.leads
            · subst hpt
              cases hc with
              | intrLoop held i =>
                  cases hpt'
                  rfl
              | intr held h => exact absurd trivial h
          refine hI.goto hstack hadv ?_ rfl rfl rfl rfl
          rw [claimsOf_cons, claimsOf_cons, ← List.append_assoc]
          exact hperm.append_right _
  | swtch k =>
      simp only [Micro.exec] at h
      split at h
      · cases h
      · rename_i p hp
        split at h
        · rename_i hcheck
          cases h
          exact hI.swtch hstack hfit hp hcheck.1 hcheck.2.1
        · cases h
  | resume q k =>
      obtain ⟨rfl, rfl⟩ := hfit
      cases h
      exact hI.resume hstack

/-- An interrupt arrives where no lock is held. -/
theorem Inv.interrupt (hI : Inv s) (hstack : s.stack (s.thread c) = f :: rest) (hnoff : (s.cpus c).noff = 0) :
    Inv (s.goto c (.intr [] :: f :: rest)) := by
  have hclaims : s.claims c = [] := List.length_eq_zero_iff.mp (by rw [← hI.noff, hnoff])
  have hholds : f.holds (s.cpus c).proc = [] := (List.append_eq_nil_iff.mp (claims_eq hstack ▸ hclaims)).1
  have hholds' : ¬f.isSched → ∀ myproc, f.holds myproc = [] := by
    intro hf myproc
    cases hon : (s.cpus c).on with
    | none =>
        rw [thread_of_off hon] at hstack
        have hos := (hI.sched hon).2.1 f (by rw [hstack]; exact List.mem_cons_self)
        cases f <;> first | exact hholds | exact hos.elim
    | some p =>
        rw [(hI.on hon).1] at hholds
        exact Frame.holds_nil hholds myproc
  have hcall : Calls (.intr []) f ∧ f.pstate = .running := by
    by_cases hf : f.isSched
    · cases f with
      | sched pt =>
          cases pt <;> first | exact ⟨.intrLoop _ _, rfl⟩ | cases hholds
      | _ => exact hf.elim
    · have hp : f.pstate = .running := by
        cases hon : (s.cpus c).on with
        | none =>
            rw [thread_of_off hon] at hstack
            have hos := (hI.sched hon).2.1 f (by rw [hstack]; exact List.mem_cons_self)
            cases f <;> first | rfl | exact hos.elim
        | some p =>
            by_contra hp
            have hmem := Frame.mem_holds_of_pstate (p := p) hp
            rw [← (hI.on hon).1, hholds] at hmem
            cases hmem
      exact ⟨.intr _ hf hp (hholds' hf), hp⟩
  exact hI.goto hstack (.push hcall.1 hcall.2.symm ⟨trivial, rfl, rfl⟩ id fun _ _ => trivial) .rfl rfl rfl rfl rfl

/-- **Every step keeps the invariant.** -/
theorem inv_step {a : Fin M × Choice} (hI : Inv s) (h : step s a = some t) : Inv t := by
  unfold step at h
  split at h
  · cases h
  · rename_i f rest hstack
    split at h
    · split at h
      · rename_i hnoff
        cases h
        exact hI.interrupt hstack hnoff
      · cases h
    · obtain ⟨m, hnext, hexec⟩ := Option.bind_eq_some_iff.mp h
      exact hI.exec hstack hnext hexec

theorem boot_inv (init : Fin N) : Inv (boot init : Sys N M) := by
  have hclaims : (boot init : Sys N M).claims = fun _ => [] := rfl
  have hnone : ∀ {p f q}, f ∈ (boot init : Sys N M).stack (.proc p) → f.owns = some q → False := by
    intro p f q hf ho
    have hf : f ∈ if p = init then start else [] := hf
    split at hf
    · simp only [start, List.mem_cons, List.not_mem_nil, or_false] at hf
      rcases hf with rfl | rfl <;> cases ho
    · cases hf
  constructor
  case locks =>
    intro c x
    rw [hclaims]
    simp [boot]
  case noff => exact fun _ => rfl
  case sched =>
    intro c _
    refine ⟨trivial, fun f hf => ?_, fun pt hpt => ?_⟩
    · rw [List.mem_singleton.mp hf]
      trivial
    · cases List.mem_singleton.mp hpt
      rfl
  case shape =>
    intro p
    by_cases hp : p = init
    · right
      show Shape _ (if p = init then start else [])
      rw [if_pos hp]
      exact ⟨.forkret _ _, trivial⟩
    · exact .inl (if_neg hp)
  case on => exact fun h => by cases h
  case state => exact fun h => by cases h
  case inj => exact fun h => by cases h
  case saved =>
    intro p _ hst
    by_cases hp : p = init
    · subst hp
      have hstack : (boot p : Sys N M).stack (.proc p) = start := if_pos rfl
      have hcon : ((boot p : Sys N M).procs p).context = start := if_pos rfl
      have hrun : ((boot p : Sys N M).procs p).state = .runnable := if_pos rfl
      rw [hstack]
      exact ⟨hcon, .forkret false, [.code []], rfl, .forkret (.inl hrun), rfl⟩
    · have hun : ((boot init : Sys N M).procs p).state = .unused := if_neg hp
      rw [hun] at hst
      exact hst.elim
  case facts =>
    intro c f hf
    rw [List.mem_singleton.mp hf]
    trivial
  case owned =>
    intro p f q hf ho
    exact (hnone hf ho).elim
  case ready =>
    intro p f q hf hr
    exact (hnone hf (Frame.owns_of_ready hr)).elim
  case owner =>
    intro p p' f f' q hf _ ho
    exact (hnone hf ho).elim

/-- The states that a run from the boot can reach. -/
def Reachable (s : Sys N M) : Prop := ∃ init acts, Trace.run step (boot init) acts = some s

theorem Reachable.inv (h : Reachable s) : Inv s := by
  obtain ⟨init, acts, hrun⟩ := h
  exact Trace.run_invariant (boot_inv init) (fun _ _ _ => inv_step) hrun

/-! ## Contexts -/

/-- The assignments that free a trapframe and a page table are made while no CPU executes the process. -/
theorem Inv.off_of_free (hI : Inv s) (hstack : s.stack (s.thread c) = f :: rest) (hw : Write s c f q r ev k)
    (hmem : (s.procs q).mem = true) (hfree : r.mem = false) : s.Off q := by
  have hf : f ∈ s.stack (s.thread c) := by rw [hstack]; exact List.mem_cons_self
  -- a zombie whose lock `wait` holds has left its CPU
  have hzombie : ¬f.onSched → .proc q ∈ f.holds (s.cpus c).proc → f.pstate = .running →
      (s.procs q).state = .zombie → s.Off q := by
    intro hns hown hp hz
    refine hI.off (fun c' hon hl => ?_) (by rw [hz]; simp)
    rw [hI.holds hf hown] at hl
    cases hl
    obtain ⟨f', rest', heq, hst⟩ := hI.state hon
    rw [thread_of_on hon, heq] at hstack
    cases hstack
    rw [hz, hp] at hst
    cases hst
  cases hw with
  | freeMem => exact hzombie id List.mem_cons_self rfl (hI.facts hf)
  | reap hp => exact hzombie id List.mem_cons_self rfl (hI.facts hf)
  | unfork =>
      obtain ⟨-, -, -, hused⟩ := hI.owned_top hstack (q := q) rfl
      exact hI.off_of_not_started (by rw [hused]; exact id)
  | wake =>
      rw [Proc.wake] at hfree
      split at hfree <;> rw [hmem] at hfree <;> cases hfree
  | _ => rw [hmem] at hfree; cases hfree

theorem exec_free (h : m.exec s c f rest = some t) (hmem : (s.procs q).mem = true)
    (hfree : (t.procs q).mem = false) : ∃ r ev k, m = .assign q r ev k ∧ r.mem = false := by
  have hkeep : ∀ (p : Fin N) (r : Proc N), (r.mem = true ∨ r.mem = (s.procs p).mem) →
      (Function.update s.procs p r q).mem = true := by
    intro p r hr
    by_cases hq : q = p
    · subst hq
      rw [Function.update_self]
      exact hr.elim id fun h => h.trans hmem
    · rw [Function.update_of_ne hq]
      exact hmem
  have habsurd : (t.procs q).mem = true → ∃ r ev k, m = .assign q r ev k ∧ r.mem = false := by
    intro h'
    rw [hfree] at h'
    cases h'
  cases m with
  | assign p r ev k =>
      cases h
      have hfree : ((s.assign c p r ev (k :: rest)).procs q).mem = false := hfree
      by_cases hq : q = p
      · subst hq
        rw [assign_procs] at hfree
        exact ⟨r, ev, k, rfl, hfree⟩
      · rw [assign_procs_of_ne hq, hmem] at hfree
        cases hfree
  | acquire lk k =>
      simp only [Micro.exec] at h
      split at h <;> cases h
      exact habsurd hmem
  | release lk k =>
      simp only [Micro.exec] at h
      split at h <;> cases h
      exact habsurd hmem
  | goto k => cases h; exact habsurd hmem
  | nextpid k => cases h; exact habsurd hmem
  | setProc p k => cases h; exact habsurd hmem
  | call g k => cases h; exact habsurd hmem
  | resume p k => cases h; exact habsurd hmem
  | spawn p k => cases h; exact habsurd (hkeep p _ (.inl rfl))
  | ret ev =>
      cases rest with
      | nil => cases h
      | cons b rest => cases h; exact habsurd hmem
  | swtch k =>
      simp only [Micro.exec] at h
      split at h
      · cases h
      · split at h <;> cases h
        exact habsurd (hkeep _ _ (.inr rfl))

/-- **One CPU per process context.** In every reachable state a process executes on at most one CPU; a process
    that is ready, asleep or dead and whose lock is free is on no CPU and its context is complete; and a step
    that frees the memory of a process finds it on no CPU. -/
theorem one_cpu_per_context (h : Reachable s) :
    (∀ c c' p, (s.cpus c).on = some p → (s.cpus c').on = some p → c = c') ∧
    (∀ p, s.lock (.proc p) = none → (s.procs p).state ∈ [.runnable, .sleeping, .zombie] →
      s.Off p ∧ s.stack (.proc p) ≠ [] ∧ (s.procs p).context = s.stack (.proc p)) ∧
    ∀ a t q, step s a = some t → (s.procs q).mem = true → (t.procs q).mem = false → s.Off q := by
  have hI := h.inv
  refine ⟨fun c c' p => hI.inj, fun p hl hst => ?_, fun a t q hstep hmem hfree => ?_⟩
  · have hoff : s.Off p := by
      refine hI.off (fun c' _ hc => ?_) fun hrun => ?_
      · rw [hl] at hc
        cases hc
      · rw [hrun] at hst
        simp at hst
    have hstarted : (s.procs p).state.started := by
      simp only [List.mem_cons, List.not_mem_nil, or_false] at hst
      rcases hst with h | h | h <;> rw [h] <;> trivial
    obtain ⟨hcontext, f, rest, heq, -⟩ := hI.saved hoff hstarted
    exact ⟨hoff, by rw [heq]; simp, hcontext⟩
  · unfold step at hstep
    split at hstep
    · cases hstep
    · rename_i f rest hstack
      split at hstep
      · split at hstep <;> cases hstep
        have hfree : (s.procs q).mem = false := hfree
        rw [hmem] at hfree
        cases hfree
      · obtain ⟨m, hnext, hexec⟩ := Option.bind_eq_some_iff.mp hstep
        obtain ⟨r, ev, k, rfl, hr⟩ := exec_free hexec hmem hfree
        exact hI.off_of_free hstack (next_assign hnext) hmem hr

/-- Labels with the number of times they are taken. -/
def repeated (l : List (Nat × Fin M × Choice)) : List (Fin M × Choice) := l.flatMap fun x => List.replicate x.1 x.2

/-- The first process forks a child on CPU `c₀` and waits for it; CPU `c₁` runs the child, which exits. -/
def forkExit (c₀ c₁ : Fin M) : List (Fin M × Choice) :=
  repeated [(6, c₀, .go), (1, c₀, .fork), (9, c₀, .go), (2, c₀, .ok), (8, c₀, .go), (9, c₁, .go),
    (1, c₀, .wait true), (13, c₀, .go), (1, c₁, .exit 7), (17, c₁, .go)]

theorem one_cpu_per_context_zombie : ∃ s : Sys 2 2, Reachable s ∧ s.lock (.proc 1) = none ∧
    (s.procs 1).state = .zombie ∧ s.Off 1 ∧ (s.procs 1).context = s.stack (.proc 1) := by
  have hrun : (Trace.run step (boot 0 : Sys 2 2) (forkExit 0 1)).any
      (fun s => decide (s.lock (.proc 1) = none ∧ (s.procs 1).state = .zombie)) = true := by decide +kernel
  obtain ⟨s, hs, hz⟩ := (Option.any_eq_true _ _).mp hrun
  obtain ⟨hl, hst⟩ := of_decide_eq_true hz
  have hreach : Reachable s := ⟨0, forkExit 0 1, hs⟩
  obtain ⟨hoff, -, hcontext⟩ := (one_cpu_per_context hreach).2.1 1 hl (by rw [hst]; decide)
  exact ⟨s, hreach, hl, hst, hoff, hcontext⟩

end Xv6.Procs
