import Xv6.Proc.Handover

/-!
# `Proc.Step` — what one step does, seen from the processes

`View` says what a step changes: the fields of one process, the calls of the executing thread, one lock. It is
all that the invariants about sleeping, exiting and waiting use; none of them looks at `step` again.
-/

namespace Xv6.Procs

variable {N M : Nat} {s t : Sys N M} {c c' : Fin M} {p q : Fin N} {f k g : Frame N} {rest fs : Stack N}
  {ch : Choice} {m : Micro N} {r : Proc N} {ev : List (Event N)}

/-- The point at which the executing call goes on, if the call stays the innermost one of its thread. -/
def Micro.point : Micro N → Option (Frame N)
  | .acquire _ k | .release _ k | .goto k | .nextpid k | .assign _ _ _ k | .spawn _ k | .setProc _ k
  | .swtch k | .resume _ k => some k
  | .call _ _ | .ret _ => none

/-- What a statement adds to the log. -/
def Micro.events : Micro N → List (Event N)
  | .assign _ _ ev _ | .ret ev => ev
  | _ => []

/-- What becomes of the calls `f :: rest` of the executing thread; `none` is an interrupt. -/
inductive Evolves (f : Frame N) (rest : Stack N) : Option (Micro N) → Stack N → Prop
  | point {m : Micro N} {k : Frame N} (h : m.point = some k) : Evolves f rest (some m) (k :: rest)
  | call {g k : Frame N} : Evolves f rest (some (.call g k)) (g :: k :: rest)
  | ret {ev : List (Event N)} {b : Frame N} {below : Stack N} (h : rest = b :: below) :
      Evolves f rest (some (.ret ev)) (f.regain b :: below)
  | intr : Evolves f rest none (.intr [] :: f :: rest)

/-- Two versions of a process that differ at most in the context and, if it is being forked, in memory. -/
structure Proc.Agrees (r r' : Proc N) : Prop where
  state : r'.state = r.state
  chan : r'.chan = r.chan
  killed : r'.killed = r.killed
  xstate : r'.xstate = r.xstate
  pid : r'.pid = r.pid
  parent : r'.parent = r.parent
  sz : r'.sz = r.sz
  mem : r'.mem = r.mem ∨ r.state = .used

theorem Proc.Agrees.refl (r : Proc N) : r.Agrees r := ⟨rfl, rfl, rfl, rfl, rfl, rfl, rfl, .inl rfl⟩

/-- A step of CPU `c` from `s` to `t`: the statement `m` of the call `f`, or an interrupt. -/
structure View (s : Sys N M) (c : Fin M) (ch : Choice) (f : Frame N) (rest : Stack N) (m : Option (Micro N))
    (t : Sys N M) : Prop where
  stack : s.stack (s.thread c) = f :: rest
  next : ∀ {m'}, m = some m' → f.next s c ch = some m' ∧ m'.Fits (s.cpus c).proc f
  idle : m = none → s.claims c = []
  procs : ∀ {q}, (∀ r ev k, m ≠ some (.assign q r ev k)) → (s.procs q).Agrees (t.procs q)
  assign : ∀ {q r ev k}, m = some (.assign q r ev k) → t.procs q = r
  own : ∀ {p}, (s.cpus c).on = some p → Evolves f rest m (t.stack (.proc p))
  others : ∀ {p}, (s.cpus c).on ≠ some p → t.stack (.proc p) = s.stack (.proc p) ∨
    (∃ k, m = some (.spawn p k)) ∧ t.stack (.proc p) = start
  lock : ∀ {lk}, (∀ k, m ≠ some (.acquire lk k)) → (∀ k, m ≠ some (.release lk k)) → t.lock lk = s.lock lk
  acquire : ∀ {lk k}, m = some (.acquire lk k) → s.lock lk = none ∧ t.lock lk = some c
  release : ∀ {lk k}, m = some (.release lk k) → s.lock lk = some c ∧ t.lock lk = none
  cpu : ∀ {c'}, c' ≠ c → t.cpus c' = s.cpus c' ∧ t.stack (t.thread c') = s.stack (s.thread c')
  self : ((t.cpus c).on = (s.cpus c).on ∧ (t.cpus c).proc = (s.cpus c).proc ∧
      Evolves f rest m (t.stack (t.thread c))) ∨
    ((∃ o k, m = some (.setProc o k)) ∨ ∃ k, m = some (.swtch k)) ∧ (∃ pt, t.stack (t.thread c) = [.sched pt]) ∨
    (∃ q k, m = some (.resume q k)) ∧ ∃ f' rest', t.stack (t.thread c) = f' :: rest' ∧
      (∃ r, SavedAt r f') ∧ claimsOf (t.cpus c).proc rest' = []
  /-- a process that leaves its CPU holds its own lock only -/
  parked : ∀ {k}, m = some (.swtch k) → claimsOf (s.cpus c).proc rest = []
  init : t.initproc = s.initproc
  log : t.log = s.log ++ m.elim [] Micro.events

/-- A step that leaves the processes and the other stacks alone. -/
theorem View.of_moved {fs : Stack N} {m : Option (Micro N)} (hI : Inv s) (hstack : s.stack (s.thread c) = f :: rest)
    (hm : Moved s t c fs) (hother : ∀ c', c' ≠ c → t.cpus c' = s.cpus c') (hev : Evolves f rest m fs)
    (hnext : ∀ m', m = some m' → f.next s c ch = some m' ∧ m'.Fits (s.cpus c).proc f)
    (hidle : m = none → s.claims c = []) (hassign : ∀ q r ev k, m ≠ some (.assign q r ev k))
    (hlock : ∀ lk, (∀ k, m ≠ some (.acquire lk k)) → (∀ k, m ≠ some (.release lk k)) → t.lock lk = s.lock lk)
    (hacq : ∀ lk k, m = some (.acquire lk k) → s.lock lk = none ∧ t.lock lk = some c)
    (hrel : ∀ lk k, m = some (.release lk k) → s.lock lk = some c ∧ t.lock lk = none)
    (hpark : ∀ k, m ≠ some (.swtch k))
    (hinit : t.initproc = s.initproc) (hlog : t.log = s.log ++ m.elim [] Micro.events) :
    View s c ch f rest m t where
  stack := hstack
  next := hnext _
  idle := hidle
  procs _ := by
    rw [hm.procs]
    exact .refl _
  assign h := absurd h (hassign _ _ _ _)
  own hon := by
    rw [hm.stack, thread_of_on hon, Function.update_self]
    exact hev
  others hon := by
    rw [hm.stack, Function.update_of_ne fun h => hon (on_of_thread h.symm)]
    exact .inl rfl
  lock := hlock _
  acquire := hacq _ _
  release := hrel _ _
  cpu hc := by
    refine ⟨hother _ hc, ?_⟩
    rw [hm.thread, hm.stack, Function.update_of_ne fun h => hc (hI.thread_inj h)]
  self := by
    refine .inl ⟨hm.on c, hm.proc c, ?_⟩
    rw [hm.thread, hm.stack, Function.update_self]
    exact hev
  parked h := absurd h (hpark _)
  init := hinit
  log := hlog

theorem moved_goto : Moved s (s.goto c fs) c fs := ⟨rfl, rfl, fun _ => rfl, fun _ => rfl, fun _ => rfl⟩

theorem Inv.view_assign (hI : Inv s) (hstack : s.stack (s.thread c) = f :: rest)
    (hnext : f.next s c ch = some (.assign q r ev k))
    (hfit : (Micro.assign q r ev k).Fits (s.cpus c).proc f) :
    View s c ch f rest (some (.assign q r ev k)) (s.assign c q r ev (k :: rest)) where
  stack := hstack
  next h := by cases h; exact ⟨hnext, hfit⟩
  idle h := by cases h
  procs h := by
    rw [assign_procs_of_ne fun heq => h r ev k (by rw [heq])]
    exact .refl _
  assign h := by
    cases h
    exact assign_procs
  own hon := by
    rw [assign_stack, thread_of_on hon, Function.update_self]
    exact .point rfl
  others hon := by
    rw [assign_stack, Function.update_of_ne fun h => hon (on_of_thread h.symm)]
    exact .inl rfl
  lock _ _ := rfl
  acquire h := by cases h
  release h := by cases h
  cpu hc := by
    refine ⟨rfl, ?_⟩
    rw [assign_thread, assign_stack, Function.update_of_ne fun h => hc (hI.thread_inj h)]
  self := by
    refine .inl ⟨rfl, rfl, ?_⟩
    rw [assign_thread, assign_stack, Function.update_self]
    exact .point rfl
  parked h := by cases h
  init := rfl
  log := rfl

theorem Inv.view_spawn {pid : Int} (hI : Inv s) (hstack : s.stack (s.thread c) = .fork (.alloc q pid) :: rest)
    (hnext : (Frame.fork (.alloc q pid)).next s c ch = some (.spawn q (.fork (.uvmcopy q pid)))) :
    View s c ch (.fork (.alloc q pid)) rest (some (.spawn q (.fork (.uvmcopy q pid))))
      ((s.spawn q).goto c (.fork (.uvmcopy q pid) :: rest)) := by
  obtain ⟨-, -, -, hused⟩ := hI.owned_top hstack (q := q) rfl
  have hoff : s.Off q := hI.off_of_not_started (by rw [hused]; exact id)
  have hst : ∀ θ, θ ≠ .proc q → ((s.spawn q).goto c (.fork (.uvmcopy q pid) :: rest)).stack θ =
      Function.update s.stack (s.thread c) (.fork (.uvmcopy q pid) :: rest) θ := by
    intro θ hθ
    show Function.update (s.spawn q).stack (s.thread c) _ θ = _
    by_cases h : θ = s.thread c
    · rw [h, Function.update_self, Function.update_self]
    · rw [Function.update_of_ne h, Function.update_of_ne h, spawn_stack_of_ne hθ]
  have hth : ∀ c', s.thread c' ≠ .proc q := fun c' h => hoff c' (on_of_thread h)
  constructor
  case stack => exact hstack
  case next =>
    intro m' h
    cases h
    exact ⟨hnext, pid, rfl, rfl⟩
  case idle => exact fun h => by cases h
  case procs =>
    intro q' _
    show (s.procs q').Agrees (Function.update s.procs q _ q')
    by_cases hq : q' = q
    · rw [hq, Function.update_self]
      exact ⟨rfl, rfl, rfl, rfl, rfl, rfl, rfl, .inr hused⟩
    · rw [Function.update_of_ne hq]
      exact .refl _
  case assign => exact fun h => by cases h
  case own =>
    intro p hon
    rw [hst _ (by rw [← thread_of_on hon]; exact hth c), thread_of_on hon, Function.update_self]
    exact .point rfl
  case others =>
    intro p hon
    by_cases hp : p = q
    · subst hp
      refine .inr ⟨⟨_, rfl⟩, ?_⟩
      show Function.update (s.spawn p).stack (s.thread c) (.fork (.uvmcopy p pid) :: rest) (.proc p) = _
      rw [Function.update_of_ne (Ne.symm (hth c))]
      exact spawn_fresh.2
    · rw [hst _ fun h => hp (Thread.proc.inj h), Function.update_of_ne fun h => hon (on_of_thread h.symm)]
      exact .inl rfl
  case lock => exact fun _ _ => rfl
  case acquire => exact fun h => by cases h
  case release => exact fun h => by cases h
  case cpu =>
    intro c' hc
    refine ⟨rfl, ?_⟩
    show Sys.stack _ (s.thread c') = _
    rw [hst _ (hth c'), Function.update_of_ne fun h => hc (hI.thread_inj h)]
  case self =>
    refine .inl ⟨rfl, rfl, ?_⟩
    show Evolves _ _ _ (Sys.stack _ (s.thread c))
    rw [hst _ (hth c), Function.update_self]
    exact .point rfl
  case parked => exact fun h => by cases h
  case init => rfl
  case log => exact (List.append_nil _).symm

theorem Inv.view_setProc {o : Option (Fin N)} (hI : Inv s) (hstack : s.stack (s.thread c) = f :: rest)
    (hnext : f.next s c ch = some (.setProc o k)) (hset : SetsProc f o k) :
    View s c ch f rest (some (.setProc o k)) ((s.setCpu c { s.cpus c with proc := o }).goto c (k :: rest)) := by
  obtain ⟨pt, pt', hf, hk⟩ : ∃ pt pt', f = .sched pt ∧ k = .sched pt' := by
    cases hset with
    | set q => exact ⟨_, _, rfl, rfl⟩
    | clear q => exact ⟨_, _, rfl, rfl⟩
  subst hf hk
  obtain ⟨hon, rfl, -⟩ := hI.sched_top hstack
  have hth : (s.setCpu c { s.cpus c with proc := o }).thread c = .sched c :=
    thread_of_off (by rw [setCpu_self]; exact hon)
  have hst : ((s.setCpu c { s.cpus c with proc := o }).goto c [.sched pt']).stack =
      Function.update s.stack (.sched c) [.sched pt'] := by
    show Function.update s.stack (Sys.thread _ c) _ = _
    rw [hth]
  constructor
  case stack => exact hstack
  case next =>
    intro m' h
    cases h
    exact ⟨hnext, hset⟩
  case idle => exact fun h => by cases h
  case procs => exact fun _ => .refl _
  case assign => exact fun h => by cases h
  case own =>
    intro p h
    rw [hon] at h
    cases h
  case others =>
    intro p _
    rw [hst, Function.update_of_ne (fun h => by cases h)]
    exact .inl rfl
  case lock => exact fun _ _ => rfl
  case acquire => exact fun h => by cases h
  case release => exact fun h => by cases h
  case cpu =>
    intro c' hc
    have hcpu : ((s.setCpu c { s.cpus c with proc := o }).goto c [.sched pt']).cpus c' = s.cpus c' := setCpu_of_ne hc
    refine ⟨hcpu, ?_⟩
    have hth' : ((s.setCpu c { s.cpus c with proc := o }).goto c [.sched pt']).thread c' = s.thread c' := by
      unfold Sys.thread
      rw [hcpu]
    rw [hth', hst, Function.update_of_ne fun h => hc (hI.thread_inj (h.trans (thread_of_off hon).symm))]
  case self =>
    refine .inr (.inl ⟨.inl ⟨_, _, rfl⟩, pt', ?_⟩)
    show Sys.stack _ (Sys.thread (s.setCpu c { s.cpus c with proc := o }) c) = _
    rw [hth, hst, Function.update_self]
  case parked => exact fun h => by cases h
  case init => rfl
  case log => exact (List.append_nil _).symm

theorem Inv.view_resume (hI : Inv s) (hstack : s.stack (s.thread c) = .sched (.swtch q) :: rest)
    (hnext : (Frame.sched (.swtch q)).next s c ch = some (.resume q (.sched (.back q)))) :
    View s c ch (.sched (.swtch q)) rest (some (.resume q (.sched (.back q))))
      (((s.goto c (.sched (.back q) :: rest)).setCpu c
        { s.cpus c with context := .sched (.back q) :: rest, on := some q }).setStack (.proc q)
          (s.procs q).context) := by
  have hmem : .sched (.swtch q) ∈ s.stack (s.thread c) := by rw [hstack]; exact List.mem_cons_self
  obtain ⟨hon, rfl, hproc⟩ := hI.sched_top hstack
  obtain ⟨hrun, hoff⟩ : (s.procs q).state = .running ∧ s.Off q := hI.facts hmem
  obtain ⟨hcon, f, rest, hq, hat, hrest⟩ := hI.saved hoff (by rw [hrun]; trivial)
  generalize ht : ((s.goto c [.sched (.back q)]).setCpu c
    { s.cpus c with context := [.sched (.back q)], on := some q }).setStack (.proc q) (s.procs q).context = t
  have hself : t.cpus c = { s.cpus c with context := [.sched (.back q)], on := some q } := by
    rw [← ht]
    exact setCpu_self
  have hother : ∀ {c'}, c' ≠ c → t.cpus c' = s.cpus c' := fun h => by
    rw [← ht]
    exact setCpu_of_ne h
  -- the stack of `q` is what its context says
  have hst : ∀ θ, θ ≠ .sched c → t.stack θ = s.stack θ := by
    intro θ hθ
    rw [← ht]
    show Function.update (Function.update s.stack (s.thread c) _) (.proc q) _ θ = _
    by_cases hp : θ = .proc q
    · rw [hp, Function.update_self, hcon]
    · rw [Function.update_of_ne hp, thread_of_off hon, Function.update_of_ne hθ]
  constructor
  case stack => exact hstack
  case next =>
    intro m' h
    cases h
    exact ⟨hnext, rfl, rfl⟩
  case idle => exact fun h => by cases h
  case procs =>
    intro q' _
    rw [← ht]
    exact .refl _
  case assign => exact fun h => by cases h
  case own =>
    intro p h
    rw [hon] at h
    cases h
  case others => exact fun _ => .inl (hst _ fun h => by cases h)
  case lock =>
    rw [← ht]
    exact fun _ _ => rfl
  case acquire => exact fun h => by cases h
  case release => exact fun h => by cases h
  case cpu =>
    intro c' hc
    have hth : t.thread c' = s.thread c' := by
      unfold Sys.thread
      rw [hother hc]
    refine ⟨hother hc, ?_⟩
    rw [hth, hst]
    rw [← thread_of_off hon]
    exact fun h => hc (hI.thread_inj h)
  case self =>
    refine .inr (.inr ⟨⟨_, _, rfl⟩, f, rest, ?_, ?_, ?_⟩)
    · rw [thread_of_on (by rw [hself]), hst _ fun h => by cases h]
      exact hq
    · exact ⟨_, hat⟩
    · rw [hself]
      show claimsOf (s.cpus c).proc rest = []
      rw [hproc]
      exact hrest
  case parked => exact fun h => by cases h
  case init =>
    rw [← ht]
    rfl
  case log =>
    rw [← ht]
    exact (List.append_nil _).symm

theorem Inv.view_swtch (hI : Inv s) (hstack : s.stack (s.thread c) = f :: rest)
    (hnext : f.next s c ch = some (.swtch k)) (hpark : Parks f k) (hp : (s.cpus c).proc = some p)
    (hl : s.lock (.proc p) = some c) (hnoff : (s.cpus c).noff = 1) :
    View s c ch f rest (some (.swtch k))
      ((((s.goto c (k :: rest)).setProc p { s.procs p with context := k :: rest }).setCpu c
        { s.cpus c with on := none }).setStack (.sched c) (s.cpus c).context) := by
  have hmem : f ∈ s.stack (s.thread c) := by rw [hstack]; exact List.mem_cons_self
  obtain ⟨p', hon, hp'⟩ := hI.proc_of_not_onSched hmem (by cases hpark <;> exact id)
  rw [hp] at hp'
  cases hp'
  have hth := thread_of_on hon
  generalize ht : (((s.goto c (k :: rest)).setProc p { s.procs p with context := k :: rest }).setCpu c
    { s.cpus c with on := none }).setStack (.sched c) (s.cpus c).context = t
  have hself : t.cpus c = { s.cpus c with on := none } := by
    rw [← ht]
    exact setCpu_self
  have hother : ∀ {c'}, c' ≠ c → t.cpus c' = s.cpus c' := fun h => by
    rw [← ht]
    exact setCpu_of_ne h
  have hst : ∀ θ, θ ≠ .sched c → t.stack θ = Function.update s.stack (.proc p) (k :: rest) θ := by
    intro θ hθ
    rw [← ht]
    show Function.update (Function.update s.stack (s.thread c) (k :: rest)) (.sched c) (s.cpus c).context θ = _
    rw [Function.update_of_ne hθ, hth]
  constructor
  case stack => exact hstack
  case next =>
    intro m' h
    cases h
    exact ⟨hnext, hpark⟩
  case idle => exact fun h => by cases h
  case procs =>
    intro q _
    rw [← ht]
    show (s.procs q).Agrees (Function.update s.procs p _ q)
    by_cases hq : q = p
    · rw [hq, Function.update_self]
      exact ⟨rfl, rfl, rfl, rfl, rfl, rfl, rfl, .inl rfl⟩
    · rw [Function.update_of_ne hq]
      exact .refl _
  case assign => exact fun h => by cases h
  case own =>
    intro p' h
    rw [hon] at h
    cases h
    rw [hst _ (fun h => by cases h), Function.update_self]
    exact .point rfl
  case others =>
    intro p' h
    rw [hst _ (fun h => by cases h), Function.update_of_ne fun heq => h (by rw [hon, Thread.proc.inj heq])]
    exact .inl rfl
  case lock =>
    rw [← ht]
    exact fun _ _ => rfl
  case acquire => exact fun h => by cases h
  case release => exact fun h => by cases h
  case cpu =>
    intro c' hc
    have hth' : t.thread c' = s.thread c' := by
      unfold Sys.thread
      rw [hother hc]
    refine ⟨hother hc, ?_⟩
    rw [hth', hst, Function.update_of_ne]
    · rw [← hth]
      exact fun h => hc (hI.thread_inj h)
    · intro h
      have hon' : (s.cpus c').on = none ∨ ∃ q, (s.cpus c').on = some q := by
        cases (s.cpus c').on with
        | none => exact .inl rfl
        | some q => exact .inr ⟨q, rfl⟩
      rcases hon' with hon' | ⟨q, hon'⟩
      · rw [thread_of_off hon'] at h
        exact hc (Thread.sched.inj h)
      · rw [thread_of_on hon'] at h
        cases h
  case self =>
    refine .inr (.inl ⟨.inr ⟨_, rfl⟩, .back p, ?_⟩)
    rw [thread_of_off (by rw [hself]), ← ht]
    show Function.update (Function.update s.stack (s.thread c) (k :: rest)) (.sched c) _ (.sched c) = _
    rw [Function.update_self, (hI.on hon).2]
  case parked =>
    intro _ _
    have h := claims_eq hstack
    rw [hI.locks.eq_singleton (by rw [← hI.noff, hnoff]) hl, hp, hpark.holds] at h
    rw [hp]
    exact (List.cons.inj h).2.symm
  case init =>
    rw [← ht]
    rfl
  case log =>
    rw [← ht]
    exact (List.append_nil _).symm

theorem Inv.view_exec (hI : Inv s) (hstack : s.stack (s.thread c) = f :: rest) (hnext : f.next s c ch = some m)
    (h : m.exec s c f rest = some t) : View s c ch f rest (some m) t := by
  have hfit := next_fits hnext (fun p hp hf => hI.pstate hstack hp hf) fun q hq => hI.child hstack hq
  have hboth : ∀ m', some m = some m' → f.next s c ch = some m' ∧ m'.Fits (s.cpus c).proc f := by
    intro m' h
    cases h
    exact ⟨hnext, hfit⟩
  cases m with
  | acquire lk k =>
      simp only [Micro.exec] at h
      split at h
      · rename_i hfree
        cases h
        refine .of_moved hI hstack (moved_noff _ _) (fun c' hc => setCpu_of_ne hc) (.point rfl) hboth
          (fun h => by cases h) (fun _ _ _ _ h => by cases h) (fun lk' h _ => ?_) (fun lk' k' h => ?_)
          (fun _ _ h => by cases h) (fun _ h => by cases h) rfl (List.append_nil _).symm
        · exact Function.update_of_ne (fun hlk => h k (by rw [hlk])) _ _
        · cases h
          exact ⟨hfree, Function.update_self _ _ _⟩
      · cases h
  | release lk k =>
      simp only [Micro.exec] at h
      split at h
      · rename_i hheld
        cases h
        refine .of_moved hI hstack (moved_noff _ _) (fun c' hc => setCpu_of_ne hc) (.point rfl) hboth
          (fun h => by cases h) (fun _ _ _ _ h => by cases h) (fun lk' _ h => ?_) (fun _ _ h => by cases h)
          (fun lk' k' h => ?_) (fun _ h => by cases h) rfl (List.append_nil _).symm
        · exact Function.update_of_ne (fun hlk => h k (by rw [hlk])) _ _
        · cases h
          exact ⟨hheld, Function.update_self _ _ _⟩
      · cases h
  | goto k =>
      cases h
      exact .of_moved hI hstack moved_goto (fun _ _ => rfl) (.point rfl) hboth
        (fun h => by cases h) (fun _ _ _ _ h => by cases h) (fun _ _ _ => rfl) (fun _ _ h => by cases h)
        (fun _ _ h => by cases h) (fun _ h => by cases h) rfl (List.append_nil _).symm
  | nextpid k =>
      cases h
      exact .of_moved hI hstack ⟨rfl, rfl, fun _ => rfl, fun _ => rfl, fun _ => rfl⟩ (fun _ _ => rfl) (.point rfl)
        hboth (fun h => by cases h) (fun _ _ _ _ h => by cases h) (fun _ _ _ => rfl) (fun _ _ h => by cases h)
        (fun _ _ h => by cases h) (fun _ h => by cases h) rfl (List.append_nil _).symm
  | call g k =>
      cases h
      exact .of_moved hI hstack moved_goto (fun _ _ => rfl) .call hboth
        (fun h => by cases h) (fun _ _ _ _ h => by cases h) (fun _ _ _ => rfl) (fun _ _ h => by cases h)
        (fun _ _ h => by cases h) (fun _ h => by cases h) rfl (List.append_nil _).symm
  | ret ev =>
      cases rest with
      | nil => cases h
      | cons b rest =>
          cases h
          exact .of_moved hI hstack ⟨rfl, rfl, fun _ => rfl, fun _ => rfl, fun _ => rfl⟩ (fun _ _ => rfl)
            (.ret rfl) hboth (fun h => by cases h) (fun _ _ _ _ h => by cases h) (fun _ _ _ => rfl)
            (fun _ _ h => by cases h) (fun _ _ h => by cases h) (fun _ h => by cases h) rfl rfl
  | assign q r ev k =>
      cases h
      exact hI.view_assign hstack hnext hfit
  | spawn q k =>
      obtain ⟨pid, rfl, rfl⟩ := hfit
      cases h
      exact hI.view_spawn hstack hnext
  | setProc p k =>
      cases h
      exact hI.view_setProc hstack hnext hfit
  | swtch k =>
      simp only [Micro.exec] at h
      split at h
      · cases h
      · rename_i p hp
        split at h
        · rename_i hcheck
          cases h
          exact hI.view_swtch hstack hnext hfit hp hcheck.1 hcheck.2.1
        · cases h
  | resume q k =>
      obtain ⟨rfl, rfl⟩ := hfit
      cases h
      exact hI.view_resume hstack hnext

/-- **Every step has a view.** -/
theorem Inv.view (hI : Inv s) (h : step s (c, ch) = some t) : ∃ f rest m, View s c ch f rest m t := by
  unfold step at h
  split at h
  · cases h
  · rename_i f rest hstack
    split at h
    · split at h
      · rename_i hnoff
        cases h
        refine ⟨f, rest, none, .of_moved hI hstack moved_goto (fun _ _ => rfl) .intr (fun _ h => by cases h)
          (fun _ => ?_) (fun _ _ _ _ h => by cases h) (fun _ _ _ => rfl) (fun _ _ h => by cases h)
          (fun _ _ h => by cases h) (fun _ h => by cases h) rfl (List.append_nil _).symm⟩
        exact List.length_eq_zero_iff.mp (by rw [← hI.noff, hnoff])
      · cases h
    · obtain ⟨m, hnext, hexec⟩ := Option.bind_eq_some_iff.mp h
      exact ⟨f, rest, some m, hI.view_exec hstack hnext hexec⟩

/-- A process is written by the executing call, or the step leaves it as it is. -/
theorem View.write {m : Option (Micro N)} (v : View s c ch f rest m t) (q : Fin N) :
    (∃ ev k, m = some (.assign q (t.procs q) ev k) ∧ Write s c f q (t.procs q) ev k) ∨
      (s.procs q).Agrees (t.procs q) := by
  by_cases hw : ∃ r ev k, m = some (.assign q r ev k)
  · obtain ⟨r, ev, k, hm⟩ := hw
    obtain rfl := v.assign hm
    exact .inl ⟨ev, k, hm, next_assign (v.next hm).1⟩
  · exact .inr (v.procs fun r ev k hm => hw ⟨r, ev, k, hm⟩)

/-- **Induction over the reachable states.** -/
theorem Reachable.invariant {P : Sys N M → Prop} (hboot : ∀ init, P (boot init))
    (hstep : ∀ {s c ch f rest m t}, Inv s → Inv t → View s c ch f rest m t → P s → P t) (h : Reachable s) : P s := by
  obtain ⟨init, acts, hrun⟩ := h
  refine (Trace.run_invariant (I := fun s : Sys N M => Inv s ∧ P s) ⟨boot_inv init, hboot init⟩
    (fun s a t hs h => ?_) hrun).2
  obtain ⟨f, rest, m, v⟩ := hs.1.view (c := a.1) h
  have hI' := inv_step hs.1 h
  exact ⟨hI', hstep hs.1 hI' v hs.2⟩

/-! ## What the executing call was -/

theorem Micro.Fits.same {myproc : Option (Fin N)} (h : m.Fits myproc f) (hk : m.point = some k) : f.Same k := by
  cases m with
  | acquire lk k' => cases hk; exact h.2.2
  | release lk k' => cases hk; exact h.2.2
  | goto k' => cases hk; exact h.2.2
  | nextpid k' => cases hk; exact h.2.2
  | assign q r ev k' => cases hk; exact h.2.1
  | spawn q k' =>
      cases hk
      obtain ⟨pid, rfl, rfl⟩ := h
      exact .fork _ _
  | setProc p k' => cases hk; cases h <;> exact .sched _ _
  | swtch k' => cases hk; exact Parks.same h
  | resume q k' =>
      cases hk
      obtain ⟨rfl, rfl⟩ := h
      exact .sched _ _
  | call g k' => cases hk
  | ret ev => cases hk

theorem regain_cases (f k : Frame N) :
    f.regain k = k ∨ (∃ held, f.regain k = .code held) ∨ ∃ addr, f.regain k = .wait addr (.scan 0 false) := by
  unfold Frame.regain
  split
  · exact .inr (.inl ⟨_, rfl⟩)
  · exact .inr (.inr ⟨_, rfl⟩)
  · exact .inl rfl

/-- The points at which a function that is called starts. -/
inductive Frame.Starts : Frame N → Prop
  | sleep (chan : Chan N) (lk : Lock N) : Starts (.sleep chan lk .acquire)
  | wakeup (chan : Chan N) : Starts (.wakeup chan (.loop 0))
  | yield : Starts (.yield .acquire)
  | fork : Starts (.fork (.loop 0))
  | exit (status : Int) : Starts (.exit status .acquireWait)
  | wait (addr : Bool) : Starts (.wait addr .acquireWait)
  | kill (pid : Int) : Starts (.kill pid (.loop 0))

theorem next_starts (h : f.next s c ch = some (.call g k)) : g.Starts := by
  unfold Frame.next at h
  split at h
  · cases ch <;> simp only [intr] at h
    case wakeup => cases h; exact .wakeup _
    case yield => split at h <;> [cases h; (split at h <;> cases h; exact .yield)]
    case unlock => split at h <;> cases h
    case ret => split at h <;> cases h
    all_goals cases h
  · simp only [wakeup] at h
    grind
  · simp only [scheduler] at h
    grind
  · cases ch <;> simp only [code] at h
    case sleep => split at h <;> cases h; exact .sleep _ _
    case exit => split at h <;> cases h; exact .exit _
    case unlock => split at h <;> cases h
    case wakeup => cases h; exact .wakeup _
    case yield => cases h; exact .yield
    case fork => cases h; exact .fork
    case wait => cases h; exact .wait _
    case kill => cases h; exact .kill _
    all_goals cases h
  · simp only [forkret] at h
    grind
  · simp only [yield] at h
    grind
  · simp only [sleep] at h
    grind
  · simp only [kill] at h
    grind
  · rename_i status pt p hp
    cases pt <;> simp only [exit] at h
    case reparent => split at h <;> [split at h; skip] <;> cases h
    all_goals cases h
    all_goals exact .wakeup _
  · rename_i addr pt p hp
    cases pt <;> simp only [wait] at h
    case scan => split at h <;> split at h <;> cases h; exact .sleep _ _
    all_goals grind
  · rename_i pt p hp
    cases pt <;> simp only [fork] at h
    case alloc => cases ch <;> cases h
    case uvmcopy => cases ch <;> cases h
    all_goals grind
  · cases h

/-- The functions that call nothing and do not leave their CPU. -/
def Frame.isLeaf : Frame N → Prop
  | .kill _ _ | .fork _ => True
  | _ => False

/-- A leaf function that holds a lock is there because it has gone on from an earlier point. -/
theorem View.leaf {m : Option (Micro N)} (hI : Inv s) (v : View s c ch f rest m t)
    (hstack : t.stack (t.thread c) = k :: fs) (hleaf : k.isLeaf) (hheld : ∀ myproc, k.holds myproc ≠ []) :
    ∃ m', m = some m' ∧ m'.point = some k ∧ fs = rest ∧ f.Same k := by
  rcases v.self with ⟨-, -, hev⟩ | ⟨-, pt, hsched⟩ | ⟨-, f', rest', hst, ⟨r, hat⟩, -⟩
  · generalize hfs : t.stack (t.thread c) = fs' at hev
    rw [hstack] at hfs
    cases hev with
    | point hk =>
        cases hfs
        exact ⟨_, rfl, hk, rfl, (v.next rfl).2.same hk⟩
    | call =>
        cases hfs
        cases next_starts (v.next rfl).1 with
        | fork => exact absurd rfl (hheld none)
        | kill pid => exact absurd rfl (hheld none)
        | _ => exact hleaf.elim
    | ret hrest =>
        rename_i b below
        subst hrest
        obtain ⟨hb, -⟩ := List.cons.inj hfs
        rcases regain_cases f b with h | ⟨_, h⟩ | ⟨_, h⟩ <;> rw [h] at hb <;> subst hb
        · -- only an interrupt handler returns to a leaf, and it came while no lock was held
          cases hI.calls v.stack with
          | intr held _ _ hnil => exact absurd (hnil none) (hheld none)
          | _ => exact hleaf.elim
        · exact hleaf.elim
        · exact hleaf.elim
    | intr =>
        cases hfs
        exact hleaf.elim
  · rw [hstack] at hsched
    cases hsched
    exact hleaf.elim
  · rw [hstack] at hst
    cases hst
    cases hat <;> exact hleaf.elim

end Xv6.Procs
