import Xv6.Proc.Slots

/-!
# `Proc.Pids` — pids and the counter they come from

`allocpid` hands out the values of a 32-bit counter and never looks at the pids in use. Until the counter
wraps, all pids that it has handed out are different and positive: the pids of the processes and those that a
call of `fork` has got and not yet stored (`Tickets`). **`pids_identify_processes`** says that this is exactly how
long pids identify processes.
-/

namespace Xv6.Procs

variable {N M : Nat} {s t : Sys N M} {c c' : Fin M} {p q : Fin N} {f k : Frame N} {rest : Stack N}
  {ch : Choice} {m : Option (Micro N)} {r : Proc N} {ev : List (Event N)} {n : Nat} {i : Int}

/-- The processes that are not UNUSED have different positive pids. -/
def Sys.Identified (s : Sys N M) : Prop :=
  (∀ p, (s.procs p).state ≠ .unused → 0 < (s.procs p).pid) ∧
    ∀ p q, (s.procs p).state ≠ .unused → (s.procs q).state ≠ .unused → (s.procs p).pid = (s.procs q).pid → p = q

/-! ## Calls of `allocpid` -/

/-- The pid that a `fork` has got from `allocpid` and not yet stored. -/
def Frame.ticket : Frame N → Option Int
  | .fork (.pidRelease _ pid) | .fork (.used _ pid) => some pid
  | _ => none

/-- The CPU is about to execute the body of `allocpid`. -/
def Sys.allocates (s : Sys N M) (c : Fin M) : Bool :=
  match s.stack (s.thread c) with
  | .fork (.pidRead _) :: _ => true
  | _ => false

/-- A step, with the number of calls of `allocpid` so far. -/
def counted (x : Sys N M × Nat) (a : Fin M × Choice) : Option (Sys N M × Nat) :=
  (step x.1 a).map fun t => (t, x.2 + if x.1.allocates a.1 then 1 else 0)

theorem allocates_iff : s.allocates c = true ↔ ∃ q rest, s.stack (s.thread c) = .fork (.pidRead q) :: rest := by
  unfold Sys.allocates
  split
  · rename_i q rest heq
    exact ⟨fun _ => ⟨q, rest, heq⟩, fun _ => rfl⟩
  · rename_i hne
    refine ⟨fun h => (Bool.false_ne_true h).elim, ?_⟩
    rintro ⟨q, rest, heq⟩
    exact absurd heq (hne q rest)

/-! ## Tickets -/

/-- A pid belongs to a process, or to the `fork` on a CPU that has not stored it yet. -/
inductive Owner (N M : Nat)
  | proc (p : Fin N)
  | call (c : Fin M)

def Sys.Owns (s : Sys N M) : Owner N M → Int → Prop
  | .proc p, i => (s.procs p).state ≠ .unused ∧ (s.procs p).pid = i
  | .call c, i => ∃ f rest, s.stack (s.thread c) = f :: rest ∧ f.ticket = some i

/-- `n` pids have been handed out, and each has at most one owner. -/
structure Tickets (n : Nat) (s : Sys N M) : Prop where
  next : s.nextpid = (n + 1 : Int).bmod (2 ^ 32)
  range : ∀ {o i}, s.Owns o i → 0 < i ∧ i ≤ n
  inj : ∀ {o o' i}, s.Owns o i → s.Owns o' i → o = o'

theorem Tickets.identified (h : Tickets n s) : s.Identified := by
  refine ⟨fun p hp => (h.range (o := .proc p) ⟨hp, rfl⟩).1, fun p q hp hq heq => ?_⟩
  have hown : s.Owns (.proc p) _ := ⟨hp, heq⟩
  have hown' : s.Owns (.proc q) _ := ⟨hq, rfl⟩
  cases h.inj hown hown'
  rfl

/-- **A process gets its pid from the ticket of a `fork`** and keeps it. -/
theorem View.pid (hI : Inv s) (v : View s c ch f rest m t) (hst : (t.procs p).state ≠ .unused) :
    (s.procs p).state ≠ .unused ∧ (t.procs p).pid = (s.procs p).pid ∨
      (s.procs p).state = .unused ∧ f = .fork (.used p (t.procs p).pid) := by
  rcases v.write p with ⟨ev, k, -, hw⟩ | hag
  · have hmem : f ∈ s.stack (s.thread c) := by rw [v.stack]; exact List.mem_cons_self
    generalize t.procs p = r at hw hst
    cases hw with
    | used => exact .inr ⟨hI.facts hmem, rfl⟩
    | reap hp => exact absurd rfl hst
    | unfork => exact absurd rfl hst
    | yield hp => exact .inl ⟨hI.running_ne_unused v.stack hp id, rfl⟩
    | sleepState hp => exact .inl ⟨hI.running_ne_unused v.stack hp id, rfl⟩
    | zombie hp => exact .inl ⟨hI.running_ne_unused v.stack hp id, rfl⟩
    | killState h => exact .inl ⟨by rw [h]; simp, rfl⟩
    | pick h => exact .inl ⟨by rw [h]; simp, rfl⟩
    | runnable =>
        obtain ⟨-, -, -, hused⟩ := hI.owned_top v.stack (q := p) rfl
        exact .inl ⟨by rw [hused]; simp, rfl⟩
    | wake =>
        rw [Proc.wake] at hst ⊢
        split at hst
        · rename_i h
          rw [if_pos h]
          exact .inl ⟨by rw [h.1]; simp, rfl⟩
        · rename_i h
          rw [if_neg h]
          exact .inl ⟨hst, rfl⟩
    | _ => exact .inl ⟨hst, rfl⟩
  · exact .inl ⟨by rwa [← hag.state], hag.pid⟩

theorem fork_next {pt : ForkPt N} {m' : Micro N} (h : (Frame.fork pt).next s c ch = some m') :
    ∃ p, fork s p pt ch = some m' := by
  cases hp : (s.cpus c).proc with
  | none => simp [Frame.next, hp] at h
  | some p => exact ⟨p, by simpa [Frame.next, hp] using h⟩

theorem Frame.ticket_fork (h : f.ticket = some i) : ∃ q, f = .fork (.pidRelease q i) ∨ f = .fork (.used q i) := by
  unfold Frame.ticket at h
  split at h
  · cases h
    exact ⟨_, .inl rfl⟩
  · cases h
    exact ⟨_, .inr rfl⟩
  · cases h

/-- **A ticket is new or was there before.** -/
theorem View.ticket {fs : Stack N} (hI : Inv s) (v : View s c ch f rest m t) (hstack : t.stack (t.thread c) = k :: fs)
    (hk : k.ticket = some i) :
    (∃ q, f = .fork (.pidRelease q i)) ∨ i = s.nextpid ∧ s.allocates c = true := by
  obtain ⟨q, rfl | rfl⟩ := Frame.ticket_fork hk
  · obtain ⟨m', rfl, hpt, -, hsame⟩ := v.leaf hI hstack trivial fun _ h => by cases h
    cases hsame with
    | fork pt₀ _ =>
        obtain ⟨p, hm⟩ := fork_next (v.next rfl).1
        cases pt₀ <;> simp only [fork] at hm
        case pidRead q₀ =>
          cases hm
          cases hpt
          exact .inr ⟨rfl, allocates_iff.mpr ⟨_, _, v.stack⟩⟩
        all_goals grind [Micro.point]
  · obtain ⟨m', rfl, hpt, -, hsame⟩ := v.leaf hI hstack trivial fun _ h => by cases h
    cases hsame with
    | fork pt₀ _ =>
        obtain ⟨p, hm⟩ := fork_next (v.next rfl).1
        cases pt₀ <;> simp only [fork] at hm
        case pidRelease q₀ i₀ =>
          cases hm
          cases hpt
          exact .inl ⟨_, rfl⟩
        all_goals grind [Micro.point]

/-- Where the owner of a pid after a step has it from. -/
inductive Obtained (s : Sys N M) (c : Fin M) (f : Frame N) : Owner N M → Int → Prop
  | kept {o : Owner N M} {i : Int} (h : s.Owns o i) : Obtained s c f o i
  | stored {p : Fin N} {i : Int} (h : f = .fork (.used p i)) : Obtained s c f (.proc p) i
  | new (h : s.allocates c = true) : Obtained s c f (.call c) s.nextpid

theorem View.owns {o : Owner N M} (hI : Inv s) (v : View s c ch f rest m t) (h : t.Owns o i) :
    Obtained s c f o i := by
  cases o with
  | proc p =>
      obtain ⟨hp, rfl⟩ := h
      rcases v.pid hI hp with ⟨hne, heq⟩ | ⟨-, hf⟩
      · exact .kept ⟨hne, heq.symm⟩
      · exact .stored hf
  | call c' =>
      obtain ⟨k, fs, hstack, hk⟩ := h
      by_cases hc : c' = c
      · subst hc
        rcases v.ticket hI hstack hk with ⟨q, rfl⟩ | ⟨rfl, ha⟩
        · exact .kept ⟨_, _, v.stack, rfl⟩
        · exact .new ha
      · rw [(v.cpu hc).2] at hstack
        exact .kept ⟨_, _, hstack, hk⟩

/-- A `fork` that stores its pid has no ticket any more. -/
theorem View.stored (hI : Inv s) (v : View s c ch (.fork (.used p i)) rest m t) : ¬t.Owns (.call c) i := by
  rintro ⟨k, fs, hstack, hk⟩
  rcases v.ticket hI hstack hk with ⟨q, hf⟩ | ⟨-, ha⟩
  · cases hf
  · obtain ⟨q, below, heq⟩ := allocates_iff.mp ha
    rw [v.stack] at heq
    cases heq

theorem next_nextpid (h : f.next s c ch = some (.nextpid k)) : ∃ q, f = .fork (.pidRead q) := by
  unfold Frame.next at h
  split at h
  · cases ch <;> simp only [intr] at h <;> grind
  · simp only [wakeup] at h
    grind
  · simp only [scheduler] at h
    grind
  · cases ch <;> simp only [code] at h <;> grind
  · simp only [forkret] at h
    grind
  · simp only [yield] at h
    grind
  · simp only [sleep] at h
    grind
  · simp only [kill] at h
    grind
  · rename_i status pt p hp
    cases pt <;> simp only [exit] at h <;> grind
  · rename_i addr pt p hp
    cases pt <;> simp only [wait] at h <;> grind
  · rename_i pt p hp
    cases pt <;> simp only [fork] at h
    case pidRead q => exact ⟨q, rfl⟩
    case alloc => cases ch <;> cases h
    case uvmcopy => cases ch <;> cases h
    all_goals grind
  · cases h

/-- The counter changes where `allocpid` executes its body. -/
theorem step_nextpid (hI : Inv s) (h : step s (c, ch) = some t) :
    t.nextpid = if s.allocates c then (s.nextpid + 1).bmod (2 ^ 32) else s.nextpid := by
  unfold step at h
  split at h
  · cases h
  · rename_i f rest hstack
    by_cases ha : s.allocates c = true
    · rw [if_pos ha]
      obtain ⟨q, rest', heq⟩ := allocates_iff.mp ha
      rw [heq] at hstack
      obtain ⟨rfl, rfl⟩ := List.cons.inj hstack
      split at h
      · -- `pid_lock` is held, so no interrupt comes
        rw [if_neg (by rw [hI.noff, claims_eq heq]; exact Nat.succ_ne_zero _)] at h
        cases h
      · obtain ⟨m, hnext, hexec⟩ := Option.bind_eq_some_iff.mp h
        obtain ⟨p, hm⟩ := fork_next hnext
        cases hm
        cases hexec
        rfl
    · rw [if_neg ha]
      split at h
      · split at h <;> cases h
        rfl
      · obtain ⟨m, hnext, hexec⟩ := Option.bind_eq_some_iff.mp h
        cases m with
        | nextpid k =>
            obtain ⟨q, rfl⟩ := next_nextpid hnext
            exact absurd (allocates_iff.mpr ⟨q, rest, hstack⟩) ha
        | acquire lk k => simp only [Micro.exec] at hexec; split at hexec <;> cases hexec; rfl
        | release lk k => simp only [Micro.exec] at hexec; split at hexec <;> cases hexec; rfl
        | ret ev => cases rest <;> cases hexec; rfl
        | swtch k =>
            simp only [Micro.exec] at hexec
            split at hexec
            · cases hexec
            · split at hexec <;> cases hexec
              rfl
        | _ => cases hexec; rfl

/-! ## Runs -/

theorem bmod_of_small {x : Int} (h₀ : 0 ≤ x) (h : x < 2 ^ 31) : x.bmod (2 ^ 32) = x :=
  Int.bmod_eq_of_le (by omega) (by omega)

/-- **A step keeps the pids that have been handed out apart**, as long as the counter does not wrap. -/
theorem Tickets.step {n' : Nat} (hI : Inv s) (h : Tickets n s) (hst : step s (c, ch) = some t)
    (hn' : n' = n + if s.allocates c then 1 else 0) (hlt : n' < 2 ^ 31) : Tickets n' t := by
  obtain ⟨f, rest, m, v⟩ := hI.view (c := c) hst
  -- a new pid is larger than the old ones
  have hnew : s.allocates c = true → s.nextpid = n' ∧ n' = n + 1 := by
    intro ha
    rw [if_pos ha] at hn'
    refine ⟨?_, hn'⟩
    rw [h.next, bmod_of_small (by omega) (by omega)]
    omega
  have hle : n ≤ n' := by omega
  refine ⟨?_, fun ho => ?_, fun ho ho' => ?_⟩
  · rw [step_nextpid hI hst]
    split
    · rename_i ha
      rw [(hnew ha).1]
    · rename_i ha
      rw [h.next, hn', if_neg ha, Nat.add_zero]
  · cases v.owns hI ho with
    | kept hold =>
        obtain ⟨h₀, h₁⟩ := h.range hold
        exact ⟨h₀, by omega⟩
    | stored hf =>
        obtain ⟨h₀, h₁⟩ := h.range (o := .call c) ⟨f, rest, v.stack, by rw [hf]; rfl⟩
        exact ⟨h₀, by omega⟩
    | new ha =>
        obtain ⟨h₀, h₁⟩ := hnew ha
        omega
  · -- a pid that was owned is not new
    have hfresh : ∀ {o i}, s.Owns o i → s.allocates c = true → i ≠ s.nextpid := by
      intro o i ho ha
      have := (h.range ho).2
      have := hnew ha
      omega
    cases v.owns hI ho with
    | kept hold =>
        cases v.owns hI ho' with
        | kept hold' => exact h.inj hold hold'
        | stored hf =>
            subst hf
            have hcall : s.Owns (.call c) _ := ⟨_, _, v.stack, rfl⟩
            rw [h.inj hold hcall] at ho
            exact absurd ho (v.stored hI)
        | new ha => exact absurd rfl (hfresh hold ha)
    | stored hf =>
        subst hf
        have hown : s.Owns (.call c) _ := ⟨_, _, v.stack, rfl⟩
        cases v.owns hI ho' with
        | kept hold' =>
            rw [h.inj hold' hown] at ho'
            exact absurd ho' (v.stored hI)
        | stored hf' =>
            cases hf'
            rfl
        | new ha => exact absurd rfl (hfresh hown ha)
    | new ha =>
        generalize hi : s.nextpid = i at ho'
        cases v.owns hI ho' with
        | kept hold' => exact absurd hi.symm (hfresh hold' ha)
        | stored hf' => exact absurd hi.symm (hfresh (o := .call c) ⟨_, _, v.stack, by rw [hf']; rfl⟩ ha)
        | new _ => rfl

theorem boot_tickets (init : Fin N) : Tickets 1 (boot init : Sys N M) := by
  have hcall : ∀ {c : Fin M} {i : Int}, ¬(boot init : Sys N M).Owns (.call c) i := by
    rintro c i ⟨f, rest, hstack, hf⟩
    cases hstack
    cases hf
  have hproc : ∀ {p i}, (boot init : Sys N M).Owns (.proc p) i → p = init ∧ i = 1 := by
    rintro p i ⟨hst, rfl⟩
    by_cases hp : p = init
    · exact ⟨hp, if_pos hp⟩
    · exact absurd (if_neg hp) hst
  refine ⟨(bmod_of_small (x := 2) (by decide) (by decide)).symm, fun {o i} ho => ?_, fun {o o' i} ho ho' => ?_⟩
  · cases o with
    | proc p => obtain ⟨-, rfl⟩ := hproc ho; decide
    | call c => exact absurd ho hcall
  · cases o with
    | proc p =>
        cases o' with
        | proc p' => rw [(hproc ho).1, (hproc ho').1]
        | call c => exact absurd ho' hcall
    | call c => exact absurd ho hcall

/-- **Over a run** the pids stay apart as long as there have been fewer than `2 ^ 31`. -/
theorem tickets_of_run {init : Fin N} {acts : List (Fin M × Choice)}
    (hrun : Trace.run counted (boot init, 1) acts = some (s, n)) (hlt : n < 2 ^ 31) : Tickets n s := by
  refine (Trace.run_invariant (I := fun x : Sys N M × Nat => Inv x.1 ∧ (x.2 < 2 ^ 31 → Tickets x.2 x.1))
    ⟨boot_inv init, fun _ => boot_tickets init⟩ (fun x a y hx h => ?_) hrun).2 hlt
  obtain ⟨t, hst, rfl⟩ := Option.map_eq_some_iff.mp h
  exact ⟨inv_step hx.1 hst, fun hlt => (hx.2 (by omega)).step hx.1 hst rfl hlt⟩

/-! ## The counter wraps -/

/-- The first process `p₀` is in the kernel on every CPU that there is and holds nothing. -/
def idle (p₀ : Fin N) (i : Int) : Sys N M where
  lock _ := none
  procs p :=
    { state := if p = p₀ then .running else .unused, chan := .null, killed := false, xstate := 0
      pid := if p = p₀ then 1 else 0, parent := none, sz := if p = p₀ then PGSIZE else 0, mem := decide (p = p₀)
      context := if p = p₀ then start else [] }
  stack
    | .proc p => if p = p₀ then [.code []] else []
    | .sched _ => [.sched (.back p₀)]
  cpus _ := { proc := some p₀, context := [.sched (.back p₀)], noff := 0, on := some p₀ }
  initproc := p₀
  nextpid := i
  log := []

/-- States of two slots and one CPU are equal if they agree at every place. -/
theorem sys_ext {s t : Sys 2 1} (hlock : ∀ p, s.lock (.proc p) = t.lock (.proc p)) (hwait : s.lock .wait = t.lock .wait)
    (hpid : s.lock .pid = t.lock .pid) (hother : ∀ n, s.lock (.other n) = t.lock (.other n))
    (hp₀ : s.procs 0 = t.procs 0) (hp₁ : s.procs 1 = t.procs 1) (hk₀ : s.stack (.proc 0) = t.stack (.proc 0))
    (hk₁ : s.stack (.proc 1) = t.stack (.proc 1)) (hk : s.stack (.sched 0) = t.stack (.sched 0))
    (hcpu : s.cpus 0 = t.cpus 0) (hinit : s.initproc = t.initproc)
    (hnext : s.nextpid = t.nextpid) (hlog : s.log = t.log) : s = t := by
  cases s
  cases t
  simp only [Sys.mk.injEq]
  refine ⟨funext fun lk => ?_, funext fun p => ?_, funext fun θ => ?_, funext fun c => ?_, hinit, hnext, hlog⟩
  · cases lk with
    | proc p => exact hlock p
    | wait => exact hwait
    | pid => exact hpid
    | other n => exact hother n
  · match p with
    | 0 => exact hp₀
    | 1 => exact hp₁
  · match θ with
    | .proc 0 => exact hk₀
    | .proc 1 => exact hk₁
    | .sched 0 => exact hk
  · match c with
    | 0 => exact hcpu

theorem lock_ext {s t : Sys 2 1} (h₀ : s.lock (.proc 0) = t.lock (.proc 0)) (h₁ : s.lock (.proc 1) = t.lock (.proc 1))
    (p : Fin 2) : s.lock (.proc p) = t.lock (.proc p) := by
  match p with
  | 0 => exact h₀
  | 1 => exact h₁

theorem boot_idle : Trace.run counted ((boot 0 : Sys 2 1), 1) (repeated [(6, 0, .go)]) = some (idle 0 2, 1) := by
  refine (show Trace.run counted ((boot 0 : Sys 2 1), 1) (repeated [(6, 0, .go)]) = some _ from rfl).trans
    (congrArg some (Prod.ext (sys_ext (lock_ext rfl rfl) rfl rfl (fun _ => rfl) rfl rfl rfl rfl rfl rfl rfl rfl rfl)
      rfl))

/-- `allocproc` has locked the slot `q`. -/
def found (p₀ q : Fin N) (c₀ : Fin M) (i : Int) : Sys N M :=
  ((idle p₀ i).acquire c₀ (.proc q)).goto c₀ [.fork (.locked q), .code []]

/-- The slot `q` has the pid `i` and waits for its page. -/
def taken (p₀ q : Fin N) (c₀ : Fin M) (i : Int) : Sys N M :=
  (((idle p₀ ((i + 1).bmod (2 ^ 32))).acquire c₀ (.proc q)).setProc q
    { (idle p₀ i : Sys N M).procs q with pid := i, state := .used }).goto c₀ [.fork (.alloc q i), .code []]

theorem fork_finds (i : Int) (n : Nat) : Trace.run counted ((idle 0 i : Sys 2 1), n)
    (repeated [(1, 0, .fork), (4, 0, .go)]) = some (found 0 1 0 i, n) := by
  refine (show Trace.run counted ((idle 0 i : Sys 2 1), n) (repeated [(1, 0, .fork), (4, 0, .go)]) = some _ from
    rfl).trans
    (congrArg some (Prod.ext (sys_ext (lock_ext rfl rfl) rfl rfl (fun _ => rfl) rfl rfl rfl rfl rfl rfl rfl rfl rfl)
      rfl))

theorem fork_takes (i : Int) (n : Nat) : Trace.run counted ((found 0 1 0 i : Sys 2 1), n) (repeated [(5, 0, .go)]) =
    some (taken 0 1 0 i, n + 1) := by
  refine (show Trace.run counted ((found 0 1 0 i : Sys 2 1), n) (repeated [(5, 0, .go)]) = some _ from rfl).trans
    (congrArg some (Prod.ext (sys_ext (lock_ext rfl rfl) rfl rfl (fun _ => rfl) rfl rfl rfl rfl rfl rfl rfl rfl rfl)
      rfl))

theorem fork_fails (i : Int) (n : Nat) : Trace.run counted ((taken 0 1 0 i : Sys 2 1), n)
    (repeated [(1, 0, .fail), (3, 0, .go)]) = some (idle 0 ((i + 1).bmod (2 ^ 32)), n) := by
  refine (show Trace.run counted ((taken 0 1 0 i : Sys 2 1), n) (repeated [(1, 0, .fail), (3, 0, .go)]) = some _ from
    rfl).trans
    (congrArg some (Prod.ext (sys_ext (lock_ext rfl rfl) rfl rfl (fun _ => rfl) rfl rfl rfl rfl rfl rfl rfl rfl rfl)
      rfl))

/-- The part of `fork` up to the allocation of the trapframe page. -/
def beginFork (c₀ : Fin M) : List (Fin M × Choice) :=
  repeated [(1, c₀, .fork), (4, c₀, .go)] ++ repeated [(5, c₀, .go)]

/-- A `fork` for which `kalloc` finds no page. -/
def failedFork (c₀ : Fin M) : List (Fin M × Choice) := beginFork c₀ ++ repeated [(1, c₀, .fail), (3, c₀, .go)]

theorem beginFork_taken (i : Int) (n : Nat) :
    Trace.run counted ((idle 0 i : Sys 2 1), n) (beginFork 0) = some (taken 0 1 0 i, n + 1) := by
  rw [beginFork, Trace.run_append, fork_finds, Option.bind_some, fork_takes]

theorem failedFork_idle (i : Int) (n : Nat) : Trace.run counted ((idle 0 i : Sys 2 1), n) (failedFork 0) =
    some (idle 0 ((i + 1).bmod (2 ^ 32)), n + 1) := by
  rw [failedFork, Trace.run_append, beginFork_taken, Option.bind_some, fork_fails]

/-- The run of the first process with `j` calls of `fork` that find no page. -/
def failedForks (c₀ : Fin M) (j : Nat) : List (Fin M × Choice) :=
  repeated [(6, c₀, .go)] ++ (List.replicate j (failedFork c₀)).flatten

theorem failedForks_succ (c₀ : Fin M) (j : Nat) : failedForks c₀ (j + 1) = failedForks c₀ j ++ failedFork c₀ := by
  simp [failedForks, List.replicate_succ']

/-- **Every call of `allocpid` moves the counter**, whether the `fork` succeeds or not. -/
theorem failedForks_idle (j : Nat) : Trace.run counted ((boot 0 : Sys 2 1), 1) (failedForks 0 j) =
    some (idle 0 ((j + 2 : Int).bmod (2 ^ 32)), j + 1) := by
  induction j with
  | zero =>
      rw [show failedForks (0 : Fin 1) 0 = repeated [(6, 0, .go)] from rfl, boot_idle]
      rfl
  | succ j ih =>
      rw [failedForks_succ, Trace.run_append, ih, Option.bind_some, failedFork_idle, Int.bmod_add_bmod]
      congr 4

/-- The pid of the next child after `2 ^ 31 - 2` failed calls of `fork` is negative. -/
theorem negative_pid : Trace.run counted ((boot 0 : Sys 2 1), 1) (failedForks 0 (2 ^ 31 - 2) ++ beginFork 0) =
    some (taken 0 1 0 (-2 ^ 31), 2 ^ 31) := by
  have hwrap : (((2 ^ 31 - 2 : Nat) : Int) + 2).bmod (2 ^ 32) = -2 ^ 31 := by decide
  have hcount : (2 ^ 31 - 2 + 1 + 1 : Nat) = 2 ^ 31 := by norm_num
  rw [Trace.run_append, failedForks_idle, Option.bind_some, hwrap, beginFork_taken, hcount]

/-- **Pids identify processes.** In every state of every run with at most `k` calls of `allocpid`, that of
    `userinit` included, the processes that are not UNUSED have different positive pids, if and only if `k` is
    below `2 ^ 31`. -/
theorem pids_identify_processes (k : Nat) :
    (∀ {N M : Nat} (init : Fin N) (acts : List (Fin M × Choice)) (s : Sys N M) (n : Nat),
      Trace.run counted (boot init, 1) acts = some (s, n) → n ≤ k → s.Identified) ↔ k < 2 ^ 31 := by
  refine ⟨fun h => ?_, fun hk N M init acts s n hrun hle => ?_⟩
  · by_contra hk
    have hpos := (h 0 _ _ _ negative_pid (by omega)).1 1 (by decide)
    exact absurd hpos (by decide)
  · exact (tickets_of_run hrun (by omega)).identified

/-- The call of `allocpid` with number `2 ^ 31` gives a child a negative pid. -/
theorem pid_counter_wraps : ∃ (acts : List (Fin 1 × Choice)) (s : Sys 2 1),
    Trace.run counted (boot 0, 1) acts = some (s, 2 ^ 31) ∧ (s.procs 1).state = .used ∧
      (s.procs 1).pid = -2 ^ 31 :=
  ⟨_, _, negative_pid, rfl, rfl⟩

end Xv6.Procs
