import Xv6.Proc.Waiting

/-!
# `Proc.Tree` — the life of a process

`Tree` says what `fork`, `exit` and `wait` are for: a process is created once, may be handed to init, exits
once with a status and is then freed once, by the process that is its parent at that time. The events of every
run of the system are a run of `Tree` (`Reachable.history`), and the slots of the process table are in the
phases that it ends in.
-/

namespace Xv6.Procs

variable {N M : Nat} {s t : Sys N M} {c c' : Fin M} {p q w : Fin N} {f k g : Frame N} {rest fs : Stack N}
  {ch : Choice} {m : Option (Micro N)} {r : Proc N} {ev : List (Event N)}

/-! ## The abstract process tree -/

/-- Who created a process, whether it has been handed to init, and its pid. -/
structure Birth (N : Nat) where
  creator : Fin N
  orphan : Bool
  pid : Int

def Birth.parent (init : Fin N) (b : Birth N) : Fin N := if b.orphan then init else b.creator

inductive Phase (N : Nat)
  | absent
  | root
  | live (b : Birth N)
  | zombie (b : Birth N) (status : Int)

def Phase.parent (init : Fin N) : Phase N → Option (Fin N)
  | .live b | .zombie b _ => some (b.parent init)
  | _ => none

/-- `reaped p` is the child that the current `wait` of `p` has freed. -/
structure Tree (N : Nat) where
  init : Fin N
  phase : Fin N → Phase N
  reaped : Fin N → Option Int

def Tree.set (τ : Tree N) (q : Fin N) (ph : Phase N) : Tree N := { τ with phase := Function.update τ.phase q ph }

def Tree.setReaped (τ : Tree N) (p : Fin N) (o : Option Int) : Tree N :=
  { τ with reaped := Function.update τ.reaped p o }

/-- `p` creates `q`. -/
def Tree.fork (τ : Tree N) (p q : Fin N) (pid : Int) : Option (Tree N) :=
  match τ.phase p, τ.phase q with
  | .root, .absent | .live _, .absent => some (τ.set q (.live { creator := p, orphan := false, pid := pid }))
  | _, _ => none

/-- `q` goes to init. -/
def Tree.reparent (τ : Tree N) (q : Fin N) : Option (Tree N) :=
  match τ.phase q with
  | .live b => some (τ.set q (.live { b with orphan := true }))
  | .zombie b status => some (τ.set q (.zombie { b with orphan := true } status))
  | _ => none

/-- A process that exits leaves no children. -/
def Tree.exit (τ : Tree N) (q : Fin N) (status : Int) : Option (Tree N) :=
  match τ.phase q with
  | .live b => if ∀ x, (τ.phase x).parent τ.init ≠ some q then some (τ.set q (.zombie b status)) else none
  | _ => none

/-- `w` frees its dead child `q` and copies out the status that `q` has exited with, if anything. -/
def Tree.reap (τ : Tree N) (w q : Fin N) (pid : Int) (copied : Option Int) : Option (Tree N) :=
  match τ.phase q with
  | .zombie b status =>
      if w = b.parent τ.init ∧ pid = b.pid ∧ (copied = none ∨ copied = some status) ∧ τ.reaped w = none then
        some ((τ.set q .absent).setReaped w (some pid))
      else none
  | _ => none

/-- A `wait` returns the pid of the child that it has freed. -/
def Tree.waited (τ : Tree N) (w : Fin N) (ret : Int) : Option (Tree N) :=
  match τ.reaped w with
  | some pid => if ret = pid then some (τ.setReaped w none) else none
  | none => if ret = -1 then some τ else none

def Tree.step (τ : Tree N) : Event N → Option (Tree N)
  | .fork p q pid => τ.fork p q pid
  | .reparent q => τ.reparent q
  | .exit q status => τ.exit q status
  | .reap w q pid copied => τ.reap w q pid copied
  | .waited w ret => τ.waited w ret

def Tree.boot (init : Fin N) : Tree N where
  init := init
  phase q := if q = init then .root else .absent
  reaped _ := none

/-! ## Exits and reaps -/

def Event.exitOf (q : Fin N) : Event N → Option Int
  | .exit q' status => if q' = q then some status else none
  | _ => none

def Event.reapOf (q : Fin N) : Event N → Option (Option Int)
  | .reap _ q' _ copied => if q' = q then some copied else none
  | _ => none

/-- The statuses that `q` has exited with. -/
def exits (q : Fin N) (log : List (Event N)) : List Int := log.filterMap (Event.exitOf q)

/-- What has been copied out when `q` was freed. -/
def reaps (q : Fin N) (log : List (Event N)) : List (Option Int) := log.filterMap (Event.reapOf q)

/-- The status of a process that has exited and not been freed. -/
def Phase.pending : Phase N → List Int
  | .zombie _ status => [status]
  | _ => []

theorem Tree.set_phase {τ : Tree N} {ph : Phase N} : (τ.set q ph).phase q = ph := Function.update_self _ _ _

theorem Tree.set_phase_of_ne {τ : Tree N} {ph : Phase N} (h : p ≠ q) : (τ.set q ph).phase p = τ.phase p :=
  Function.update_of_ne h _ _

/-- A step that neither ends nor frees a process keeps what is pending. -/
theorem Tree.pending_set {τ : Tree N} {ph : Phase N} (h : ph.pending = (τ.phase q).pending) :
    ((τ.set q ph).phase p).pending = (τ.phase p).pending := by
  by_cases hp : p = q
  · rw [hp, Tree.set_phase, h]
  · rw [Tree.set_phase_of_ne hp]

/-- What a step of the tree means for `q`: nothing, its exit, or the reap that follows it. -/
theorem Tree.step_pending {τ τ' : Tree N} {e : Event N} (h : τ.step e = some τ') (q : Fin N) :
    (e.exitOf q = none ∧ e.reapOf q = none ∧ (τ'.phase q).pending = (τ.phase q).pending) ∨
    (∃ status, e.exitOf q = some status ∧ e.reapOf q = none ∧ (τ.phase q).pending = [] ∧
      (τ'.phase q).pending = [status]) ∨
    ∃ status copied, e.exitOf q = none ∧ e.reapOf q = some copied ∧ (τ.phase q).pending = [status] ∧
      (τ'.phase q).pending = [] ∧ (copied = none ∨ copied = some status) := by
  cases e with
  | fork p q' pid =>
      simp only [Tree.step, Tree.fork] at h
      split at h <;> cases h <;> rename_i _ _ hq <;> exact .inl ⟨rfl, rfl, Tree.pending_set (by rw [hq]; rfl)⟩
  | reparent q' =>
      simp only [Tree.step, Tree.reparent] at h
      split at h <;> cases h <;> rename_i hq <;> exact .inl ⟨rfl, rfl, Tree.pending_set (by rw [hq]; rfl)⟩
  | exit q' status =>
      simp only [Tree.step, Tree.exit] at h
      split at h
      · rename_i b hb
        split at h <;> cases h
        by_cases hq : q' = q
        · subst hq
          exact .inr (.inl ⟨status, if_pos rfl, rfl, by rw [hb]; rfl, by rw [Tree.set_phase]; rfl⟩)
        · exact .inl ⟨if_neg hq, rfl, by rw [Tree.set_phase_of_ne (Ne.symm hq)]⟩
      · cases h
  | reap w q' pid copied =>
      simp only [Tree.step, Tree.reap] at h
      split at h
      · rename_i b status hb
        split at h <;> cases h
        rename_i hc
        have hphase : ((τ.set q' .absent).setReaped w (some pid)).phase q = (τ.set q' .absent).phase q := rfl
        rw [hphase]
        by_cases hq : q' = q
        · subst hq
          exact .inr (.inr ⟨status, copied, rfl, if_pos rfl, by rw [hb]; rfl, by rw [Tree.set_phase]; rfl, hc.2.2.1⟩)
        · exact .inl ⟨rfl, if_neg hq, by rw [Tree.set_phase_of_ne (Ne.symm hq)]⟩
      · cases h
  | waited w ret =>
      simp only [Tree.step, Tree.waited] at h
      split at h <;> split at h <;> cases h <;> exact .inl ⟨rfl, rfl, rfl⟩

/-- **Every exit is answered by at most one reap.** The processes in a slot exit and are freed in turn; each
    reap copies out nothing or the status of the exit before it. -/
theorem Tree.freed_once {init : Fin N} {log : List (Event N)} {τ : Tree N}
    (h : Trace.run Tree.step (Tree.boot init) log = some τ) (q : Fin N) :
    ∃ freed, exits q log = freed ++ (τ.phase q).pending ∧
      List.Forall₂ (fun status copied => copied = none ∨ copied = some status) freed (reaps q log) := by
  refine Trace.run_history (P := fun log (τ : Tree N) => ∃ freed, exits q log = freed ++ (τ.phase q).pending ∧
    List.Forall₂ (fun status copied => copied = none ∨ copied = some status) freed (reaps q log)) ?_ ?_ h
  · refine ⟨[], ?_, .nil⟩
    show [] = [] ++ (if q = init then Phase.root else .absent).pending
    split <;> rfl
  · rintro log τ e τ' - ⟨freed, hex, hre⟩ hstep
    have hexits : exits q (log ++ [e]) = exits q log ++ (e.exitOf q).toList := by
      cases he : e.exitOf q <;> simp [exits, he]
    have hreaps : reaps q (log ++ [e]) = reaps q log ++ (e.reapOf q).toList := by
      cases he : e.reapOf q <;> simp [reaps, he]
    rw [hexits, hreaps, hex]
    rcases Tree.step_pending hstep q with ⟨h1, h2, h3⟩ | ⟨status, h1, h2, h3, h4⟩ |
      ⟨status, copied, h1, h2, h3, h4, h5⟩
    · exact ⟨freed, by rw [h1, h3]; simp, by rw [h2]; simpa using hre⟩
    · exact ⟨freed, by rw [h1, h3, h4]; simp, by rw [h2]; simpa using hre⟩
    · refine ⟨freed ++ [status], by rw [h1, h3, h4]; simp, ?_⟩
      rw [h2]
      exact List.rel_append hre (.cons h5 .nil)

/-! ## The process table represents a tree -/

/-- The slot `q` is in a phase. -/
def Phase.Is (init q : Fin N) (r : Proc N) : Phase N → Prop
  | .absent => r.parent = none ∧ ¬r.state.started
  | .root => q = init ∧ r.parent = none ∧ r.state.alive
  | .live b => r.parent = some (b.parent init) ∧ r.pid = b.pid ∧ (r.state.alive ∨ r.state = .used)
  | .zombie b status => r.parent = some (b.parent init) ∧ r.pid = b.pid ∧ r.state = .zombie ∧ r.xstate = status

/-- What `wait` has freed at a point. -/
def WaitPt.Reaped (o : Option Int) : WaitPt N → Prop
  | .freed _ pid => o = some pid
  | .releaseWait ret | .done ret => o = some ret ∨ o = none ∧ ret = -1
  | _ => o = none

def Frame.Reaped (o : Option Int) : Frame N → Prop
  | .wait _ pt => pt.Reaped o
  | _ => True

/-- `reaped` is what the calls of `wait` have freed. -/
structure Waits (reaped : Fin N → Option Int) (s : Sys N M) : Prop where
  waiting : ∀ {p f}, (s.procs p).state.started → f ∈ s.stack (.proc p) → f.Reaped (reaped p)
  idle : ∀ {p}, ¬(s.procs p).state.started ∨ (∀ addr pt, .wait addr pt ∉ s.stack (.proc p)) → reaped p = none

structure Tree.Represents (τ : Tree N) (s : Sys N M) : Prop where
  init : τ.init = s.initproc
  phase : ∀ q, (τ.phase q).Is s.initproc q (s.procs q)
  waits : Waits τ.reaped s

theorem Phase.Is.parent {init : Fin N} {ph : Phase N} (h : ph.Is init q r) : ph.parent init = r.parent := by
  cases ph with
  | absent => exact h.1.symm
  | root => exact h.2.1.symm
  | live b => exact h.1.symm
  | zombie b status => exact h.1.symm

theorem PState.alive.started {st : PState} (h : st.alive) : st.started := by
  cases st <;> first | exact h.elim | trivial

/-- A process that lives. -/
theorem Phase.Is.alive {init : Fin N} {ph : Phase N} (h : ph.Is init q r) (hst : r.state.alive) :
    (ph = .root ∧ q = init) ∨ ∃ b, ph = .live b := by
  cases ph with
  | absent => exact absurd hst.started h.2
  | root => exact .inl ⟨rfl, h.1⟩
  | live b => exact .inr ⟨b, rfl⟩
  | zombie b status =>
      rw [h.2.2.1] at hst
      exact hst.elim

theorem Phase.Is.zombie {init : Fin N} {ph : Phase N} (h : ph.Is init q r) (hst : r.state = .zombie) :
    ∃ b, ph = .zombie b r.xstate := by
  cases ph with
  | absent => exact absurd (by rw [hst]; trivial) h.2
  | root => exact absurd h.2.2 (by rw [hst]; exact id)
  | live b => rcases h.2.2 with h | h <;> rw [hst] at h <;> cases h
  | zombie b status => exact ⟨b, by rw [h.2.2.2]⟩

theorem Phase.Is.absent {init : Fin N} {ph : Phase N} (h : ph.Is init q r) (hst : ¬r.state.started)
    (hp : r.parent = none) : ph = .absent := by
  cases ph with
  | absent => rfl
  | root => exact absurd h.2.2.started hst
  | live b => exact absurd (hp.symm.trans h.1) (by simp)
  | zombie b status => exact absurd (hp.symm.trans h.1) (by simp)

theorem Phase.Is.congr {init : Fin N} {ph : Phase N} {r' : Proc N} (h : ph.Is init q r) (hp : r'.parent = r.parent)
    (hpid : r'.pid = r.pid) (hst : r'.state = r.state) (hx : r'.xstate = r.xstate) : ph.Is init q r' := by
  cases ph with
  | absent => exact ⟨hp.trans h.1, by rw [hst]; exact h.2⟩
  | root => exact ⟨h.1, hp.trans h.2.1, by rw [hst]; exact h.2.2⟩
  | live b => exact ⟨hp.trans h.1, hpid.trans h.2.1, by rw [hst]; exact h.2.2⟩
  | zombie b status => exact ⟨hp.trans h.1, hpid.trans h.2.1, hst.trans h.2.2.1, hx.trans h.2.2.2⟩

/-- A process that lives goes on living. -/
theorem Phase.Is.live {init : Fin N} {ph : Phase N} {r' : Proc N} (h : ph.Is init q r) (hst : r.state.alive)
    (hst' : r'.state.alive) (hp : r'.parent = r.parent) (hpid : r'.pid = r.pid) : ph.Is init q r' := by
  rcases h.alive hst with ⟨rfl, -⟩ | ⟨b, rfl⟩
  · exact ⟨h.1, hp.trans h.2.1, hst'⟩
  · exact ⟨hp.trans h.1, hpid.trans h.2.1, .inl hst'⟩

/-- An assignment without an event. -/
theorem Phase.Is.write {init : Fin N} {ph : Phase N} (hI : Inv s) (hF : Family s)
    (hstack : s.stack (s.thread c) = f :: rest) (hw : Write s c f q r [] k) (h : ph.Is init q (s.procs q)) :
    ph.Is init q r := by
  have hmem : f ∈ s.stack (s.thread c) := by rw [hstack]; exact List.mem_cons_self
  -- the executing process lives
  have hself : ∀ {p}, (s.cpus c).proc = some p → ¬f.isSched → f.pstate.alive → (s.procs p).state.alive := by
    intro p hp hns ha
    rw [hI.pstate hstack hp hns]
    exact ha
  generalize hev : ([] : List (Event N)) = ev at hw
  cases hw with
  | reparent hp h => cases hev
  | zombie hp => cases hev
  | reap hp => cases hev
  | parent hp => cases hev
  | yield hp => exact h.live (hself hp id trivial) trivial rfl rfl
  | sleepState hp => exact h.live (hself hp id trivial) trivial rfl rfl
  | sleepChan hp => exact h.congr rfl rfl rfl rfl
  | sleepTidy hp => exact h.congr rfl rfl rfl rfl
  | xstate hp => exact h.live (hself hp id trivial) (hself hp id trivial) rfl rfl
  | killed => exact h.congr rfl rfl rfl rfl
  | freeMem => exact h.congr rfl rfl rfl rfl
  | copySz hp => exact h.congr rfl rfl rfl rfl
  | resize hp => exact h.congr rfl rfl rfl rfl
  | killState hs => exact h.live (by rw [hs]; trivial) trivial rfl rfl
  | pick hs => exact h.live (by rw [hs]; trivial) trivial rfl rfl
  | wake =>
      unfold Proc.wake
      split
      · rename_i hs
        exact h.live (by rw [hs.1]; trivial) trivial rfl rfl
      · exact h
  | used =>
      have hu : (s.procs q).state = .unused := hI.facts hmem
      have hnone := hF.unused hu
      rw [h.absent (by rw [hu]; exact id) hnone]
      exact ⟨hnone, id⟩
  | unfork =>
      obtain ⟨p, hth, -, hused⟩ := hI.owned_top hstack (q := q) rfl
      have hnone : (s.procs q).parent = none := hF.top hI hstack (on_of_thread hth)
      rw [h.absent (by rw [hused]; exact id) hnone]
      exact ⟨rfl, id⟩
  | runnable =>
      obtain ⟨p, hth, -, hused⟩ := hI.owned_top hstack (q := q) rfl
      have hsome : (s.procs q).parent ≠ none := hF.top hI hstack (on_of_thread hth)
      cases ph with
      | absent => exact absurd h.1 hsome
      | root => exact absurd h.2.1 hsome
      | live b => exact ⟨h.1, h.2.1, .inl trivial⟩
      | zombie b status =>
          have := h.2.2.1
          rw [hused] at this
          cases this

/-! ## What a `wait` has freed -/

theorem wait_reaped {addr : Bool} {pt : WaitPt N} {m : Micro N} {o : Option Int}
    (h : wait s p addr pt ch = some m) (hk : m.point = some k) (hnot : ∀ q pid copied, pt ≠ .freeproc q pid copied)
    (hpt : pt.Reaped o) : k.Reaped o := by
  cases pt with
  | acquireWait => cases h; cases hk; exact hpt
  | scan i havekids =>
      simp only [wait] at h
      split at h
      · split at h <;> cases h <;> cases hk <;> exact hpt
      · split at h <;> cases h <;> cases hk
        exact .inr ⟨hpt, rfl⟩
  | locked q =>
      simp only [wait] at h
      split at h <;> cases h <;> cases hk <;> exact hpt
  | unlock q => cases h; cases hk; exact hpt
  | found q pid =>
      simp only [wait] at h
      split at h
      · split at h <;> cases h <;> cases hk <;> exact hpt
      · cases h
        cases hk
        exact hpt
  | freeMem q pid copied => cases h; cases hk; exact hpt
  | freeproc q pid copied => exact absurd rfl (hnot q pid copied)
  | freed q pid => cases h; cases hk; exact .inl hpt
  | failed q => cases h; cases hk; exact .inr ⟨hpt, rfl⟩
  | asleep => cases h
  | releaseWait ret => cases h; cases hk; exact hpt
  | done ret => cases h; cases hk

theorem wait_eq_ret {addr : Bool} {pt : WaitPt N} (h : wait s p addr pt ch = some (.ret ev)) :
    ∃ ret, pt = .done ret := by
  cases pt with
  | done ret => exact ⟨ret, rfl⟩
  | _ =>
      simp only [wait] at h
      grind

theorem regain_wait (f : Frame N) (addr : Bool) (pt : WaitPt N) : ∃ pt', f.regain (.wait addr pt) = .wait addr pt' := by
  generalize hb : Frame.wait addr pt = b
  unfold Frame.regain
  split
  · cases hb
  · cases hb
    exact ⟨_, rfl⟩
  · exact ⟨pt, hb.symm⟩

theorem regain_reaped {b : Frame N} {o : Option Int} (h : b.Reaped o) : (f.regain b).Reaped o := by
  unfold Frame.regain
  split
  · trivial
  · exact h
  · exact h

/-- `wait` is called by code that calls nothing else in `proc.c`. -/
theorem Shape.wait {addr : Bool} {pt : WaitPt N} (h : Shape Frame.isCode (.wait addr pt :: rest)) :
    ∃ held, rest = [.code held] := by
  cases rest with
  | nil => exact h.elim
  | cons b rest =>
      obtain ⟨hc, h⟩ := h
      cases hc with
      | wait _ _ held => exact ⟨held, by rw [h.code]⟩

theorem Inv.shape_top (hI : Inv s) (hstack : s.stack (.proc p) = f :: rest) : Shape Frame.isCode (f :: rest) := by
  rcases hI.shape p with h | h
  · rw [h] at hstack
    cases hstack
  · rwa [hstack] at h

/-- A zombie that `wait` frees has not been in a `wait` of its own. -/
theorem Inv.zombie_idle (hI : Inv s) (hoff : s.Off q) (hz : (s.procs q).state = .zombie) (addr : Bool) (pt : WaitPt N) :
    .wait addr pt ∉ s.stack (.proc q) := by
  obtain ⟨-, f, rest, heq, hat, -⟩ := hI.saved hoff (by rw [hz]; trivial)
  have hsh := hI.shape_top heq
  rw [heq]
  cases hat with
  | exit h =>
      cases rest with
      | nil => exact hsh.elim
      | cons b rest =>
          obtain ⟨hc, hsh⟩ := hsh
          cases hc with
          | exit _ _ held =>
              rw [hsh.code]
              simp
  | forkret h => rw [hz] at h; simp at h
  | yield h => rw [hz] at h; simp at h
  | sleep _ h => rw [hz] at h; simp at h

/-- The executing process has started and goes on being started. -/
theorem View.started_self (hI : Inv s) (v : View s c ch f rest m t) (hon : (s.cpus c).on = some p) :
    (s.procs p).state.started ∧ (t.procs p).state.started := by
  have hs : (s.procs p).state.started := by
    obtain ⟨f₀, rest₀, heq, hst₀⟩ := hI.state hon
    rw [hst₀]
    exact f₀.pstate_started
  refine ⟨hs, ?_⟩
  by_cases hw : ∃ r ev k, m = some (.assign p r ev k)
  · obtain ⟨r, ev, k, hm⟩ := hw
    obtain ⟨-, hfit⟩ := v.next hm
    rw [v.assign hm, hfit.2.2.1 (hI.on hon).1]
    exact k.pstate_started
  · rw [(v.procs fun r ev k hm => hw ⟨r, ev, k, hm⟩).state]
    exact hs

/-- Only a reap takes a process that has started out of the table, after the process has left its CPU. -/
theorem View.reaped (hI : Inv s) (v : View s c ch f rest m t) (hon : (s.cpus c).on ≠ some p)
    (hs : (s.procs p).state.started) (ht : ¬(t.procs p).state.started) : s.Off p ∧ (s.procs p).state = .zombie := by
  by_cases hw : ∃ r ev k, m = some (.assign p r ev k)
  · obtain ⟨r, ev, k, hm⟩ := hw
    have hwr := next_assign (v.next hm).1
    rw [v.assign hm] at ht
    have hz : (s.procs p).state = .zombie := by
      rcases hI.transition v.stack hwr with h | h | h
      · exact absurd h hon
      · obtain ⟨-, -, -, hused⟩ := hI.owned_top v.stack h
        rw [hused] at hs
        exact hs.elim
      · generalize r.state = st at h ht
        generalize (s.procs p).state = st' at h hs
        cases h <;> first | rfl | exact absurd hs ht
    refine ⟨hI.off (fun c' hon' hl => ?_) (by rw [hz]; simp), hz⟩
    rcases hwr.locked with hlk | hr
    · rw [hI.holds (by rw [v.stack]; exact List.mem_cons_self) hlk] at hl
      cases hl
      exact hon hon'
    · rw [hr] at ht
      exact ht hs
  · rw [(v.procs fun r ev k hm => hw ⟨r, ev, k, hm⟩).state] at ht
    exact absurd hs ht

/-- The calls of the other processes keep what they have freed. -/
theorem View.waits_other {o : Fin N → Option Int} (hI : Inv s) (v : View s c ch f rest m t) (h : Waits o s)
    (hon : (s.cpus c).on ≠ some p) :
    (∀ f', (t.procs p).state.started → f' ∈ t.stack (.proc p) → f'.Reaped (o p)) ∧
      (¬(t.procs p).state.started ∨ (∀ addr pt, .wait addr pt ∉ t.stack (.proc p)) → o p = none) := by
  have hstart : ∀ f' ∈ (start : Stack N), f'.Reaped (o p) := by
    intro f' hf'
    simp only [start, List.mem_cons, List.not_mem_nil, or_false] at hf'
    rcases hf' with rfl | rfl <;> trivial
  refine ⟨fun f' hst hf' => ?_, fun hno => ?_⟩
  · rcases v.others hon with hsame | ⟨-, hnew⟩
    · rw [hsame] at hf'
      rcases v.started hI hon hst with hs | hs
      · exact h.waiting hs hf'
      · rw [hs] at hf'
        exact hstart f' hf'
    · rw [hnew] at hf'
      exact hstart f' hf'
  · by_cases hs : (s.procs p).state.started
    · refine h.idle (.inr ?_)
      rcases hno with hno | hno
      · obtain ⟨hoff, hz⟩ := v.reaped hI hon hs hno
        exact hI.zombie_idle hoff hz
      · rcases v.others hon with hsame | ⟨⟨k, hm⟩, -⟩
        · rwa [hsame] at hno
        · obtain ⟨pid, rfl, -⟩ := (v.next hm).2
          obtain ⟨-, -, -, hused⟩ := hI.owned_top v.stack (q := p) rfl
          rw [hused] at hs
          exact hs.elim
    · exact h.idle (.inl hs)

/-- The calls of the executing process, unless it frees a child or its `wait` returns. -/
theorem View.waits_self {o : Fin N → Option Int} (hI : Inv s) (v : View s c ch f rest m t) (h : Waits o s)
    (hon : (s.cpus c).on = some p) (hev : ∀ addr pt m', f = .wait addr pt → m = some m' → m'.events = []) :
    (∀ f' ∈ t.stack (.proc p), f'.Reaped (o p)) ∧
      ((∀ addr pt, .wait addr pt ∉ t.stack (.proc p)) → o p = none) := by
  have hq : s.stack (.proc p) = f :: rest := by
    rw [← thread_of_on hon]
    exact v.stack
  have hs := (v.started_self hI hon).1
  have hproc := (hI.on hon).1
  have hold : ∀ f' ∈ f :: rest, f'.Reaped (o p) := fun f' hf' => h.waiting hs (by rw [hq]; exact hf')
  have hidle : (∀ addr pt, .wait addr pt ∉ f :: rest) → o p = none := fun hno => h.idle (.inr (by rw [hq]; exact hno))
  have hnew := v.own hon
  generalize t.stack (.proc p) = new at hnew
  cases hnew with
  | point hk =>
      rename_i m' k
      obtain ⟨hnext, hfit⟩ := v.next rfl
      have hs' := hfit.same hk
      refine ⟨fun f' hf' => ?_, fun hno => hidle fun addr pt hmem => ?_⟩
      · rcases List.mem_cons.mp hf' with rfl | hf'
        · cases hs' with
          | wait addr pt pt' =>
              simp only [Frame.next, hproc] at hnext
              refine wait_reaped hnext hk (fun q pid copied h => ?_) (hold _ List.mem_cons_self)
              subst h
              cases hnext
              cases hev _ _ _ rfl rfl
          | _ => trivial
        · exact hold f' (List.mem_cons_of_mem _ hf')
      · rcases List.mem_cons.mp hmem with heq | hmem
        · subst heq
          cases hs' with
          | wait _ _ pt' => exact hno addr pt' List.mem_cons_self
        · exact hno addr pt (List.mem_cons_of_mem _ hmem)
  | call =>
      rename_i g k
      obtain ⟨hnext, hfit⟩ := v.next rfl
      have hs' := hfit.2.2.2.2.1
      have hc := hfit.2.2.2.2.2
      refine ⟨fun f' hf' => ?_, fun hno => hidle fun addr pt hmem => ?_⟩
      · rcases List.mem_cons.mp hf' with rfl | hf'
        · cases next_starts hnext with
          | wait addr =>
              -- the caller is code at the bottom of its stack
              cases hc
              cases hs' with
              | code held =>
                  have hsh := hI.shape_top hq
                  refine hidle fun addr pt hmem => ?_
                  rw [hsh.code] at hmem
                  simp at hmem
          | _ => trivial
        · rcases List.mem_cons.mp hf' with rfl | hf'
          · cases hs' with
            | wait addr pt pt' =>
                have hpt := hold _ List.mem_cons_self
                simp only [Frame.next, hproc] at hnext
                cases pt <;> simp only [wait] at hnext
                case scan => split at hnext <;> split at hnext <;> cases hnext; exact hpt
                all_goals grind
            | _ => trivial
          · exact hold f' (List.mem_cons_of_mem _ hf')
      · rcases List.mem_cons.mp hmem with heq | hmem
        · subst heq
          cases hs' with
          | wait _ _ pt' => exact hno addr pt' (List.mem_cons_of_mem _ List.mem_cons_self)
        · exact hno addr pt (List.mem_cons_of_mem _ (List.mem_cons_of_mem _ hmem))
  | ret hrest =>
      rename_i ev b below
      subst hrest
      refine ⟨fun f' hf' => ?_, fun hno => hidle fun addr pt hmem => ?_⟩
      · rcases List.mem_cons.mp hf' with rfl | hf'
        · exact regain_reaped (hold b (List.mem_cons_of_mem _ List.mem_cons_self))
        · exact hold f' (List.mem_cons_of_mem _ (List.mem_cons_of_mem _ hf'))
      · rcases List.mem_cons.mp hmem with heq | hmem
        · subst heq
          have hnext := (v.next rfl).1
          simp only [Frame.next, hproc] at hnext
          obtain ⟨ret, rfl⟩ := wait_eq_ret hnext
          cases hnext
          cases hev _ _ _ rfl rfl
        · rcases List.mem_cons.mp hmem with heq | hmem
          · subst heq
            obtain ⟨pt', h'⟩ := regain_wait f addr pt
            exact hno addr pt' (by rw [h']; exact List.mem_cons_self)
          · exact hno addr pt (List.mem_cons_of_mem _ hmem)
  | intr =>
      refine ⟨fun f' hf' => ?_, fun hno => hidle fun addr pt hmem => hno addr pt (List.mem_cons_of_mem _ hmem)⟩
      rcases List.mem_cons.mp hf' with rfl | hf'
      · trivial
      · exact hold f' hf'

theorem View.waits {o : Fin N → Option Int} (hI : Inv s) (v : View s c ch f rest m t) (h : Waits o s)
    (hev : ∀ addr pt m', f = .wait addr pt → m = some m' → m'.events = []) : Waits o t := by
  constructor
  · intro p f' hst hf'
    by_cases hon : (s.cpus c).on = some p
    · exact (v.waits_self hI h hon hev).1 f' hf'
    · exact (v.waits_other hI h hon).1 f' hst hf'
  · intro p hno
    by_cases hon : (s.cpus c).on = some p
    · rcases hno with hno | hno
      · exact absurd (v.started_self hI hon).2 hno
      · exact (v.waits_self hI h hon hev).2 hno
    · exact (v.waits_other hI h hon).2 hno

/-- The executing process sets what it has freed. -/
theorem View.waits_update {o : Fin N → Option Int} {x : Option Int} (hI : Inv s) (v : View s c ch f rest m t)
    (h : Waits o s) (hon : (s.cpus c).on = some p) (hframes : ∀ f' ∈ t.stack (.proc p), f'.Reaped x)
    (hidle : (∀ addr pt, .wait addr pt ∉ t.stack (.proc p)) → x = none) : Waits (Function.update o p x) t := by
  constructor
  · intro p' f' hst hf'
    by_cases hp : p' = p
    · subst hp
      rw [Function.update_self]
      exact hframes f' hf'
    · rw [Function.update_of_ne hp]
      exact (v.waits_other hI h fun h' => hp (Option.some.inj (h'.symm.trans hon))).1 f' hst hf'
  · intro p' hno
    by_cases hp : p' = p
    · subst hp
      rw [Function.update_self]
      rcases hno with hno | hno
      · exact absurd (v.started_self hI hon).2 hno
      · exact hidle hno
    · rw [Function.update_of_ne hp]
      exact (v.waits_other hI h fun h' => hp (Option.some.inj (h'.symm.trans hon))).2 hno

/-! ## Every step -/

/-- A step without an event. -/
theorem View.represents {τ : Tree N} (hI : Inv s) (hF : Family s) (v : View s c ch f rest m t) (h : τ.Represents s)
    (hev : ∀ m', m = some m' → m'.events = []) : τ.Represents t := by
  refine ⟨h.init.trans v.init.symm, fun q => ?_, v.waits hI h.waits fun _ _ m' _ hm => hev m' hm⟩
  · rw [v.init]
    by_cases hw : ∃ r ev k, m = some (.assign q r ev k)
    · obtain ⟨r, ev, k, hm⟩ := hw
      have hwr := next_assign (v.next hm).1
      rw [show ev = [] from hev _ hm] at hwr
      rw [v.assign hm]
      exact (h.phase q).write hI hF v.stack hwr
    · have hag := v.procs fun r ev k hm => hw ⟨r, ev, k, hm⟩
      exact (h.phase q).congr hag.parent hag.pid hag.state hag.xstate

/-- The phases after an assignment to `q` with the event that the tree answers with `ph`. -/
theorem View.phase_set {τ : Tree N} {ph : Phase N} (v : View s c ch f rest (some (.assign q r ev k)) t)
    (h : ∀ x, (τ.phase x).Is s.initproc x (s.procs x)) (hq : ph.Is s.initproc q r) (x : Fin N) :
    ((τ.set q ph).phase x).Is t.initproc x (t.procs x) := by
  rw [v.init]
  by_cases hx : x = q
  · subst hx
    rw [Tree.set_phase, v.assign rfl]
    exact hq
  · rw [Tree.set_phase_of_ne hx]
    have hag := v.procs (q := x) fun r' ev' k' h' => hx (by cases h'; rfl)
    exact (h x).congr hag.parent hag.pid hag.state hag.xstate

theorem View.history_fork {τ : Tree N} {pid : Int} (hI : Inv s) (hF : Family s)
    (v : View s c ch (.fork (.parent q pid)) rest (some (.assign q { s.procs q with parent := some p } ev k)) t)
    (hp : (s.cpus c).proc = some p) (h : τ.Represents s) (hw : Waits τ.reaped t) :
    ∃ τ', τ.step (.fork p q pid) = some τ' ∧ τ'.Represents t := by
  obtain ⟨p', hth, -, hused⟩ := hI.owned_top v.stack (q := q) rfl
  obtain ⟨hnone, hpid⟩ : (s.procs q).parent = none ∧ (s.procs q).pid = pid := hF.top hI v.stack (on_of_thread hth)
  have hq : τ.phase q = .absent := (h.phase q).absent (by rw [hused]; exact id) hnone
  have hstep : τ.step (.fork p q pid) = some (τ.set q (.live { creator := p, orphan := false, pid := pid })) := by
    have halive : (s.procs p).state.alive := by rw [hI.pstate v.stack hp id]; trivial
    simp only [Tree.step, Tree.fork, hq]
    rcases (h.phase p).alive halive with ⟨hr, -⟩ | ⟨b, hb⟩
    · rw [hr]
    · rw [hb]
  exact ⟨_, hstep, h.init.trans v.init.symm, v.phase_set h.phase ⟨rfl, hpid, .inr hused⟩, hw⟩

theorem View.history_reparent {τ : Tree N} {status : Int}
    (v : View s c ch (.exit status (.reparent q)) rest
      (some (.assign q { s.procs q with parent := some s.initproc } ev k)) t)
    (hpar : (s.procs q).parent = some p) (h : τ.Represents s) (hw : Waits τ.reaped t) :
    ∃ τ', τ.step (.reparent q) = some τ' ∧ τ'.Represents t := by
  have hq := h.phase q
  simp only [Tree.step, Tree.reparent]
  cases hph : τ.phase q with
  | absent =>
      rw [hph] at hq
      exact absurd (hpar.symm.trans hq.1) (by simp)
  | root =>
      rw [hph] at hq
      exact absurd (hpar.symm.trans hq.2.1) (by simp)
  | live b =>
      rw [hph] at hq
      exact ⟨_, rfl, h.init.trans v.init.symm, v.phase_set h.phase ⟨rfl, hq.2⟩, hw⟩
  | zombie b st =>
      rw [hph] at hq
      exact ⟨_, rfl, h.init.trans v.init.symm, v.phase_set h.phase ⟨rfl, hq.2⟩, hw⟩

theorem View.history_exit {τ : Tree N} {status : Int} (hI : Inv s) (hF : Family s)
    (v : View s c ch (.exit status .state) rest (some (.assign p { s.procs p with state := .zombie } ev k)) t)
    (hp : (s.cpus c).proc = some p) (h : τ.Represents s) (hw : Waits τ.reaped t) :
    ∃ τ', τ.step (.exit p status) = some τ' ∧ τ'.Represents t := by
  have hmem : .exit status .state ∈ s.stack (s.thread c) := by rw [v.stack]; exact List.mem_cons_self
  obtain ⟨p', hon, hp'⟩ := hI.proc_of_not_onSched hmem id
  rw [hp] at hp'
  cases hp'
  obtain ⟨hinit, hno, hx⟩ : p ≠ s.initproc ∧ s.NoChild p N ∧ (s.procs p).xstate = status := hF.top hI v.stack hon
  have halive : (s.procs p).state.alive := by rw [hI.pstate v.stack hp id]; trivial
  have hph := h.phase p
  rcases hph.alive halive with ⟨-, heq⟩ | ⟨b, hb⟩
  · exact absurd heq hinit
  · rw [hb] at hph
    have hchildren : ∀ x, (τ.phase x).parent τ.init ≠ some p := by
      intro x
      rw [h.init, (h.phase x).parent]
      exact hno x x.isLt
    simp only [Tree.step, Tree.exit, hb, if_pos hchildren]
    exact ⟨_, rfl, h.init.trans v.init.symm, v.phase_set h.phase ⟨hph.1, hph.2.1, rfl, hx⟩, hw⟩

theorem View.history_reap {τ : Tree N} {addr : Bool} {pid : Int} {copied : Option Int} (hI : Inv s) (hF : Family s)
    (v : View s c ch (.wait addr (.freeproc q pid copied)) rest
      (some (.assign q (freeproc (s.procs q)) ev (.wait addr (.freed q pid)))) t)
    (hp : (s.cpus c).proc = some p) (h : τ.Represents s) :
    ∃ τ', τ.step (.reap p q pid copied) = some τ' ∧ τ'.Represents t := by
  have hmem : .wait addr (.freeproc q pid copied) ∈ s.stack (s.thread c) := by rw [v.stack]; exact List.mem_cons_self
  obtain ⟨p', hon, hp'⟩ := hI.proc_of_not_onSched hmem id
  rw [hp] at hp'
  cases hp'
  obtain ⟨hpar, hpid, hcop⟩ : (s.procs q).parent = some p ∧ (s.procs q).pid = pid ∧
    copied = if addr then some (s.procs q).xstate else none := hF.top hI v.stack hon
  have hz : (s.procs q).state = .zombie := hI.facts hmem
  have hph := h.phase q
  obtain ⟨b, hb⟩ := hph.zombie hz
  rw [hb] at hph
  have hnone : τ.reaped p = none := by
    rw [thread_of_on hon] at hmem
    exact h.waits.waiting (v.started_self hI hon).1 hmem
  have hcond : p = b.parent τ.init ∧ pid = b.pid ∧ (copied = none ∨ copied = some (s.procs q).xstate) ∧
      τ.reaped p = none := by
    refine ⟨?_, hpid.symm.trans hph.2.1, ?_, hnone⟩
    · rw [h.init]
      exact Option.some.inj (hpar.symm.trans hph.1)
    · rw [hcop]
      cases addr
      · exact .inl rfl
      · exact .inr rfl
  simp only [Tree.step, Tree.reap, hb, if_pos hcond]
  refine ⟨_, rfl, h.init.trans v.init.symm, v.phase_set h.phase ⟨rfl, id⟩, ?_⟩
  -- the stack is now at `freed`
  have hstack : t.stack (.proc p) = .wait addr (.freed q pid) :: rest := by
    have hev := v.own hon
    generalize t.stack (.proc p) = new at hev
    cases hev with
    | point hk => cases hk; rfl
  have hq : s.stack (.proc p) = .wait addr (.freeproc q pid copied) :: rest := by
    rw [← thread_of_on hon]
    exact v.stack
  obtain ⟨held, rfl⟩ := (hI.shape_top hq).wait
  refine v.waits_update hI h.waits hon (fun f' hf' => ?_) fun hno => ?_
  · rw [hstack] at hf'
    simp only [List.mem_cons, List.not_mem_nil, or_false] at hf'
    rcases hf' with rfl | rfl
    · exact rfl
    · trivial
  · exact absurd (by rw [hstack]; exact List.mem_cons_self) (hno addr (.freed q pid))

theorem View.history_waited {τ : Tree N} {addr : Bool} {ret : Int} (hI : Inv s)
    (v : View s c ch (.wait addr (.done ret)) rest (some (.ret ev)) t) (hp : (s.cpus c).proc = some p)
    (h : τ.Represents s) : ∃ τ', τ.step (.waited p ret) = some τ' ∧ τ'.Represents t := by
  have hmem : .wait addr (.done ret) ∈ s.stack (s.thread c) := by rw [v.stack]; exact List.mem_cons_self
  obtain ⟨p', hon, hp'⟩ := hI.proc_of_not_onSched hmem id
  rw [hp] at hp'
  cases hp'
  have hq : s.stack (.proc p) = .wait addr (.done ret) :: rest := by
    rw [← thread_of_on hon]
    exact v.stack
  have hreaped : τ.reaped p = some ret ∨ τ.reaped p = none ∧ ret = -1 := by
    rw [thread_of_on hon] at hmem
    exact h.waits.waiting (v.started_self hI hon).1 hmem
  have hphase : ∀ x, (τ.phase x).Is t.initproc x (t.procs x) := by
    intro x
    have hag := v.procs (q := x) fun _ _ _ h' => by cases h'
    rw [v.init]
    exact (h.phase x).congr hag.parent hag.pid hag.state hag.xstate
  -- the caller is code at the bottom of the stack
  obtain ⟨held, rfl⟩ := (hI.shape_top hq).wait
  have hstack : t.stack (.proc p) = [.code held] := by
    have hev := v.own hon
    generalize t.stack (.proc p) = new at hev
    cases hev with
    | point hk => cases hk
    | ret hrest => cases hrest; rfl
  have hw : Waits (Function.update τ.reaped p none) t := by
    refine v.waits_update hI h.waits hon (fun f' hf' => ?_) fun _ => rfl
    rw [hstack] at hf'
    rw [List.mem_singleton.mp hf']
    trivial
  simp only [Tree.step, Tree.waited]
  rcases hreaped with hr | ⟨hr, rfl⟩
  · rw [hr]
    exact ⟨_, if_pos rfl, h.init.trans v.init.symm, hphase, hw⟩
  · rw [hr]
    refine ⟨_, if_pos rfl, h.init.trans v.init.symm, hphase, ?_⟩
    rwa [← hr, Function.update_eq_self] at hw

/-- The only event at a return is that of `wait`. -/
theorem next_ret_events (h : f.next s c ch = some (.ret ev)) :
    ev = [] ∨ ∃ addr ret p, f = .wait addr (.done ret) ∧ (s.cpus c).proc = some p ∧ ev = [.waited p ret] := by
  unfold Frame.next at h
  split at h
  · left
    cases ch <;> simp only [intr] at h <;> grind
  · left
    simp only [wakeup] at h
    grind
  · simp only [scheduler] at h
    grind
  · cases ch <;> simp only [code] at h <;> grind
  · left
    simp only [forkret] at h
    grind
  · left
    simp only [yield] at h
    grind
  · left
    simp only [sleep] at h
    grind
  · left
    simp only [kill] at h
    grind
  · rename_i status pt p hp
    cases pt <;> simp only [exit] at h
    case reparent => split at h <;> [split at h; skip] <;> cases h
    all_goals cases h
  · rename_i addr pt p hp
    obtain ⟨ret, rfl⟩ := wait_eq_ret h
    cases h
    exact .inr ⟨addr, ret, p, rfl, hp, rfl⟩
  · rename_i pt p hp
    left
    cases pt <;> simp only [fork] at h
    case alloc => cases ch <;> cases h
    case uvmcopy => cases ch <;> cases h
    all_goals grind
  · cases h

/-- **The tree follows every step.** -/
theorem View.history {τ : Tree N} (hI : Inv s) (hF : Family s) (v : View s c ch f rest m t) (h : τ.Represents s) :
    ∃ τ', Trace.run Tree.step τ (m.elim [] Micro.events) = some τ' ∧ τ'.Represents t := by
  by_cases hev : ∀ m', m = some m' → m'.events = []
  · refine ⟨τ, ?_, v.represents hI hF h hev⟩
    cases m with
    | none => rfl
    | some m' =>
        show Trace.run Tree.step τ m'.events = _
        rw [hev m' rfl]
        rfl
  · obtain ⟨m', rfl, hne⟩ : ∃ m', m = some m' ∧ m'.events ≠ [] := by
      simpa using hev
    have hone : ∀ {e : Event N} {τ' : Tree N}, τ.step e = some τ' → Trace.run Tree.step τ [e] = some τ' := by
      intro e τ' he
      rw [Trace.run_cons, he]
      rfl
    have hw : (∀ addr pt, f ≠ .wait addr pt) → Waits τ.reaped t := fun hf =>
      v.waits hI h.waits fun addr pt _ heq => absurd heq (hf addr pt)
    cases m' with
    | assign q r ev k =>
        have hwr := next_assign (v.next rfl).1
        cases hwr with
        | parent hp =>
            obtain ⟨τ', he, hr⟩ := v.history_fork hI hF hp h (hw (by simp))
            exact ⟨τ', hone he, hr⟩
        | reparent hp hpar =>
            obtain ⟨τ', he, hr⟩ := v.history_reparent hpar h (hw (by simp))
            exact ⟨τ', hone he, hr⟩
        | zombie hp =>
            obtain ⟨τ', he, hr⟩ := v.history_exit hI hF hp h (hw (by simp))
            exact ⟨τ', hone he, hr⟩
        | reap hp =>
            obtain ⟨τ', he, hr⟩ := v.history_reap hI hF hp h
            exact ⟨τ', hone he, hr⟩
        | _ => exact absurd rfl hne
    | ret ev =>
        rcases next_ret_events (v.next rfl).1 with rfl | ⟨addr, ret, p, rfl, hp, rfl⟩
        · exact absurd rfl hne
        · obtain ⟨τ', he, hr⟩ := v.history_waited hI hp h
          exact ⟨τ', hone he, hr⟩
    | _ => exact absurd rfl hne

theorem boot_represents (init : Fin N) : (Tree.boot init).Represents (boot init : Sys N M) := by
  refine ⟨rfl, fun q => ?_, fun _ hf => ?_, fun _ => rfl⟩
  · show Phase.Is init q _ (if q = init then .root else .absent)
    split
    · rename_i hq
      refine ⟨hq, rfl, ?_⟩
      show (if q = init then PState.runnable else .unused).alive
      rw [if_pos hq]
      trivial
    · rename_i hq
      refine ⟨rfl, ?_⟩
      show ¬(if q = init then PState.runnable else .unused).started
      rw [if_neg hq]
      exact id
  · rename_i p f _
    have hf : f ∈ if p = init then start else [] := hf
    split at hf
    · simp only [start, List.mem_cons, List.not_mem_nil, or_false] at hf
      rcases hf with rfl | rfl <;> trivial
    · cases hf

/-- **The log is a history of the process tree**, and the process table is in the state that it leads to. -/
theorem Reachable.history (h : Reachable s) :
    ∃ τ, Trace.run Tree.step (Tree.boot s.initproc) s.log = some τ ∧ τ.Represents s := by
  refine (h.invariant (P := fun s => Family s ∧ ∃ τ, Trace.run Tree.step (Tree.boot s.initproc) s.log = some τ ∧
    τ.Represents s) (fun init => ⟨boot_family init, _, rfl, boot_represents init⟩) ?_).2
  rintro s c ch f rest m t hI hI' v ⟨hF, τ, hrun, hr⟩
  obtain ⟨τ', hstep, hr'⟩ := v.history hI hF hr
  refine ⟨v.family hI hF, τ', ?_, hr'⟩
  rw [v.init, v.log, Trace.run_append, hrun]
  exact hstep

/-! ## Bookkeeping -/

/-- Nothing but a reap ends a ZOMBIE. -/
theorem View.zombie_stays (hI : Inv s) (v : View s c ch f rest m t) (hz : (s.procs q).state = .zombie) :
    ((t.procs q).state = .zombie ∧ (t.procs q).pid = (s.procs q).pid ∧ (t.procs q).xstate = (s.procs q).xstate) ∨
      ∃ w pid copied, t.log = s.log ++ [.reap w q pid copied] := by
  have hmem : f ∈ s.stack (s.thread c) := by rw [v.stack]; exact List.mem_cons_self
  by_cases hw : ∃ r ev k, m = some (.assign q r ev k)
  · obtain ⟨r, ev, k, hm⟩ := hw
    have hwr := next_assign (v.next hm).1
    have hlog := v.log
    rw [hm] at hlog
    -- a call that relies on another state is not there
    have hnot : ∀ {st}, (s.procs q).state = st → st ≠ .zombie → False := fun h hne => hne (h.symm.trans hz)
    have hself : ∀ {p}, (s.cpus c).proc = some p → ¬f.isSched → (s.procs p).state = f.pstate := fun hp hf =>
      hI.pstate v.stack hp hf
    rw [v.assign hm]
    cases hwr with
    | reap hp => exact .inr ⟨_, _, _, hlog⟩
    | yield hp => exact (hnot (hself hp id) (by simp [Frame.pstate])).elim
    | sleepState hp => exact (hnot (hself hp id) (by simp [Frame.pstate])).elim
    | xstate hp => exact (hnot (hself hp id) (by simp [Frame.pstate])).elim
    | zombie hp => exact (hnot (hself hp id) (by simp [Frame.pstate])).elim
    | killState h => exact (hnot h (by simp)).elim
    | pick h => exact (hnot h (by simp)).elim
    | used => exact (hnot (hI.facts hmem) (by simp)).elim
    | unfork =>
        obtain ⟨-, -, -, hused⟩ := hI.owned_top v.stack (q := q) rfl
        exact (hnot hused (by simp)).elim
    | runnable =>
        obtain ⟨-, -, -, hused⟩ := hI.owned_top v.stack (q := q) rfl
        exact (hnot hused (by simp)).elim
    | wake =>
        rw [Proc.wake, if_neg (by rw [hz]; simp)]
        exact .inl ⟨hz, rfl, rfl⟩
    | _ => exact .inl ⟨hz, rfl, rfl⟩
  · have hag := v.procs fun r ev k hm => hw ⟨r, ev, k, hm⟩
    exact .inl ⟨hag.state.trans hz, hag.pid, hag.xstate⟩

/-- A `wait` whose `copyout` fails frees nothing. -/
theorem failed_copyout {pid : Int} (hI : Inv s) (hstack : s.stack (s.thread c) = .wait true (.found q pid) :: rest)
    (hstep : step s (c, .fail) = some t) :
    t.procs = s.procs ∧ t.log = s.log ∧ t.stack (t.thread c) = .wait true (.failed q) :: rest := by
  have hmem : .wait true (.found q pid) ∈ s.stack (s.thread c) := by rw [hstack]; exact List.mem_cons_self
  obtain ⟨p, -, hp⟩ := hI.proc_of_not_onSched hmem id
  have ht : step s (c, .fail) = some (s.goto c (.wait true (.failed q) :: rest)) := by
    simp only [step, hstack]
    rw [if_neg (by simp)]
    simp [Frame.next, hp, wait, Micro.exec]
  rw [ht] at hstep
  cases hstep
  refine ⟨rfl, rfl, ?_⟩
  show Function.update s.stack (s.thread c) _ (s.thread c) = _
  rw [Function.update_self]

end Xv6.Procs
