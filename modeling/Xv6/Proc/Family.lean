import Xv6.Proc.Sleep

/-!
# `Proc.Family` — parents and children

`p->parent` is guarded by `wait_lock`, and so is the step of a process into ZOMBIE. A call that holds
`wait_lock` can therefore rely on what it has seen of its family (`Frame.Kin`): `exit` that the children before
the index of its loop have gone to init, `wait` that the children before the index of its scan are no zombies.
`fork` relies on nobody else touching the slot it has taken.
-/

namespace Xv6.Procs

variable {N M : Nat} {s t : Sys N M} {c c' : Fin M} {p q : Fin N} {f k g : Frame N} {rest fs : Stack N}
  {ch : Choice} {m : Option (Micro N)} {r : Proc N} {ev : List (Event N)}

/-! ## What a call knows about the family -/

/-- None of the first `i` processes is a child of `p`. -/
def Sys.NoChild (s : Sys N M) (p : Fin N) (i : Nat) : Prop := ∀ q : Fin N, q.val < i → (s.procs q).parent ≠ some p

/-- None of the first `i` processes is a dead child of `p`. -/
def Sys.NoZombie (s : Sys N M) (p : Fin N) (i : Nat) : Prop :=
  ∀ q : Fin N, q.val < i → (s.procs q).parent = some p → (s.procs q).state ≠ .zombie

def ExitPt.Kin (s : Sys N M) (p : Fin N) (status : Int) : ExitPt → Prop
  | .reparent i | .reparentWake i => s.NoChild p i
  | .wakeParent | .acquire | .xstate => s.NoChild p N
  | .state => s.NoChild p N ∧ (s.procs p).xstate = status
  | .acquireWait | .releaseWait | .sched | .dead => True

def WaitPt.Kin (s : Sys N M) (p : Fin N) (addr : Bool) : WaitPt N → Prop
  | .scan i _ => s.NoZombie p i
  | .locked q => s.NoZombie p q ∧ (s.procs q).parent = some p
  | .unlock q => s.NoZombie p (q + 1)
  | .found q pid => (s.procs q).parent = some p ∧ (s.procs q).pid = pid
  | .freeMem q pid copied | .freeproc q pid copied =>
      (s.procs q).parent = some p ∧ (s.procs q).pid = pid ∧ copied = if addr then some (s.procs q).xstate else none
  | .acquireWait | .freed _ _ | .failed _ | .asleep | .releaseWait _ | .done _ => True

def ForkPt.Kin (s : Sys N M) : ForkPt N → Prop
  | .alloc q pid | .uvmcopy q pid | .unlock q pid | .acquireWait q pid | .parent q pid =>
      (s.procs q).parent = none ∧ (s.procs q).pid = pid
  | .freeproc q => (s.procs q).parent = none
  | .releaseWait q _ | .relock q _ | .runnable q _ => (s.procs q).parent ≠ none
  | _ => True

def SleepPt.Kin (s : Sys N M) (p : Fin N) : SleepPt → Prop
  | .acquire | .release => s.NoZombie p N
  | _ => True

/-- What a call of process `p` relies on. -/
def Frame.Kin (s : Sys N M) (p : Fin N) : Frame N → Prop
  | .exit status pt => p ≠ s.initproc ∧ pt.Kin s p status
  | .wait addr pt => pt.Kin s p addr
  | .fork pt => pt.Kin s
  | .sleep chan .wait pt => chan = .proc p ∧ pt.Kin s p
  | _ => True

/-- The states of a process that has started and not exited. -/
def PState.alive : PState → Prop
  | .sleeping | .runnable | .running => True
  | _ => False

structure Family (s : Sys N M) : Prop where
  kin : ∀ {p f}, (s.procs p).state.started → f ∈ s.stack (.proc p) → f.Kin s p
  unused : ∀ {q}, (s.procs q).state = .unused → (s.procs q).parent = none
  parent : ∀ {q r}, (s.procs q).parent = some r → (s.procs r).state.alive
  init : (s.procs s.initproc).state.alive

/-! ## Maintenance -/

/-- No process gets another parent and none dies. -/
structure Quiet (s t : Sys N M) : Prop where
  parent : ∀ q, (t.procs q).parent = (s.procs q).parent
  zombie : ∀ q, (t.procs q).state = .zombie → (s.procs q).state = .zombie

theorem Quiet.noChild (h : Quiet s t) {i : Nat} (hn : s.NoChild p i) : t.NoChild p i := by
  intro q hq
  rw [h.parent]
  exact hn q hq

theorem Quiet.noZombie (h : Quiet s t) {i : Nat} (hn : s.NoZombie p i) : t.NoZombie p i := by
  intro q hq hp hz
  rw [h.parent] at hp
  exact hn q hq hp (h.zombie q hz)

/-- What a call relies on is guarded by the locks it holds and by its ownership of a slot. -/
theorem Frame.Kin.congr (h : f.Kin s p) (hinit : t.initproc = s.initproc)
    (hquiet : .wait ∈ f.holds (some p) → Quiet s t)
    (hlock : .wait ∈ f.holds (some p) → ∀ q, .proc q ∈ f.holds (some p) →
      (t.procs q).pid = (s.procs q).pid ∧ (t.procs q).xstate = (s.procs q).xstate)
    (hown : ∀ q, f.owns = some q → (t.procs q).pid = (s.procs q).pid ∧
      ((t.procs q).parent = none ↔ (s.procs q).parent = none)) : f.Kin t p := by
  cases f with
  | exit status pt =>
      refine ⟨by rw [hinit]; exact h.1, ?_⟩
      obtain ⟨-, h⟩ := h
      cases pt with
      | acquireWait => trivial
      | releaseWait => trivial
      | sched => trivial
      | dead => trivial
      | state =>
          have hw : .wait ∈ (Frame.exit status .state : Frame N).holds (some p) := by simp [Frame.holds, ExitPt.holds]
          exact ⟨(hquiet hw).noChild h.1, (hlock hw p List.mem_cons_self).2.trans h.2⟩
      | xstate => exact (hquiet (by simp [Frame.holds, ExitPt.holds])).noChild h
      | _ => exact (hquiet List.mem_cons_self).noChild h
  | wait addr pt =>
      -- the points at which a child's lock is held
      have hchild : ∀ {q}, (.wait ∈ (Frame.wait addr pt).holds (some p) ∧ .proc q ∈ (Frame.wait addr pt).holds (some p)) →
          (t.procs q).parent = (s.procs q).parent ∧ (t.procs q).pid = (s.procs q).pid ∧
            (t.procs q).xstate = (s.procs q).xstate := fun hq =>
        ⟨(hquiet hq.1).parent _, hlock hq.1 _ hq.2⟩
      cases pt with
      | acquireWait => trivial
      | freed q pid => trivial
      | failed q => trivial
      | asleep => trivial
      | releaseWait ret => trivial
      | done ret => trivial
      | scan i havekids => exact (hquiet List.mem_cons_self).noZombie h
      | unlock q => exact (hquiet (by simp [Frame.holds, WaitPt.holds])).noZombie h
      | locked q =>
          have hq := hquiet (by simp [Frame.holds, WaitPt.holds])
          exact ⟨hq.noZombie h.1, (hq.parent q).trans h.2⟩
      | found q pid =>
          obtain ⟨h1, h2, -⟩ := hchild (q := q) (by simp [Frame.holds, WaitPt.holds])
          exact ⟨h1.trans h.1, h2.trans h.2⟩
      | freeMem q pid copied =>
          obtain ⟨h1, h2, h3⟩ := hchild (q := q) (by simp [Frame.holds, WaitPt.holds])
          exact ⟨h1.trans h.1, h2.trans h.2.1, by rw [h3]; exact h.2.2⟩
      | freeproc q pid copied =>
          obtain ⟨h1, h2, h3⟩ := hchild (q := q) (by simp [Frame.holds, WaitPt.holds])
          exact ⟨h1.trans h.1, h2.trans h.2.1, by rw [h3]; exact h.2.2⟩
  | fork pt =>
      have hslot : ∀ {q pid}, (Frame.fork pt).owns = some q → (s.procs q).parent = none ∧ (s.procs q).pid = pid →
          (t.procs q).parent = none ∧ (t.procs q).pid = pid := fun ho hq =>
        ⟨(hown _ ho).2.mpr hq.1, (hown _ ho).1.trans hq.2⟩
      have hkept : ∀ {q}, (Frame.fork pt).owns = some q → (s.procs q).parent ≠ none → (t.procs q).parent ≠ none :=
        fun ho hq hn => hq ((hown _ ho).2.mp hn)
      cases pt with
      | alloc q pid => exact hslot rfl h
      | uvmcopy q pid => exact hslot rfl h
      | unlock q pid => exact hslot rfl h
      | acquireWait q pid => exact hslot rfl h
      | parent q pid => exact hslot rfl h
      | freeproc q => exact (hown q rfl).2.mpr h
      | releaseWait q pid => exact hkept rfl h
      | relock q pid => exact hkept rfl h
      | runnable q pid => exact hkept rfl h
      | _ => trivial
  | sleep chan lk pt =>
      cases lk with
      | wait =>
          refine ⟨h.1, ?_⟩
          obtain ⟨-, h⟩ := h
          cases pt with
          | acquire => exact (hquiet List.mem_cons_self).noZombie h
          | release => exact (hquiet (by simp [Frame.holds, SleepPt.holds])).noZombie h
          | _ => trivial
      | _ => trivial
  | _ => trivial

/-- A step without an assignment changes nothing that a call relies on. -/
theorem Frame.Kin.agrees (h : f.Kin s p) (hinit : t.initproc = s.initproc)
    (hag : ∀ q, (s.procs q).Agrees (t.procs q)) : f.Kin t p :=
  h.congr hinit (fun _ => ⟨fun q => (hag q).parent, fun q hq => (hag q).state ▸ hq⟩)
    (fun _ q _ => ⟨(hag q).pid, (hag q).xstate⟩) fun q _ => ⟨(hag q).pid, by rw [(hag q).parent]⟩

/-- **Without `wait_lock` no parent changes and nobody dies.** -/
theorem Write.quiet (hw : Write s c f q r ev k) (hwait : .wait ∉ f.holds (s.cpus c).proc)
    (hfork : f = .fork (.freeproc q) → (s.procs q).parent = none) :
    r.parent = (s.procs q).parent ∧ (r.state = .zombie → (s.procs q).state = .zombie) := by
  cases hw with
  | reparent hp h => exact absurd List.mem_cons_self hwait
  | parent hp => exact absurd List.mem_cons_self hwait
  | zombie hp => exact absurd (by rw [hp]; simp [Frame.holds, ExitPt.holds]) hwait
  | reap hp => exact absurd (by simp [Frame.holds, WaitPt.holds]) hwait
  | unfork => exact ⟨(hfork rfl).symm, fun h => by cases h⟩
  | wake =>
      unfold Proc.wake
      split
      · exact ⟨rfl, fun h => by cases h⟩
      · exact ⟨rfl, id⟩
  | _ => exact ⟨rfl, fun h => by first | exact h | cases h⟩

theorem Frame.pstate_started (f : Frame N) : f.pstate.started := by
  unfold Frame.pstate
  split <;> trivial

/-- What the executing call relies on. -/
theorem Family.top (hF : Family s) (hI : Inv s) (hstack : s.stack (s.thread c) = f :: rest)
    (hon : (s.cpus c).on = some p) : f.Kin s p := by
  obtain ⟨f', rest', heq, hst⟩ := hI.state hon
  rw [thread_of_on hon, heq] at hstack
  cases hstack
  exact hF.kin (by rw [hst]; exact f.pstate_started) (by rw [heq]; exact List.mem_cons_self)

theorem View.quiet (hI : Inv s) (hF : Family s) (v : View s c ch f rest m t)
    (hwait : .wait ∉ f.holds (s.cpus c).proc) : Quiet s t := by
  have hboth : ∀ q, (t.procs q).parent = (s.procs q).parent ∧
      ((t.procs q).state = .zombie → (s.procs q).state = .zombie) := by
    intro q
    by_cases hw : ∃ r ev k, m = some (.assign q r ev k)
    · obtain ⟨r, ev, k, hm⟩ := hw
      rw [v.assign hm]
      refine (next_assign (v.next hm).1).quiet hwait fun hf => ?_
      subst hf
      obtain ⟨p, hon, -⟩ := hI.proc_of_not_onSched
        (by rw [v.stack]; exact List.mem_cons_self : _ ∈ s.stack (s.thread c)) id
      exact hF.top hI v.stack hon
    · have hag := v.procs fun r ev k hm => hw ⟨r, ev, k, hm⟩
      exact ⟨hag.parent, fun h => hag.state ▸ h⟩
  exact ⟨fun q => (hboth q).1, fun q => (hboth q).2⟩

/-- A thread that has left its CPU holds no lock but its own. -/
theorem Inv.holder {lk : Lock N} (hI : Inv s) (hst : (s.procs p).state.started) (hmem : f ∈ s.stack (.proc p))
    (hlk : lk ∈ f.holds (some p)) (hne : lk ≠ .proc p) : ∃ c, (s.cpus c).on = some p := by
  by_contra hoff
  obtain ⟨-, f', rest', heq, hat, hnil⟩ := hI.saved (fun c hc => hoff ⟨c, hc⟩) hst
  rw [heq] at hmem
  rcases List.mem_cons.mp hmem with rfl | hmem
  · rw [hat.holds] at hlk
    exact hne (List.mem_singleton.mp hlk)
  · rw [holds_of_claimsOf_nil hnil hmem] at hlk
    cases hlk

/-- A slot that is being forked keeps its pid, and it has a parent or not as before. -/
theorem Inv.owned_write {f' : Frame N} (hI : Inv s) (hstack : s.stack (s.thread c) = f :: rest)
    (hw : Write s c f q r ev k) (hf' : f' ∈ s.stack (.proc p)) (hne : s.thread c = .proc p → f' ∈ rest)
    (ho : f'.owns = some q) : r.pid = (s.procs q).pid ∧ (r.parent = none ↔ (s.procs q).parent = none) := by
  have hused := hI.owned hf' ho
  have hsole := hI.sole_owner hstack hf' hne ho
  have hmem : f ∈ s.stack (s.thread c) := by rw [hstack]; exact List.mem_cons_self
  cases hw with
  | parent hp => exact absurd rfl hsole
  | unfork => exact absurd rfl hsole
  | reap hp =>
      have hz : (s.procs q).state = .zombie := hI.facts hmem
      rw [hused] at hz
      cases hz
  | used =>
      have hu : (s.procs q).state = .unused := hI.facts hmem
      rw [hused] at hu
      cases hu
  | reparent hp h => exact ⟨rfl, by simp [h]⟩
  | wake =>
      unfold Proc.wake
      split <;> exact ⟨rfl, Iff.rfl⟩
  | _ => exact ⟨rfl, Iff.rfl⟩

/-- A call other than the executing one keeps what it relies on. -/
theorem View.kin_keep {f' : Frame N} (hI : Inv s) (hF : Family s) (v : View s c ch f rest m t)
    (hst : (s.procs p).state.started) (hmem : f' ∈ s.stack (.proc p)) (hne : (s.cpus c).on = some p → f' ∈ rest) :
    f'.Kin t p := by
  -- the executing call holds none of its locks
  have hclaim : .wait ∈ f'.holds (some p) → ∀ lk ∈ f'.holds (some p), lk ∉ f.holds (s.cpus c).proc := by
    intro hw lk hlk hf
    obtain ⟨c', hon⟩ := hI.holder hst hmem hw (fun h => by cases h)
    obtain ⟨h1, h2⟩ := hI.not_claimed v.stack hf
    have hproc := (hI.on hon).1
    by_cases hc : c' = c
    · subst hc
      exact h1 f' (hne hon) (by rw [hproc]; exact hlk)
    · exact h2 c' hc f' (by rw [thread_of_on hon]; exact hmem) (by rw [hproc]; exact hlk)
  refine (hF.kin hst hmem).congr v.init (fun hw => v.quiet hI hF (hclaim hw _ hw)) (fun hw q hq => ?_) fun q ho => ?_
  · by_cases has : ∃ r ev k, m = some (.assign q r ev k)
    · obtain ⟨r, ev, k, hm⟩ := has
      rw [v.assign hm]
      rcases (next_assign (v.next hm).1).locked with hl | hr
      · exact absurd hl (hclaim hw _ hq)
      · rw [hr]
        exact ⟨rfl, rfl⟩
    · have hag := v.procs fun r ev k hm => has ⟨r, ev, k, hm⟩
      exact ⟨hag.pid, hag.xstate⟩
  · by_cases has : ∃ r ev k, m = some (.assign q r ev k)
    · obtain ⟨r, ev, k, hm⟩ := has
      rw [v.assign hm]
      exact hI.owned_write v.stack (next_assign (v.next hm).1) hmem (fun h => hne (on_of_thread h)) ho
    · have hag := v.procs fun r ev k hm => has ⟨r, ev, k, hm⟩
      exact ⟨hag.pid, by rw [hag.parent]⟩

/-! ## Birth -/

theorem noZombie_succ {i : Nat} (h : s.NoZombie p i)
    (hi : ∀ hi : i < N, (s.procs ⟨i, hi⟩).parent = some p → (s.procs ⟨i, hi⟩).state ≠ .zombie) :
    s.NoZombie p (i + 1) := by
  intro q hq
  rcases Nat.lt_succ_iff_lt_or_eq.mp hq with hlt | rfl
  · exact h q hlt
  · exact hi q.isLt

theorem exit_kin {status : Int} {pt : ExitPt} {m : Micro N} (h : exit s p status pt = some m)
    (hk : m.point = some k) (hnot : ∀ q r ev k', m ≠ .assign q r ev k') (hkin : (Frame.exit status pt).Kin s p) :
    k.Kin s p := by
  obtain ⟨hinit, hkin⟩ := hkin
  cases pt with
  | acquireWait =>
      cases h
      cases hk
      exact ⟨hinit, fun q hq => absurd hq (Nat.not_lt_zero _)⟩
  | reparent i =>
      simp only [exit] at h
      split at h
      · rename_i hi
        split at h <;> cases h
        · exact absurd rfl (hnot _ _ _ _)
        · rename_i hp
          cases hk
          refine ⟨hinit, fun q hq => ?_⟩
          rcases Nat.lt_succ_iff_lt_or_eq.mp hq with hlt | rfl
          · exact hkin q hlt
          · exact hp
      · rename_i hi
        cases h
        cases hk
        exact ⟨hinit, fun q _ => hkin q (Nat.lt_of_lt_of_le q.isLt (Nat.le_of_not_lt hi))⟩
  | reparentWake i => cases h; cases hk
  | wakeParent => cases h; cases hk
  | acquire => cases h; cases hk; exact ⟨hinit, hkin⟩
  | xstate => cases h; exact absurd rfl (hnot _ _ _ _)
  | state => cases h; exact absurd rfl (hnot _ _ _ _)
  | releaseWait => cases h; cases hk; exact ⟨hinit, trivial⟩
  | sched => cases h; cases hk; exact ⟨hinit, trivial⟩
  | dead => cases h

theorem wait_kin {addr : Bool} {pt : WaitPt N} {m : Micro N} (h : wait s p addr pt ch = some m)
    (hk : m.point = some k) (hnot : ∀ q r ev k', m ≠ .assign q r ev k') (hkin : (Frame.wait addr pt).Kin s p) :
    k.Kin s p := by
  cases pt with
  | acquireWait =>
      cases h
      cases hk
      exact fun q hq => absurd hq (Nat.not_lt_zero _)
  | scan i havekids =>
      simp only [wait] at h
      split at h
      · rename_i hi
        split at h <;> cases h <;> cases hk
        · exact ⟨hkin, by assumption⟩
        · exact noZombie_succ hkin fun _ hp => absurd hp (by assumption)
      · split at h <;> cases h <;> cases hk
        trivial
  | locked q =>
      simp only [wait] at h
      split at h <;> cases h <;> cases hk
      · exact ⟨hkin.2, rfl⟩
      · exact noZombie_succ hkin.1 fun _ _ => by assumption
  | unlock q => cases h; cases hk; exact hkin
  | found q pid =>
      simp only [wait] at h
      split at h
      · split at h <;> cases h <;> cases hk
        · exact ⟨hkin.1, hkin.2, (if_pos (by assumption)).symm⟩
        · trivial
      · cases h
        cases hk
        exact ⟨hkin.1, hkin.2, (if_neg (by assumption)).symm⟩
  | freeMem q pid copied => cases h; exact absurd rfl (hnot _ _ _ _)
  | freeproc q pid copied => cases h; exact absurd rfl (hnot _ _ _ _)
  | freed q pid => cases h; cases hk; trivial
  | failed q => cases h; cases hk; trivial
  | asleep => cases h
  | releaseWait ret => cases h; cases hk; trivial
  | done ret => cases h; cases hk

theorem fork_kin {pt : ForkPt N} {m : Micro N} (h : fork s p pt ch = some m)
    (hk : m.point = some k) (hnot : ∀ q r ev k', m ≠ .assign q r ev k') (hkin : (Frame.fork pt).Kin s p) :
    k.Kin s p := by
  cases pt with
  | loop i =>
      simp only [fork] at h
      split at h <;> cases h <;> cases hk <;> trivial
  | locked q =>
      simp only [fork] at h
      split at h <;> cases h <;> cases hk <;> trivial
  | alloc q pid =>
      cases ch <;> simp only [fork] at h <;> cases h <;> cases hk
      · exact hkin
      · exact hkin.1
  | uvmcopy q pid =>
      cases ch <;> simp only [fork] at h <;> cases h <;> cases hk
      · exact hkin
      · exact hkin.1
  | used q pid => cases h; exact absurd rfl (hnot _ _ _ _)
  | freeproc q => cases h; exact absurd rfl (hnot _ _ _ _)
  | parent q pid => cases h; exact absurd rfl (hnot _ _ _ _)
  | runnable q pid => cases h; exact absurd rfl (hnot _ _ _ _)
  | unlock q pid => cases h; cases hk; exact hkin
  | acquireWait q pid => cases h; cases hk; exact hkin
  | releaseWait q pid => cases h; cases hk; exact hkin
  | relock q pid => cases h; cases hk; exact hkin
  | done ret => cases h; cases hk
  | _ => cases h; cases hk; trivial

theorem sleep_kin {chan : Chan N} {lk : Lock N} {pt : SleepPt} (hk : (sleep s p chan lk pt).point = some k)
    (hkin : (Frame.sleep chan lk pt).Kin s p) : k.Kin s p := by
  cases lk with
  | wait =>
      obtain ⟨hchan, hkin⟩ := hkin
      cases pt with
      | acquire => cases hk; exact ⟨hchan, hkin⟩
      | done => cases hk
      | _ => cases hk; exact ⟨hchan, trivial⟩
  | _ => cases pt <;> cases hk <;> trivial

/-- The next point of the executing call. -/
theorem next_kin {m : Micro N} (h : f.next s c ch = some m) (hp : (s.cpus c).proc = some p) (hs : f.Same k)
    (hk : m.point = some k) (hnot : ∀ q r ev k', m ≠ .assign q r ev k') (hkin : f.Kin s p) : k.Kin s p := by
  cases hs with
  | exit status pt pt' =>
      simp only [Frame.next, hp] at h
      exact exit_kin h hk hnot hkin
  | wait addr pt pt' =>
      simp only [Frame.next, hp] at h
      exact wait_kin h hk hnot hkin
  | fork pt pt' =>
      simp only [Frame.next, hp] at h
      exact fork_kin h hk hnot hkin
  | sleep chan lk pt pt' =>
      simp only [Frame.next, hp] at h
      cases h
      exact sleep_kin hk hkin
  | _ => trivial

/-- A call, and the point at which its caller goes on. -/
theorem next_call_kin (h : f.next s c ch = some (.call g k)) (hp : (s.cpus c).proc = some p) (hkin : f.Kin s p) :
    g.Kin s p ∧ k.Kin s p := by
  cases f with
  | intr held =>
      cases ch <;> simp only [Frame.next, intr] at h
      case wakeup => cases h; exact ⟨trivial, trivial⟩
      case yield => split at h <;> [cases h; (split at h <;> cases h; exact ⟨trivial, trivial⟩)]
      case unlock => split at h <;> cases h
      case ret => split at h <;> cases h
      all_goals cases h
  | code held =>
      cases ch <;> simp only [Frame.next, hp, code] at h
      case sleep => split at h <;> cases h; exact ⟨trivial, trivial⟩
      case exit =>
        split at h <;> cases h
        exact ⟨⟨by assumption, trivial⟩, trivial⟩
      case unlock => split at h <;> cases h
      all_goals cases h
      all_goals exact ⟨trivial, trivial⟩
  | exit status pt =>
      simp only [Frame.next, hp] at h
      cases pt <;> simp only [exit] at h
      case reparent => split at h <;> [split at h; skip] <;> cases h
      all_goals cases h
      · exact ⟨trivial, hkin⟩
      · exact ⟨trivial, hkin⟩
  | wait addr pt =>
      simp only [Frame.next, hp] at h
      cases pt <;> simp only [wait] at h
      case scan i havekids =>
        split at h <;> split at h <;> cases h
        rename_i hi _
        exact ⟨⟨rfl, fun q _ => hkin q (Nat.lt_of_lt_of_le q.isLt (Nat.le_of_not_lt hi))⟩, trivial⟩
      all_goals grind
  | wakeup chan pt =>
      cases pt <;> simp only [Frame.next, wakeup] at h <;> grind
  | sched pt => exact (next_call_not_sched h).elim
  | forkret done => cases done <;> simp only [Frame.next, hp, forkret] at h <;> cases h
  | yield pt => cases pt <;> simp only [Frame.next, hp, yield] at h <;> cases h
  | sleep chan lk pt => cases pt <;> simp only [Frame.next, hp, sleep] at h <;> cases h
  | kill pid pt => cases pt <;> simp only [Frame.next, hp, kill] at h <;> grind
  | fork pt =>
      cases pt <;> simp only [Frame.next, hp, fork] at h
      case alloc => cases ch <;> cases h
      case uvmcopy => cases ch <;> cases h
      all_goals grind

/-- An assignment, and what its call relies on next. -/
theorem View.kin_write (hI : Inv s) (hF : Family s) (v : View s c ch f rest (some (.assign q r ev k)) t)
    (hon : (s.cpus c).on = some p) : k.Kin t p := by
  have hkin := hF.top hI v.stack hon
  have hproc := (hI.on hon).1
  have hself : t.procs q = r := v.assign rfl
  have hother : ∀ {q'}, q' ≠ q → (s.procs q').Agrees (t.procs q') := fun hq =>
    v.procs fun r' ev' k' h => hq (by cases h; rfl)
  have hparent : ∀ q', r.parent = (s.procs q).parent → (t.procs q').parent = (s.procs q').parent := by
    intro q' hr
    by_cases hq : q' = q
    · rw [hq, hself, hr]
    · exact (hother hq).parent
  have hmem : f ∈ s.stack (s.thread c) := by rw [v.stack]; exact List.mem_cons_self
  cases next_assign (v.next rfl).1 with
  | reparent hp h =>
      rw [hproc] at hp
      cases hp
      refine ⟨by rw [v.init]; exact hkin.1, fun q' hq' => ?_⟩
      rcases Nat.lt_succ_iff_lt_or_eq.mp hq' with hlt | heq
      · rw [(hother fun h => by rw [h] at hlt; exact Nat.lt_irrefl _ hlt).parent]
        exact hkin.2 q' hlt
      · rw [Fin.ext heq, hself]
        exact fun h => hkin.1 (Option.some.inj h).symm
  | xstate hp =>
      rw [hproc] at hp
      cases hp
      refine ⟨by rw [v.init]; exact hkin.1, fun q' hq' => ?_, by rw [hself]⟩
      rw [hparent q' rfl]
      exact hkin.2 q' hq'
  | zombie hp => exact ⟨by rw [v.init]; exact hkin.1, trivial⟩
  | freeMem =>
      show (t.procs q).parent = some p ∧ (t.procs q).pid = _ ∧ _ = if _ then some (t.procs q).xstate else none
      rw [hself]
      exact hkin
  | reap hp => trivial
  | used =>
      show (t.procs q).parent = none ∧ (t.procs q).pid = _
      rw [hself]
      exact ⟨hF.unused (hI.facts hmem), rfl⟩
  | copySz hp =>
      show (t.procs q).parent = none ∧ (t.procs q).pid = _
      rw [hself]
      exact hkin
  | resize hp => trivial
  | unfork => trivial
  | parent hp =>
      show (t.procs q).parent ≠ none
      rw [hself]
      simp
  | runnable => trivial
  | sleepChan hp =>
      rename_i chan lk
      cases lk <;> exact hkin
  | sleepState hp =>
      rename_i chan lk
      cases lk <;> exact hkin
  | sleepTidy hp =>
      rename_i chan lk
      cases lk <;> exact hkin
  | yield hp => trivial
  | wake => trivial
  | killed => trivial
  | killState h => trivial
  | pick h => trivial

/-! ## Every step -/

theorem start_kin (h : f ∈ start) : f.Kin s p := by
  simp only [start, List.mem_cons, List.not_mem_nil, or_false] at h
  rcases h with rfl | rfl <;> trivial

/-- A thread that another CPU does not execute and that has started, had started before or is fresh. -/
theorem View.started (hI : Inv s) (v : View s c ch f rest m t) (hon : (s.cpus c).on ≠ some p)
    (hst : (t.procs p).state.started) : (s.procs p).state.started ∨ s.stack (.proc p) = start := by
  by_cases hw : ∃ r ev k, m = some (.assign p r ev k)
  · obtain ⟨r, ev, k, hm⟩ := hw
    have hwr := next_assign (v.next hm).1
    rw [v.assign hm] at hst
    rcases hI.transition v.stack hwr with h | h | h
    · exact absurd h hon
    · obtain ⟨p', hth, hmem, hused⟩ := hI.owned_top v.stack h
      cases hwr with
      | runnable => exact .inr (hI.ready hmem (q := p) rfl).2
      | unfork => exact hst.elim
      | parent hp =>
          rw [show (s.procs p).state = .used from hused] at hst
          exact hst.elim
      | copySz hp =>
          rw [show (s.procs p).state = .used from hused] at hst
          exact hst.elim
      | _ => cases h
    · left
      generalize r.state = st at h hst
      generalize (s.procs p).state = st' at h
      cases h <;> first | exact hst | trivial
  · have hag := v.procs fun r ev k hm => hw ⟨r, ev, k, hm⟩
    exact .inl (hag.state ▸ hst)

theorem View.kin {f' : Frame N} (hI : Inv s) (hF : Family s) (v : View s c ch f rest m t)
    (hst : (t.procs p).state.started) (hmem : f' ∈ t.stack (.proc p)) : f'.Kin t p := by
  by_cases hon : (s.cpus c).on = some p
  · have hq : s.stack (.proc p) = f :: rest := by
      rw [← thread_of_on hon]
      exact v.stack
    have hs : (s.procs p).state.started := by
      obtain ⟨f₀, rest₀, heq, hst₀⟩ := hI.state hon
      rw [hst₀]
      exact f₀.pstate_started
    have hkin := hF.top hI v.stack hon
    have hproc := (hI.on hon).1
    have hkeep : ∀ {f'}, f' ∈ rest → f'.Kin t p := fun h =>
      v.kin_keep hI hF hs (by rw [hq]; exact List.mem_cons_of_mem _ h) fun _ => h
    have hev := v.own hon
    generalize t.stack (.proc p) = fs at hev hmem
    cases hev with
    | point hk =>
        rename_i m' k
        rcases List.mem_cons.mp hmem with rfl | hmem
        · obtain ⟨hnext, hfit⟩ := v.next rfl
          by_cases has : ∃ q r ev k', m' = .assign q r ev k'
          · obtain ⟨q, r, ev, k', rfl⟩ := has
            cases hk
            exact v.kin_write hI hF hon
          · refine (next_kin hnext hproc (hfit.same hk) hk (fun q r ev k' h => has ⟨q, r, ev, k', h⟩) hkin).agrees
              v.init fun q => v.procs fun r ev k' h => has ⟨q, r, ev, k', Option.some.inj h⟩
        · exact hkeep hmem
    | call =>
        have hag : ∀ q, (s.procs q).Agrees (t.procs q) := fun q => v.procs fun _ _ _ h => by cases h
        obtain ⟨hg, hk⟩ := next_call_kin (v.next rfl).1 hproc hkin
        rcases List.mem_cons.mp hmem with rfl | hmem
        · exact hg.agrees v.init hag
        · rcases List.mem_cons.mp hmem with rfl | hmem
          · exact hk.agrees v.init hag
          · exact hkeep hmem
    | ret hrest =>
        rename_i ev b below
        subst hrest
        rcases List.mem_cons.mp hmem with rfl | hmem
        · rcases regain_cases f b with h | ⟨held, h⟩ | ⟨addr, h⟩
          · rw [h]
            exact hkeep List.mem_cons_self
          · rw [h]
            trivial
          · rw [h]
            exact fun q hq => absurd hq (Nat.not_lt_zero _)
        · exact hkeep (List.mem_cons_of_mem _ hmem)
    | intr =>
        have hag : ∀ q, (s.procs q).Agrees (t.procs q) := fun q => v.procs fun _ _ _ h => by cases h
        rcases List.mem_cons.mp hmem with rfl | hmem
        · trivial
        · rcases List.mem_cons.mp hmem with rfl | hmem
          · exact hkin.agrees v.init hag
          · exact hkeep hmem
  · rcases v.others hon with hsame | ⟨-, hstart⟩
    · rw [hsame] at hmem
      rcases v.started hI hon hst with hs | hs
      · exact v.kin_keep hI hF hs hmem fun h => absurd h hon
      · rw [hs] at hmem
        exact start_kin hmem
    · rw [hstart] at hmem
      exact start_kin hmem

/-- A process that lives goes on living, unless it exits. -/
theorem Inv.alive_write (hI : Inv s) (hstack : s.stack (s.thread c) = f :: rest) (hw : Write s c f q r ev k)
    (hst : (s.procs q).state.alive) :
    r.state.alive ∨ (∃ status, f = .exit status .state) ∧ (s.cpus c).on = some q := by
  have hmem : f ∈ s.stack (s.thread c) := by rw [hstack]; exact List.mem_cons_self
  have hnot : ∀ {st}, (s.procs q).state = st → ¬st.alive → False := by
    rintro st h hn
    exact hn (h ▸ hst)
  cases hw with
  | zombie hp =>
      obtain ⟨p', hon, hp'⟩ := hI.proc_of_not_onSched hmem id
      rw [hp] at hp'
      cases hp'
      exact .inr ⟨⟨_, rfl⟩, hon⟩
  | reap hp => exact (hnot (hI.facts hmem) id).elim
  | used => exact (hnot (hI.facts hmem) id).elim
  | unfork =>
      obtain ⟨-, -, -, hused⟩ := hI.owned_top hstack (q := q) rfl
      exact (hnot hused id).elim
  | wake =>
      left
      unfold Proc.wake
      split
      · trivial
      · exact hst
  | _ => left; first | exact hst | trivial

/-- Where a parent comes from. -/
theorem Inv.parent_write (hI : Inv s) (hF : Family s) (hstack : s.stack (s.thread c) = f :: rest)
    (hw : Write s c f q r ev k) {p' : Fin N} (hr : r.parent = some p') :
    (s.procs q).parent = some p' ∨ (s.procs p').state.alive ∧ r.state = (s.procs q).state := by
  cases hw with
  | reparent hp h =>
      cases hr
      exact .inr ⟨hF.init, rfl⟩
  | parent hp =>
      cases hr
      have hst := hI.pstate hstack hp id
      exact .inr ⟨by rw [hst]; trivial, rfl⟩
  | reap hp => cases hr
  | unfork => cases hr
  | wake =>
      rw [Proc.wake] at hr
      split at hr <;> exact .inl hr
  | _ => exact .inl hr

/-- A slot that is free has no parent. -/
theorem Inv.unused_write (hI : Inv s) (hF : Family s) (hstack : s.stack (s.thread c) = f :: rest)
    (hw : Write s c f q r ev k) (hu : r.state = .unused) : r.parent = none := by
  cases hw with
  | reap hp => rfl
  | unfork => rfl
  | reparent hp h =>
      have := hF.unused hu
      rw [h] at this
      cases this
  | parent hp =>
      obtain ⟨-, -, -, hused⟩ := hI.owned_top hstack (q := q) rfl
      have hu : (s.procs q).state = .unused := hu
      rw [hused] at hu
      cases hu
  | wake =>
      rw [Proc.wake] at hu ⊢
      split at hu
      · cases hu
      · rename_i h
        rw [if_neg h]
        exact hF.unused hu
  | _ => first | exact hF.unused hu | cases hu

/-- **Every step keeps the family in order.** -/
theorem View.family (hI : Inv s) (hF : Family s) (v : View s c ch f rest m t) : Family t := by
  -- the executing process has no child when it dies
  have hexit : ∀ {status p q}, f = .exit status .state → (s.cpus c).on = some p → (s.procs q).parent ≠ some p := by
    rintro status p q rfl hon
    exact (hF.top hI v.stack hon).2.1 q q.isLt
  -- a process that lives and has a child goes on living
  have halive : ∀ {q p}, (s.procs p).state.alive → (s.procs q).parent = some p ∨ p = s.initproc →
      (t.procs p).state.alive := by
    intro q p hp hfam
    by_cases hw : ∃ r ev k, m = some (.assign p r ev k)
    · obtain ⟨r, ev, k, hm⟩ := hw
      rw [v.assign hm]
      rcases hI.alive_write v.stack (next_assign (v.next hm).1) hp with h | ⟨⟨status, hf⟩, hon⟩
      · exact h
      · rcases hfam with h | h
        · exact absurd h (hexit hf hon)
        · subst hf
          exact absurd h (hF.top hI v.stack hon).1
    · rw [(v.procs fun r ev k hm => hw ⟨r, ev, k, hm⟩).state]
      exact hp
  refine ⟨fun hst hf => v.kin hI hF hst hf, ?_, ?_, ?_⟩
  · intro q hu
    by_cases hw : ∃ r ev k, m = some (.assign q r ev k)
    · obtain ⟨r, ev, k, hm⟩ := hw
      rw [v.assign hm] at hu ⊢
      exact hI.unused_write hF v.stack (next_assign (v.next hm).1) hu
    · have hag := v.procs fun r ev k hm => hw ⟨r, ev, k, hm⟩
      rw [hag.state] at hu
      rw [hag.parent]
      exact hF.unused hu
  · intro q p hp
    by_cases hw : ∃ r ev k, m = some (.assign q r ev k)
    · obtain ⟨r, ev, k, hm⟩ := hw
      have hwr := next_assign (v.next hm).1
      rw [v.assign hm] at hp
      rcases hI.parent_write hF v.stack hwr hp with h | ⟨h, hst⟩
      · exact halive (hF.parent h) (.inl h)
      · -- the assignment sets a parent and nothing else
        by_cases hpq : p = q
        · rw [hpq, v.assign hm, hst, ← hpq]
          exact h
        · rw [(v.procs fun r' ev' k' h' => hpq (by rw [hm] at h'; cases h'; rfl)).state]
          exact h
    · rw [(v.procs fun r ev k hm => hw ⟨r, ev, k, hm⟩).parent] at hp
      exact halive (hF.parent hp) (.inl hp)
  · rw [v.init]
    exact halive (q := s.initproc) hF.init (.inr rfl)

theorem boot_family (init : Fin N) : Family (boot init : Sys N M) := by
  constructor
  case kin =>
    intro p f _ hf
    have hf : f ∈ if p = init then start else [] := hf
    split at hf
    · exact start_kin hf
    · cases hf
  case unused => exact fun _ => rfl
  case parent => exact fun h => by cases h
  case init =>
    show (if init = init then PState.runnable else .unused).alive
    rw [if_pos rfl]
    trivial

theorem Reachable.family (h : Reachable s) : Family s :=
  h.invariant boot_family fun hI _ v hF => v.family hI hF

end Xv6.Procs
