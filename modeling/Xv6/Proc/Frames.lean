import Xv6.Lib.Locks
import Xv6.Proc.Model

/-!
# `Proc.Frames` — what a program point says

The text of a function determines, at each of its points, which locks the call holds (`Frame.holds`), the
`p->state` of the process that executes it (`Frame.pstate`) and who can have called it (`Calls`). `next_ok`
says that every statement fits the points before and after it; the invariants of the machine are built from
these three.
-/

namespace Xv6.Procs

variable {N M : Nat}

/-! ## Locks -/

/-- The lock of the process that executes the call. -/
def own (myproc : Option (Fin N)) : List (Lock N) := myproc.toList.map .proc

@[simp] theorem own_some (p : Fin N) : own (some p) = [.proc p] := rfl

def YieldPt.holds (own : List (Lock N)) : YieldPt → List (Lock N)
  | .state | .sched | .release => own
  | .acquire | .done => []

def SleepPt.holds (own : List (Lock N)) (lk : Lock N) : SleepPt → List (Lock N)
  | .acquire | .done => [lk]
  | .release => own ++ [lk]
  | .chan | .state | .sched | .tidy | .unlock => own
  | .reacquire => []

def WakeupPt.holds : WakeupPt N → List (Lock N)
  | .loop _ => []
  | .locked q | .unlock q => [.proc q]

def KillPt.holds : KillPt N → List (Lock N)
  | .loop _ | .done _ => []
  | .locked q | .state q | .found q | .unlock q => [.proc q]

def ExitPt.holds (own : List (Lock N)) : ExitPt → List (Lock N)
  | .acquireWait => []
  | .reparent _ | .reparentWake _ | .wakeParent | .acquire => [.wait]
  | .xstate | .state | .releaseWait => own ++ [.wait]
  | .sched | .dead => own

def WaitPt.holds : WaitPt N → List (Lock N)
  | .acquireWait | .asleep | .done _ => []
  | .scan _ _ | .releaseWait _ => [.wait]
  | .locked q | .unlock q | .found q _ | .freeMem q _ _ | .freeproc q _ _ | .freed q _ | .failed q =>
      [.proc q, .wait]

def ForkPt.holds : ForkPt N → List (Lock N)
  | .loop _ | .acquireWait _ _ | .relock _ _ | .done _ => []
  | .locked q | .miss q | .pidAcquire q | .used q _ | .alloc q _ | .uvmcopy q _ | .freeproc q | .unlockFreed q
  | .unlock q _ | .runnable q _ | .unlockRunnable q _ => [.proc q]
  | .pidRead q | .pidRelease q _ => [.pid, .proc q]
  | .parent _ _ | .releaseWait _ _ => [.wait]

def SchedPt.holds : SchedPt N → List (Lock N)
  | .loop _ => []
  | .locked q | .setProc q | .swtch q | .back q | .unlock q => [.proc q]

/-- The locks of a call at its program point. -/
def Frame.holds (myproc : Option (Fin N)) : Frame N → List (Lock N)
  | .code held | .intr held => held.map .other
  | .forkret done => if done then [] else own myproc
  | .yield pt => pt.holds (own myproc)
  | .sleep _ lk pt => pt.holds (own myproc) lk
  | .wakeup _ pt => pt.holds
  | .kill _ pt => pt.holds
  | .exit _ pt => pt.holds (own myproc)
  | .wait _ pt => pt.holds
  | .fork pt => pt.holds
  | .sched pt => pt.holds

/-- The locks of all active calls. -/
def claimsOf (myproc : Option (Fin N)) (fs : Stack N) : List (Lock N) := fs.flatMap (Frame.holds myproc)

@[simp] theorem claimsOf_cons (myproc : Option (Fin N)) (f : Frame N) (fs : Stack N) :
    claimsOf myproc (f :: fs) = f.holds myproc ++ claimsOf myproc fs := rfl

/-! ## The state of the process -/

/-- `p->state` while `p` executes the call. Only between the assignment of another state and the `swtch` that
    follows it is it not `RUNNING`. -/
def Frame.pstate : Frame N → PState
  | .yield .sched => .runnable
  | .sleep _ _ .sched => .sleeping
  | .exit _ .releaseWait | .exit _ .sched => .zombie
  | _ => .running

/-- In that window the process holds its own lock. -/
theorem Frame.mem_holds_of_pstate {f : Frame N} {p : Fin N} (h : f.pstate ≠ .running) :
    .proc p ∈ f.holds (some p) := by
  unfold Frame.pstate at h
  split at h <;> simp_all [Frame.holds, YieldPt.holds, SleepPt.holds, ExitPt.holds]

/-- A call that holds nothing holds nothing in whatever process it is made. -/
theorem Frame.holds_nil {f : Frame N} {p : Fin N} (h : f.holds (some p) = []) (myproc : Option (Fin N)) :
    f.holds myproc = [] := by
  cases f with
  | forkret done => cases done <;> first | rfl | cases h
  | yield pt => cases pt <;> first | rfl | cases h
  | sleep chan lk pt => cases pt <;> first | rfl | cases h
  | exit status pt => cases pt <;> first | rfl | cases h
  | _ => exact h

/-- The process that the call prepares or frees. It does not run yet, or no more. -/
def Frame.child : Frame N → Option (Fin N)
  | .wait _ (.found q _) | .wait _ (.freeMem q _ _) | .wait _ (.freeproc q _ _) => some q
  | .fork (.pidAcquire q) | .fork (.pidRead q) | .fork (.pidRelease q _) | .fork (.used q _)
  | .fork (.alloc q _) | .fork (.uvmcopy q _) | .fork (.freeproc q) | .fork (.unlock q _)
  | .fork (.acquireWait q _) | .fork (.parent q _) | .fork (.releaseWait q _) | .fork (.relock q _)
  | .fork (.runnable q _) => some q
  | _ => none

/-! ## Callers -/

def Frame.isCode : Frame N → Prop
  | .code _ => True
  | _ => False

def Frame.isSched : Frame N → Prop
  | .sched _ => True
  | _ => False

/-- The calls that are made on a scheduler's stack. -/
def Frame.onSched : Frame N → Prop
  | .sched _ | .intr _ | .wakeup _ _ => True
  | _ => False

/-- The call `f` is made by `k`, at the point where `k` goes on when `f` returns. -/
inductive Calls : Frame N → Frame N → Prop
  | intr (held : List Nat) {k : Frame N} (h : ¬k.isSched) (hp : k.pstate = .running)
      (hnil : ∀ myproc, k.holds myproc = []) : Calls (.intr held) k
  | intrLoop (held : List Nat) (i : Nat) : Calls (.intr held) (.sched (.loop i))
  | wakeupCode (chan : Chan N) (pt : WakeupPt N) (held : List Nat) : Calls (.wakeup chan pt) (.code held)
  | wakeupIntr (chan : Chan N) (pt : WakeupPt N) (held : List Nat) : Calls (.wakeup chan pt) (.intr held)
  | wakeupReparent (chan : Chan N) (pt : WakeupPt N) (status : Int) (i : Nat) :
      Calls (.wakeup chan pt) (.exit status (.reparent i))
  | wakeupExit (chan : Chan N) (pt : WakeupPt N) (status : Int) : Calls (.wakeup chan pt) (.exit status .acquire)
  | sleepCode (chan n : Nat) (pt : SleepPt) (held : List Nat) :
      Calls (.sleep (.other chan) (.other n) pt) (.code held)
  | sleepWait (p : Fin N) (pt : SleepPt) (addr : Bool) : Calls (.sleep (.proc p) .wait pt) (.wait addr .asleep)
  | yieldCode (pt : YieldPt) (held : List Nat) : Calls (.yield pt) (.code held)
  | yieldIntr (pt : YieldPt) (held : List Nat) : Calls (.yield pt) (.intr held)
  | forkret (done : Bool) (held : List Nat) : Calls (.forkret done) (.code held)
  | kill (pid : Int) (pt : KillPt N) (held : List Nat) : Calls (.kill pid pt) (.code held)
  | exit (status : Int) (pt : ExitPt) (held : List Nat) : Calls (.exit status pt) (.code held)
  | wait (addr : Bool) (pt : WaitPt N) (held : List Nat) : Calls (.wait addr pt) (.code held)
  | fork (pt : ForkPt N) (held : List Nat) : Calls (.fork pt) (.code held)

/-- Two points of one call. -/
inductive Frame.Same : Frame N → Frame N → Prop
  | code (held held' : List Nat) : Same (.code held) (.code held')
  | intr (held held' : List Nat) : Same (.intr held) (.intr held')
  | forkret (done done' : Bool) : Same (.forkret done) (.forkret done')
  | yield (pt pt' : YieldPt) : Same (.yield pt) (.yield pt')
  | sleep (chan : Chan N) (lk : Lock N) (pt pt' : SleepPt) : Same (.sleep chan lk pt) (.sleep chan lk pt')
  | wakeup (chan : Chan N) (pt pt' : WakeupPt N) : Same (.wakeup chan pt) (.wakeup chan pt')
  | kill (pid : Int) (pt pt' : KillPt N) : Same (.kill pid pt) (.kill pid pt')
  | exit (status : Int) (pt pt' : ExitPt) : Same (.exit status pt) (.exit status pt')
  | wait (addr : Bool) (pt pt' : WaitPt N) : Same (.wait addr pt) (.wait addr pt')
  | fork (pt pt' : ForkPt N) : Same (.fork pt) (.fork pt')
  | sched (pt pt' : SchedPt N) : Same (.sched pt) (.sched pt')

theorem Frame.Same.refl (f : Frame N) : f.Same f := by
  cases f <;> constructor

theorem Frame.Same.symm {f k : Frame N} (h : f.Same k) : k.Same f := by
  cases h <;> constructor

variable {f k b : Frame N} {rest : Stack N} {base : Frame N → Prop}

theorem Calls.of_same (h : Calls f b) (hs : f.Same k) : Calls k b := by
  cases hs <;> cases h <;> first | exact .intrLoop _ _ | (constructor <;> assumption)

theorem Calls.pstate (h : Calls f k) : k.pstate = .running := by
  cases h <;> first | rfl | assumption

theorem Calls.not_isSched (h : Calls f k) : ¬f.isSched := by
  cases h <;> exact id

theorem Frame.Same.isCode (hs : f.Same k) (h : f.isCode) : k.isCode := by
  cases hs <;> exact h

theorem Frame.Same.isSched (hs : f.Same k) (h : f.isSched) : k.isSched := by
  cases hs <;> exact h

theorem Frame.Same.onSched (hs : f.Same k) (h : f.onSched) : k.onSched := by
  cases hs <;> exact h

/-- Every call on the stack is made by the one below it, and `base` says what the stack starts with. -/
def Shape (base : Frame N → Prop) : Stack N → Prop
  | [] => False
  | [f] => base f
  | f :: k :: rest => Calls f k ∧ Shape base (k :: rest)

theorem Shape.replace (h : Shape base (f :: rest)) (hs : f.Same k) (hb : base f → base k) :
    Shape base (k :: rest) := by
  cases rest with
  | nil => exact hb h
  | cons b rest => exact ⟨h.1.of_same hs, h.2⟩

theorem Shape.push (h : Shape base (k :: rest)) (hc : Calls f k) : Shape base (f :: k :: rest) := ⟨hc, h⟩

/-- Code outside `proc.c` is nobody's callee. -/
theorem Shape.code {held : List Nat} (h : Shape base (.code held :: rest)) : rest = [] := by
  cases rest with
  | nil => rfl
  | cons b rest => cases h.1

theorem Shape.sched {pt : SchedPt N} (h : Shape base (.sched pt :: rest)) : rest = [] := by
  cases rest with
  | nil => rfl
  | cons b rest => cases h.1

/-! ## Statements -/

/-- The three ways to leave the CPU, with the point at which the process goes on. -/
inductive Parks : Frame N → Frame N → Prop
  | yield : Parks (.yield .sched) (.yield .release)
  | sleep (chan : Chan N) (lk : Lock N) : Parks (.sleep chan lk .sched) (.sleep chan lk .tidy)
  | exit (status : Int) : Parks (.exit status .sched) (.exit status .dead)

/-- The assignments to `c->proc`. -/
inductive SetsProc : Frame N → Option (Fin N) → Frame N → Prop
  | set (q : Fin N) : SetsProc (.sched (.setProc q)) (some q) (.sched (.swtch q))
  | clear (q : Fin N) : SetsProc (.sched (.back q)) none (.sched (.unlock q))

/-- A statement fits the point `f` it is executed at. -/
def Micro.Fits (myproc : Option (Fin N)) (f : Frame N) : Micro N → Prop
  | .acquire lk k =>
      (k.holds myproc).Perm (lk :: f.holds myproc) ∧ k.pstate = f.pstate ∧ f.Same k
  | .release lk k =>
      (f.holds myproc).Perm (lk :: k.holds myproc) ∧ k.pstate = f.pstate ∧ f.Same k
  | .goto k | .nextpid k =>
      (k.holds myproc).Perm (f.holds myproc) ∧ k.pstate = f.pstate ∧ f.Same k
  | .assign q r _ k =>
      (k.holds myproc).Perm (f.holds myproc) ∧ f.Same k ∧
        (myproc = some q → r.state = k.pstate) ∧ (myproc ≠ some q → k.pstate = f.pstate)
  | .spawn q k => ∃ pid, f = .fork (.alloc q pid) ∧ k = .fork (.uvmcopy q pid)
  | .setProc p k => SetsProc f p k
  | .call g k =>
      (g.holds myproc ++ k.holds myproc).Perm (f.holds myproc) ∧ f.pstate = .running ∧
        g.pstate = .running ∧ k.pstate = .running ∧ f.Same k ∧ Calls g k
  | .ret _ => f.pstate = .running ∧ ∀ k, Calls f k → (f.regain k).pstate = .running ∧
      ((f.regain k).holds myproc).Perm (f.holds myproc ++ k.holds myproc) ∧ k.Same (f.regain k)
  | .swtch k => Parks f k
  | .resume q k => f = .sched (.swtch q) ∧ k = .sched (.back q)

variable {s : Sys N M} {c : Fin M} {ch : Choice} {m : Micro N} {myproc : Option (Fin N)}

theorem erase_holds {held : List Nat} {n : Nat} (h : n ∈ held) :
    (held.map (Lock.other (N := N))).Perm (.other n :: (held.erase n).map .other) :=
  (List.perm_cons_erase h).map _

/-- A caller that is not waiting for `sleep` goes on where it is. -/
theorem fits_ret {ev : List (Event N)} (hf : f.holds myproc = []) (hp : f.pstate = .running)
    (hs : ∀ chan lk pt, f ≠ .sleep chan lk pt) : (Micro.ret ev).Fits myproc f := by
  refine ⟨hp, fun k hk => ?_⟩
  have hsame : f.regain k = k := by
    cases hk <;> first | rfl | exact absurd rfl (hs _ _ _)
  rw [hsame, hf]
  refine ⟨?_, .rfl, .refl k⟩
  cases hk <;> first | rfl | assumption

/-- A call to a function that starts without a lock. -/
theorem fits_call {g : Frame N} (hg : g.holds myproc = []) (hf : f.pstate = .running) (hp : g.pstate = .running)
    (hc : Calls g f) : (Micro.call g f).Fits myproc f :=
  ⟨by rw [hg]; exact .rfl, hf, hp, hf, .refl f, hc⟩

theorem code_fits {p : Fin N} {held : List Nat} (h : code s p held ch = some m)
    (hrun : (s.procs p).state = .running) : m.Fits (some p) (.code held) := by
  cases ch with
  | lock n => cases h; exact ⟨.rfl, rfl, .code _ _⟩
  | unlock n =>
      simp only [code] at h
      split at h
      · rename_i hn
        cases h
        exact ⟨erase_holds hn, rfl, .code _ _⟩
      · cases h
  | sleep chan n =>
      simp only [code] at h
      split at h
      · rename_i hn
        cases h
        exact ⟨(erase_holds hn).symm, rfl, rfl, rfl, .code _ _, .sleepCode _ _ _ _⟩
      · cases h
  | wakeup chan => cases h; exact fits_call rfl rfl rfl (.wakeupCode _ _ _)
  | yield => cases h; exact fits_call rfl rfl rfl (.yieldCode _ _)
  | fork => cases h; exact fits_call rfl rfl rfl (.fork _ _)
  | exit status =>
      simp only [code] at h
      split at h
      · cases h
      · cases h
        exact fits_call rfl rfl rfl (.exit _ _ _)
  | wait addr => cases h; exact fits_call rfl rfl rfl (.wait _ _ _)
  | kill pid => cases h; exact fits_call rfl rfl rfl (.kill _ _ _)
  | resize sz => cases h; exact ⟨.rfl, .code _ _, fun _ => hrun, fun _ => rfl⟩
  | go => cases h
  | ok => cases h
  | fail => cases h
  | intr => cases h
  | ret => cases h

theorem intr_fits {held : List Nat} (h : intr s myproc held ch = some m) : m.Fits myproc (.intr held) := by
  cases ch with
  | lock n => cases h; exact ⟨.rfl, rfl, .intr _ _⟩
  | unlock n =>
      simp only [intr] at h
      split at h
      · rename_i hn
        cases h
        exact ⟨erase_holds hn, rfl, .intr _ _⟩
      · cases h
  | wakeup chan => cases h; exact fits_call rfl rfl rfl (.wakeupIntr _ _ _)
  | yield =>
      simp only [intr] at h
      split at h
      · cases h
      · split at h
        · cases h
          exact fits_call rfl rfl rfl (.yieldIntr _ _)
        · cases h
  | ret =>
      simp only [intr] at h
      split at h
      · rename_i hnil
        cases h
        subst hnil
        exact fits_ret rfl rfl (by simp)
      · cases h
  | sleep chan n => cases h
  | fork => cases h
  | exit status => cases h
  | wait addr => cases h
  | kill pid => cases h
  | resize sz => cases h
  | go => cases h
  | ok => cases h
  | fail => cases h
  | intr => cases h

theorem forkret_fits {p : Fin N} {done : Bool} : (forkret p done).Fits (some p) (.forkret done) := by
  cases done with
  | false => exact ⟨.rfl, rfl, .forkret _ _⟩
  | true => exact fits_ret rfl rfl (by simp)

theorem yield_fits {p : Fin N} {pt : YieldPt} : (yield s p pt).Fits (some p) (.yield pt) := by
  cases pt with
  | acquire => exact ⟨.rfl, rfl, .yield _ _⟩
  | state => exact ⟨.rfl, .yield _ _, fun _ => rfl, fun h => absurd rfl h⟩
  | sched => exact .yield
  | release => exact ⟨.rfl, rfl, .yield _ _⟩
  | done => exact fits_ret rfl rfl (by simp)

/-- `sleep` gives the lock back to the caller it has it from. -/
theorem sleep_fits {p : Fin N} {chan : Chan N} {lk : Lock N} {pt : SleepPt}
    (hrun : (s.procs p).state = (Frame.sleep chan lk pt : Frame N).pstate) :
    (sleep s p chan lk pt).Fits (some p) (.sleep chan lk pt) := by
  cases pt with
  | acquire => exact ⟨.rfl, rfl, .sleep _ _ _ _⟩
  | release => exact ⟨.swap _ _ _, rfl, .sleep _ _ _ _⟩
  | chan => exact ⟨.rfl, .sleep _ _ _ _, fun _ => hrun, fun h => absurd rfl h⟩
  | state => exact ⟨.rfl, .sleep _ _ _ _, fun _ => rfl, fun h => absurd rfl h⟩
  | sched => exact .sleep _ _
  | tidy => exact ⟨.rfl, .sleep _ _ _ _, fun _ => hrun, fun h => absurd rfl h⟩
  | unlock => exact ⟨.rfl, rfl, .sleep _ _ _ _⟩
  | reacquire => exact ⟨.rfl, rfl, .sleep _ _ _ _⟩
  | done =>
      refine ⟨rfl, fun k hk => ?_⟩
      cases hk with
      | sleepCode chan n _ held => exact ⟨rfl, .rfl, .code _ _⟩
      | sleepWait q _ addr => exact ⟨rfl, .rfl, .wait _ _ _⟩

theorem wakeup_fits {chan : Chan N} {pt : WakeupPt N} (hrun : ∀ p, myproc = some p → (s.procs p).state = .running) :
    (wakeup s myproc chan pt).Fits myproc (.wakeup chan pt) := by
  cases pt with
  | loop i =>
      simp only [wakeup]
      split
      · split
        · exact ⟨.rfl, rfl, .wakeup _ _ _⟩
        · exact ⟨.rfl, rfl, .wakeup _ _ _⟩
      · exact fits_ret rfl rfl (by simp)
  | locked q =>
      refine ⟨.rfl, .wakeup _ _ _, fun hq => ?_, fun _ => rfl⟩
      rw [Proc.wake, if_neg (by rw [hrun q hq]; simp)]
      exact hrun q hq
  | unlock q => exact ⟨.rfl, rfl, .wakeup _ _ _⟩

theorem kill_fits {p : Fin N} {pid : Int} {pt : KillPt N} (hrun : (s.procs p).state = .running) :
    (kill s pid pt).Fits (some p) (.kill pid pt) := by
  cases pt with
  | loop i =>
      simp only [kill]
      split
      · exact ⟨.rfl, rfl, .kill _ _ _⟩
      · exact ⟨.rfl, rfl, .kill _ _ _⟩
  | locked q =>
      simp only [kill]
      split
      · refine ⟨.rfl, .kill _ _ _, fun hq => ?_, fun _ => rfl⟩
        cases hq
        exact hrun
      · exact ⟨.rfl, rfl, .kill _ _ _⟩
  | state q =>
      simp only [kill]
      split
      · rename_i hsl
        refine ⟨.rfl, .kill _ _ _, fun hq => ?_, fun _ => rfl⟩
        cases hq
        rw [hrun] at hsl
        cases hsl
      · exact ⟨.rfl, rfl, .kill _ _ _⟩
  | found q => exact ⟨.rfl, rfl, .kill _ _ _⟩
  | unlock q => exact ⟨.rfl, rfl, .kill _ _ _⟩
  | done ret => exact fits_ret rfl rfl (by simp)

theorem exit_fits {p : Fin N} {status : Int} {pt : ExitPt} (h : exit s p status pt = some m)
    (hrun : (s.procs p).state = (Frame.exit status pt : Frame N).pstate) : m.Fits (some p) (.exit status pt) := by
  cases pt with
  | acquireWait => cases h; exact ⟨.rfl, rfl, .exit _ _ _⟩
  | reparent i =>
      simp only [exit] at h
      split at h
      · split at h
        · cases h
          refine ⟨.rfl, .exit _ _ _, fun hq => ?_, fun _ => rfl⟩
          cases hq
          exact hrun
        · cases h
          exact ⟨.rfl, rfl, .exit _ _ _⟩
      · cases h
        exact ⟨.rfl, rfl, .exit _ _ _⟩
  | reparentWake i => cases h; exact ⟨.rfl, rfl, rfl, rfl, .exit _ _ _, .wakeupReparent _ _ _ _⟩
  | wakeParent => cases h; exact ⟨.rfl, rfl, rfl, rfl, .exit _ _ _, .wakeupExit _ _ _⟩
  | acquire => cases h; exact ⟨.rfl, rfl, .exit _ _ _⟩
  | xstate => cases h; exact ⟨.rfl, .exit _ _ _, fun _ => hrun, fun h => absurd rfl h⟩
  | state => cases h; exact ⟨.rfl, .exit _ _ _, fun _ => rfl, fun h => absurd rfl h⟩
  | releaseWait => cases h; exact ⟨.swap _ _ _, rfl, .exit _ _ _⟩
  | sched => cases h; exact .exit _
  | dead => cases h

theorem wait_fits {p : Fin N} {addr : Bool} {pt : WaitPt N} (h : wait s p addr pt ch = some m)
    (hrun : (s.procs p).state = .running)
    (hchild : ∀ q, (Frame.wait addr pt : Frame N).child = some q → (s.procs q).state ≠ .running) :
    m.Fits (some p) (.wait addr pt) := by
  cases pt with
  | acquireWait => cases h; exact ⟨.rfl, rfl, .wait _ _ _⟩
  | scan i havekids =>
      simp only [wait] at h
      split at h
      · split at h
        · cases h
          exact ⟨.rfl, rfl, .wait _ _ _⟩
        · cases h
          exact ⟨.rfl, rfl, .wait _ _ _⟩
      · split at h
        · cases h
          exact ⟨.rfl, rfl, .wait _ _ _⟩
        · cases h
          exact ⟨.rfl, rfl, rfl, rfl, .wait _ _ _, .sleepWait _ _ _⟩
  | locked q =>
      simp only [wait] at h
      split at h
      · cases h
        exact ⟨.rfl, rfl, .wait _ _ _⟩
      · cases h
        exact ⟨.rfl, rfl, .wait _ _ _⟩
  | unlock q => cases h; exact ⟨.rfl, rfl, .wait _ _ _⟩
  | found q pid =>
      simp only [wait] at h
      split at h
      · split at h
        · cases h
          exact ⟨.rfl, rfl, .wait _ _ _⟩
        · cases h
          exact ⟨.rfl, rfl, .wait _ _ _⟩
        · cases h
      · cases h
        exact ⟨.rfl, rfl, .wait _ _ _⟩
  | freeMem q pid copied =>
      cases h
      refine ⟨.rfl, .wait _ _ _, fun hq => ?_, fun _ => rfl⟩
      cases hq
      exact absurd hrun (hchild p rfl)
  | freeproc q pid copied =>
      cases h
      refine ⟨.rfl, .wait _ _ _, fun hq => ?_, fun _ => rfl⟩
      cases hq
      exact absurd hrun (hchild p rfl)
  | freed q pid => cases h; exact ⟨.rfl, rfl, .wait _ _ _⟩
  | failed q => cases h; exact ⟨.rfl, rfl, .wait _ _ _⟩
  | asleep => cases h
  | releaseWait ret => cases h; exact ⟨.rfl, rfl, .wait _ _ _⟩
  | done ret => cases h; exact fits_ret rfl rfl (by simp)

theorem fork_fits {p : Fin N} {pt : ForkPt N} (h : fork s p pt ch = some m)
    (hrun : (s.procs p).state = .running)
    (hchild : ∀ q, (Frame.fork pt).child = some q → (s.procs q).state ≠ .running) :
    m.Fits (some p) (.fork pt) := by
  -- an assignment goes to the child, which is another process
  have hassign : ∀ (q : Fin N) (r : Proc N) (ev : List (Event N)) (pt' : ForkPt N),
      (Frame.fork pt).child = some q → pt'.holds = pt.holds →
      (Micro.assign q r ev (.fork pt')).Fits (some p) (.fork pt) := by
    intro q r ev pt' hq hh
    refine ⟨?_, .fork _ _, fun hp => ?_, fun _ => rfl⟩
    · show pt'.holds.Perm pt.holds
      rw [hh]
    · cases hp
      exact absurd hrun (hchild p hq)
  cases pt with
  | loop i =>
      simp only [fork] at h
      split at h
      · cases h
        exact ⟨.rfl, rfl, .fork _ _⟩
      · cases h
        exact ⟨.rfl, rfl, .fork _ _⟩
  | locked q =>
      simp only [fork] at h
      split at h
      · cases h
        exact ⟨.rfl, rfl, .fork _ _⟩
      · cases h
        exact ⟨.rfl, rfl, .fork _ _⟩
  | miss q => cases h; exact ⟨.rfl, rfl, .fork _ _⟩
  | pidAcquire q => cases h; exact ⟨.rfl, rfl, .fork _ _⟩
  | pidRead q => cases h; exact ⟨.rfl, rfl, .fork _ _⟩
  | pidRelease q pid => cases h; exact ⟨.rfl, rfl, .fork _ _⟩
  | used q pid => cases h; exact hassign q _ _ _ rfl rfl
  | alloc q pid =>
      cases ch <;> simp only [fork] at h <;> cases h
      · exact ⟨pid, rfl, rfl⟩
      · exact ⟨.rfl, rfl, .fork _ _⟩
  | uvmcopy q pid =>
      cases ch <;> simp only [fork] at h <;> cases h
      · exact hassign q _ _ _ rfl rfl
      · exact ⟨.rfl, rfl, .fork _ _⟩
  | freeproc q => cases h; exact hassign q _ _ _ rfl rfl
  | unlockFreed q => cases h; exact ⟨.rfl, rfl, .fork _ _⟩
  | unlock q pid => cases h; exact ⟨.rfl, rfl, .fork _ _⟩
  | acquireWait q pid => cases h; exact ⟨.rfl, rfl, .fork _ _⟩
  | parent q pid => cases h; exact hassign q _ _ _ rfl rfl
  | releaseWait q pid => cases h; exact ⟨.rfl, rfl, .fork _ _⟩
  | relock q pid => cases h; exact ⟨.rfl, rfl, .fork _ _⟩
  | runnable q pid => cases h; exact hassign q _ _ _ rfl rfl
  | unlockRunnable q pid => cases h; exact ⟨.rfl, rfl, .fork _ _⟩
  | done ret => cases h; exact fits_ret rfl rfl (by simp)

theorem scheduler_fits {pt : SchedPt N} : (scheduler s pt).Fits myproc (.sched pt) := by
  cases pt with
  | loop i =>
      simp only [scheduler]
      split
      · exact ⟨.rfl, rfl, .sched _ _⟩
      · exact ⟨.rfl, rfl, .sched _ _⟩
  | locked q =>
      simp only [scheduler]
      split
      · exact ⟨.rfl, .sched _ _, fun _ => rfl, fun _ => rfl⟩
      · exact ⟨.rfl, rfl, .sched _ _⟩
  | setProc q => exact .set q
  | swtch q => exact ⟨rfl, rfl⟩
  | back q => exact .clear q
  | unlock q => exact ⟨.rfl, rfl, .sched _ _⟩

/-! ## Assignments -/

/-- The assignments of the program. -/
inductive Write (s : Sys N M) (c : Fin M) : Frame N → Fin N → Proc N → List (Event N) → Frame N → Prop
  | yield {p : Fin N} (hp : (s.cpus c).proc = some p) :
      Write s c (.yield .state) p { s.procs p with state := .runnable } [] (.yield .sched)
  | sleepChan {p : Fin N} {chan : Chan N} {lk : Lock N} (hp : (s.cpus c).proc = some p) :
      Write s c (.sleep chan lk .chan) p { s.procs p with chan := chan } [] (.sleep chan lk .state)
  | sleepState {p : Fin N} {chan : Chan N} {lk : Lock N} (hp : (s.cpus c).proc = some p) :
      Write s c (.sleep chan lk .state) p { s.procs p with state := .sleeping } [] (.sleep chan lk .sched)
  | sleepTidy {p : Fin N} {chan : Chan N} {lk : Lock N} (hp : (s.cpus c).proc = some p) :
      Write s c (.sleep chan lk .tidy) p { s.procs p with chan := .null } [] (.sleep chan lk .unlock)
  | wake {q : Fin N} {chan : Chan N} :
      Write s c (.wakeup chan (.locked q)) q ((s.procs q).wake chan) [] (.wakeup chan (.unlock q))
  | killed {q : Fin N} {pid : Int} (h : (s.procs q).pid = pid) :
      Write s c (.kill pid (.locked q)) q { s.procs q with killed := true } [] (.kill pid (.state q))
  | killState {q : Fin N} {pid : Int} (h : (s.procs q).state = .sleeping) :
      Write s c (.kill pid (.state q)) q { s.procs q with state := .runnable } [] (.kill pid (.found q))
  | reparent {p q : Fin N} {status : Int} (hp : (s.cpus c).proc = some p) (h : (s.procs q).parent = some p) :
      Write s c (.exit status (.reparent q)) q { s.procs q with parent := some s.initproc } [.reparent q]
        (.exit status (.reparentWake (q + 1)))
  | xstate {p : Fin N} {status : Int} (hp : (s.cpus c).proc = some p) :
      Write s c (.exit status .xstate) p { s.procs p with xstate := status } [] (.exit status .state)
  | zombie {p : Fin N} {status : Int} (hp : (s.cpus c).proc = some p) :
      Write s c (.exit status .state) p { s.procs p with state := .zombie } [.exit p status]
        (.exit status .releaseWait)
  | freeMem {q : Fin N} {addr : Bool} {pid : Int} {copied : Option Int} :
      Write s c (.wait addr (.freeMem q pid copied)) q { s.procs q with mem := false } []
        (.wait addr (.freeproc q pid copied))
  | reap {p q : Fin N} {addr : Bool} {pid : Int} {copied : Option Int} (hp : (s.cpus c).proc = some p) :
      Write s c (.wait addr (.freeproc q pid copied)) q (freeproc (s.procs q)) [.reap p q pid copied]
        (.wait addr (.freed q pid))
  | used {q : Fin N} {pid : Int} :
      Write s c (.fork (.used q pid)) q { s.procs q with pid := pid, state := .used } [] (.fork (.alloc q pid))
  | unfork {q : Fin N} :
      Write s c (.fork (.freeproc q)) q (freeproc (s.procs q)) [] (.fork (.unlockFreed q))
  | copySz {p q : Fin N} {pid : Int} (hp : (s.cpus c).proc = some p) :
      Write s c (.fork (.uvmcopy q pid)) q { s.procs q with sz := (s.procs p).sz } [] (.fork (.unlock q pid))
  | resize {p : Fin N} {held : List Nat} {sz : Nat} (hp : (s.cpus c).proc = some p) :
      Write s c (.code held) p { s.procs p with sz := sz } [] (.code held)
  | parent {p q : Fin N} {pid : Int} (hp : (s.cpus c).proc = some p) :
      Write s c (.fork (.parent q pid)) q { s.procs q with parent := some p } [.fork p q pid]
        (.fork (.releaseWait q pid))
  | runnable {q : Fin N} {pid : Int} :
      Write s c (.fork (.runnable q pid)) q { s.procs q with state := .runnable } []
        (.fork (.unlockRunnable q pid))
  | pick {q : Fin N} (h : (s.procs q).state = .runnable) :
      Write s c (.sched (.locked q)) q { s.procs q with state := .running } [] (.sched (.setProc q))

theorem next_assign {q : Fin N} {r : Proc N} {ev : List (Event N)} (h : f.next s c ch = some (.assign q r ev k)) :
    Write s c f q r ev k := by
  cases f with
  | intr held => cases ch <;> simp only [Frame.next, intr] at h <;> grind
  | wakeup chan pt =>
      cases pt <;> simp only [Frame.next, wakeup] at h
      · grind
      · cases h; exact .wake
      · cases h
  | sched pt =>
      cases pt <;> simp only [Frame.next, scheduler] at h
      · grind
      · split at h
        · cases h; exact .pick (by assumption)
        · cases h
      all_goals cases h
  | code held =>
      cases hp : (s.cpus c).proc <;> simp only [Frame.next, hp] at h
      · cases h
      · cases ch <;> simp only [code] at h
        case resize => cases h; exact .resize hp
        all_goals grind
  | forkret done =>
      cases hp : (s.cpus c).proc <;> simp only [Frame.next, hp] at h
      · cases h
      · cases done <;> cases h
  | yield pt =>
      cases hp : (s.cpus c).proc <;> simp only [Frame.next, hp] at h
      · cases h
      · cases pt <;> cases h
        exact .yield hp
  | sleep chan lk pt =>
      cases hp : (s.cpus c).proc <;> simp only [Frame.next, hp] at h
      · cases h
      · cases pt <;> cases h
        · exact .sleepChan hp
        · exact .sleepState hp
        · exact .sleepTidy hp
  | kill pid pt =>
      cases hp : (s.cpus c).proc <;> simp only [Frame.next, hp] at h
      · cases h
      · cases pt <;> simp only [kill] at h
        · grind
        · split at h <;> cases h
          exact .killed (by assumption)
        · split at h <;> cases h
          exact .killState (by assumption)
        all_goals cases h
  | exit status pt =>
      cases hp : (s.cpus c).proc <;> simp only [Frame.next, hp] at h
      · cases h
      · cases pt <;> simp only [exit] at h
        case reparent i =>
          split at h
          · split at h <;> cases h
            rename_i hi hpar
            exact .reparent (q := ⟨i, hi⟩) hp hpar
          · cases h
        all_goals cases h
        · exact .xstate hp
        · exact .zombie hp
  | wait addr pt =>
      cases hp : (s.cpus c).proc <;> simp only [Frame.next, hp] at h
      · cases h
      · cases pt <;> simp only [wait] at h
        case freeMem => cases h; exact .freeMem
        case freeproc => cases h; exact .reap hp
        all_goals grind
  | fork pt =>
      cases hp : (s.cpus c).proc <;> simp only [Frame.next, hp] at h
      · cases h
      · cases pt <;> simp only [fork] at h
        case used => cases h; exact .used
        case freeproc => cases h; exact .unfork
        case parent => cases h; exact .parent hp
        case runnable => cases h; exact .runnable
        case alloc => cases ch <;> cases h
        case uvmcopy => cases ch <;> cases h; exact .copySz hp
        all_goals grind

/-! ## All statements -/

/-- **Every statement fits its place**, if the process that executes it is in the state that the place says
    and the process it works on does not run. -/
theorem next_fits (h : f.next s c ch = some m)
    (hrun : ∀ p, (s.cpus c).proc = some p → ¬f.isSched → (s.procs p).state = f.pstate)
    (hchild : ∀ q, f.child = some q → (s.procs q).state ≠ .running) : m.Fits (s.cpus c).proc f := by
  unfold Frame.next at h
  split at h
  · exact intr_fits h
  · cases h
    exact wakeup_fits fun p hp => hrun p hp id
  · cases h
    exact scheduler_fits
  all_goals rename_i p hp
  all_goals rw [hp]
  · exact code_fits h (hrun p hp id)
  · cases h
    exact forkret_fits
  · cases h
    exact yield_fits
  · cases h
    exact sleep_fits (hrun p hp id)
  · cases h
    exact kill_fits (hrun p hp id)
  · exact exit_fits h (hrun p hp id)
  · exact wait_fits h (hrun p hp id) hchild
  · exact fork_fits h (hrun p hp id) hchild
  · cases h

end Xv6.Procs
