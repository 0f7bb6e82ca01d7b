import Xv6.Proc.Family

/-!
# `Proc.Waiting` — a waiting parent is never stranded

`exit` wakes the parent before the process is a ZOMBIE, and `reparent` hands zombies to an init that may be
asleep. What saves the parent is `wait_lock`: as long as a parent that has gone to sleep in `wait` has a child
that is dead or about to die, the holder of `wait_lock` is in a `wakeup` of this parent or about to call it.
-/

namespace Xv6.Procs

variable {N M : Nat} {s t : Sys N M} {c c' : Fin M} {p q : Fin N} {f k g : Frame N} {rest fs : Stack N}
  {ch : Choice} {m : Option (Micro N)} {r : Proc N} {ev : List (Event N)}

/-- `p` sleeps in `wait`, or is going to. -/
def Sys.Dozing (s : Sys N M) (p : Fin N) : Prop := s.Committed p (.proc p) .wait

/-- The points of `exit` after the parent has been chosen for a `wakeup`. -/
def ExitPt.late : ExitPt → Prop
  | .acquire | .xstate | .state => True
  | _ => False

/-- `q` is dead or has already called `wakeup` for its parent. -/
def Sys.Dying (s : Sys N M) (q : Fin N) : Prop :=
  (s.procs q).state = .zombie ∨
    (s.procs q).state.started ∧ ∃ status pt, .exit status pt ∈ s.stack (.proc q) ∧ pt.late

/-- The holder of `wait_lock` wakes `p` or is about to. -/
def Sys.Rousing (s : Sys N M) (p : Fin N) : Prop :=
  (∃ c above pt rest, s.stack (s.thread c) = above ++ .wakeup (.proc p) pt :: rest ∧
    .wait ∈ claimsOf (s.cpus c).proc rest) ∨
  p = s.initproc ∧ ∃ c status i rest, s.stack (s.thread c) = .exit status (.reparentWake i) :: rest

/-- A parent that sleeps while a child dies is being woken. -/
def Sys.Cared (s : Sys N M) : Prop :=
  ∀ {p q}, s.Dozing p → (s.procs q).parent = some p → s.Dying q → s.Rousing p

theorem regain_wakeup {chan : Chan N} {pt : WakeupPt N} : f.regain (.wakeup chan pt) = .wakeup chan pt := by
  unfold Frame.regain
  split
  · rename_i h
    cases h
  · rename_i h
    cases h
  · rfl

/-- A `wakeup` that holds `wait_lock` goes on until it returns. -/
theorem View.rousing_keep {above : Stack N} {pt : WakeupPt N} (hI : Inv s) (hW : s.Woken)
    (v : View s c ch f rest m t) (hstack : s.stack (s.thread c) = above ++ .wakeup (.proc p) pt :: fs)
    (hwait : .wait ∈ claimsOf (s.cpus c).proc fs) (hdoze : s.Dozing p) : t.Rousing p := by
  have hold : f :: rest = above ++ .wakeup (.proc p) pt :: fs := v.stack.symm.trans hstack
  -- a scheduler that executes its own statements is alone on its stack
  have hsched : ∀ pt', Frame.sched pt' :: rest ≠ above ++ .wakeup (.proc p) pt :: fs := by
    intro pt' h
    obtain ⟨-, rfl, -⟩ := hI.sched_top (hstack.trans h.symm)
    cases above with
    | nil => cases h
    | cons a above => simp at h
  rcases v.self with ⟨-, hproc, hev⟩ | ⟨hm, -⟩ | ⟨⟨q, k, hm⟩, -⟩
  · generalize hfs : t.stack (t.thread c) = new at hev
    rw [← hproc] at hwait
    cases hev with
    | point hk =>
        cases above with
        | nil =>
            obtain ⟨rfl, rfl⟩ := List.cons.inj hold
            cases (v.next rfl).2.same hk with
            | wakeup _ _ pt' => exact .inl ⟨c, [], pt', rest, hfs, hwait⟩
        | cons a above =>
            obtain ⟨-, rfl⟩ := List.cons.inj hold
            exact .inl ⟨c, _ :: above, pt, fs, hfs, hwait⟩
    | call =>
        obtain ⟨hnext, hfit⟩ := v.next rfl
        cases above with
        | nil =>
            -- `wakeup` calls nothing
            obtain ⟨rfl, rfl⟩ := List.cons.inj hold
            cases hfit.2.2.2.2.1
            cases hfit.2.2.2.2.2
            cases next_starts hnext
        | cons a above =>
            obtain ⟨-, rfl⟩ := List.cons.inj hold
            exact .inl ⟨c, _ :: _ :: above, pt, fs, hfs, hwait⟩
    | ret hrest =>
        cases above with
        | nil =>
            -- the loop is over and has found the sleeper
            obtain ⟨rfl, rfl⟩ := List.cons.inj hold
            obtain ⟨i, rfl, hi⟩ := wakeup_eq_ret (Option.some.inj (v.next rfl).1)
            rw [hproc] at hwait
            exact absurd hdoze (hW hstack hwait (Nat.lt_of_lt_of_le p.isLt (Nat.le_of_not_lt hi)))
        | cons a above =>
            obtain ⟨-, hold⟩ := List.cons.inj hold
            rw [hrest] at hold
            cases above with
            | nil =>
                obtain ⟨rfl, rfl⟩ := List.cons.inj hold
                rw [regain_wakeup] at hfs
                exact .inl ⟨c, [], pt, _, hfs, hwait⟩
            | cons a' above =>
                obtain ⟨-, rfl⟩ := List.cons.inj hold
                exact .inl ⟨c, _ :: above, pt, fs, hfs, hwait⟩
    | intr => exact .inl ⟨c, .intr [] :: above, pt, fs, by rw [hfs, hold]; rfl, hwait⟩
  · rcases hm with ⟨o, k, hm⟩ | ⟨k, hm⟩
    · obtain ⟨pt', rfl⟩ : ∃ pt', f = .sched pt' := by
        cases (v.next hm).2 <;> exact ⟨_, rfl⟩
      exact absurd hold (hsched pt')
    · -- nobody leaves a CPU with `wait_lock`
      cases above with
      | nil =>
          obtain ⟨rfl, -⟩ := List.cons.inj hold
          cases (v.next hm).2
      | cons a above =>
          obtain ⟨-, hrest⟩ := List.cons.inj hold
          have hnil := v.parked hm
          rw [hrest] at hnil
          have hin : .wait ∈ claimsOf (s.cpus c).proc (above ++ .wakeup (.proc p) pt :: fs) := mem_claimsOf_below hwait
          exact absurd hin (by rw [show claimsOf _ (above ++ _) = [] from hnil]; exact List.not_mem_nil)
  · obtain ⟨rfl, -⟩ := (v.next hm).2
    exact absurd hold (hsched _)

/-- **Whoever wakes `p` goes on doing so.** -/
theorem View.rousing (hI : Inv s) (hW : s.Woken) (v : View s c ch f rest m t) (h : s.Rousing p)
    (hdoze : s.Dozing p) : t.Rousing p := by
  rcases h with ⟨c', above, pt, fs, hstack, hwait⟩ | ⟨hp, c', status, i, fs, hstack⟩
  · by_cases hc : c' = c
    · subst hc
      exact v.rousing_keep hI hW hstack hwait hdoze
    · obtain ⟨hcpu, hst⟩ := v.cpu hc
      exact .inl ⟨c', above, pt, fs, by rw [hst]; exact hstack, by rw [hcpu]; exact hwait⟩
  · by_cases hc : c' = c
    · subst hc
      have hfr := v.stack
      rw [hstack] at hfr
      cases hfr
      have hmem : .exit status (.reparentWake i) ∈ s.stack (s.thread c') := by rw [hstack]; exact List.mem_cons_self
      obtain ⟨p', hon, hproc⟩ := hI.proc_of_not_onSched hmem id
      cases m with
      | none =>
          have hnil := v.idle rfl
          rw [claims_eq hstack] at hnil
          cases hnil
      | some m' =>
          have hnext := (v.next rfl).1
          simp only [Frame.next, hproc] at hnext
          cases hnext
          rcases v.self with ⟨-, -, hev⟩ | ⟨hm, -⟩ | ⟨⟨q, k, hm⟩, -⟩
          · generalize hfs : t.stack (t.thread c') = new at hev
            cases hev with
            | point hk => cases hk
            | call =>
                rw [hp]
                exact .inl ⟨c', [], .loop 0, _, hfs, List.mem_cons_self⟩
          · rcases hm with ⟨o, k, hm⟩ | ⟨k, hm⟩ <;> cases hm
          · cases hm
    · obtain ⟨-, hst⟩ := v.cpu hc
      exact .inr ⟨by rw [v.init]; exact hp, c', status, i, fs, by rw [hst]; exact hstack⟩

/-! ## Dying -/

theorem ExitPt.late.holds {status : Int} {pt : ExitPt} (h : pt.late) :
    .wait ∈ (Frame.exit status pt : Frame N).holds (some p) := by
  cases pt <;> first | exact h.elim | simp [Frame.holds, ExitPt.holds]

theorem Write.zombie_cases (hw : Write s c f q r ev k) (hz : r.state = .zombie) :
    (s.procs q).state = .zombie ∨ (∃ status, f = .exit status .state) ∧ (s.cpus c).proc = some q := by
  cases hw with
  | zombie hp => exact .inr ⟨⟨_, rfl⟩, hp⟩
  | wake =>
      rw [Proc.wake] at hz
      split at hz
      · cases hz
      · exact .inl hz
  | _ => first | exact .inl hz | cases hz

/-- A process dies at its own pace: it has called `wakeup` for its parent before. -/
theorem View.dying (hI : Inv s) (v : View s c ch f rest m t) (h : t.Dying q) :
    s.Dying q ∨ ∃ status, m = some (.call (.wakeup (.ofParent (s.procs q).parent) (.loop 0)) (.exit status .acquire)) := by
  rcases h with hz | ⟨hst, status, pt, hmem, hlate⟩
  · by_cases hw : ∃ r ev k, m = some (.assign q r ev k)
    · obtain ⟨r, ev, k, hm⟩ := hw
      rw [v.assign hm] at hz
      left
      rcases (next_assign (v.next hm).1).zombie_cases hz with h | ⟨⟨status, rfl⟩, hp⟩
      · exact .inl h
      · have hmem : .exit status .state ∈ s.stack (s.thread c) := by rw [v.stack]; exact List.mem_cons_self
        obtain ⟨p, hon, hp'⟩ := hI.proc_of_not_onSched hmem id
        rw [hp] at hp'
        cases hp'
        rw [thread_of_on hon] at hmem
        exact .inr ⟨by rw [hI.pstate v.stack hp id]; trivial, status, .state, hmem, trivial⟩
    · left
      left
      rw [← (v.procs fun r ev k hm => hw ⟨r, ev, k, hm⟩).state]
      exact hz
  · by_cases hon : (s.cpus c).on = some q
    · have hq : s.stack (.proc q) = f :: rest := by
        rw [← thread_of_on hon]
        exact v.stack
      have hs : (s.procs q).state.started := by
        obtain ⟨f₀, rest₀, heq, hst₀⟩ := hI.state hon
        rw [hst₀]
        exact f₀.pstate_started
      have hproc := (hI.on hon).1
      have hkeep : ∀ {status pt}, .exit status pt ∈ f :: rest → pt.late → s.Dying q := fun h hl =>
        .inr ⟨hs, _, _, by rw [hq]; exact h, hl⟩
      have hev := v.own hon
      generalize t.stack (.proc q) = new at hev hmem
      cases hev with
      | point hk =>
          rcases List.mem_cons.mp hmem with heq | hmem
          · subst heq
            obtain ⟨hnext, hfit⟩ := v.next rfl
            cases hfit.same hk with
            | exit _ pt₀ =>
                simp only [Frame.next, hproc] at hnext
                have hlate₀ : pt₀.late := by
                  cases pt₀ <;> simp only [exit] at hnext
                  case reparent =>
                    split at hnext <;> [split at hnext; skip] <;> cases hnext <;> cases hk <;> exact hlate.elim
                  all_goals cases hnext <;> cases hk <;> first | exact hlate.elim | trivial
                exact .inl (hkeep List.mem_cons_self hlate₀)
          · exact .inl (hkeep (List.mem_cons_of_mem _ hmem) hlate)
      | call =>
          obtain ⟨hnext, hfit⟩ := v.next rfl
          rcases List.mem_cons.mp hmem with heq | hmem
          · subst heq
            cases next_starts hnext
            exact hlate.elim
          · rcases List.mem_cons.mp hmem with heq | hmem
            · subst heq
              cases hfit.2.2.2.2.1 with
              | exit _ pt₀ =>
                  simp only [Frame.next, hproc] at hnext
                  cases pt₀ <;> simp only [exit] at hnext
                  case reparent => split at hnext <;> [split at hnext; skip] <;> cases hnext
                  case wakeParent => cases hnext; exact .inr ⟨status, rfl⟩
                  all_goals cases hnext
                  exact hlate.elim
            · exact .inl (hkeep (List.mem_cons_of_mem _ hmem) hlate)
      | ret hrest =>
          rename_i ev b below
          subst hrest
          rcases List.mem_cons.mp hmem with heq | hmem
          · rcases regain_cases f b with h | ⟨_, h⟩ | ⟨_, h⟩ <;> rw [h] at heq
            · subst heq
              exact .inl (hkeep (List.mem_cons_of_mem _ List.mem_cons_self) hlate)
            · cases heq
            · cases heq
          · exact .inl (hkeep (List.mem_cons_of_mem _ (List.mem_cons_of_mem _ hmem)) hlate)
      | intr =>
          rcases List.mem_cons.mp hmem with heq | hmem
          · cases heq
          · exact .inl (hkeep hmem hlate)
    · have hno : .exit status pt ∉ (start : Stack N) := by simp [start]
      rcases v.others hon with hsame | ⟨-, hstart⟩
      · rw [hsame] at hmem
        rcases v.started hI hon hst with hs | hs
        · exact .inl (.inr ⟨hs, status, pt, hmem, hlate⟩)
        · rw [hs] at hmem
          exact absurd hmem hno
      · rw [hstart] at hmem
        exact absurd hmem hno

/-! ## Every step -/

/-- A parent goes to sleep only after it has seen that no child is dead. -/
theorem View.cared_commit (hI : Inv s) (hI' : Inv t) (hF : Family s)
    (v : View s c ch (.sleep (.proc p) .wait .release) rest m t) (hm : m = some (.release .wait k))
    (hpar : (t.procs q).parent = some p) : ¬t.Dying q := by
  have hmem : .sleep (.proc p) .wait .release ∈ s.stack (s.thread c) := by rw [v.stack]; exact List.mem_cons_self
  obtain ⟨p', hon, -⟩ := hI.proc_of_not_onSched hmem id
  obtain ⟨hchan, hno⟩ := hF.top hI v.stack hon
  cases hchan
  have hag : ∀ q, (s.procs q).Agrees (t.procs q) := fun q => v.procs fun _ _ _ h => by rw [hm] at h; cases h
  rintro (hz | ⟨hst, status, pt, hexit, hlate⟩)
  · exact hno q q.isLt ((hag q).parent ▸ hpar) ((hag q).state ▸ hz)
  · -- a child in `exit` would hold the lock that has just been released
    obtain ⟨c', hon'⟩ := hI'.holder hst hexit hlate.holds (fun h => by cases h)
    have hheld : t.lock .wait = some c' :=
      hI'.holds (by rw [thread_of_on hon']; exact hexit) (by rw [(hI'.on hon').1]; exact hlate.holds)
    rw [(v.release hm).2] at hheld
    cases hheld

/-- A process gets a parent that may be asleep only when it is handed to init. -/
theorem View.cared_parent (hI : Inv s) (v : View s c ch f rest m t) (hpar : (t.procs q).parent = some p)
    (hdying : t.Dying q) (hnew : (s.procs q).parent ≠ some p) : t.Rousing p := by
  by_cases hw : ∃ r ev k, m = some (.assign q r ev k)
  · obtain ⟨r, ev, k, hm⟩ := hw
    have hwr := next_assign (v.next hm).1
    subst hm
    have hself : t.procs q = r := v.assign rfl
    rw [hself] at hpar
    cases hwr with
    | reparent hp h =>
        cases hpar
        rcases v.self with ⟨-, -, hev⟩ | ⟨hm, -⟩ | ⟨⟨q, k, hm⟩, -⟩
        · generalize hfs : t.stack (t.thread c) = new at hev
          cases hev with
          | point hk =>
              cases hk
              exact .inr ⟨v.init.symm, c, _, _, _, hfs⟩
        · rcases hm with ⟨o, k, hm⟩ | ⟨k, hm⟩ <;> cases hm
        · cases hm
    | parent hp =>
        -- the new child has not started
        exfalso
        obtain ⟨-, -, -, hused⟩ := hI.owned_top v.stack (q := q) rfl
        have hst : (t.procs q).state = .used := by rw [hself]; exact hused
        rcases hdying with hz | ⟨hstart, -⟩
        · rw [hst] at hz
          cases hz
        · rw [hst] at hstart
          exact hstart
    | reap hp => cases hpar
    | unfork => cases hpar
    | wake =>
        rw [Proc.wake] at hpar
        split at hpar <;> exact absurd hpar hnew
    | _ => exact absurd hpar hnew
  · rw [(v.procs fun r ev k hm => hw ⟨r, ev, k, hm⟩).parent] at hpar
    exact absurd hpar hnew

theorem View.cared (hI : Inv s) (hI' : Inv t) (hF : Family s) (hW : s.Woken) (v : View s c ch f rest m t)
    (h : s.Cared) : t.Cared := by
  intro p q hdoze hpar hdying
  rcases v.committed hI hdoze with hdoze' | ⟨rfl, k, hm⟩
  · by_cases hpar' : (s.procs q).parent = some p
    · rcases v.dying hI hdying with hdying' | ⟨status, hm⟩
      · exact v.rousing hI hW (h hdoze' hpar' hdying') hdoze'
      · -- `exit` has just called `wakeup` for this parent
        rw [hpar'] at hm
        rcases v.self with ⟨-, -, hev⟩ | ⟨hm', -⟩ | ⟨⟨q, k, hm'⟩, -⟩
        · subst hm
          generalize hfs : t.stack (t.thread c) = new at hev
          cases hev with
          | point hk => cases hk
          | call => exact .inl ⟨c, [], .loop 0, _, hfs, List.mem_cons_self⟩
        · rw [hm] at hm'
          rcases hm' with ⟨o, k, hm'⟩ | ⟨k, hm'⟩ <;> cases hm'
        · rw [hm] at hm'
          cases hm'
    · exact v.cared_parent hI hpar hdying hpar'
  · exact absurd hdying (v.cared_commit hI hI' hF hm hpar)

theorem boot_cared (init : Fin N) : (boot init : Sys N M).Cared := by
  intro p q _ hpar
  cases hpar

theorem Reachable.cared (h : Reachable s) : s.Cared := by
  refine (h.invariant (P := fun s => (Family s ∧ s.Woken) ∧ s.Cared)
    (fun init => ⟨⟨boot_family init, boot_woken init⟩, boot_cared init⟩) fun hI hI' v hs => ?_).2
  exact ⟨⟨v.family hI hs.1.1, v.woken hI hI' hs.1.2⟩, v.cared hI hI' hs.1.1 hs.1.2 hs.2⟩

/-- A process that is SLEEPING on its own address is in `wait`. -/
theorem Inv.dozing_of_sleeping (hI : Inv s) (hst : (s.procs p).state = .sleeping) (hchan : (s.procs p).chan = .proc p) :
    s.Dozing p := by
  obtain ⟨chan, lk, pt, rest, heq, hpt, hc, hshape⟩ := hI.sleeping_top hst
  rw [hchan] at hc
  subst hc
  have hlk : lk = .wait := by
    cases rest with
    | nil => exact hshape.elim
    | cons b rest =>
        cases hshape.1 with
        | sleepWait _ _ addr => rfl
  subst hlk
  refine ⟨pt, rest, heq, ?_⟩
  rcases hpt with rfl | rfl <;> exact hst

/-- **A waiting parent is never stranded.** While `wait_lock` is free, a process that sleeps in `wait` has no
    child that is a ZOMBIE. -/
theorem waiting_parent_not_stranded (h : Reachable s) (hfree : s.lock .wait = none) :
    ∀ p q, (s.procs p).state = .sleeping → (s.procs p).chan = .proc p → (s.procs q).parent = some p →
      (s.procs q).state ≠ .zombie := by
  intro p q hst hchan hpar hz
  have hI := h.inv
  have hno : ∀ c, .wait ∉ s.claims c := by
    intro c hc
    rw [hI.locks.mem_iff.mp hc] at hfree
    cases hfree
  rcases h.cared (hI.dozing_of_sleeping hst hchan) hpar (.inl hz) with
    ⟨c, above, pt, rest, hstack, hwait⟩ | ⟨-, c, status, i, rest, hstack⟩
  · refine hno c ?_
    unfold Sys.claims
    rw [hstack]
    exact mem_claimsOf_below hwait
  · refine hno c ?_
    unfold Sys.claims
    rw [hstack]
    exact List.mem_cons_self

/-- In `forkExit` the parent falls asleep in `wait` while its child runs. -/
theorem waiting_parent_not_stranded_asleep : ∃ s : Sys 2 2, Reachable s ∧ s.lock .wait = none ∧
    (s.procs 0).state = .sleeping ∧ (s.procs 0).chan = .proc 0 ∧ (s.procs 1).parent = some 0 ∧
    (s.procs 1).state ≠ .zombie := by
  have hrun : (Trace.run step (boot 0 : Sys 2 2) ((forkExit 0 1).take 49)).any (fun s => decide
      (s.lock .wait = none ∧ (s.procs 0).state = .sleeping ∧ (s.procs 0).chan = .proc 0 ∧
        (s.procs 1).parent = some 0)) = true := by decide +kernel
  obtain ⟨s, hs, h⟩ := (Option.any_eq_true _ _).mp hrun
  obtain ⟨hfree, hst, hchan, hpar⟩ := of_decide_eq_true h
  have hreach : Reachable s := ⟨0, (forkExit 0 1).take 49, hs⟩
  exact ⟨s, hreach, hfree, hst, hchan, hpar, waiting_parent_not_stranded hreach hfree 0 1 hst hchan hpar⟩

end Xv6.Procs
