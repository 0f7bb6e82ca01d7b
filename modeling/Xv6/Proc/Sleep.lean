import Xv6.Proc.Step

/-!
# `Proc.Sleep` — no wakeup is lost

`sleep(chan, lk)` releases `lk` before the process is marked SLEEPING. From that release on the process is
*committed*: it is asleep on `chan`, or will be, unless somebody wakes it. A process commits only by releasing
`lk` (`View.committed`), so while a caller of `wakeup(chan)` holds `lk` nobody commits to `lk` any more, and
the loop leaves behind it only processes that are not committed (`Woken`).
-/

namespace Xv6.Procs

variable {N M : Nat} {s t : Sys N M} {c c' : Fin M} {p q : Fin N} {f k g : Frame N} {rest fs : Stack N}
  {ch : Choice} {m : Option (Micro N)} {r : Proc N} {ev : List (Event N)} {chan : Chan N} {lk : Lock N}

/-! ## Committed processes -/

/-- The process has released `lk` and sleeps or is going to. -/
def SleepPt.committed (st : PState) : SleepPt → Prop
  | .chan | .state => st = .running
  | .sched | .tidy => st = .sleeping
  | _ => False

def Sys.Committed (s : Sys N M) (q : Fin N) (chan : Chan N) (lk : Lock N) : Prop :=
  ∃ pt rest, s.stack (.proc q) = .sleep chan lk pt :: rest ∧ pt.committed (s.procs q).state

theorem SleepPt.committed_state {st : PState} {pt : SleepPt} (h : pt.committed st) :
    st = .running ∨ st = .sleeping := by
  unfold SleepPt.committed at h
  split at h <;> first | exact h.elim | exact .inl h | exact .inr h

theorem SleepPt.committed_started {st : PState} {pt : SleepPt} (h : pt.committed st) : st.started := by
  rcases SleepPt.committed_state h with h | h <;> rw [h] <;> trivial

/-- A committed process is on a CPU and holds its lock, or it has left its CPU. -/
theorem Inv.committed_cases {pt : SleepPt} (hI : Inv s) (hstack : s.stack (.proc q) = .sleep chan lk pt :: rest)
    (hpt : pt.committed (s.procs q).state) :
    (∃ c, (s.cpus c).on = some q ∧ s.lock (.proc q) = some c ∧ (pt = .chan ∨ pt = .state ∨ pt = .sched)) ∨
      (s.Off q ∧ pt = .tidy ∧ (s.procs q).state = .sleeping ∧ (s.procs q).chan = chan) := by
  by_cases hoff : s.Off q
  · obtain ⟨-, f, rest', heq, hat, -⟩ := hI.saved hoff (SleepPt.committed_started hpt)
    rw [hstack] at heq
    cases heq
    cases hat with
    | sleep hchan _ => exact .inr ⟨hoff, rfl, hpt, hchan⟩
  · obtain ⟨c, hon⟩ : ∃ c, (s.cpus c).on = some q := by
      by_contra h
      exact hoff fun c hc => h ⟨c, hc⟩
    obtain ⟨f, rest', heq, hst⟩ := hI.state hon
    rw [hstack] at heq
    cases heq
    have hmem : .sleep chan lk pt ∈ s.stack (s.thread c) := by
      rw [thread_of_on hon, hstack]
      exact List.mem_cons_self
    rw [hst] at hpt
    refine .inl ⟨c, hon, hI.holds hmem ?_, ?_⟩
    · rw [(hI.on hon).1]
      cases pt <;> first | exact List.mem_cons_self | exact hpt.elim
    · cases pt with
      | chan => exact .inl rfl
      | state => exact .inr (.inl rfl)
      | sched => exact .inr (.inr rfl)
      | tidy => cases hpt
      | _ => exact hpt.elim

/-- Another CPU does not make a process run or sleep, unless it is a scheduler that picks it. -/
theorem Inv.write_state (hI : Inv s) (hstack : s.stack (s.thread c) = f :: rest) (hw : Write s c f q r ev k)
    (hon : (s.cpus c).on ≠ some q) (hst : r.state = .running ∨ r.state = .sleeping) :
    (s.procs q).state = r.state ∨ (s.procs q).state = .runnable ∧ r.state = .running ∧ s.Off q := by
  rcases hI.transition hstack hw with h | h | h
  · exact absurd h hon
  · exfalso
    have hused := (hI.owned_top hstack h).choose_spec.2.2
    have hkept : (s.procs q).state = .running ∨ (s.procs q).state = .sleeping → False := by
      rw [hused]
      rintro (h | h) <;> cases h
    cases hw with
    | unfork => rcases hst with h | h <;> cases h
    | runnable => rcases hst with h | h <;> cases h
    | copySz hp => exact hkept hst
    | parent hp => exact hkept hst
    | _ => cases h
  · generalize hr : r.state = st at h hst
    generalize hs : (s.procs q).state = st' at h
    cases h with
    | same => exact .inl rfl
    | pick =>
        refine .inr ⟨rfl, rfl, hI.off (fun c' hon' hl => ?_) (by rw [hs]; simp)⟩
        have hmem : f ∈ s.stack (s.thread c) := by rw [hstack]; exact List.mem_cons_self
        rcases hw.locked with hlk | hr'
        · rw [hI.holds hmem hlk] at hl
          cases hl
          exact hon hon'
        · rw [hr'] at hr
          rw [show (s.procs q).state = .running from hr] at hs
          cases hs
    | wake => rcases hst with h | h <;> cases h
    | reap => rcases hst with h | h <;> cases h
    | used => rcases hst with h | h <;> cases h

/-- **A process commits only by releasing `lk`.** -/
theorem View.committed (hI : Inv s) (v : View s c ch f rest m t) (h : t.Committed q chan lk) :
    s.Committed q chan lk ∨ f = .sleep chan lk .release ∧ ∃ k, m = some (.release lk k) := by
  obtain ⟨pt, below, hstack, hpt⟩ := h
  by_cases hon : (s.cpus c).on = some q
  · have hq : s.stack (.proc q) = f :: rest := by
      rw [← thread_of_on hon]
      exact v.stack
    have hst : (s.procs q).state = f.pstate := by
      obtain ⟨f', rest', heq, hst⟩ := hI.state hon
      rw [hq] at heq
      cases heq
      exact hst
    have hproc := (hI.on hon).1
    have hev := v.own hon
    generalize hfs : t.stack (.proc q) = fs at hev
    rw [hstack] at hfs
    cases hev with
    | point hk =>
        cases hfs
        obtain ⟨hnext, hfit⟩ := v.next rfl
        cases hfit.same hk with
        | sleep _ _ pt₀ =>
            simp only [Frame.next, hproc] at hnext
            cases pt₀ <;> cases hnext <;> cases hk <;> first
              | exact hpt.elim
              | exact .inl ⟨_, rest, hq, hst⟩
              | exact .inr ⟨rfl, _, rfl⟩
    | call =>
        cases hfs
        obtain ⟨hnext, -⟩ := v.next rfl
        cases next_starts hnext
        exact hpt.elim
    | ret hrest =>
        rename_i b _
        subst hrest
        obtain ⟨hb, -⟩ := List.cons.inj hfs
        -- what an interrupt handler returns to holds no lock
        rcases regain_cases f b with h | ⟨_, h⟩ | ⟨_, h⟩ <;> rw [h] at hb <;> cases hb
        cases hI.calls v.stack with
        | intr held _ _ hnil =>
            have hnil := hnil (some q)
            cases pt <;> first | exact hpt.elim | cases hnil
    | intr => cases hfs
  · rcases v.others hon with hsame | ⟨-, hst⟩
    · rw [hsame] at hstack
      refine .inl ⟨pt, below, hstack, ?_⟩
      have hst : (t.procs q).state = (s.procs q).state := by
        by_cases hw : ∃ r ev k, m = some (.assign q r ev k)
        · obtain ⟨r, ev, k, hm⟩ := hw
          rw [v.assign hm] at hpt ⊢
          rcases hI.write_state v.stack (next_assign (v.next hm).1) hon (SleepPt.committed_state hpt) with
            h | ⟨h, hrun, hoff⟩
          · exact h.symm
          · -- a process that is picked has saved its context in `sched`
            obtain ⟨-, f', rest', heq, hat, -⟩ := hI.saved hoff (by rw [h]; trivial)
            rw [hstack] at heq
            cases heq
            rw [hrun] at hpt
            cases hat
            cases hpt
        · exact (v.procs fun r ev k hm => hw ⟨r, ev, k, hm⟩).state
      rwa [hst] at hpt
    · rw [hstack] at hst
      cases hst

/-! ## The loop of `wakeup` -/

/-- The number of processes that the loop has dealt with. -/
def WakeupPt.reached : WakeupPt N → Nat
  | .loop i => i
  | .locked q => q
  | .unlock q => q + 1

theorem mem_claimsOf_below {myproc : Option (Fin N)} {above : Stack N} (h : lk ∈ claimsOf myproc rest) :
    lk ∈ claimsOf myproc (above ++ f :: rest) := by
  simp only [claimsOf, List.flatMap_append, List.flatMap_cons, List.mem_append]
  exact .inr (.inr h)

/-- What a `wakeup(chan)` has dealt with is not committed to `chan` and a lock that its callers hold. -/
def Sys.Woken (s : Sys N M) : Prop :=
  ∀ {c above chan pt rest lk q}, s.stack (s.thread c) = above ++ .wakeup chan pt :: rest →
    lk ∈ claimsOf (s.cpus c).proc rest → (q : Fin N).val < pt.reached → ¬s.Committed q chan lk

/-- A process that a `wakeup` has locked does not stay committed. -/
theorem View.wake_locked (hI : Inv s) (v : View s c ch (.wakeup chan (.locked q)) rest m t)
    (h : s.Committed q chan lk) : ¬t.Committed q chan lk := by
  have hmem : .wakeup chan (.locked q) ∈ s.stack (s.thread c) := by rw [v.stack]; exact List.mem_cons_self
  have hl : s.lock (.proc q) = some c := hI.holds hmem List.mem_cons_self
  obtain ⟨pt, below, hstack, hpt⟩ := h
  rcases hI.committed_cases hstack hpt with ⟨c', hon, hl', -⟩ | ⟨hoff, rfl, hst, hchan⟩
  · -- the sleeper would hold its own lock
    rw [hl] at hl'
    cases hl'
    have hv := v.stack
    rw [thread_of_on hon, hstack] at hv
    cases hv
  · rintro ⟨pt', below', hstack', hpt'⟩
    rcases v.others (hoff c) with hsame | ⟨-, hstart⟩
    · rw [hsame, hstack] at hstack'
      cases hstack'
      have hm : m = some (.assign q ((s.procs q).wake chan) [] (.wakeup chan (.unlock q))) := by
        cases m with
        | none =>
            have hnil := v.idle rfl
            rw [claims_eq v.stack] at hnil
            cases hnil
        | some m' => exact (v.next rfl).1.symm
      rw [v.assign hm, Proc.wake, if_pos ⟨hst, hchan⟩] at hpt'
      cases hpt'
    · rw [hstart] at hstack'
      cases hstack'

/-- One round of the loop. -/
theorem View.wakeup_point {pt pt' : WakeupPt N} {k : Frame N} {m' : Micro N} (hI : Inv s)
    (v : View s c ch (.wakeup chan pt) rest (some m') t) (hk : m'.point = some k) (heq : k = .wakeup chan pt')
    (hw : ∀ q : Fin N, q.val < pt.reached → ¬s.Committed q chan lk) (hq : q.val < pt'.reached)
    (hcom : s.Committed q chan lk) : ¬t.Committed q chan lk := by
  have hnext := (v.next rfl).1
  cases pt with
  | loop i =>
      simp only [Frame.next, Procs.wakeup] at hnext
      split at hnext
      · rename_i hi
        split at hnext
        · -- the executing process itself is not asleep
          rename_i hself
          cases hnext
          cases hk
          cases heq
          rcases Nat.lt_succ_iff_lt_or_eq.mp hq with hlt | heq
          · exact absurd hcom (hw q hlt)
          · have hqi : q = ⟨i, hi⟩ := Fin.ext heq
            subst hqi
            exfalso
            obtain ⟨pt, below, hstack, -⟩ := hcom
            have hon : (s.cpus c).on = some ⟨i, hi⟩ := by
              cases hon : (s.cpus c).on with
              | none =>
                  rw [hI.proc_none v.stack hon id] at hself
                  cases hself
              | some p' => rw [hself, (hI.on hon).1]
            have hv := v.stack
            rw [thread_of_on hon, hstack] at hv
            cases hv
        · cases hnext
          cases hk
          cases heq
          exact absurd hcom (hw q hq)
      · cases hnext
        cases hk
  | locked q₀ =>
      cases hnext
      cases hk
      cases heq
      rcases Nat.lt_succ_iff_lt_or_eq.mp hq with hlt | heq
      · exact absurd hcom (hw q hlt)
      · have hqq : q = q₀ := Fin.ext heq
        subst hqq
        exact v.wake_locked hI hcom
  | unlock q₀ =>
      cases hnext
      cases hk
      cases heq
      exact absurd hcom (hw q hq)

theorem View.woken (hI : Inv s) (hI' : Inv t) (v : View s c ch f rest m t) (h : s.Woken) : t.Woken := by
  intro c' above chan pt below lk q hstack hlk hq hcom
  -- the lock is held, so nobody has just released it
  have hheld : t.lock lk = some c' := by
    refine hI'.locks.mem_iff.mp ?_
    unfold Sys.claims
    rw [hstack]
    exact mem_claimsOf_below hlk
  have hcom' : s.Committed q chan lk := by
    rcases v.committed hI hcom with h | ⟨-, k, hm⟩
    · exact h
    · rw [(v.release hm).2] at hheld
      cases hheld
  by_cases hc : c' = c
  · subst hc
    rcases v.self with ⟨-, hproc, hev⟩ | ⟨-, pt', hsched⟩ | ⟨-, f', rest', hst, ⟨_, hat⟩, hnil⟩
    · rw [hproc] at hlk
      generalize hfs : t.stack (t.thread c') = fs at hev
      rw [hstack] at hfs
      cases hev with
      | point hk =>
          cases above with
          | nil =>
              obtain ⟨hk', rfl⟩ := List.cons.inj hfs
              subst hk'
              have hs := ((v.next rfl).2.same hk).symm
              cases hs with
              | wakeup _ _ pt₀ =>
                  have hbefore : s.stack (s.thread c') = [] ++ .wakeup chan pt₀ :: below := v.stack
                  exact v.wakeup_point hI hk rfl (fun q' hq' => h hbefore hlk hq') hq hcom' hcom
          | cons a above =>
              obtain ⟨-, rfl⟩ := List.cons.inj hfs
              exact h (v.stack.trans (List.cons_append ..).symm) hlk hq hcom'
      | call =>
          obtain ⟨hnext, hfit⟩ := v.next rfl
          have hstart := next_starts hnext
          cases above with
          | nil =>
              obtain ⟨rfl, -⟩ := List.cons.inj hfs
              cases hstart
              exact absurd hq (Nat.not_lt_zero _)
          | cons a above =>
              obtain ⟨rfl, hfs'⟩ := List.cons.inj hfs
              cases above with
              | nil =>
                  -- `wakeup` calls nothing
                  obtain ⟨rfl, -⟩ := List.cons.inj hfs'
                  cases hfit.2.2.2.2.2
                  cases hstart
              | cons b above =>
                  obtain ⟨-, rfl⟩ := List.cons.inj hfs'
                  exact h (v.stack.trans (List.cons_append ..).symm) hlk hq hcom'
      | ret hrest =>
          subst hrest
          cases above with
          | nil =>
              obtain ⟨hb, rfl⟩ := List.cons.inj hfs
              rename_i b
              rcases regain_cases f b with h' | ⟨_, h'⟩ | ⟨_, h'⟩ <;> rw [h'] at hb <;> cases hb
              have hbefore : s.stack (s.thread c') = [f] ++ .wakeup chan pt :: below := v.stack
              exact h hbefore hlk hq hcom'
          | cons a above =>
              obtain ⟨-, rfl⟩ := List.cons.inj hfs
              rename_i b
              have hbefore : s.stack (s.thread c') = (f :: b :: above) ++ .wakeup chan pt :: below := v.stack
              exact h hbefore hlk hq hcom'
      | intr =>
          cases above with
          | nil => cases hfs
          | cons a above =>
              obtain ⟨-, hfs⟩ := List.cons.inj hfs
              exact h (v.stack.trans hfs.symm) hlk hq hcom'
    · rw [hstack] at hsched
      cases above with
      | nil => cases hsched
      | cons a above => simp at hsched
    · rw [hstack] at hst
      cases above with
      | nil =>
          rw [← (List.cons.inj hst).1] at hat
          cases hat
      | cons a above =>
          -- a process that left its CPU held no lock but its own
          obtain ⟨-, rfl⟩ := List.cons.inj hst
          have hmem : lk ∈ claimsOf (t.cpus c').proc (above ++ .wakeup chan pt :: below) := mem_claimsOf_below hlk
          have hnil : claimsOf (t.cpus c').proc (above ++ .wakeup chan pt :: below) = [] := hnil
          rw [hnil] at hmem
          cases hmem
  · obtain ⟨hcpu, hst⟩ := v.cpu hc
    rw [hst] at hstack
    rw [hcpu] at hlk
    exact h hstack hlk hq hcom'

theorem boot_woken (init : Fin N) : (boot init : Sys N M).Woken := by
  intro c above chan pt rest lk q hstack
  have hstack : [.sched (.loop 0)] = above ++ .wakeup chan pt :: rest := hstack
  cases above with
  | nil => cases hstack
  | cons a above => simp at hstack

theorem Reachable.woken (h : Reachable s) : s.Woken :=
  h.invariant boot_woken fun hI hI' v hw => v.woken hI hI' hw

/-! ## Lost wakeups -/

/-- `sleep` is called by code that calls nothing else in `proc.c`. -/
theorem Shape.sleep {pt pt' : SleepPt} {chan' : Chan N} {lk' : Lock N}
    (h : Shape Frame.isCode (.sleep chan lk pt :: rest)) (hmem : .sleep chan' lk' pt' ∈ Frame.sleep chan lk pt :: rest) :
    chan' = chan ∧ lk' = lk ∧ pt' = pt := by
  have hcode : ∀ {held below}, Shape Frame.isCode (.code held :: below) →
      .sleep chan' lk' pt' ∉ (.code held :: below : Stack N) := by
    intro held below h
    rw [h.code]
    simp
  rcases List.mem_cons.mp hmem with heq | hin
  · cases heq
    exact ⟨rfl, rfl, rfl⟩
  · exfalso
    cases rest with
    | nil => exact h
    | cons b rest =>
        obtain ⟨hc, h⟩ := h
        cases hc with
        | sleepCode ch n pt held => exact hcode h hin
        | sleepWait p pt addr =>
            rcases List.mem_cons.mp hin with heq | hin'
            · cases heq
            · cases rest with
              | nil => cases hin'
              | cons b rest =>
                  obtain ⟨hc, h⟩ := h
                  cases hc with
                  | wait _ _ held => exact hcode h hin'

/-- Where a process is that is SLEEPING. -/
theorem Inv.sleeping_top (hI : Inv s) (hst : (s.procs q).state = .sleeping) :
    ∃ chan lk pt rest, s.stack (.proc q) = .sleep chan lk pt :: rest ∧ (pt = .sched ∨ pt = .tidy) ∧
      (s.procs q).chan = chan ∧ Shape Frame.isCode (.sleep chan lk pt :: rest) := by
  have hshape : ∀ {f rest}, s.stack (.proc q) = f :: rest → Shape Frame.isCode (f :: rest) := by
    intro f rest heq
    rcases hI.shape q with h | h
    · rw [h] at heq
      cases heq
    · rwa [heq] at h
  by_cases hoff : s.Off q
  · obtain ⟨-, f, rest, heq, hat, -⟩ := hI.saved hoff (by rw [hst]; trivial)
    cases hat with
    | sleep hchan h => exact ⟨_, _, _, rest, heq, .inr rfl, hchan, hshape heq⟩
    | forkret h => rw [hst] at h; simp at h
    | yield h => rw [hst] at h; simp at h
    | exit h => rw [hst] at h; cases h
  · obtain ⟨c, hon⟩ : ∃ c, (s.cpus c).on = some q := by
      by_contra h
      exact hoff fun c hc => h ⟨c, hc⟩
    obtain ⟨f, rest, heq, hp⟩ := hI.state hon
    have hfacts : f.Facts s (s.cpus c).proc :=
      hI.facts (by rw [thread_of_on hon, heq]; exact List.mem_cons_self)
    rw [hst] at hp
    unfold Frame.pstate at hp
    split at hp <;> cases hp
    exact ⟨_, _, _, rest, heq, .inl rfl, hfacts q (hI.on hon).1, hshape heq⟩

/-- A process that has called `sleep(chan, lk)` and is SLEEPING is committed. -/
theorem Inv.committed_of_sleeping {pt : SleepPt} (hI : Inv s) (hmem : .sleep chan lk pt ∈ s.stack (.proc q))
    (hst : (s.procs q).state = .sleeping) : s.Committed q chan lk := by
  obtain ⟨chan', lk', pt', rest, heq, hpt, -, hshape⟩ := hI.sleeping_top hst
  rw [heq] at hmem
  obtain ⟨rfl, rfl, rfl⟩ := hshape.sleep hmem
  refine ⟨pt, rest, heq, ?_⟩
  rcases hpt with rfl | rfl <;> exact hst

/-- `wakeup` returns at the end of its loop. -/
theorem wakeup_eq_ret {myproc : Option (Fin N)} {pt : WakeupPt N} (h : wakeup s myproc chan pt = .ret ev) :
    ∃ i, pt = .loop i ∧ ¬i < N := by
  cases pt with
  | loop i =>
      refine ⟨i, rfl, fun hi => ?_⟩
      simp only [Procs.wakeup, dif_pos hi] at h
      split at h <;> cases h
  | locked q => cases h
  | unlock q => cases h

theorem View.wakeup_ret {pt : WakeupPt N} (v : View s c ch (.wakeup chan pt) rest m t)
    (hret : t.stack (t.thread c) = rest) : ∃ i, pt = .loop i ∧ ¬i < N := by
  have hnext : ∀ {m'}, m = some m' → Procs.wakeup s (s.cpus c).proc chan pt = m' := fun h =>
    Option.some.inj (v.next h).1
  rcases v.self with ⟨-, -, hev⟩ | ⟨hm, -⟩ | ⟨⟨q, k, hm⟩, -⟩
  · rw [hret] at hev
    generalize hfs : rest = fs at hev
    cases hev with
    | ret hrest => exact wakeup_eq_ret (hnext rfl)
  · exfalso
    rcases hm with ⟨o, k, hm⟩ | ⟨k, hm⟩ <;> have h := hnext hm <;>
      cases pt <;> simp only [Procs.wakeup] at h <;> grind
  · have h := hnext hm
    cases pt <;> simp only [Procs.wakeup] at h <;> grind

/-- **No lost wakeup.** A step of a reachable system in which a `wakeup(chan)` returns, while its CPU holds `lk`,
    leaves no process that has entered `sleep(chan, lk)` in state SLEEPING on `chan`. -/
theorem no_lost_wakeup {pt : WakeupPt N} (h : Reachable s)
    (hstack : s.stack (s.thread c) = .wakeup chan pt :: rest) (hlk : s.lock lk = some c)
    (hstep : step s (c, ch) = some t) (hret : t.stack (t.thread c) = rest) :
    ∀ q pt', .sleep chan lk pt' ∈ t.stack (.proc q) →
      ¬((t.procs q).state = .sleeping ∧ (t.procs q).chan = chan) := by
  rintro q pt' hmem ⟨hst, -⟩
  have hI := h.inv
  obtain ⟨f, rest', m, v⟩ := hI.view hstep
  have hfr := v.stack
  rw [hstack] at hfr
  cases hfr
  obtain ⟨i, rfl, hi⟩ := v.wakeup_ret hret
  have hcom : s.Committed q chan lk := by
    rcases v.committed hI ((inv_step hI hstep).committed_of_sleeping hmem hst) with h | ⟨h, -⟩
    · exact h
    · cases h
  have hclaim : lk ∈ claimsOf (s.cpus c).proc rest := by
    have hin := hI.locks.mem_iff.mpr hlk
    rw [claims_eq hstack] at hin
    exact hin
  have hbefore : s.stack (s.thread c) = [] ++ .wakeup chan (.loop i) :: rest := hstack
  exact h.woken hbefore hclaim (Nat.lt_of_lt_of_le q.isLt (Nat.le_of_not_lt hi)) hcom

/-- In `forkExit` the child's `wakeup` of its waiting parent returns while it holds `wait_lock`. -/
theorem no_lost_wakeup_exit : ∃ s t : Sys 2 2, Reachable s ∧ step s (1, .go) = some t ∧
    .sleep (.proc 0) .wait .tidy ∈ t.stack (.proc 0) ∧
    ¬((t.procs 0).state = .sleeping ∧ (t.procs 0).chan = .proc 0) := by
  have hrun : (Trace.run step (boot 0 : Sys 2 2) ((forkExit 0 1).take 59)).any (fun s => decide
      (s.stack (s.thread 1) = [.wakeup (.proc 0) (.loop 2), .exit 7 .acquire, .code []] ∧ s.lock .wait = some 1) &&
      (step s (1, .go)).any fun t => decide (t.stack (t.thread 1) = [.exit 7 .acquire, .code []] ∧
        .sleep (.proc 0) .wait .tidy ∈ t.stack (.proc 0))) = true := by decide +kernel
  obtain ⟨s, hs, h⟩ := (Option.any_eq_true _ _).mp hrun
  obtain ⟨hpre, hpost⟩ := (Bool.and_eq_true _ _).mp h
  obtain ⟨t, ht, hpost⟩ := (Option.any_eq_true _ _).mp hpost
  obtain ⟨hstack, hlk⟩ := of_decide_eq_true hpre
  obtain ⟨hret, hmem⟩ := of_decide_eq_true hpost
  have hreach : Reachable s := ⟨0, (forkExit 0 1).take 59, hs⟩
  exact ⟨s, t, hreach, ht, hmem, no_lost_wakeup hreach hstack hlk ht hret 0 .tidy hmem⟩

end Xv6.Procs
