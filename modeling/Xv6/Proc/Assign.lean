import Xv6.Proc.Move

/-!
# `Proc.Assign` — assignments to a `struct proc`

The fields of a process are written by the holder of its lock (`Write.locked`), and the state of a process
that does not execute itself changes in few ways (`Inv.transition`). Every other call therefore keeps what it
relies on.
-/

namespace Xv6.Procs

variable {N M : Nat} {s t : Sys N M} {c c' : Fin M} {p q : Fin N} {f k g : Frame N} {rest fs old : Stack N}
  {ch : Choice} {m : Micro N} {myproc : Option (Fin N)} {r : Proc N} {ev : List (Event N)}

theorem Write.context (hw : Write s c f q r ev k) : r.context = (s.procs q).context := by
  cases hw with
  | wake => unfold Proc.wake; split <;> rfl
  | _ => rfl

/-- **Only the holder of `p->lock` writes.** The exceptions are `p->parent`, which is guarded by `wait_lock`,
    and `p->sz`, which is private to the process. -/
theorem Write.locked (hw : Write s c f q r ev k) :
    .proc q ∈ f.holds (s.cpus c).proc ∨ r = { s.procs q with parent := r.parent, sz := r.sz } := by
  cases hw with
  | copySz hp => exact .inl List.mem_cons_self
  | resize hp => exact .inr rfl
  | reparent hp h => exact .inr rfl
  | parent hp => exact .inr rfl
  | yield hp => left; rw [hp]; exact List.mem_cons_self
  | sleepChan hp => left; rw [hp]; exact List.mem_cons_self
  | sleepState hp => left; rw [hp]; exact List.mem_cons_self
  | sleepTidy hp => left; rw [hp]; exact List.mem_cons_self
  | xstate hp => left; rw [hp]; exact List.mem_cons_self
  | zombie hp => left; rw [hp]; exact List.mem_cons_self
  | wake => exact .inl List.mem_cons_self
  | killed => exact .inl List.mem_cons_self
  | killState h => exact .inl List.mem_cons_self
  | freeMem => exact .inl List.mem_cons_self
  | reap hp => exact .inl List.mem_cons_self
  | used => exact .inl List.mem_cons_self
  | unfork => exact .inl List.mem_cons_self
  | runnable => exact .inl List.mem_cons_self
  | pick h => exact .inl List.mem_cons_self

/-- What a call may do to the state of a process whose lock it holds. -/
inductive Transition : PState → PState → Prop
  | same (st : PState) : Transition st st
  | wake : Transition .sleeping .runnable
  | reap : Transition .zombie .unused
  | used : Transition .unused .used
  | pick : Transition .runnable .running

/-- The call on top owns a slot: it is a `fork`. -/
theorem Inv.owned_top (hI : Inv s) (hstack : s.stack (s.thread c) = f :: rest) (ho : f.owns = some q) :
    ∃ p, s.thread c = .proc p ∧ f ∈ s.stack (.proc p) ∧ (s.procs q).state = .used := by
  have hmem : f ∈ s.stack (s.thread c) := by rw [hstack]; exact List.mem_cons_self
  obtain ⟨p, hon, -⟩ := hI.proc_of_not_onSched hmem (by cases f <;> simp_all [Frame.onSched, Frame.owns])
  rw [thread_of_on hon] at hmem
  exact ⟨p, thread_of_on hon, hmem, hI.owned hmem ho⟩

/-- The state of a process other than the executing one changes in these ways, unless `fork` sets it. -/
theorem Inv.transition (hI : Inv s) (hstack : s.stack (s.thread c) = f :: rest) (hw : Write s c f q r ev k) :
    (s.cpus c).on = some q ∨ f.owns = some q ∨ Transition (s.procs q).state r.state := by
  have hmem : f ∈ s.stack (s.thread c) := by rw [hstack]; exact List.mem_cons_self
  -- a call that is not made on a scheduler's stack is made by the process of the CPU
  have hself : ∀ {p}, (s.cpus c).proc = some p → ¬f.onSched → (s.cpus c).on = some p := by
    intro p hp hns
    obtain ⟨p', hon, hp'⟩ := hI.proc_of_not_onSched hmem hns
    rw [hp] at hp'
    cases hp'
    exact hon
  cases hw with
  | yield hp => exact .inl (hself hp id)
  | sleepChan hp => exact .inl (hself hp id)
  | sleepState hp => exact .inl (hself hp id)
  | sleepTidy hp => exact .inl (hself hp id)
  | xstate hp => exact .inl (hself hp id)
  | zombie hp => exact .inl (hself hp id)
  | resize hp => exact .inl (hself hp id)
  | copySz hp => exact .inr (.inr (.same _))
  | unfork => exact .inr (.inl rfl)
  | runnable => exact .inr (.inl rfl)
  | wake =>
      refine .inr (.inr ?_)
      unfold Proc.wake
      split
      · rename_i h
        rw [h.1]
        exact .wake
      · exact .same _
  | killState h => exact .inr (.inr (h ▸ .wake))
  | reap hp =>
      have hz : (s.procs q).state = .zombie := hI.facts hmem
      exact .inr (.inr (hz ▸ .reap))
  | used =>
      have hu : (s.procs q).state = .unused := hI.facts hmem
      exact .inr (.inr (hu ▸ .used))
  | pick h => exact .inr (.inr (h ▸ .pick))
  | killed => exact .inr (.inr (.same _))
  | reparent hp h => exact .inr (.inr (.same _))
  | freeMem => exact .inr (.inr (.same _))
  | parent hp => exact .inr (.inr (.same _))

/-- A call relies on processes whose lock it holds. -/
theorem Frame.Facts.congr (hf : f.Facts s myproc) (hoff : ∀ q, .proc q ∈ f.holds myproc → s.Off q → t.Off q)
    (hst : ∀ q, .proc q ∈ f.holds myproc →
      (t.procs q).state = (s.procs q).state ∧ (t.procs q).chan = (s.procs q).chan) : f.Facts t myproc := by
  unfold Frame.Facts at hf ⊢
  split at hf
  · exact ⟨(hst _ List.mem_cons_self).1.trans hf.1, hoff _ List.mem_cons_self hf.2⟩
  · exact ⟨(hst _ List.mem_cons_self).1.trans hf.1, hoff _ List.mem_cons_self hf.2⟩
  · exact (hst _ List.mem_cons_self).1.trans hf
  · exact (hst _ List.mem_cons_self).1.trans hf
  · exact (hst _ List.mem_cons_self).1.trans hf
  · exact (hst _ List.mem_cons_self).1.trans hf
  · exact (hst _ (by simp [Frame.holds, ForkPt.holds])).1.trans hf
  · exact (hst _ (by simp [Frame.holds, ForkPt.holds])).1.trans hf
  · exact (hst _ List.mem_cons_self).1.trans hf
  · intro p hp
    subst hp
    exact (hst p List.mem_cons_self).2.trans (hf p rfl)
  · intro p hp
    subst hp
    exact (hst p List.mem_cons_self).2.trans (hf p rfl)
  · trivial

/-- No second call claims a lock that the executing one claims. -/
theorem Inv.not_claimed (hI : Inv s) (hstack : s.stack (s.thread c) = f :: rest) {lk : Lock N}
    (hf : lk ∈ f.holds (s.cpus c).proc) :
    (∀ f' ∈ rest, lk ∉ f'.holds (s.cpus c).proc) ∧
      ∀ c', c' ≠ c → ∀ f' ∈ s.stack (s.thread c'), lk ∉ f'.holds (s.cpus c').proc := by
  have hheld : s.lock lk = some c := hI.holds (by rw [hstack]; exact List.mem_cons_self) hf
  refine ⟨fun f' hf' hlk => ?_, fun c' hc f' hf' hlk => ?_⟩
  · have hcount := hI.locks c lk
    rw [if_pos hheld, claims_eq hstack, List.count_append] at hcount
    have h1 : 0 < (f.holds (s.cpus c).proc).count lk := List.count_pos_iff.mpr hf
    have h2 : 0 < (claimsOf (s.cpus c).proc rest).count lk :=
      List.count_pos_iff.mpr (List.mem_flatMap.mpr ⟨f', hf', hlk⟩)
    omega
  · have := hI.holds hf' hlk
    rw [hheld] at this
    exact hc (Option.some.inj this).symm

/-- The state after an assignment. -/
def Sys.assign (s : Sys N M) (c : Fin M) (q : Fin N) (r : Proc N) (ev : List (Event N)) (fs : Stack N) : Sys N M :=
  Sys.goto { s.setProc q r with log := s.log ++ ev } c fs

theorem assign_procs : (s.assign c q r ev fs).procs q = r := Function.update_self _ _ _

theorem assign_procs_of_ne (h : p ≠ q) : (s.assign c q r ev fs).procs p = s.procs p := Function.update_of_ne h _ _

theorem assign_thread : (s.assign c q r ev fs).thread c' = s.thread c' := rfl

theorem assign_stack : (s.assign c q r ev fs).stack = Function.update s.stack (s.thread c) fs := rfl

theorem assign_off : (s.assign c q r ev fs).Off p ↔ s.Off p := Iff.rfl

theorem assign_claims : (s.assign c q r ev fs).claims c = claimsOf (s.cpus c).proc fs := by
  show claimsOf (s.cpus c).proc (Function.update s.stack (s.thread c) fs (s.thread c)) = _
  rw [Function.update_self]

theorem assign_claims_of_ne (hI : Inv s) (hc : c' ≠ c) : (s.assign c q r ev fs).claims c' = s.claims c' := by
  show claimsOf (s.cpus c').proc (Function.update s.stack (s.thread c) fs (s.thread c')) = _
  rw [Function.update_of_ne fun h => hc (hI.thread_inj h)]
  rfl

/-- What an assignment leaves to the other calls. -/
theorem Inv.facts_assign (hI : Inv s) (hstack : s.stack (s.thread c) = f :: rest) (hw : Write s c f q r ev k)
    {f' : Frame N} (hf' : c' = c ∧ f' ∈ rest ∨ c' ≠ c ∧ f' ∈ s.stack (s.thread c')) :
    f'.Facts (s.assign c q r ev fs) (s.cpus c').proc := by
  have hin : f' ∈ s.stack (s.thread c') := by
    rcases hf' with ⟨rfl, h⟩ | h
    · rw [hstack]
      exact List.mem_cons_of_mem _ h
    · exact h.2
  refine (hI.facts hin).congr (fun _ _ => assign_off.mpr) fun q' hq' => ?_
  by_cases hq : q' = q
  · subst hq
    rw [assign_procs]
    rcases hw.locked with hl | hr
    · exfalso
      obtain ⟨h1, h2⟩ := hI.not_claimed hstack hl
      rcases hf' with ⟨rfl, h⟩ | h
      · exact h1 f' h hq'
      · exact h2 c' h.1 f' h.2 hq'
    · rw [hr]
      exact ⟨rfl, rfl⟩
  · rw [assign_procs_of_ne hq]
    exact ⟨rfl, rfl⟩

theorem SavedAt.congr {r' : Proc N} (h : SavedAt r f) (hst : r'.state = r.state) (hchan : r'.chan = r.chan) :
    SavedAt r' f := by
  cases h with
  | forkret h => exact .forkret (hst ▸ h)
  | yield h => exact .yield (hst ▸ h)
  | sleep hc h => exact .sleep (hchan.trans hc) (hst ▸ h)
  | exit h => exact .exit (hst ▸ h)

/-- A saved thread is made runnable, or is picked by a scheduler. -/
theorem SavedAt.transition {r' : Proc N} (h : SavedAt r f) (hchan : r'.chan = r.chan)
    (hst : r.state = .sleeping ∧ r'.state = .runnable ∨ r.state = .runnable ∧ r'.state = .running) :
    SavedAt r' f := by
  cases h with
  | forkret h => rcases hst with ⟨h1, h2⟩ | ⟨h1, h2⟩ <;> simp_all [SavedAt.forkret]
  | yield h => rcases hst with ⟨h1, h2⟩ | ⟨h1, h2⟩ <;> simp_all [SavedAt.yield]
  | sleep hc h => exact .sleep (hchan.trans hc) (by rcases hst with ⟨h1, h2⟩ | ⟨h1, h2⟩ <;> simp [h2])
  | exit h => rcases hst with ⟨h1, h2⟩ | ⟨h1, h2⟩ <;> simp_all

/-- What the assigning call relies on next. -/
theorem Inv.facts_write (hI : Inv s) (hstack : s.stack (s.thread c) = f :: rest) (hw : Write s c f q r ev k) :
    k.Facts (s.assign c q r ev fs) (s.cpus c).proc := by
  have hmem : f ∈ s.stack (s.thread c) := by rw [hstack]; exact List.mem_cons_self
  cases hw with
  | sleepChan hp =>
      intro p' hp'
      rw [hp] at hp'
      cases hp'
      rw [assign_procs]
  | sleepState hp =>
      intro p' hp'
      rw [hp] at hp'
      cases hp'
      rw [assign_procs]
      exact hI.facts hmem q hp
  | freeMem =>
      show ((s.assign c q _ _ fs).procs q).state = .zombie
      rw [assign_procs]
      exact hI.facts hmem
  | pick h =>
      refine ⟨by rw [assign_procs], assign_off.mpr (hI.off (fun c' hon hl => ?_) (by rw [h]; simp))⟩
      have hheld : s.lock (.proc q) = some c := hI.holds hmem List.mem_cons_self
      rw [hheld] at hl
      cases hl
      rw [thread_of_on hon] at hstack
      rcases hI.shape q with h0 | h0
      · rw [h0] at hstack
        cases hstack
      · rw [hstack] at h0
        cases rest with
        | nil => exact h0
        | cons b rest => cases h0.1
  | _ => trivial

/-- A process that no CPU executes keeps a saved context. -/
theorem Inv.saved_assign (hI : Inv s) (hstack : s.stack (s.thread c) = f :: rest) (hw : Write s c f q r ev k)
    (hoff : s.Off q) (hst : r.state.started) : Saved q r (s.stack (.proc q)) := by
  have hmem : f ∈ s.stack (s.thread c) := by rw [hstack]; exact List.mem_cons_self
  have hself : ∀ {p}, (s.cpus c).proc = some p → ¬f.onSched → p ≠ q := by
    rintro p hp hns rfl
    obtain ⟨p', hon, hp'⟩ := hI.proc_of_not_onSched hmem hns
    rw [hp] at hp'
    cases hp'
    exact hoff c hon
  have hkeep : r.state = (s.procs q).state → r.chan = (s.procs q).chan → Saved q r (s.stack (.proc q)) := by
    intro h1 h2
    obtain ⟨hcon, f', rest', heq, hat, hrest⟩ := hI.saved hoff (h1 ▸ hst)
    exact ⟨hw.context.trans hcon, f', rest', heq, hat.congr h1 h2, hrest⟩
  have hmove : r.chan = (s.procs q).chan →
      ((s.procs q).state = .sleeping ∧ r.state = .runnable ∨ (s.procs q).state = .runnable ∧ r.state = .running) →
      Saved q r (s.stack (.proc q)) := by
    intro h1 h2
    have hstart : (s.procs q).state.started := by rcases h2 with h | h <;> rw [h.1] <;> trivial
    obtain ⟨hcon, f', rest', heq, hat, hrest⟩ := hI.saved hoff hstart
    exact ⟨hw.context.trans hcon, f', rest', heq, hat.transition h1 h2, hrest⟩
  cases hw with
  | yield hp => exact absurd rfl (hself hp id)
  | sleepChan hp => exact absurd rfl (hself hp id)
  | sleepState hp => exact absurd rfl (hself hp id)
  | sleepTidy hp => exact absurd rfl (hself hp id)
  | xstate hp => exact absurd rfl (hself hp id)
  | zombie hp => exact absurd rfl (hself hp id)
  | resize hp => exact absurd rfl (hself hp id)
  | copySz hp => exact hkeep rfl rfl
  | wake =>
      unfold Proc.wake at hkeep hmove ⊢
      split at hkeep
      · rename_i h
        rw [if_pos h] at hmove ⊢
        exact hmove rfl (.inl ⟨h.1, rfl⟩)
      · rename_i h
        rw [if_neg h]
        exact hkeep rfl rfl
  | killed => exact hkeep rfl rfl
  | killState h => exact hmove rfl (.inl ⟨h, rfl⟩)
  | reparent hp h => exact hkeep rfl rfl
  | freeMem => exact hkeep rfl rfl
  | parent hp => exact hkeep rfl rfl
  | reap hp => exact hst.elim
  | used => exact hst.elim
  | unfork => exact hst.elim
  | runnable =>
      obtain ⟨p, hon, -⟩ := hI.proc_of_not_onSched hmem id
      rw [thread_of_on hon] at hmem
      obtain ⟨h1, h2⟩ := hI.ready hmem (q := q) rfl
      exact ⟨h1.trans h2.symm, .forkret false, [.code []], h2, .forkret (.inl rfl), rfl⟩
  | pick h => exact hmove rfl (.inr ⟨h, rfl⟩)

/-- A call of `fork` is the only one that owns a slot on its stack. -/
theorem Inv.fork_alone (hI : Inv s) (hstack : s.stack (.proc p) = f :: rest) (ho : f.owns = some q) :
    ∀ f' ∈ rest, f'.owns = none := by
  rcases hI.shape p with h | h
  · rw [h] at hstack
    cases hstack
  · rw [hstack] at h
    cases rest with
    | nil => exact fun f' hf' => absurd hf' List.not_mem_nil
    | cons b rest =>
        have hcode : ∃ held, b = .code held := by
          cases h.1 <;> first | exact ⟨_, rfl⟩ | cases ho
        obtain ⟨held, rfl⟩ := hcode
        rw [h.2.code]
        intro f' hf'
        rw [List.mem_singleton.mp hf']
        rfl

/-- The executing call does not own what another call owns. -/
theorem Inv.sole_owner (hI : Inv s) (hstack : s.stack (s.thread c) = f :: rest) {f' : Frame N}
    (hf' : f' ∈ s.stack (.proc p)) (hne : s.thread c = .proc p → f' ∈ rest) (ho : f'.owns = some q) :
    f.owns ≠ some q := by
  intro hfo
  obtain ⟨p', hth, hmem, -⟩ := hI.owned_top hstack hfo
  have hpp := hI.owner hmem hf' hfo ho
  subst hpp
  rw [hth] at hstack
  rw [hI.fork_alone hstack hfo f' (hne hth)] at ho
  cases ho

/-- The slots that are being forked stay as they are for the other calls. -/
theorem Inv.owned_assign (hI : Inv s) (hstack : s.stack (s.thread c) = f :: rest) (hw : Write s c f q r ev k)
    {f' : Frame N} (hf' : f' ∈ s.stack (.proc p)) (hne : s.thread c = .proc p → f' ∈ rest)
    (ho : f'.owns = some q) : r.state = .used := by
  have hused := hI.owned hf' ho
  rcases hI.transition hstack hw with hon | hfo | htr
  · exact absurd hon (hI.off_of_not_started (by rw [hused]; exact id) c)
  · exact absurd hfo (hI.sole_owner hstack hf' hne ho)
  · rw [hused] at htr
    generalize r.state = st at htr
    cases htr
    rfl

/-- What the assigning call owns. -/
theorem Inv.owns_write (hI : Inv s) (hstack : s.stack (s.thread c) = f :: rest) (hw : Write s c f q r ev k)
    {q' : Fin N} (ho : k.owns = some q') :
    q' = q ∧ r.state = .used ∧ (f.owns = some q ∨ (s.procs q).state = .unused) ∧
      (k.ready = some q → f.ready = some q) := by
  have hmem : f ∈ s.stack (s.thread c) := by rw [hstack]; exact List.mem_cons_self
  cases hw with
  | used =>
      cases ho
      exact ⟨rfl, rfl, .inr (hI.facts hmem), fun h => by cases h⟩
  | parent hp =>
      cases ho
      obtain ⟨-, -, -, hst⟩ := hI.owned_top hstack (q := q) rfl
      exact ⟨rfl, hst, .inl rfl, fun _ => rfl⟩
  | copySz hp =>
      cases ho
      obtain ⟨-, -, -, hst⟩ := hI.owned_top hstack (q := q) rfl
      exact ⟨rfl, hst, .inl rfl, fun _ => rfl⟩
  | _ => cases ho

/-- **An assignment keeps the invariant.** -/
theorem Inv.assign (hI : Inv s) (hstack : s.stack (s.thread c) = f :: rest) (hw : Write s c f q r ev k)
    (hfit : (Micro.assign q r ev k).Fits (s.cpus c).proc f) : Inv (s.assign c q r ev (k :: rest)) := by
  obtain ⟨hperm, hsame, hstate, hstate'⟩ := hfit
  have hmem : f ∈ s.stack (s.thread c) := by rw [hstack]; exact List.mem_cons_self
  have hclaims : (claimsOf (s.cpus c).proc (k :: rest)).Perm (s.claims c) := by
    rw [claims_eq hstack]
    exact hperm.append_right _
  -- a call after the step is the assigning one or was there before
  have hcall : ∀ {p k'}, k' ∈ (s.assign c q r ev (k :: rest)).stack (.proc p) →
      (s.thread c = .proc p ∧ k' = k) ∨ (k' ∈ s.stack (.proc p) ∧ (s.thread c = .proc p → k' ∈ rest)) := by
    intro p k' hk'
    rw [assign_stack] at hk'
    by_cases hth : s.thread c = .proc p
    · rw [← hth, Function.update_self] at hk'
      rcases List.mem_cons.mp hk' with rfl | hk'
      · exact .inl ⟨hth, rfl⟩
      · exact .inr ⟨by rw [← hth, hstack]; exact List.mem_cons_of_mem _ hk', fun _ => hk'⟩
    · rw [Function.update_of_ne (Ne.symm hth)] at hk'
      exact .inr ⟨hk', fun h => absurd h hth⟩
  constructor
  case locks =>
    refine hI.locks.congr fun c' => ?_
    by_cases hc : c' = c
    · subst hc
      rw [assign_claims]
      exact hclaims
    · rw [assign_claims_of_ne hI hc]
  case noff =>
    intro c'
    show (s.cpus c').noff = _
    rw [hI.noff c']
    by_cases hc : c' = c
    · subst hc
      rw [assign_claims, hclaims.length_eq]
    · rw [assign_claims_of_ne hI hc]
  case sched =>
    intro c' (hon : (s.cpus c').on = none)
    obtain ⟨h1, h2, h3⟩ := hI.sched hon
    rw [assign_stack]
    by_cases hc : c' = c
    · subst hc
      have hth := thread_of_off hon
      rw [hth] at hstack
      rw [← hth, Function.update_self]
      rw [hstack] at h1 h2 h3
      refine ⟨h1.replace hsame hsame.isSched, fun f' hf' => ?_, fun pt hpt => ?_⟩
      · rcases List.mem_cons.mp hf' with rfl | hf'
        · exact hsame.onSched (h2 f List.mem_cons_self)
        · exact h2 f' (List.mem_cons_of_mem _ hf')
      · rcases List.mem_cons.mp hpt with hk | hpt
        · subst hk
          cases hw with
          | pick h => exact h3 (.locked q) List.mem_cons_self
        · exact h3 pt (List.mem_cons_of_mem _ hpt)
    · rw [Function.update_of_ne]
      · exact ⟨h1, h2, h3⟩
      · rw [← thread_of_off hon]
        exact fun h => hc (hI.thread_inj h)
  case shape =>
    intro p
    rw [assign_stack]
    by_cases hth : Thread.proc p = s.thread c
    · rw [hth, Function.update_self]
      rcases hI.shape p with h | h
      · rw [hth, hstack] at h
        cases h
      · rw [hth, hstack] at h
        exact .inr (h.replace hsame hsame.isCode)
    · rw [Function.update_of_ne hth]
      exact hI.shape p
  case on => exact hI.on
  case state =>
    intro c' p (hon : (s.cpus c').on = some p)
    obtain ⟨f', rest', heq, hst⟩ := hI.state hon
    by_cases hc : c' = c
    · subst hc
      have hth := thread_of_on hon
      refine ⟨k, rest, by rw [← hth, assign_stack, Function.update_self], ?_⟩
      rw [hth, heq] at hstack
      cases hstack
      by_cases hq : p = q
      · subst hq
        rw [assign_procs]
        exact hstate (hI.on hon).1
      · rw [assign_procs_of_ne hq, hst, hstate']
        rw [(hI.on hon).1]
        exact fun h => hq (Option.some.inj h)
    · have hth : Thread.proc p ≠ s.thread c := fun h => hc (hI.inj hon (on_of_thread h.symm))
      refine ⟨f', rest', by rw [assign_stack, Function.update_of_ne hth, heq], ?_⟩
      by_cases hq : p = q
      · subst hq
        rw [assign_procs, ← hst]
        rcases hw.locked with hl | hr
        · have hrun := hI.running_of_locked (hI.holds hmem hl) hon hc
          rcases hI.transition hstack hw with h | h | h
          · exact absurd (hI.inj hon h) hc
          · obtain ⟨-, -, -, hused⟩ := hI.owned_top hstack h
            rw [hrun] at hused
            cases hused
          · rw [hrun] at h ⊢
            generalize r.state = st at h
            cases h
            rfl
        · rw [hr]
      · rw [assign_procs_of_ne hq]
        exact hst
  case inj => exact hI.inj
  case saved =>
    intro p hoff hst
    have hth : Thread.proc p ≠ s.thread c := fun h => hoff c (on_of_thread h.symm)
    rw [assign_stack, Function.update_of_ne hth]
    by_cases hq : p = q
    · subst hq
      rw [assign_procs] at hst ⊢
      exact hI.saved_assign hstack hw hoff hst
    · rw [assign_procs_of_ne hq] at hst ⊢
      exact hI.saved hoff hst
  case facts =>
    intro c' k' hk'
    rw [assign_thread, assign_stack] at hk'
    show k'.Facts _ (s.cpus c').proc
    by_cases hc : c' = c
    · subst hc
      rw [Function.update_self] at hk'
      rcases List.mem_cons.mp hk' with rfl | hk'
      · exact hI.facts_write hstack hw
      · exact hI.facts_assign hstack hw (.inl ⟨rfl, hk'⟩)
    · rw [Function.update_of_ne fun h => hc (hI.thread_inj h)] at hk'
      exact hI.facts_assign hstack hw (.inr ⟨hc, hk'⟩)
  case owned =>
    intro p k' q' hk' ho
    rcases hcall hk' with ⟨-, rfl⟩ | ⟨hold, hne⟩
    · obtain ⟨rfl, hst, -⟩ := hI.owns_write hstack hw ho
      rw [assign_procs, hst]
    · by_cases hq : q' = q
      · subst hq
        rw [assign_procs]
        exact hI.owned_assign hstack hw hold hne ho
      · rw [assign_procs_of_ne hq]
        exact hI.owned hold ho
  case ready =>
    intro p k' q' hk' hr
    have ho := Frame.owns_of_ready hr
    -- neither the context nor the stack of a slot that is being forked is touched
    have hkeep : ∀ {p' f'}, f' ∈ s.stack (.proc p') → f'.ready = some q' →
        (s.assign c q r ev (k :: rest)).Fresh q' := by
      intro p' f' hf' hr'
      obtain ⟨h1, h2⟩ := hI.ready hf' hr'
      have hth := hI.owned_thread (c := c) hf' (Frame.owns_of_ready hr')
      refine ⟨?_, by rw [assign_stack, Function.update_of_ne (Ne.symm hth), h2]⟩
      by_cases hq : q' = q
      · subst hq
        rw [assign_procs, hw.context, h1]
      · rw [assign_procs_of_ne hq, h1]
    rcases hcall hk' with ⟨hth, rfl⟩ | ⟨hold, -⟩
    · obtain ⟨rfl, -, -, hready⟩ := hI.owns_write hstack hw ho
      rw [hth] at hmem
      exact hkeep hmem (hready hr)
    · exact hkeep hold hr
  case owner =>
    intro p p' k₁ k₂ q' hk₁ hk₂ ho₁ ho₂
    -- the assigning call and another one
    have hone : ∀ {p₁ p₂ k'}, s.thread c = .proc p₁ → k.owns = some q' → k' ∈ s.stack (.proc p₂) →
        k'.owns = some q' → p₁ = p₂ := by
      intro p₁ p₂ k' hth hk hk' ho'
      obtain ⟨rfl, -, hcase, -⟩ := hI.owns_write hstack hw hk
      rcases hcase with hf | hu
      · rw [hth] at hmem
        exact hI.owner hmem hk' hf ho'
      · rw [hI.owned hk' ho'] at hu
        cases hu
    rcases hcall hk₁ with ⟨hth₁, rfl⟩ | ⟨hold₁, -⟩
    · rcases hcall hk₂ with ⟨hth₂, -⟩ | ⟨hold₂, -⟩
      · rw [hth₁] at hth₂
        cases hth₂
        rfl
      · exact hone hth₁ ho₁ hold₂ ho₂
    · rcases hcall hk₂ with ⟨hth₂, rfl⟩ | ⟨hold₂, -⟩
      · exact (hone hth₂ ho₂ hold₁ ho₁).symm
      · exact hI.owner hold₁ hold₂ ho₁ ho₂

end Xv6.Procs
