import Xv6.Proc.Family

/-!
# `Proc.Slots` — what a free slot holds, and whom `kill` finds

`freeproc` clears a slot and `allocproc` takes it as it is, so whatever is left in an UNUSED slot is inherited
by the next process. Every field of an UNUSED slot is as `freeproc` left it (`Sys.Blank`) but one: `kill`
compares pids without looking at the state, and the pid of an UNUSED slot is 0. `clean_slots` says that this
is the only way in which a slot gets dirty.
-/

namespace Xv6.Procs

variable {N M : Nat} {s t : Sys N M} {c c' : Fin M} {p q : Fin N} {f k : Frame N} {rest : Stack N}
  {ch : Choice} {m : Option (Micro N)} {r : Proc N} {ev : List (Event N)} {n : Int} {pt : KillPt N}

/-! ## UNUSED slots -/

/-- What `freeproc` leaves in a slot, apart from `killed` and `parent`. -/
structure Proc.Blank (r : Proc N) : Prop where
  pid : r.pid = 0
  chan : r.chan = .null
  sz : r.sz = 0
  mem : r.mem = false

def Sys.Blank (s : Sys N M) : Prop := ∀ q, (s.procs q).state = .unused → (s.procs q).Blank

/-- The process that a call of the process itself writes to is not UNUSED. -/
theorem Inv.running_ne_unused (hI : Inv s) (hstack : s.stack (s.thread c) = f :: rest)
    (hp : (s.cpus c).proc = some p) (hf : ¬f.isSched) : (s.procs p).state ≠ .unused := by
  intro hu
  have hst := f.pstate_started
  rw [← hI.pstate hstack hp hf, hu] at hst
  exact hst

theorem Inv.blank_write (hI : Inv s) (hstack : s.stack (s.thread c) = f :: rest) (hw : Write s c f q r ev k)
    (hq : (s.procs q).state = .unused → (s.procs q).Blank) (hst : r.state = .unused) : r.Blank := by
  have hkeep : (s.procs q).state = .unused → r.pid = (s.procs q).pid → r.chan = (s.procs q).chan →
      r.sz = (s.procs q).sz → r.mem = (s.procs q).mem ∨ r.mem = false → r.Blank := by
    intro hu h1 h2 h3 h4
    obtain ⟨hpid, hchan, hsz, hmem⟩ := hq hu
    exact ⟨h1.trans hpid, h2.trans hchan, h3.trans hsz, h4.elim (·.trans hmem) id⟩
  cases hw with
  | reap hp => exact ⟨rfl, rfl, rfl, rfl⟩
  | unfork => exact ⟨rfl, rfl, rfl, rfl⟩
  | wake =>
      rw [Proc.wake] at hst ⊢
      split at hst
      · cases hst
      · rename_i h
        rw [if_neg h]
        exact hq hst
  | killed h => exact hkeep hst rfl rfl rfl (.inl rfl)
  | reparent hp h => exact hkeep hst rfl rfl rfl (.inl rfl)
  | parent hp => exact hkeep hst rfl rfl rfl (.inl rfl)
  | xstate hp => exact hkeep hst rfl rfl rfl (.inl rfl)
  | freeMem => exact hkeep hst rfl rfl rfl (.inr rfl)
  | copySz hp =>
      obtain ⟨-, -, -, hused⟩ := hI.owned_top hstack (q := q) rfl
      rw [show (s.procs q).state = .unused from hst] at hused
      cases hused
  -- a process that executes is not UNUSED
  | sleepChan hp => exact absurd hst (hI.running_ne_unused hstack hp id)
  | sleepTidy hp => exact absurd hst (hI.running_ne_unused hstack hp id)
  | resize hp => exact absurd hst (hI.running_ne_unused hstack hp id)
  | _ => cases hst

theorem View.blank (hI : Inv s) (v : View s c ch f rest m t) (h : s.Blank) : t.Blank := by
  intro q hst
  rcases v.write q with ⟨ev, k, -, hw⟩ | hag
  · exact hI.blank_write v.stack hw (h q) hst
  · rw [hag.state] at hst
    obtain ⟨hpid, hchan, hsz, hmem⟩ := h q hst
    refine ⟨hag.pid.trans hpid, hag.chan.trans hchan, hag.sz.trans hsz, ?_⟩
    rcases hag.mem with hm | hu
    · exact hm.trans hmem
    · rw [hst] at hu
      cases hu

theorem boot_blank (init : Fin N) : (boot init : Sys N M).Blank := by
  intro q hst
  have hq : q ≠ init := by
    rintro rfl
    have hst : (if q = q then PState.runnable else .unused) = .unused := hst
    rw [if_pos rfl] at hst
    cases hst
  refine ⟨if_neg hq, rfl, if_neg hq, ?_⟩
  simp [boot, hq]

/-! ## Whom `kill` finds -/

/-- A `kill` has locked an UNUSED slot whose pid is the one it looks for. -/
def Sys.Stray (s : Sys N M) (c : Fin M) : Prop :=
  ∃ n q rest, s.stack (s.thread c) = .kill n (.locked q) :: rest ∧ (s.procs q).pid = n ∧
    (s.procs q).state = .unused

/-- No UNUSED slot is marked as killed. -/
def Sys.Unkilled (s : Sys N M) : Prop := ∀ q, (s.procs q).state = .unused → (s.procs q).killed = false

/-- The slot that a `kill` works on. -/
def KillPt.slot : KillPt N → Option (Fin N)
  | .locked q | .state q | .found q | .unlock q => some q
  | .loop _ | .done _ => none

/-- The slot in which a `kill` has found its process. -/
def KillPt.target : KillPt N → Option (Fin N)
  | .state q | .found q => some q
  | _ => none

/-- A process that a `kill` has found has the pid and is not UNUSED. -/
def Sys.Targets (s : Sys N M) : Prop :=
  ∀ {c n pt rest q}, s.stack (s.thread c) = .kill n pt :: rest → pt.target = some q →
    (s.procs q).pid = n ∧ (s.procs q).state ≠ .unused

theorem kill_next {m' : Micro N} (h : (Frame.kill n pt).next s c ch = some m') : m' = kill s n pt := by
  unfold Frame.next at h
  split at h <;> simp_all

/-- What a step of `kill` writes. -/
theorem kill_step (hstack : s.stack (s.thread c) = .kill n pt :: rest) (h : step s (c, ch) = some t) :
    t.procs = s.procs ∨
      (∃ q, pt = .locked q ∧ (s.procs q).pid = n ∧
        t.procs = Function.update s.procs q { s.procs q with killed := true }) ∨
      ∃ q, pt = .state q ∧ (s.procs q).state = .sleeping ∧
        t.procs = Function.update s.procs q { s.procs q with state := .runnable } := by
  simp only [step, hstack] at h
  split at h
  · split at h <;> cases h
    exact .inl rfl
  · obtain ⟨m, hnext, hexec⟩ := Option.bind_eq_some_iff.mp h
    obtain rfl := kill_next hnext
    cases pt with
    | loop i =>
        simp only [kill] at hexec
        split at hexec
        · simp only [Micro.exec] at hexec
          split at hexec <;> cases hexec
          exact .inl rfl
        · cases hexec
          exact .inl rfl
    | locked q =>
        simp only [kill] at hexec
        split at hexec <;> cases hexec
        · rename_i hpid
          exact .inr (.inl ⟨q, rfl, hpid, rfl⟩)
        · exact .inl rfl
    | state q =>
        simp only [kill] at hexec
        split at hexec <;> cases hexec
        · rename_i hsl
          exact .inr (.inr ⟨q, rfl, hsl, rfl⟩)
        · exact .inl rfl
    | found q =>
        simp only [kill, Micro.exec] at hexec
        split at hexec <;> cases hexec
        exact .inl rfl
    | unlock q =>
        simp only [kill, Micro.exec] at hexec
        split at hexec <;> cases hexec
        exact .inl rfl
    | done ret =>
        cases rest with
        | nil => cases hexec
        | cons b rest => cases hexec; exact .inl rfl

/-- **Only a stray `kill` marks an UNUSED slot.** -/
theorem View.unkilled (v : View s c ch f rest m t) (hs : ¬s.Stray c) (h : s.Unkilled) :
    t.Unkilled := by
  intro q hst
  rcases v.write q with ⟨ev, k, -, hw⟩ | hag
  · generalize t.procs q = r at hw hst
    cases hw with
    | killed hpid => exact absurd ⟨_, q, rest, v.stack, hpid, hst⟩ hs
    | reap hp => rfl
    | unfork => rfl
    | wake =>
        rw [Proc.wake] at hst ⊢
        split at hst
        · cases hst
        · rename_i hw
          rw [if_neg hw]
          exact h q hst
    | _ => first | exact h q hst | cases hst
  · rw [hag.state] at hst
    exact hag.killed.trans (h q hst)

/-- Another CPU does not change the state or the pid of a process whose lock is held. -/
theorem View.held_elsewhere (hI : Inv s) (v : View s c ch f rest m t) (hc : c' ≠ c)
    (hl : s.lock (.proc q) = some c') : (t.procs q).pid = (s.procs q).pid ∧ (t.procs q).state = (s.procs q).state := by
  rcases v.write q with ⟨ev, k, -, hw⟩ | hag
  · rcases hw.locked with hlk | hr
    · have := hI.holds (by rw [v.stack]; exact List.mem_cons_self) hlk
      rw [hl] at this
      exact absurd (Option.some.inj this) hc
    · rw [hr]
      exact ⟨rfl, rfl⟩
  · exact ⟨hag.pid, hag.state⟩

theorem KillPt.holds_of_target (h : pt.target = some q) : pt.holds = [.proc q] := by
  cases pt <;> cases h <;> rfl

/-- **What `kill` has found stays.** -/
theorem View.targets (hI : Inv s) (v : View s c ch f rest m t) (hs : ¬s.Stray c) (h : s.Targets) :
    t.Targets := by
  intro c' n pt below q hstack hpt
  by_cases hc : c' = c
  · subst hc
    have hheld : ∀ myproc, (Frame.kill n pt).holds myproc ≠ [] := fun _ hnil => by
      rw [show (Frame.kill n pt).holds _ = pt.holds from rfl, KillPt.holds_of_target hpt] at hnil
      cases hnil
    obtain ⟨m', rfl, hk, -, hsame⟩ := v.leaf hI hstack trivial hheld
    cases hsame with
    | kill _ pt₀ =>
        obtain rfl := kill_next (v.next rfl).1
        cases pt₀ with
        | locked q₀ =>
            simp only [kill] at hk v
            split at hk <;> cases hk <;> cases hpt
            rename_i hpid
            rw [if_pos hpid] at v
            rw [v.assign rfl]
            exact ⟨hpid, fun hu => hs ⟨n, q, rest, v.stack, hpid, hu⟩⟩
        | state q₀ =>
            obtain ⟨hpid, hu⟩ := h v.stack (q := q₀) rfl
            simp only [kill] at hk v
            split at hk <;> cases hk <;> cases hpt
            · rename_i hsl
              rw [if_pos hsl] at v
              rw [v.assign rfl]
              exact ⟨hpid, fun hst => by cases hst⟩
            · rename_i hsl
              rw [if_neg hsl] at v
              have hag := v.procs (q := q) fun _ _ _ h => by cases h
              rw [hag.pid, hag.state]
              exact ⟨hpid, hu⟩
        | loop i => simp only [kill] at hk; split at hk <;> cases hk <;> cases hpt
        | found q₀ => cases hk; cases hpt
        | unlock q₀ => cases hk; cases hpt
        | done ret => cases hk
  · obtain ⟨-, hst⟩ := v.cpu hc
    rw [hst] at hstack
    have hl : s.lock (.proc q) = some c' := by
      refine hI.holds (by rw [hstack]; exact List.mem_cons_self) ?_
      show _ ∈ pt.holds
      rw [KillPt.holds_of_target hpt]
      exact List.mem_cons_self
    obtain ⟨h1, h2⟩ := v.held_elsewhere hI hc hl
    rw [h1, h2]
    exact h hstack hpt

/-! ## Runs -/

/-- The fields that the next process of a slot inherits. -/
structure Proc.Clean (r : Proc N) : Prop where
  killed : r.killed = false
  chan : r.chan = .null
  parent : r.parent = none
  sz : r.sz = 0
  mem : r.mem = false

def Sys.Clean (s : Sys N M) : Prop := ∀ q, (s.procs q).state = .unused → (s.procs q).Clean

/-- A step of CPU `c` from `s` to `t` that goes as `kill` and the slots are meant to. -/
structure Tidy (s : Sys N M) (c : Fin M) (t : Sys N M) : Prop where
  before : s.Clean
  after : t.Clean
  /-- a slot that `allocproc` takes is not marked -/
  child : ∀ q, (s.procs q).state = .unused → (t.procs q).state ≠ .unused → (t.procs q).killed = false
  /-- `kill(n)` comes to return 0 while it holds the lock of a process with this pid -/
  found : ∀ {n pt rest rest'}, s.stack (s.thread c) = .kill n pt :: rest →
    t.stack (t.thread c) = .kill n (.done 0) :: rest' →
    ∃ q, pt = .found q ∧ (s.procs q).pid = n ∧ (s.procs q).state ≠ .unused
  /-- `kill(n)` writes only to the process it has locked, if it has this pid: the flag, and the state of a
      sleeper -/
  only : ∀ {n pt rest}, s.stack (s.thread c) = .kill n pt :: rest → ∀ q, t.procs q = s.procs q ∨
    pt.slot = some q ∧ (s.procs q).pid = n ∧ (s.procs q).state ≠ .unused ∧
      (t.procs q = { s.procs q with killed := true } ∨
        (s.procs q).state = .sleeping ∧ t.procs q = { s.procs q with state := .runnable })

/-- What is known of the slots along a run without a stray `kill`. -/
structure Slots (s : Sys N M) : Prop where
  inv : Inv s
  family : Family s
  blank : s.Blank
  unkilled : s.Unkilled
  targets : s.Targets

theorem Slots.clean (h : Slots s) : s.Clean := fun q hu =>
  ⟨h.unkilled q hu, (h.blank q hu).chan, h.family.unused hu, (h.blank q hu).sz, (h.blank q hu).mem⟩

theorem slots_step {a : Fin M × Choice} (h : Slots s) (hs : ¬s.Stray a.1) (hst : step s a = some t) : Slots t := by
  obtain ⟨f, rest, m, v⟩ := h.inv.view (c := a.1) hst
  exact ⟨inv_step h.inv hst, v.family h.inv h.family, v.blank h.inv h.blank, v.unkilled hs h.unkilled,
    v.targets h.inv hs h.targets⟩

theorem boot_slots (init : Fin N) : Slots (boot init : Sys N M) where
  inv := boot_inv init
  family := boot_family init
  blank := boot_blank init
  unkilled := fun _ _ => rfl
  targets := fun hstack => by cases hstack

/-- A `kill` comes to return 0 from one point only. -/
theorem View.kill_done {below : Stack N} (hI : Inv s) (v : View s c ch (.kill n pt) rest m t)
    (hstack : t.stack (t.thread c) = .kill n (.done 0) :: below) : ∃ q, pt = .found q := by
  rcases v.self with ⟨-, -, hev⟩ | ⟨-, pt', hsched⟩ | ⟨-, f', rest', hst, ⟨r, hat⟩, -⟩
  · generalize hfs : t.stack (t.thread c) = fs at hev
    rw [hstack] at hfs
    cases hev with
    | point hk =>
        cases hfs
        obtain rfl := kill_next (v.next rfl).1
        cases pt with
        | found q => exact ⟨q, rfl⟩
        | unlock q => cases hk
        | done ret => cases hk
        | _ => simp only [kill] at hk; split at hk <;> cases hk
    | call =>
        cases hfs
        cases next_starts (v.next rfl).1
    | ret hrest =>
        subst hrest
        have hcalls := hI.calls v.stack
        cases hcalls
        cases hfs
    | intr => cases hfs
  · rw [hstack] at hsched
    cases hsched
  · rw [hstack] at hst
    cases hst
    cases hat

theorem tidy_of_slots {a : Fin M × Choice} (h : Slots s) (hs : ¬s.Stray a.1) (hst : step s a = some t) :
    Tidy s a.1 t := by
  obtain ⟨f, rest, m, v⟩ := h.inv.view (c := a.1) hst
  have ht := slots_step h hs hst
  refine ⟨h.clean, ht.clean, fun q hu hne => ?_, fun hstack hdone => ?_, fun hstack q => ?_⟩
  · rcases v.write q with ⟨ev, k, -, hw⟩ | hag
    · generalize t.procs q = r at hw hne
      cases hw with
      | killed hpid => exact absurd hu hne
      | wake =>
          rw [Proc.wake, if_neg (by rw [hu]; simp)] at hne
          exact absurd hu hne
      | reap hp => exact absurd rfl hne
      | unfork => exact absurd rfl hne
      | _ => exact h.unkilled q hu
    · exact hag.killed.trans (h.unkilled q hu)
  · have hf := v.stack
    rw [hstack] at hf
    obtain ⟨rfl, -⟩ := List.cons.inj hf
    obtain ⟨q, rfl⟩ := v.kill_done h.inv hdone
    exact ⟨q, rfl, h.targets hstack rfl⟩
  · rcases kill_step hstack hst with heq | ⟨q', rfl, hpid, heq⟩ | ⟨q', rfl, hsl, heq⟩
    · rw [heq]
      exact .inl rfl
    · rw [heq]
      by_cases hq : q = q'
      · subst hq
        rw [Function.update_self]
        exact .inr ⟨rfl, hpid, fun hu => hs ⟨_, _, _, hstack, hpid, hu⟩, .inl rfl⟩
      · exact .inl (Function.update_of_ne hq _ _)
    · rw [heq]
      by_cases hq : q = q'
      · subst hq
        rw [Function.update_self]
        exact .inr ⟨rfl, (h.targets hstack rfl).1, by rw [hsl]; simp, .inr ⟨hsl, rfl⟩⟩
      · exact .inl (Function.update_of_ne hq _ _)

/-- A stray `kill` leaves a dirty slot. -/
theorem stray_dirty {a : Fin M × Choice} (hI : Inv s) (hs : s.Stray a.1) (hst : step s a = some t) :
    ¬t.Clean := by
  obtain ⟨n, q, rest, hstack, hpid, hu⟩ := hs
  -- the lock of the slot is held, so no interrupt comes
  have hnoff : (s.cpus a.1).noff ≠ 0 := by
    rw [hI.noff, claims_eq hstack]
    exact Nat.succ_ne_zero _
  have hnext : ∀ m, (Frame.kill n (.locked q)).next s a.1 a.2 = some m →
      m = .assign q { s.procs q with killed := true } [] (.kill n (.state q)) := by
    intro m hm
    rw [kill_next hm, kill, if_pos hpid]
  intro hclean
  simp only [step, hstack] at hst
  rw [if_neg hnoff] at hst
  split at hst
  · cases hst
  · obtain ⟨m, hm, hexec⟩ := Option.bind_eq_some_iff.mp hst
    obtain rfl := hnext m hm
    cases hexec
    have hq := hclean q (by rw [show Sys.procs _ q = _ from Function.update_self _ _ _]; exact hu)
    have hkilled := hq.killed
    rw [show Sys.procs _ q = _ from Function.update_self _ _ _] at hkilled
    cases hkilled

/-- **Clean slots.** Along every run of forks, exits, waits and kills, on any number of CPUs, every UNUSED slot
    is clean, a slot that is taken for a child is not marked as killed, and `kill(n)` returns 0 only for the
    pid of a process that is not UNUSED and then changes nothing but its flag and its state, if and only if no
    step of the run is taken by a `kill` that has found an UNUSED slot. -/
theorem clean_slots (init : Fin N) (acts : List (Fin M × Choice)) :
    Trace.Along step (fun s a => ∀ t, step s a = some t → Tidy s a.1 t) (boot init) acts ↔
      Trace.Along step (fun s a => s.Stray a.1 → step s a = none) (boot init) acts := by
  refine Trace.along_congr (I := Slots) (fun s a hs => ?_) (fun s a t hs hD hst => ?_) (boot_slots init)
  · refine ⟨fun h hstray => ?_, fun h t hst => ?_⟩
    · by_contra hne
      obtain ⟨t, hst⟩ := Option.ne_none_iff_exists'.mp hne
      exact stray_dirty hs.inv hstray hst (h t hst).after
    · refine tidy_of_slots hs (fun hstray => ?_) hst
      rw [h hstray] at hst
      cases hst
  · refine slots_step hs (fun hstray => ?_) hst
    rw [hD hstray] at hst
    cases hst

/-- The first process calls `kill(0)`, up to the point where it returns. -/
def killZero (c₀ : Fin M) : List (Fin M × Choice) := repeated [(6, c₀, .go), (1, c₀, .kill 0), (7, c₀, .go)]

/-- It then forks. -/
def forkAfter (c₀ : Fin M) : List (Fin M × Choice) :=
  repeated [(1, c₀, .go), (1, c₀, .fork), (9, c₀, .go), (2, c₀, .ok), (7, c₀, .go)]

/-- `kill(0)` returns 0 although no process has pid 0. It marks an UNUSED slot, and the next child in this slot
    is born killed. -/
theorem kill_zero_marks_free_slot : ∃ s t : Sys 2 1,
    Trace.run step (boot 0) (killZero 0) = some s ∧ s.stack (.proc 0) = [.kill 0 (.done 0), .code []] ∧
    (s.procs 1).state = .unused ∧ (s.procs 1).killed = true ∧ ¬s.Clean ∧
    Trace.run step s (forkAfter 0) = some t ∧ (t.procs 1).state = .runnable ∧ (t.procs 1).pid = 2 ∧
    (t.procs 1).killed = true := by
  have hrun : (Trace.run step (boot 0 : Sys 2 1) (killZero 0)).any (fun s => decide
      (s.stack (.proc 0) = [.kill 0 (.done 0), .code []] ∧ (s.procs 1).state = .unused ∧
        (s.procs 1).killed = true) &&
      (Trace.run step s (forkAfter 0)).any fun t => decide ((t.procs 1).state = .runnable ∧
        (t.procs 1).pid = 2 ∧ (t.procs 1).killed = true)) = true := by decide +kernel
  obtain ⟨s, hs, h⟩ := (Option.any_eq_true _ _).mp hrun
  obtain ⟨h1, h2⟩ := Bool.and_eq_true _ _ |>.mp h
  obtain ⟨hstack, hu, hk⟩ := of_decide_eq_true h1
  obtain ⟨t, ht, h3⟩ := (Option.any_eq_true _ _).mp h2
  obtain ⟨hst, hpid, hk'⟩ := of_decide_eq_true h3
  refine ⟨s, t, hs, hstack, hu, hk, fun hclean => ?_, ht, hst, hpid, hk'⟩
  rw [(hclean 1 hu).killed] at hk
  cases hk

end Xv6.Procs
