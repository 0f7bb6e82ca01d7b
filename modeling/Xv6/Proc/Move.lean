import Xv6.Proc.Inv

/-!
# `Proc.Move` — a thread moves to its next point

Most statements change nothing but the stack of the executing thread and perhaps a lock. `Inv.move` says what
such a move has to observe, `Inv.goto`, `Inv.acquire` and `Inv.release` are its three forms.
-/

namespace Xv6.Procs

variable {N M : Nat} {s t : Sys N M} {c c' : Fin M} {p q : Fin N} {f k g : Frame N} {rest fs old : Stack N}
  {ch : Choice} {m : Micro N} {myproc : Option (Fin N)}

/-! ## The executing thread moves on -/

/-- The stack `old` of the executing thread becomes `fs`. -/
structure Advance (s : Sys N M) (c : Fin M) (old fs : Stack N) : Prop where
  shape : ∀ base : Frame N → Prop, (∀ f k, f.Same k → base f → base k) → Shape base old → Shape base fs
  onSched : (s.cpus c).on = none → (∀ f ∈ old, f.onSched) → ∀ f ∈ fs, f.onSched
  proc : ∀ pt, .sched pt ∈ fs → ∃ pt', .sched pt' ∈ old ∧ pt'.proc = pt.proc
  state : ∀ f rest, old = f :: rest → ∃ k rest', fs = k :: rest' ∧ k.pstate = f.pstate
  leads : ∀ k ∈ fs, ∃ f ∈ old, f.Leads s (s.cpus c).proc k

theorem Frame.Leads.refl (f : Frame N) : f.Leads s myproc f := ⟨id, fun _ h => h, fun _ h => .inl h⟩

theorem Advance.step (hs : f.Same k) (hp : k.pstate = f.pstate) (hl : f.Leads s (s.cpus c).proc k)
    (hproc : ∀ pt pt', f = .sched pt → k = .sched pt' → pt.proc = pt'.proc) :
    Advance s c (f :: rest) (k :: rest) where
  shape base hbase h := h.replace hs (hbase f k hs)
  onSched _ h f' hf' := by
    rcases List.mem_cons.mp hf' with rfl | hf'
    · exact hs.onSched (h f List.mem_cons_self)
    · exact h f' (List.mem_cons_of_mem _ hf')
  proc pt hpt := by
    rcases List.mem_cons.mp hpt with hk | hpt
    · subst hk
      cases hs with
      | sched pt' => exact ⟨pt', List.mem_cons_self, hproc pt' pt rfl rfl⟩
    · exact ⟨pt, List.mem_cons_of_mem _ hpt, rfl⟩
  state f' rest' heq := by
    cases heq
    exact ⟨k, rest, rfl, hp⟩
  leads f' hf' := by
    rcases List.mem_cons.mp hf' with rfl | hf'
    · exact ⟨f, List.mem_cons_self, hl⟩
    · exact ⟨f', List.mem_cons_of_mem _ hf', .refl f'⟩

theorem Advance.push (hc : Calls g f) (hp : g.pstate = f.pstate) (hg : g.Plain s (s.cpus c).proc)
    (hns : ¬g.isSched) (hos : (s.cpus c).on = none → f.onSched → g.onSched) :
    Advance s c (f :: rest) (g :: f :: rest) where
  shape base _ h := h.push hc
  onSched hm h f' hf' := by
    rcases List.mem_cons.mp hf' with rfl | hf'
    · exact hos hm (h f List.mem_cons_self)
    · exact h f' hf'
  proc pt hpt := by
    rcases List.mem_cons.mp hpt with hk | hpt
    · subst hk
      exact absurd trivial hns
    · exact ⟨pt, hpt, rfl⟩
  state f' rest' heq := by
    cases heq
    exact ⟨g, f :: rest, rfl, hp⟩
  leads f' hf' := by
    rcases List.mem_cons.mp hf' with rfl | hf'
    · exact ⟨f, List.mem_cons_self, hg.leads⟩
    · exact ⟨f', hf', .refl f'⟩

theorem Advance.pop (hp : k.pstate = f.pstate) : Advance s c (f :: k :: rest) (k :: rest) where
  shape base _ h := h.2
  onSched _ h f' hf' := h f' (List.mem_cons_of_mem _ hf')
  proc pt hpt := ⟨pt, List.mem_cons_of_mem _ hpt, rfl⟩
  state f' rest' heq := by
    cases heq
    exact ⟨k, rest, rfl, hp⟩
  leads f' hf' := ⟨f', List.mem_cons_of_mem _ hf', .refl f'⟩

theorem Frame.Leads.trans {a b : Frame N} (h : a.Leads s myproc b) (h' : b.Leads s myproc k) :
    a.Leads s myproc k :=
  ⟨fun hf => h'.facts (h.facts hf), fun q hq => h.owns q (h'.owns q hq),
    fun q hq => (h'.ready q hq).elim (h.ready q) .inr⟩

theorem Advance.trans {mid : Stack N} (h : Advance s c old mid) (h' : Advance s c mid fs) :
    Advance s c old fs where
  shape base hb hsh := h'.shape base hb (h.shape base hb hsh)
  onSched hm hos := h'.onSched hm (h.onSched hm hos)
  proc pt hpt := by
    obtain ⟨pt', hpt', heq'⟩ := h'.proc pt hpt
    obtain ⟨pt'', hpt'', heq''⟩ := h.proc pt' hpt'
    exact ⟨pt'', hpt'', heq''.trans heq'⟩
  state f rest heq := by
    obtain ⟨k, rest', heq', hk⟩ := h.state f rest heq
    obtain ⟨k', rest'', heq'', hk'⟩ := h'.state k rest' heq'
    exact ⟨k', rest'', heq'', hk'.trans hk⟩
  leads k hk := by
    obtain ⟨b, hb, hl'⟩ := h'.leads k hk
    obtain ⟨a, ha, hl⟩ := h.leads b hb
    exact ⟨a, ha, hl.trans hl'⟩

/-- Everything but the stack of the executing thread and the locks is as before. -/
structure Moved (s t : Sys N M) (c : Fin M) (fs : Stack N) : Prop where
  procs : t.procs = s.procs
  stack : t.stack = Function.update s.stack (s.thread c) fs
  on : ∀ c', (t.cpus c').on = (s.cpus c').on
  proc : ∀ c', (t.cpus c').proc = (s.cpus c').proc
  context : ∀ c', (t.cpus c').context = (s.cpus c').context

theorem Moved.thread (h : Moved s t c fs) (c' : Fin M) : t.thread c' = s.thread c' := by
  unfold Sys.thread
  rw [h.on]

theorem Moved.claims (h : Moved s t c fs) : t.claims c = claimsOf (s.cpus c).proc fs := by
  unfold Sys.claims
  rw [h.proc, h.thread, h.stack, Function.update_self]

theorem Moved.claims_of_ne (hI : Inv s) (h : Moved s t c fs) (hne : c' ≠ c) : t.claims c' = s.claims c' := by
  unfold Sys.claims
  rw [h.proc, h.thread, h.stack, Function.update_of_ne fun heq => hne (hI.thread_inj heq)]

theorem Moved.off (h : Moved s t c fs) : t.Off p ↔ s.Off p := by
  unfold Sys.Off
  simp only [h.on]

theorem Moved.facts (h : Moved s t c fs) (hf : f.Facts s myproc) : f.Facts t myproc := by
  unfold Frame.Facts at hf ⊢
  split at hf <;> first | trivial | simpa only [h.procs, h.off] using hf

/-- The thread of a slot that is being forked is not the executing one. -/
theorem Inv.owned_thread (hI : Inv s) (hf : f ∈ s.stack (.proc p)) (ho : f.owns = some q) :
    s.thread c ≠ .proc q := by
  intro hth
  have hused := hI.owned hf ho
  refine hI.off_of_not_started (q := q) ?_ c (on_of_thread hth)
  rw [hused]
  exact id

theorem Frame.owns_of_ready (h : f.ready = some q) : f.owns = some q := by
  unfold Frame.ready at h
  split at h <;> first | exact h | cases h

/-- **A thread moves on.** -/
theorem Inv.move (hI : Inv s) (hstack : s.stack (s.thread c) = old) (hne : old ≠ [])
    (hadv : Advance s c old fs) (hm : Moved s t c fs) (hlocks : Locks.Exact t.lock t.claims)
    (hnoff : ∀ c, (t.cpus c).noff = (t.claims c).length) : Inv t := by
  -- a call of any thread comes from a call of the same thread before the step
  have hlead : ∀ {p k}, k ∈ t.stack (.proc p) → ∃ f ∈ s.stack (.proc p),
      (∀ q, k.owns = some q → f.owns = some q) ∧ ∀ q, k.ready = some q → f.ready = some q ∨ s.Fresh q := by
    intro p k hk
    rw [hm.stack] at hk
    by_cases hth : Thread.proc p = s.thread c
    · rw [hth, Function.update_self] at hk
      obtain ⟨f, hf, hl⟩ := hadv.leads k hk
      exact ⟨f, by rw [hth, hstack]; exact hf, hl.owns, hl.ready⟩
    · rw [Function.update_of_ne hth] at hk
      exact ⟨k, hk, fun _ h => h, fun _ h => .inl h⟩
  constructor
  case locks => exact hlocks
  case noff => exact hnoff
  case sched =>
    intro c' hon
    rw [hm.on] at hon
    obtain ⟨h1, h2, h3⟩ := hI.sched hon
    rw [hm.stack, hm.proc]
    by_cases hc : c' = c
    · subst hc
      have hth := thread_of_off hon
      rw [hth] at hstack
      rw [← hth, Function.update_self]
      rw [hstack] at h1 h2 h3
      refine ⟨hadv.shape _ (fun f k hs => hs.isSched) h1, hadv.onSched hon h2, fun pt hpt => ?_⟩
      obtain ⟨pt', hpt', heq⟩ := hadv.proc pt hpt
      rw [h3 pt' hpt', heq]
    · rw [Function.update_of_ne]
      · exact ⟨h1, h2, h3⟩
      · rw [← thread_of_off hon]
        exact fun heq => hc (hI.thread_inj heq)
  case shape =>
    intro p
    rw [hm.stack]
    by_cases hth : Thread.proc p = s.thread c
    · rw [hth, Function.update_self]
      right
      rcases hI.shape p with h | h
      · rw [hth, hstack] at h
        exact absurd h hne
      · rw [hth, hstack] at h
        exact hadv.shape _ (fun f k hs => hs.isCode) h
    · rw [Function.update_of_ne hth]
      exact hI.shape p
  case on =>
    intro c' p hon
    rw [hm.on] at hon
    rw [hm.proc, hm.context]
    exact hI.on hon
  case state =>
    intro c' p hon
    rw [hm.on] at hon
    obtain ⟨f, rest, heq, hst⟩ := hI.state hon
    rw [hm.procs, hm.stack]
    by_cases hth : Thread.proc p = s.thread c
    · rw [hth, hstack] at heq
      obtain ⟨k, rest', hfs, hk⟩ := hadv.state f rest heq
      exact ⟨k, rest', by rw [hth, Function.update_self, hfs], hst.trans hk.symm⟩
    · exact ⟨f, rest, by rw [Function.update_of_ne hth, heq], hst⟩
  case inj =>
    intro c₁ c₂ p h1 h2
    rw [hm.on] at h1 h2
    exact hI.inj h1 h2
  case saved =>
    intro p hoff hst
    rw [hm.off] at hoff
    rw [hm.procs] at hst ⊢
    rw [hm.stack, Function.update_of_ne fun hth => hoff c (on_of_thread hth.symm)]
    exact hI.saved hoff hst
  case facts =>
    intro c' k hk
    rw [hm.thread, hm.stack] at hk
    rw [hm.proc]
    refine hm.facts ?_
    by_cases hc : c' = c
    · subst hc
      rw [Function.update_self] at hk
      obtain ⟨f, hf, hl⟩ := hadv.leads k hk
      exact hl.facts (hI.facts (by rw [hstack]; exact hf))
    · rw [Function.update_of_ne fun heq => hc (hI.thread_inj heq)] at hk
      exact hI.facts hk
  case owned =>
    intro p k q hk ho
    obtain ⟨f, hf, howns, -⟩ := hlead hk
    rw [hm.procs]
    exact hI.owned hf (howns q ho)
  case ready =>
    intro p k q hk hr
    obtain ⟨f, hf, howns, hready⟩ := hlead hk
    have hth := hI.owned_thread (c := c) hf (howns q (Frame.owns_of_ready hr))
    unfold Sys.Fresh
    rw [hm.procs, hm.stack, Function.update_of_ne (Ne.symm hth)]
    exact (hready q hr).elim (hI.ready hf) id
  case owner =>
    intro p p' k k' q hk hk' ho ho'
    obtain ⟨f, hf, howns, -⟩ := hlead hk
    obtain ⟨f', hf', howns', -⟩ := hlead hk'
    exact hI.owner hf hf' (howns q ho) (howns' q ho')

/-- The claims after a statement that moves to `fs`. -/
theorem Moved.exact (hI : Inv s) (hm : Moved s t c fs) (hlock : t.lock = s.lock)
    (hperm : (claimsOf (s.cpus c).proc fs).Perm (s.claims c)) : Locks.Exact t.lock t.claims := by
  rw [hlock]
  refine hI.locks.congr fun c' => ?_
  by_cases hc : c' = c
  · subst hc
    rw [hm.claims]
    exact hperm
  · rw [hm.claims_of_ne hI hc]

theorem Moved.noff (hI : Inv s) (hm : Moved s t c fs) (hself : (t.cpus c).noff = (claimsOf (s.cpus c).proc fs).length)
    (hother : ∀ c', c' ≠ c → (t.cpus c').noff = (s.cpus c').noff) (c' : Fin M) :
    (t.cpus c').noff = (t.claims c').length := by
  by_cases hc : c' = c
  · subst hc
    rw [hm.claims]
    exact hself
  · rw [hm.claims_of_ne hI hc, hother c' hc]
    exact hI.noff c'

theorem claims_eq (hstack : s.stack (s.thread c) = f :: rest) :
    s.claims c = f.holds (s.cpus c).proc ++ claimsOf (s.cpus c).proc rest := by
  unfold Sys.claims
  rw [hstack]
  rfl

/-- A move without a lock operation. -/
theorem Inv.goto (hI : Inv s) (hstack : s.stack (s.thread c) = f :: rest) (hadv : Advance s c (f :: rest) fs)
    (hperm : (claimsOf (s.cpus c).proc fs).Perm (f.holds (s.cpus c).proc ++ claimsOf (s.cpus c).proc rest))
    (hprocs : t.procs = s.procs) (ht : t.stack = Function.update s.stack (s.thread c) fs)
    (hcpus : t.cpus = s.cpus) (hlock : t.lock = s.lock) : Inv t := by
  have hm : Moved s t c fs :=
    ⟨hprocs, ht, fun _ => by rw [hcpus], fun _ => by rw [hcpus], fun _ => by rw [hcpus]⟩
  rw [← claims_eq hstack] at hperm
  refine hI.move hstack (by simp) hadv hm (hm.exact hI hlock hperm) (hm.noff hI ?_ fun _ _ => by rw [hcpus])
  rw [hcpus, hI.noff, hperm.length_eq]

theorem moved_noff (lock : Lock N → Option (Fin M)) (n : Nat) :
    Moved s (Sys.goto (Sys.setCpu { s with lock := lock } c { s.cpus c with noff := n }) c fs) c fs := by
  have hfield : ∀ {α : Type} (π : Cpu N → α), π { s.cpus c with noff := n } = π (s.cpus c) → ∀ c',
      π ((Sys.setCpu { s with lock := lock } c { s.cpus c with noff := n }).cpus c') = π (s.cpus c') := by
    intro α π hπ c'
    show π (Function.update s.cpus c _ c') = _
    by_cases hc : c' = c
    · subst hc
      rw [Function.update_self, hπ]
    · rw [Function.update_of_ne hc]
  have hth : (Sys.setCpu { s with lock := lock } c { s.cpus c with noff := n }).thread c = s.thread c := by
    unfold Sys.thread
    rw [hfield Cpu.on rfl]
  refine ⟨rfl, ?_, hfield Cpu.on rfl, hfield Cpu.proc rfl, hfield Cpu.context rfl⟩
  show Function.update s.stack (Sys.thread _ c) _ = _
  rw [hth]

/-- A move with a lock operation. -/
theorem Inv.lockMove {lock : Lock N → Option (Fin M)} {n : Nat} (hI : Inv s)
    (hstack : s.stack (s.thread c) = f :: rest) (hadv : Advance s c (f :: rest) fs)
    (hlocks : ∀ claims' : Fin M → List (Lock N), claims' c = claimsOf (s.cpus c).proc fs →
      (∀ c', c' ≠ c → claims' c' = s.claims c') → Locks.Exact lock claims')
    (hn : n = (claimsOf (s.cpus c).proc fs).length) :
    Inv (Sys.goto (Sys.setCpu { s with lock := lock } c { s.cpus c with noff := n }) c fs) := by
  have hm : Moved s (Sys.goto (Sys.setCpu { s with lock := lock } c { s.cpus c with noff := n }) c fs) c fs :=
    moved_noff lock n
  refine hI.move hstack (by simp) hadv hm (hlocks _ hm.claims fun c' hc => hm.claims_of_ne hI hc)
    (hm.noff hI ?_ fun c' hc => ?_)
  · show (Function.update s.cpus c _ c).noff = _
    rw [Function.update_self, hn]
  · show (Function.update s.cpus c _ c').noff = _
    rw [Function.update_of_ne hc]

theorem Inv.acquire {lk : Lock N} (hI : Inv s) (hstack : s.stack (s.thread c) = f :: rest) (hfree : s.lock lk = none)
    (hadv : Advance s c (f :: rest) (k :: rest))
    (hperm : (k.holds (s.cpus c).proc).Perm (lk :: f.holds (s.cpus c).proc)) :
    Inv ((s.acquire c lk).goto c (k :: rest)) := by
  have hclaims : (claimsOf (s.cpus c).proc (k :: rest)).Perm (lk :: s.claims c) := by
    rw [claims_eq hstack]
    exact hperm.append_right _
  refine hI.lockMove hstack hadv (fun claims' h1 h2 => ?_) ?_
  · refine hI.locks.acquire hfree ?_ h2
    rw [h1]
    exact hclaims
  · rw [hclaims.length_eq, List.length_cons, ← hI.noff]

theorem Inv.release {lk : Lock N} (hI : Inv s) (hstack : s.stack (s.thread c) = f :: rest)
    (hadv : Advance s c (f :: rest) (k :: rest))
    (hperm : (f.holds (s.cpus c).proc).Perm (lk :: k.holds (s.cpus c).proc)) :
    Inv ((s.release c lk).goto c (k :: rest)) := by
  have hclaims : (s.claims c).Perm (lk :: claimsOf (s.cpus c).proc (k :: rest)) := by
    rw [claims_eq hstack]
    exact hperm.append_right _
  refine hI.lockMove hstack hadv (fun claims' h1 h2 => ?_) ?_
  · refine hI.locks.release (c := c) ?_ h2
    rw [h1]
    exact hclaims
  · rw [hI.noff, hclaims.length_eq, List.length_cons]
    rfl

end Xv6.Procs
