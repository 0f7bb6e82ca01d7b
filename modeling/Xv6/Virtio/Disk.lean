import Xv6.Virtio.Steps

/-!
# `Virtio.Disk` — the disk that the driver presents

`Disk` is what the rest of the kernel takes the disk for: blocks, and for each process a request that is pending or done.
A pending request takes effect in one step, `perform`. **`disk_linearizable`**: every run of the driver and the device
is a run of `Disk`, with a call of `virtio_disk_rw` as a `call`, its return as a `ret`, and the completion by the device
as the one `perform` in between. `descriptors_partition` and `sleepers_have_request` say what else holds in every
reachable state.
-/

namespace Xv6.Virtio

open Trace (run)

variable {N : Nat} {β : Type} [DecidableEq β] {s t u : Sys N β} {p q : Fin N} {r r' : Request β} {idx idx' : List Nat}
  {h i j k n x : Nat}

/-! ## The abstract disk -/

inductive Phase (β : Type)
  | idle
  | pending (r : Request β)
  | done (r : Request β)

structure Disk (N : Nat) (β : Type) where
  blocks : Nat → Block
  data : β → Block
  phase : Fin N → Phase β

inductive Event (N : Nat) (β : Type)
  | call (p : Fin N) (r : Request β)
  | perform (p : Fin N)
  | ret (p : Fin N)
  | store (b : β) (d : Block)

/-- The block that a request is about: the sector number has 32 bits, so there are `2 ^ 31` blocks. -/
def Request.block (r : Request β) : Nat := r.blockno % 2 ^ 31

def Disk.transfer (d : Disk N β) (r : Request β) : Disk N β :=
  if r.write then { d with blocks := Function.update d.blocks r.block (d.data r.buf) }
  else { d with data := Function.update d.data r.buf (d.blocks r.block) }

def Disk.step (d : Disk N β) : Event N β → Option (Disk N β)
  | .call p r =>
      match d.phase p with
      | .idle => some { d with phase := Function.update d.phase p (.pending r) }
      | _ => none
  | .perform p =>
      match d.phase p with
      | .pending r => some { d.transfer r with phase := Function.update d.phase p (.done r) }
      | _ => none
  | .ret p =>
      match d.phase p with
      | .done _ => some { d with phase := Function.update d.phase p .idle }
      | _ => none
  | .store b x => some { d with data := Function.update d.data b x }

/-! ## What a state of the machine stands for -/

/-- The heads that the device has still to complete. -/
def Sys.todo (s : Sys N β) : List Nat := s.posted ++ s.taken

def Sys.phase (s : Sys N β) (p : Fin N) : Phase β :=
  match s.pc p with
  | .idle => .idle
  | .alloc r _ => .pending r
  | .wait r idx _ => if idx.headD 0 ∈ s.todo then .pending r else .done r

def Sys.abs (s : Sys N β) : Disk N β where
  blocks := fun n => readBlock s.sectors (n * (BSIZE / SECTOR))
  data := s.data
  phase := s.phase

/-- The process whose request has the head `h`. -/
def Sys.caller (s : Sys N β) (h : Nat) : Option (Fin N) :=
  (List.finRange N).find? fun p =>
    match s.pc p with
    | .wait _ idx _ => idx.headD NUM == h
    | _ => false

/-- What the kernel sees of a step. -/
def event (s : Sys N β) : Act N β → List (Event N β)
  | .call p r => [.call p r]
  | .resume p =>
      match s.pc p with
      | .wait r _ _ => if s.disk r.buf then [] else [.ret p]
      | _ => []
  | .store b d => [.store b d]
  | .complete h => (s.caller h).toList.map .perform
  | _ => []

/-- What the kernel sees of a run. -/
def history : Sys N β → List (Act N β) → List (Event N β)
  | _, [] => []
  | s, a :: acts => event s a ++ ((next s a).elim [] fun t => history t acts)

/-! ## Blocks and sectors -/

omit [DecidableEq β] in
theorem sector_eq (r : Request β) : r.sector = r.block * (BSIZE / SECTOR) := by
  rw [Request.sector, Request.block]
  simp only [BSIZE, SECTOR]
  omega

theorem readBlock_writeBlock (sectors : Nat → Sector) (d : Block) (m n : Nat) :
    readBlock (writeBlock sectors (m * (BSIZE / SECTOR)) d) (n * (BSIZE / SECTOR)) =
      if n = m then d else readBlock sectors (n * (BSIZE / SECTOR)) := by
  funext x
  have hx : x.val < 1024 := x.isLt
  rw [readBlock, writeBlock]
  by_cases hnm : n = m
  · subst hnm
    have hin : n * (BSIZE / SECTOR) ≤ n * (BSIZE / SECTOR) + x.val / SECTOR ∧
        n * (BSIZE / SECTOR) + x.val / SECTOR < n * (BSIZE / SECTOR) + BSIZE / SECTOR := by
      show n * 2 ≤ n * 2 + x.val / 512 ∧ n * 2 + x.val / 512 < n * 2 + 2
      omega
    rw [if_pos rfl, dif_pos hin]
    refine congrArg d (Fin.ext ?_)
    show (n * 2 + x.val / 512 - n * 2) * 512 + x.val % 512 = x.val
    omega
  · have hout : ¬(m * (BSIZE / SECTOR) ≤ n * (BSIZE / SECTOR) + x.val / SECTOR ∧
        n * (BSIZE / SECTOR) + x.val / SECTOR < m * (BSIZE / SECTOR) + BSIZE / SECTOR) := by
      show ¬(m * 2 ≤ n * 2 + x.val / 512 ∧ n * 2 + x.val / 512 < m * 2 + 2)
      omega
    rw [if_neg hnm, dif_neg hout]
    rfl

/-! ## The simulation -/

omit [DecidableEq β] in
theorem phase_congr (hpc : (s.pc p).Woken (t.pc p) ∨ (t.pc p).Woken (s.pc p))
    (htodo : ∀ r idx, s.Waits p r idx → (idx.headD 0 ∈ t.todo ↔ idx.headD 0 ∈ s.todo)) : t.phase p = s.phase p := by
  unfold Sys.phase
  unfold Sys.Waits at htodo
  generalize s.pc p = pc at hpc htodo
  generalize t.pc p = pc' at hpc
  rcases hpc with hw | hw <;> cases hw with
  | idle => rfl
  | alloc ha => rfl
  | wait ha => simp only [htodo _ _ ⟨_, rfl⟩]

omit [DecidableEq β] in
/-- A step that the kernel does not see. -/
theorem abs_congr (hpc : ∀ p, (s.pc p).Woken (t.pc p) ∨ (t.pc p).Woken (s.pc p)) (htodo : ∀ h, h ∈ t.todo ↔ h ∈ s.todo)
    (hdata : t.data = s.data) (hsectors : t.sectors = s.sectors) : t.abs = s.abs := by
  have hphase : t.phase = s.phase := funext fun p => phase_congr (hpc p) fun _ _ _ => htodo _
  rw [Sys.abs, Sys.abs, hdata, hsectors, hphase]

omit [DecidableEq β] in
/-- A step that changes the phase of one process. -/
theorem abs_update {ph : Phase β} (hself : t.phase p = ph)
    (hpc : ∀ q ≠ p, (s.pc q).Woken (t.pc q) ∨ (t.pc q).Woken (s.pc q))
    (htodo : ∀ q ≠ p, ∀ r idx, s.Waits q r idx → (idx.headD 0 ∈ t.todo ↔ idx.headD 0 ∈ s.todo)) :
    t.phase = Function.update s.phase p ph := by
  funext q
  by_cases hq : q = p
  · rw [hq, Function.update_self, hself]
  · rw [Function.update_of_ne hq, phase_congr (hpc q hq) (htodo q hq)]

omit [DecidableEq β] in
theorem Chained.head_mem (hc : Chained s r idx) : idx.headD 0 ∈ idx := by
  cases hc with
  | mk => exact List.mem_cons_self

/-- A request is pending from its call on, whether it gets descriptors at once or not. -/
theorem attempt_abs (hI : Inv s) (hF : Fresh s p r) (hatt : attempt s p r = .ok t) :
    t.abs = { s.abs with phase := Function.update s.phase p (.pending r) } := by
  rcases hI.attempt hF with ⟨u, hu, hT, _⟩ | ⟨u, idx, hu, hT, hI'⟩
  · rw [hu] at hatt
    cases hatt
    have htodo : (u.goto p (.alloc r true)).todo = s.todo := by
      rw [hT.rest]
      rfl
    have hphase : (u.goto p (.alloc r true)).phase = Function.update s.phase p (.pending r) := by
      refine abs_update ?_ (fun q hq => ?_) fun q _ r' idx' _ => by rw [htodo]
      · rw [Sys.phase, goto_self]
      · rw [goto_of_ne _ hq]
        exact .inl (hT.pc q)
    rw [Sys.abs, hphase, hT.rest]
    rfl
  · rw [hu] at hatt
    cases hatt
    have hc : Chained (u.post p r idx) r idx := hI'.chained ⟨true, post_self⟩
    obtain ⟨i, xs, rfl⟩ : ∃ i xs, idx = i :: xs := by
      cases hc with
      | mk => exact ⟨_, _, rfl⟩
    obtain ⟨hposted, htaken, _⟩ := hT.posted (p := p) (r := r) hI
    have htodo : ∀ h, h ∈ (u.post p r (i :: xs)).todo ↔ h = i ∨ h ∈ s.todo := by
      intro h
      rw [Sys.todo, hposted, htaken, Sys.todo]
      simp only [List.mem_append, List.mem_singleton]
      tauto
    have hphase : (u.post p r (i :: xs)).phase = Function.update s.phase p (.pending r) := by
      refine abs_update ?_ (fun q hq => ?_) fun q _ r' idx' hw => ?_
      · rw [Sys.phase, post_self]
        exact if_pos ((htodo i).mpr (.inl rfl))
      · rw [post_of_ne hq]
        exact .inl (hT.pc q)
      · -- the head of a chain in use is not the new one
        have hc' := hI.chained hw
        rw [htodo]
        refine or_iff_right fun heq => ?_
        have hf := (hc'.mem hc'.head_mem).2
        rw [heq, (hT.avail i List.mem_cons_self).2] at hf
        cases hf
    rw [Sys.abs, hphase, hT.rest]
    rfl

omit [DecidableEq β] in
/-- The device has completed a request whose buffer is not busy any more. -/
theorem Inv.phase_done (hI : Inv s) (hw : s.Waits p r idx) (hd : s.disk r.buf = false) : s.phase p = .done r := by
  have hc := hI.chained hw
  have hno : idx.headD 0 ∉ s.todo := by
    intro hh
    obtain ⟨q, r', idx', hw', hd'⟩ := (hI.heads _).mp (List.mem_append_left _ hh)
    have hq := hI.apart hw hw' hc.head_mem List.mem_cons_self
    subst hq
    rw [(hw'.unique hw).1, hd] at hd'
    cases hd'
  obtain ⟨a, ha⟩ := hw
  rw [Sys.phase, ha]
  exact if_neg hno

theorem transfer_abs (s : Sys N β) (r : Request β) :
    (fun n => readBlock (s.transfer r.op r.buf).sectors (n * (BSIZE / SECTOR))) = (s.abs.transfer r).blocks ∧
      (s.transfer r.op r.buf).data = (s.abs.transfer r).data := by
  rw [Sys.transfer, Disk.transfer, show r.op.write = r.write from rfl, show r.op.sector = r.sector from rfl, sector_eq]
  cases r.write with
  | true =>
      refine ⟨funext fun n => ?_, rfl⟩
      show readBlock (writeBlock _ _ _) _ = Function.update s.abs.blocks r.block (s.data r.buf) n
      rw [readBlock_writeBlock, Function.update_apply]
      rfl
  | false => exact ⟨rfl, rfl⟩

/-- The completion of a request is where it takes effect. -/
theorem complete_abs (hI : Inv s) (hh : h ∈ s.taken) (hw : s.Waits p r (h :: idx)) :
    run Disk.step s.abs [.perform p] = some (s.complete h r.op r.buf h).abs := by
  have hnodup := hI.nodup
  rw [Sys.heads] at hnodup
  obtain ⟨hnodup, _⟩ := List.nodup_append.mp hnodup
  obtain ⟨_, htaken, hdisj⟩ := List.nodup_append.mp hnodup
  have hposted : (s.complete h r.op r.buf h).posted = s.posted := by
    rw [Sys.complete, Sys.transfer]
    split <;> rfl
  have htodo : ∀ x, x ∈ (s.complete h r.op r.buf h).todo ↔ x ≠ h ∧ x ∈ s.todo := by
    intro x
    rw [Sys.todo, hposted, show (s.complete h r.op r.buf h).taken = s.taken.erase h from rfl, Sys.todo, List.mem_append,
      List.mem_append, htaken.mem_erase_iff]
    constructor
    · rintro (hx | ⟨hne, hx⟩)
      · exact ⟨hdisj x hx h hh, .inl hx⟩
      · exact ⟨hne, .inr hx⟩
    · rintro ⟨hne, hx | hx⟩
      · exact .inl hx
      · exact .inr ⟨hne, hx⟩
  have hpc : (s.complete h r.op r.buf h).pc = s.pc := by
    rw [Sys.complete, Sys.transfer]
    split <;> rfl
  have hpending : s.phase p = .pending r := by
    obtain ⟨a, ha⟩ := hw
    rw [Sys.phase, ha]
    exact if_pos (List.mem_append_right _ hh)
  have hphase : (s.complete h r.op r.buf h).phase = Function.update s.phase p (.done r) := by
    refine abs_update ?_ (fun q _ => ?_) fun q hq r' idx' hw' => ?_
    · obtain ⟨a, ha⟩ := hw
      rw [Sys.phase, hpc, ha]
      exact if_neg fun hx => ((htodo h).mp hx).1 rfl
    · rw [hpc]
      exact .inl (.refl _)
    · rw [htodo]
      refine and_iff_right fun heq => hq ?_
      exact hI.apart hw' hw (heq ▸ (hI.chained hw').head_mem) List.mem_cons_self
  have hdisk : (s.complete h r.op r.buf h).abs =
      ⟨(s.abs.transfer r).blocks, (s.abs.transfer r).data, Function.update s.phase p (.done r)⟩ := by
    rw [← (transfer_abs s r).1, ← (transfer_abs s r).2, ← hphase]
    rfl
  rw [Trace.run_cons, Disk.step, show s.abs.phase p = .pending r from hpending, hdisk]
  rfl

omit [DecidableEq β] in
/-- A process returns from `virtio_disk_rw`. -/
theorem leave_abs (hpc : ∀ q, (s.pc q).Woken (u.pc q)) (htodo : u.todo = s.todo) (hdata : u.data = s.data)
    (hsectors : u.sectors = s.sectors) : (u.goto p .idle).abs = { s.abs with phase := Function.update s.phase p .idle } := by
  have hphase : (u.goto p .idle).phase = Function.update s.phase p .idle := by
    refine abs_update ?_ (fun q hq => .inl ?_) fun q _ r' idx' _ => ?_
    · rw [Sys.phase, goto_self]
    · rw [goto_of_ne _ hq]
      exact hpc q
    · rw [show (u.goto p .idle).todo = u.todo from rfl, htodo]
  rw [Sys.abs, hphase, show (u.goto p .idle).sectors = s.sectors from hsectors,
    show (u.goto p .idle).data = s.data from hdata]
  rfl

omit [DecidableEq β] in
theorem Inv.caller (hI : Inv s) (hw : s.Waits p r (h :: idx)) : s.caller h = some p := by
  cases hf : s.caller h with
  | none =>
      obtain ⟨a, ha⟩ := hw
      have hno := List.find?_eq_none.mp hf p (List.mem_finRange p)
      rw [ha] at hno
      simp at hno
  | some q =>
      have hq := List.find?_some hf
      split at hq
      · rename_i r' idx' a ha
        have hw' : s.Waits q r' idx' := ⟨a, ha⟩
        rw [beq_iff_eq] at hq
        refine congrArg some (hI.apart hw' hw (x := h) ?_ List.mem_cons_self)
        cases hI.chained hw' with
        | mk =>
            rw [← hq]
            exact List.mem_cons_self
      · cases hq

/-- **One step** of the machine is what the kernel sees of it. -/
theorem next_abs {a : Act N β} (hI : Inv s) (hst : next s a = some t) : run Disk.step s.abs (event s a) = some t.abs := by
  obtain ⟨y, hy, hok⟩ := Option.bind_eq_some_iff.mp hst
  obtain ⟨t', rfl, _⟩ := step_inv hI hy
  cases hok
  have hcases := step_cases hy
  cases a with
  | call p r =>
      obtain ⟨hp, hno, hatt⟩ := hcases
      have hidle : s.abs.phase p = .idle := by
        show s.phase p = .idle
        rw [Sys.phase, hp]
      rw [event, Trace.run_cons, Disk.step, hidle, attempt_abs hI (fresh_of_not_uses hp hno) hatt.symm]
      rfl
  | retry p =>
      obtain ⟨r, hp, hatt⟩ := hcases
      have hpending : s.phase p = .pending r := by rw [Sys.phase, hp]
      rw [attempt_abs hI (hI.fresh_of_alloc hp) hatt.symm, ← hpending, Function.update_eq_self]
      rfl
  | resume p =>
      obtain ⟨r, idx, hp, hfin⟩ := hcases
      have hw : s.Waits p r idx := ⟨false, hp⟩
      rw [finish] at hfin
      cases hd : s.disk r.buf with
      | true =>
          rw [hd, if_pos rfl] at hfin
          cases hfin
          have habs : (s.goto p (.wait r idx true)).abs = s.abs := by
            refine abs_congr (goto_rel (R := fun a b => a.Woken b ∨ b.Woken a) (fun _ => .inl (.refl _)) ?_)
              (fun _ => Iff.rfl) rfl rfl
            rw [hp]
            exact .inr (.wait fun _ => rfl)
          rw [habs, event, hp]
          simp only [hd, if_true]
          rfl
      | false =>
          have hdone : s.abs.phase p = .done r := hI.phase_done hw hd
          obtain ⟨i, j, k, rfl⟩ : ∃ i j k, idx = [i, j, k] := by
            cases hI.chained hw with
            | mk => exact ⟨_, _, _, rfl⟩
          rw [hd, if_neg Bool.false_ne_true] at hfin
          simp only [List.getD_cons_zero, (hI.chained hw).freeChain] at hfin
          cases hfin
          rw [event, hp]
          simp only [hd, Bool.false_eq_true, if_false]
          rw [Trace.run_cons, Disk.step, hdone]
          refine congrArg some (Eq.symm ?_)
          exact leave_abs (fun q => (Pc.woken_wakeFree _).wakeFree.wakeFree) rfl rfl rfl
  | kill p =>
      cases hcases
      refine congrArg some (Eq.symm ?_)
      exact abs_congr (fun q => .inl (goto_rel .refl (Pc.woken_wake _) q)) (fun _ => Iff.rfl) rfl rfl
  | store _ _ | intr | intrEnd =>
      cases hcases
      rfl
  | intrTurn =>
      obtain ⟨p, r, idx, _, _, ht, _⟩ := hI.intrTurn hcases.1
      cases hcases.2.trans ht
      refine congrArg some (Eq.symm ?_)
      exact abs_congr (fun q => .inl (Pc.woken_wakeBuf _ _)) (fun _ => Iff.rfl) rfl rfl
  | take =>
      obtain ⟨hne, ht⟩ := hcases
      cases ht
      refine congrArg some (Eq.symm ?_)
      refine abs_congr (fun q => .inl (.refl _)) (fun h => ?_) rfl rfl
      have hpop := Ring.slots_pop num_dvd hI.counters.1.2 hI.counters.1.1 hne s.availRing
      rw [Sys.todo, Sys.todo, Sys.posted, Sys.posted, hpop]
      exact List.perm_middle.mem_iff
  | complete h =>
      obtain ⟨hh, ht⟩ := hcases
      obtain ⟨p, r, idx, hw, _, hc⟩ := hI.chain_of_taken hh
      rw [hc] at ht
      cases ht
      rw [event, hI.caller hw]
      exact complete_abs hI hh hw

/-! ## Every run -/

theorem run_abs {acts : List (Act N β)} (hI : Inv s) (hrun : run next s acts = some t) :
    run Disk.step s.abs (history s acts) = some t.abs := by
  induction acts generalizing s with
  | nil =>
      cases hrun
      rfl
  | cons a acts ih =>
      obtain ⟨u, hu, hrun⟩ := Option.bind_eq_some_iff.mp hrun
      rw [history, hu, Trace.run_append, next_abs hI hu]
      exact ih (next_inv hI hu) hrun

/-- **The disk is linearizable.** What the kernel sees of a run of driver and device is a run of the abstract disk: each
    call of `virtio_disk_rw` takes effect once, between the call and its return, on the block it is about. -/
theorem disk_linearizable {data : β → Block} {sectors : Nat → Sector} {acts : List (Act N β)}
    (hrun : run next (init data sectors) acts = some s) :
    run Disk.step (init data sectors : Sys N β).abs (history (init data sectors) acts) = some s.abs :=
  run_abs (init_inv data sectors) hrun

/-- Two processes read and write the same block at the same time; the device completes the write first. -/
def readAndWrite (p q : Fin N) : List (Act N Bool) :=
  [.call p ⟨false, 5, false⟩, .call q ⟨true, 5, true⟩, .take, .take, .complete 3, .complete 0, .intr, .intrTurn, .intrTurn,
    .intrEnd, .resume p, .resume q]

theorem disk_linearizable_concurrent : ∃ p q : Fin 2, ∃ s : Sys 2 Bool,
    run next (init (fun b _ => if b then 7 else 0) fun _ _ => 0) (readAndWrite p q) = some s ∧
      run Disk.step (init (fun b _ => if b then 7 else 0) fun _ _ => 0 : Sys 2 Bool).abs
        (history (init (fun b _ => if b then 7 else 0) fun _ _ => 0) (readAndWrite p q)) = some s.abs := by
  obtain ⟨p, q, hpq⟩ : ∃ p q : Fin 2, (run next (init (fun b _ => if b then 7 else 0) fun _ _ => 0)
      (readAndWrite p q)).isSome = true := ⟨⟨0, by decide⟩, ⟨1, by decide⟩, by decide +kernel⟩
  obtain ⟨s, hs⟩ := Option.isSome_iff_exists.mp hpq
  exact ⟨p, q, s, hs, disk_linearizable hs⟩

/-- **Sleepers.** A process that sleeps until the device has finished has its request under way, and one that sleeps for
    want of descriptors does so while fewer than three are free, and so while some other process has a request that will
    give them back. -/
theorem sleepers_have_request {data : β → Block} {sectors : Nat → Sector} {acts : List (Act N β)}
    (hrun : run next (init data sectors) acts = some s) :
    (∀ p r idx, s.pc p = .wait r idx true → s.disk r.buf = true ∧ idx.headD 0 ∈ s.heads) ∧
      ∀ p r, s.pc p = .alloc r true → s.freeDescs.card < 3 ∧ ∃ q r' idx, s.Waits q r' idx := by
  have hI := inv_run hrun
  refine ⟨fun p r idx hp => ?_, fun p r hp => ⟨hI.asleepFree hp, ?_⟩⟩
  · have hd := hI.asleepBuf hp
    have hw : s.Waits p r idx := ⟨true, hp⟩
    refine ⟨hd, (hI.heads _).mpr ⟨p, r, idx.tail, ?_, hd⟩⟩
    cases hI.chained hw with
    | mk => exact hw
  · -- if no request were under way, all descriptors would be free
    by_contra hno
    have hall : s.freeDescs = Finset.range NUM := by
      refine Finset.filter_true_of_mem fun x hx => ?_
      by_contra hf
      obtain ⟨q, r', idx, hw, _⟩ := hI.owned x (Finset.mem_range.mp hx) (Bool.eq_false_iff.mpr hf)
      exact hno ⟨q, r', idx, hw⟩
    have hcard := hI.asleepFree hp
    rw [hall, Finset.card_range] at hcard
    exact absurd hcard (by decide)

/-- There are descriptors for two requests, and a third process sleeps. -/
theorem sleepers_have_request_third : ∃ p q o : Fin 3, ∃ s : Sys 3 Nat, ∃ r,
    run next (init (fun _ _ => 0) fun _ _ => 0) [.call p ⟨0, 5, false⟩, .call q ⟨1, 6, false⟩, .call o r] = some s ∧
      s.pc o = .alloc r true ∧ s.freeDescs.card < 3 := by
  obtain ⟨p, q, o, r, hpq⟩ : ∃ p q o : Fin 3, ∃ r : Request Nat, (run next (init (fun _ _ => 0) fun _ _ => 0)
      [.call p ⟨0, 5, false⟩, .call q ⟨1, 6, false⟩, .call o r]).any (fun s => s.pc o = .alloc r true) = true :=
    ⟨⟨0, by decide⟩, ⟨1, by decide⟩, ⟨2, by decide⟩, ⟨2, 7, true⟩, by decide +kernel⟩
  obtain ⟨s, hs, ho⟩ := (Option.any_eq_true _ _).mp hpq
  exact ⟨p, q, o, s, r, hs, of_decide_eq_true ho, ((sleepers_have_request hs).2 o r (of_decide_eq_true ho)).1⟩

end Xv6.Virtio
