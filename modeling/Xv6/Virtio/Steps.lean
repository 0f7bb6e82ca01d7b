import Xv6.Virtio.Driver

/-!
# `Virtio.Steps` — every step keeps the invariant

One lemma for each step that moves a request: it is posted, taken, completed, seen by the interrupt handler, and
given up. **`step_inv`** puts them together: from a state with the invariant no step panics, and the invariant holds
after it.
-/

namespace Xv6.Virtio

variable {N : Nat} {β : Type} {s t u : Sys N β} {p q : Fin N} {r r' : Request β} {idx idx' xs : List Nat}
  {h i j k n x : Nat}

theorem num_dvd : NUM ∣ 2 ^ 16 := by decide

theorem num_lt : NUM < 2 ^ 16 := by decide

/-! ## Posting a request -/

/-- The head of a new chain is not under way yet, so the `avail` ring has room for it. -/
theorem Inv.room (hI : Inv s) (hT : Took s u (i :: xs)) :
    i ∉ s.heads ∧ Ring.count (2 ^ 16) s.lastAvail s.availIdx < NUM := by
  obtain ⟨hlt, hfree⟩ := hT.avail i List.mem_cons_self
  have hnew : i ∉ s.heads := fun hh => by
    rw [(hI.head_taken hh).2] at hfree
    cases hfree
  have hlen := hI.length_heads [i] (List.nodup_cons.mpr ⟨hnew, hI.nodup⟩) fun x hx => by
    rw [List.mem_singleton.mp hx]
    exact hlt
  refine ⟨hnew, ?_⟩
  rw [Sys.heads, List.length_append, List.length_append, Sys.posted, Ring.length_slots, List.length_singleton] at hlen
  omega

theorem update_three {γ : Type} {f : Nat → γ} {a b c : γ} {x : Nat} (h : x ∉ [i, j, k]) :
    Function.update (Function.update (Function.update f i a) j b) k c x = f x := by
  simp only [List.mem_cons, List.not_mem_nil, or_false, not_or] at h
  rw [Function.update_of_ne h.2.2, Function.update_of_ne h.2.1, Function.update_of_ne h.1]

section

variable [DecidableEq β]

theorem post_self : (u.post p r idx).pc p = .wait r idx true := Function.update_self _ _ _

theorem post_of_ne (hq : q ≠ p) : (u.post p r idx).pc q = u.pc q := Function.update_of_ne hq _ _

theorem waits_post (hT : Took s u idx) :
    (u.post p r idx).Waits q r' idx' ↔ (q = p ∧ r' = r ∧ idx' = idx) ∨ (q ≠ p ∧ s.Waits q r' idx') := by
  by_cases hq : q = p
  · subst hq
    rw [Sys.Waits, post_self]
    constructor
    · rintro ⟨a, ha⟩
      cases ha
      exact .inl ⟨rfl, rfl, rfl⟩
    · rintro (⟨-, rfl, rfl⟩ | ⟨hne, -⟩)
      · exact ⟨true, rfl⟩
      · exact absurd rfl hne
  · rw [Sys.Waits, post_of_ne hq]
    exact (waits_woken (hT.pc q)).trans (by simp [hq])

theorem Took.posted (hT : Took s u (i :: xs)) (hI : Inv s) :
    (u.post p r (i :: xs)).posted = s.posted ++ [i] ∧ (u.post p r (i :: xs)).taken = s.taken ∧
      (u.post p r (i :: xs)).completed = s.completed := by
  have hroom := (hI.room hT).2
  obtain ⟨pc, desc, free, rfl⟩ : ∃ a b c, u = { s with pc := a, desc := b, free := c } := ⟨_, _, _, hT.rest⟩
  exact ⟨Ring.slots_push num_dvd num_lt hI.counters.1.2 hI.counters.1.1 hroom s.availRing i, rfl, rfl⟩

theorem Inv.post (hI : Inv s) (hF : Fresh s p r) (hT : Took s u idx) (hlen : idx.length = 3) : Inv (u.post p r idx) := by
  obtain ⟨i, j, k, rfl⟩ := List.length_eq_three.mp hlen
  obtain ⟨hnew, hroom⟩ := hI.room hT
  obtain ⟨hposted, htaken, hcompleted⟩ := hT.posted (p := p) (r := r) hI
  have hheads : ∀ h, h ∈ (u.post p r [i, j, k]).heads ↔ h = i ∨ h ∈ s.heads := by
    intro h
    rw [Sys.heads, hposted, htaken, hcompleted, Sys.heads]
    simp only [List.mem_append, List.mem_singleton]
    tauto
  -- a chain in use has none of the new descriptors
  have hold : ∀ {q r' idx'}, s.Waits q r' idx' → ∀ x ∈ idx', x ∉ [i, j, k] := by
    intro q r' idx' hw x hx hmem
    have hf := ((hI.chained hw).mem hx).2
    rw [(hT.avail x hmem).2] at hf
    cases hf
  have hdisk : ∀ {q r' idx'}, q ≠ p → s.Waits q r' idx' → (u.post p r [i, j, k]).disk r'.buf = s.disk r'.buf := by
    intro q r' idx' hq hw
    have hne : r'.buf ≠ r.buf := fun heq => hq (hF.buf q r' hw.req heq)
    rw [hT.rest]
    exact Function.update_of_ne hne _ _
  have hnodup := hT.nodup
  simp only [List.nodup_cons, List.mem_cons, List.not_mem_nil, or_false, not_or] at hnodup
  obtain ⟨⟨hij, hik⟩, hjk, -⟩ := hnodup
  refine ⟨⟨?_, ?_, ?_⟩, ⟨?_, ?_, ?_, ?_⟩, ?_, ?_, ?_⟩
  · intro q r' idx' hw
    rcases (waits_post hT).mp hw with ⟨rfl, rfl, rfl⟩ | ⟨hq, hw⟩
    · refine .mk hT.nodup (fun x hx => ⟨(hT.avail x hx).1, ?_⟩) ?_ ?_ ?_ ?_ ?_
      · show u.free x = false
        rw [hT.free]
        simp [hx]
      · exact (Function.update_of_ne hik _ _).trans ((Function.update_of_ne hij _ _).trans (Function.update_self _ _ _))
      · exact (Function.update_of_ne hjk _ _).trans (Function.update_self _ _ _)
      · exact Function.update_self _ _ _
      · exact Function.update_self _ _ _
      · exact Function.update_self _ _ _
    · have hc := hI.chained hw
      have hmem := hold hw
      have hnei : ∀ x ∈ idx', x ≠ i := fun x hx heq => hmem x hx (by simp [heq])
      refine hc.congr (fun x hx => ?_) (fun x hx => ?_) (fun x hx => ?_) fun x hx => ?_
      · exact (update_three (hmem x hx)).trans (hT.desc x (hc.mem hx).2)
      · show u.free x = s.free x
        rw [hT.free]
        simp [hmem x hx]
      · rw [hT.rest]
        exact Function.update_of_ne (hnei x hx) _ _
      · rw [hT.rest]
        exact Function.update_of_ne (hnei x hx) _ _
  · intro q q' r₁ r₂ idx₁ idx₂ x hw hw' hx hx'
    rcases (waits_post hT).mp hw with ⟨rfl, rfl, rfl⟩ | ⟨hq, hs⟩ <;>
      rcases (waits_post hT).mp hw' with ⟨rfl, rfl, rfl⟩ | ⟨hq', hs'⟩
    · rfl
    · exact absurd hx (hold hs' x hx')
    · exact absurd hx' (hold hs x hx)
    · exact hI.apart hs hs' hx hx'
  · intro x hx hf
    have hf' : u.free x = false := hf
    rw [hT.free] at hf'
    by_cases hmem : x ∈ [i, j, k]
    · exact ⟨p, r, _, (waits_post hT).mpr (.inl ⟨rfl, rfl, rfl⟩), hmem⟩
    · have hs : s.free x = false := by simpa [hmem] using hf'
      obtain ⟨q, r', idx', hw, hx'⟩ := hI.owned x hx hs
      have hq : q ≠ p := fun heq => hF.idle r' idx' (heq ▸ hw)
      exact ⟨q, r', idx', (waits_post hT).mpr (.inr ⟨hq, hw⟩), hx'⟩
  · rw [hT.rest]
    exact ⟨⟨Nat.mod_lt _ (Nat.two_pow_pos 16), hI.counters.1.2⟩, hI.counters.2⟩
  · have hperm : (u.post p r [i, j, k]).heads.Perm (i :: s.heads) := by
      rw [Sys.heads, hposted, htaken, hcompleted, Sys.heads, List.append_assoc, List.append_assoc s.posted s.taken,
        List.append_assoc]
      exact List.perm_middle
    exact hperm.nodup_iff.mpr (List.nodup_cons.mpr ⟨hnew, hI.nodup⟩)
  · intro h
    rw [hheads]
    constructor
    · rintro (rfl | hh)
      · exact ⟨p, r, [j, k], (waits_post hT).mpr (.inl ⟨rfl, rfl, rfl⟩), Function.update_self _ _ _⟩
      · obtain ⟨q, r', idx', hw, hd⟩ := (hI.heads h).mp hh
        have hq : q ≠ p := fun heq => hF.idle r' _ (heq ▸ hw)
        exact ⟨q, r', idx', (waits_post hT).mpr (.inr ⟨hq, hw⟩), (hdisk hq hw).trans hd⟩
    · rintro ⟨q, r', idx', hw, hd⟩
      rcases (waits_post hT).mp hw with ⟨rfl, rfl, heq⟩ | ⟨hq, hs⟩
      · cases heq
        exact .inl rfl
      · exact .inr ((hI.heads h).mpr ⟨q, r', idx', hs, (hdisk hq hs).symm.trans hd⟩)
  · intro h hh
    rw [hcompleted] at hh
    have hne : h ≠ i := fun heq => hnew (heq ▸ List.mem_append_right _ hh)
    rw [hT.rest]
    exact (Function.update_of_ne hne _ _).trans (hI.status h hh)
  · exact hI.bufs_fresh hF (by rw [post_self]; rfl) fun q hq => by rw [post_of_ne hq, (hT.pc q).req]
  · intro q r' idx' hq
    by_cases hqp : q = p
    · subst hqp
      rw [post_self] at hq
      cases hq
      exact Function.update_self _ _ _
    · have hw : s.Waits q r' idx' := by
        rcases (waits_post hT).mp ⟨true, hq⟩ with ⟨hqp', -⟩ | ⟨-, hs⟩
        · exact absurd hqp' hqp
        · exact hs
      rw [hdisk hqp hw]
      rw [post_of_ne hqp] at hq
      exact hI.asleepBuf (hq ▸ hT.pc q).wait_asleep
  · intro q r' hq
    by_cases hqp : q = p
    · subst hqp
      rw [post_self] at hq
      cases hq
    · rw [post_of_ne hqp] at hq
      refine lt_of_le_of_lt (Finset.card_le_card ?_) (hI.asleepFree (hq ▸ hT.pc q).alloc_asleep)
      refine Finset.monotone_filter_right _ fun x _ hx => ?_
      replace hx : u.free x = true := hx
      rw [hT.free, Bool.and_eq_true] at hx
      exact hx.1

end

/-! ## The end of a request -/

/-- The three descriptors are free again, and nobody sleeps for want of one. -/
theorem Inv.giveUp (hI : Inv s) (hw : s.Waits p r [i, j, k]) (hd : s.disk r.buf = false)
    (ht : t = (((({ s with info := Function.update s.info i none } : Sys N β).freed i).freed j).freed k).goto p .idle) :
    Inv t := by
  have hself : t.pc p = .idle := by
    rw [ht]
    exact goto_self _
  have hother : ∀ {q}, q ≠ p → t.pc q = (s.pc q).wakeFree.wakeFree.wakeFree := by
    intro q hq
    rw [ht]
    exact goto_of_ne _ hq
  have hwoken : ∀ {q}, q ≠ p → (s.pc q).Woken (t.pc q) := by
    intro q hq
    rw [hother hq]
    exact (Pc.woken_wakeFree _).wakeFree.wakeFree
  have hwaits : ∀ {q r' idx'}, t.Waits q r' idx' ↔ q ≠ p ∧ s.Waits q r' idx' := by
    intro q r' idx'
    by_cases hq : q = p
    · subst hq
      refine iff_of_false ?_ fun hne => hne.1 rfl
      rintro ⟨a, ha⟩
      rw [hself] at ha
      cases ha
    · exact (waits_woken (hwoken hq)).trans (by simp [hq])
  have hreq : ∀ {q r'}, (t.pc q).req = some r' → q ≠ p ∧ (s.pc q).req = some r' := by
    intro q r' hq
    by_cases hqp : q = p
    · rw [hqp, hself] at hq
      cases hq
    · rw [(hwoken hqp).req] at hq
      exact ⟨hqp, hq⟩
  -- the chains of others have none of the three
  have hold : ∀ {q r' idx'}, q ≠ p → s.Waits q r' idx' → ∀ x ∈ idx', x ∉ [i, j, k] :=
    fun hq hw' x hx hmem => hq (hI.apart hw' hw hx hmem)
  have hheads : t.heads = s.heads := by
    rewrite [ht]
    rfl
  refine ⟨⟨?_, ?_, ?_⟩, ⟨?_, ?_, ?_, ?_⟩, ?_, ?_, ?_⟩
  · intro q r' idx' hw'
    obtain ⟨hq, hw'⟩ := hwaits.mp hw'
    refine (hI.chained hw').congr (fun x hx => ?_) (fun x hx => ?_) (fun x hx => ?_) fun x hx => ?_
    · rw [ht]
      exact update_three (hold hq hw' x hx)
    · rw [ht]
      exact update_three (hold hq hw' x hx)
    · rw [ht]
      rfl
    · rw [ht]
      exact Function.update_of_ne (fun heq => hold hq hw' x hx (by simp [heq])) _ _
  · intro q q' r₁ r₂ idx₁ idx₂ x hq hq'
    exact hI.apart (hwaits.mp hq).2 (hwaits.mp hq').2
  · intro x hx hf
    rw [ht] at hf
    replace hf : Function.update (Function.update (Function.update s.free i true) j true) k true x = false := hf
    simp only [Function.update_apply] at hf
    split_ifs at hf with hxk hxj hxi
    obtain ⟨q, r', idx', hw', hx'⟩ := hI.owned x hx hf
    refine ⟨q, r', idx', hwaits.mpr ⟨fun hq => ?_, hw'⟩, hx'⟩
    subst hq
    rw [(hw'.unique hw).2] at hx'
    simp [hxi, hxj, hxk] at hx'
  · rw [ht]
    exact hI.counters
  · rw [hheads]
    exact hI.nodup
  · intro h
    rw [hheads, hI.heads h, show t.disk = s.disk by rw [ht]; rfl]
    refine exists_congr fun q => exists_congr fun r' => exists_congr fun idx' => and_congr_left fun hd' => ?_
    rw [hwaits]
    refine ⟨fun hw' => ⟨fun hq => ?_, hw'⟩, And.right⟩
    subst hq
    rw [(hw'.unique hw).1, hd] at hd'
    cases hd'
  · rw [ht]
    exact hI.status
  · intro q q' r₁ r₂ hq hq'
    exact hI.bufs (hreq hq).2 (hreq hq').2
  · intro q r' idx' hq
    have hqp := (hwaits.mp ⟨true, hq⟩).1
    rw [show t.disk = s.disk by rw [ht]; rfl]
    exact hI.asleepBuf (hq ▸ hwoken hqp).wait_asleep
  · intro q r' hq
    exfalso
    by_cases hqp : q = p
    · rw [hqp, hself] at hq
      cases hq
    · rw [hother hqp] at hq
      cases hpc : s.pc q <;> rw [hpc] at hq <;> cases hq

/-- The second loop: the process sleeps again, or its request is at an end. -/
theorem Inv.finish (hI : Inv s) (hw : s.Waits p r idx) : ∃ t, finish s p r idx = .ok t ∧ Inv t := by
  rw [Virtio.finish]
  cases hd : s.disk r.buf with
  | true =>
      obtain ⟨a, ha⟩ := hw
      rw [if_pos rfl]
      refine ⟨_, rfl, hI.same (goto_rel (R := fun a b => a.Woken b ∨ b.Woken a) (fun _ => .inl (.refl _)) ?_)
        (fun _ _ => rfl) rfl (fun {q r' idx'} hq => ?_) fun {q r'} hq => ?_⟩
      · rw [ha]
        exact .inr (.wait fun _ => rfl)
      · rcases goto_cases hq with ⟨-, h⟩ | ⟨-, h⟩
        · cases h
          exact hd
        · exact hI.asleepBuf h
      · rcases goto_cases hq with ⟨-, h⟩ | ⟨-, h⟩
        · cases h
        · exact hI.asleepFree h
  | false =>
      rw [if_neg Bool.false_ne_true]
      obtain ⟨i, j, k, rfl⟩ : ∃ i j k, idx = [i, j, k] := by
        cases hI.chained hw with
        | mk => exact ⟨_, _, _, rfl⟩
      refine ⟨_, ?_, hI.giveUp hw hd rfl⟩
      simp only [List.getD_cons_zero, (hI.chained hw).freeChain]
      rfl

/-! ## The device -/

/-- The device moves a head on. -/
theorem Inv.requeue (hI : Inv s)
    (hrest : t = { s with
      lastAvail := t.lastAvail, usedIdx := t.usedIdx, usedRing := t.usedRing, taken := t.taken, status := t.status
      data := t.data, sectors := t.sectors })
    (hcounters : t.Counters) (hperm : t.heads.Perm s.heads) (hstatus : ∀ h ∈ t.completed, t.status h = 0) : Inv t := by
  have hpc : t.pc = s.pc := by rw [hrest]
  have hdisk : t.disk = s.disk := by rw [hrest]
  have hfree : t.free = s.free := by rw [hrest]
  have hwaits : ∀ {q r' idx}, t.Waits q r' idx ↔ s.Waits q r' idx := by
    intro q r' idx
    rw [Sys.Waits, hpc, Sys.Waits]
  refine ⟨hI.toChains.congr hwaits (fun _ _ => by rw [hrest]) hfree (by rw [hrest]) (by rw [hrest]),
    hI.toQueues.congr hwaits hdisk hcounters hperm hstatus, ?_, ?_, ?_⟩
  · rw [hpc]
    exact hI.bufs
  · rw [hpc, hdisk]
    exact hI.asleepBuf
  · rw [hpc, Sys.freeDescs, hfree]
    exact hI.asleepFree

theorem Inv.take (hI : Inv s) (hne : s.lastAvail ≠ s.availIdx) : Inv { s with
    taken := s.availRing (s.lastAvail % NUM) :: s.taken
    lastAvail := uint16 (s.lastAvail + 1) } := by
  obtain ⟨⟨havail, hlast⟩, hused⟩ := hI.counters
  refine hI.requeue rfl ⟨⟨havail, Nat.mod_lt _ (Nat.two_pow_pos 16)⟩, hused⟩ ?_ hI.status
  have hpop := Ring.slots_pop num_dvd hlast havail hne s.availRing
  rw [Sys.heads, Sys.heads, Sys.posted, Sys.posted, hpop]
  exact List.Perm.append_right _ List.perm_middle

/-- The device finds the request in the descriptors. -/
theorem Chained.chain (hc : Chained s r (h :: idx)) : s.chain h = some (r.op, r.buf, h) := by
  cases hc with
  | mk nodup taken desc₀ desc₁ desc₂ op info =>
      rw [Sys.chain, desc₀]
      simp only [desc₁, desc₂, op, true_and, and_true]
      exact if_pos rfl

theorem Inv.chain_of_taken (hI : Inv s) (hh : h ∈ s.taken) :
    ∃ p r idx, s.Waits p r (h :: idx) ∧ s.disk r.buf = true ∧ s.chain h = some (r.op, r.buf, h) := by
  obtain ⟨p, r, idx, hw, hd⟩ := (hI.heads h).mp (List.mem_append_left _ (List.mem_append_right _ hh))
  exact ⟨p, r, idx, hw, hd, (hI.chained hw).chain⟩

section

variable [DecidableEq β]

theorem Inv.complete (hI : Inv s) (hh : h ∈ s.taken) (op : Op) (b : β) : Inv (s.complete h op b h) := by
  have hroom : Ring.count (2 ^ 16) s.seen s.usedIdx < NUM := by
    have hlen := hI.length_heads [] hI.nodup fun x hx => by cases hx
    have hpos := List.length_pos_of_mem hh
    rw [Sys.heads, List.length_append, List.length_append, Sys.completed, Ring.length_slots, List.length_nil] at hlen
    omega
  have hcompleted : (s.complete h op b h).completed = s.completed ++ [h] := by
    have hpush := Ring.slots_push num_dvd num_lt hI.counters.2.2 hI.counters.2.1 hroom s.usedRing h
    rw [← Sys.completed] at hpush
    rw [← hpush, Sys.complete, Sys.transfer]
    split <;> rfl
  have hposted : (s.complete h op b h).posted = s.posted := by
    rw [Sys.complete, Sys.transfer]
    split <;> rfl
  have htaken : (s.complete h op b h).taken = s.taken.erase h := rfl
  refine hI.requeue ?_ ?_ ?_ ?_
  · rw [Sys.complete, Sys.transfer]
    split <;> rfl
  · rw [Sys.complete, Sys.transfer]
    split <;> exact ⟨hI.counters.1, Nat.mod_lt _ (Nat.two_pow_pos 16), hI.counters.2.2⟩
  · rw [Sys.heads, hposted, htaken, hcompleted, Sys.heads, ← List.append_assoc, List.append_assoc s.posted,
      List.append_assoc s.posted s.taken]
    have hperm : (s.taken.erase h ++ s.completed ++ [h]).Perm (s.taken ++ s.completed) :=
      (List.perm_append_singleton h _).trans (List.Perm.append_right s.completed (List.perm_cons_erase hh).symm)
    rw [List.append_assoc s.posted]
    exact List.Perm.append_left s.posted hperm
  · intro x hx
    rw [hcompleted, List.mem_append, List.mem_singleton] at hx
    by_cases hxh : x = h
    · rw [hxh]
      exact Function.update_self _ _ _
    · exact (Function.update_of_ne hxh _ _).trans (hI.status x (hx.resolve_right hxh))

/-! ## The interrupt handler -/

theorem Pc.woken_wakeBuf (b : β) (pc : Pc β) : pc.Woken (pc.wakeBuf b) := by
  cases pc with
  | idle => exact .idle
  | alloc r a => exact .alloc id
  | wait r idx a => exact .wait fun ha => (Bool.and_eq_true_iff.mp ha).1

/-- The handler has seen that the request for the buffer is complete. -/
def Sys.served (s : Sys N β) (b : β) : Sys N β :=
  { s with
    disk := Function.update s.disk b false
    pc := fun p => (s.pc p).wakeBuf b
    seen := uint16 (s.seen + 1) }

/-- A turn of the handler finds the request that the device has completed first, and clears the flag of its buffer. -/
theorem Inv.intrTurn (hI : Inv s) (hne : s.seen ≠ s.usedIdx) :
    ∃ p r idx, s.Waits p r (s.usedRing (s.seen % NUM) :: idx) ∧ s.disk r.buf = true ∧
      intrTurn s = .ok (s.served r.buf) ∧ Inv (s.served r.buf) := by
  obtain ⟨id, hid⟩ : ∃ id, s.usedRing (s.seen % NUM) = id := ⟨_, rfl⟩
  have hpop : s.completed = id :: Ring.slots NUM s.usedRing (uint16 (s.seen + 1))
      (Ring.count (2 ^ 16) (uint16 (s.seen + 1)) s.usedIdx) := by
    rw [← hid]
    exact Ring.slots_pop num_dvd hI.counters.2.2 hI.counters.2.1 hne s.usedRing
  have hmem : id ∈ s.completed := by
    rw [hpop]
    exact List.mem_cons_self
  obtain ⟨p, r, idx, hw, hd⟩ := (hI.heads id).mp (List.mem_append_right _ hmem)
  refine ⟨p, r, idx, hid ▸ hw, hd, ?_, ?_⟩
  · have hinfo : s.info id = some r.buf := by
      cases hI.chained hw with
      | mk nodup taken desc₀ desc₁ desc₂ op info => exact info
    rw [Virtio.intrTurn]
    simp only [hid, hinfo]
    rw [if_neg (not_not.mpr (hI.status id hmem))]
    rfl
  obtain ⟨t, ht⟩ : ∃ t : Sys N β, t = s.served r.buf := ⟨_, rfl⟩
  rw [← ht]
  have hpc : ∀ q, (s.pc q).Woken (t.pc q) := by
    intro q
    rw [ht]
    exact Pc.woken_wakeBuf _ _
  have hwaits : ∀ {q r' idx}, t.Waits q r' idx ↔ s.Waits q r' idx := waits_woken (hpc _)
  -- the buffers of the other requests keep their flag
  have hdisk : ∀ {q r' idx'}, s.Waits q r' idx' → (t.disk r'.buf = true ↔ q ≠ p ∧ s.disk r'.buf = true) := by
    intro q r' idx' hw'
    rw [ht]
    show Function.update s.disk r.buf false r'.buf = true ↔ _
    by_cases hq : q = p
    · subst hq
      rw [(hw'.unique hw).1, Function.update_self]
      simp
    · rw [Function.update_of_ne fun heq => hq (hI.bufs hw'.req hw.req heq)]
      simp [hq]
  have hheads : s.heads.Perm (id :: t.heads) := by
    rw [Sys.heads, hpop, ht]
    exact List.perm_middle
  have hnodup := hheads.nodup_iff.mp hI.nodup
  refine ⟨hI.toChains.congr hwaits (fun _ _ => ht ▸ rfl) (ht ▸ rfl) (ht ▸ rfl) (ht ▸ rfl),
    ⟨?_, (List.nodup_cons.mp hnodup).2, ?_, ?_⟩, ?_, ?_, ?_⟩
  · rw [ht]
    exact ⟨hI.counters.1, hI.counters.2.1, Nat.mod_lt _ (Nat.two_pow_pos 16)⟩
  · intro h
    have hiff : h ∈ t.heads ↔ h ≠ id ∧ h ∈ s.heads := by
      rw [hheads.mem_iff, List.mem_cons]
      constructor
      · intro hh
        exact ⟨fun heq => (List.nodup_cons.mp hnodup).1 (heq ▸ hh), .inr hh⟩
      · rintro ⟨hne', heq | hh⟩
        · exact absurd heq hne'
        · exact hh
    rw [hiff, hI.heads h]
    constructor
    · rintro ⟨hne', q, r', idx', hw', hd'⟩
      refine ⟨q, r', idx', hwaits.mpr hw', (hdisk hw').mpr ⟨fun hq => ?_, hd'⟩⟩
      subst hq
      exact hne' (List.cons.inj (hw'.unique hw).2).1
    · rintro ⟨q, r', idx', hw', hd'⟩
      have hw'' := hwaits.mp hw'
      obtain ⟨hq, hd''⟩ := (hdisk hw'').mp hd'
      refine ⟨fun heq => hq ?_, q, r', idx', hw'', hd''⟩
      subst heq
      exact hI.apart hw'' hw List.mem_cons_self List.mem_cons_self
  · intro h hh
    rw [ht] at hh ⊢
    exact hI.status h (by rw [hpop]; exact List.mem_cons_of_mem id hh)
  · intro q q' r₁ r₂ hq hq'
    rw [(hpc q).req] at hq
    rw [(hpc q').req] at hq'
    exact hI.bufs hq hq'
  · intro q r' idx' hq
    have hw' : s.Waits q r' idx' := hwaits.mp ⟨true, hq⟩
    refine (hdisk hw').mpr ⟨fun heq => ?_, hI.asleepBuf (hq ▸ hpc q).wait_asleep⟩
    -- the process whose request it is has been woken
    subst heq
    have hs := (hq ▸ hpc q).wait_asleep
    rw [ht] at hq
    replace hq : (s.pc q).wakeBuf r.buf = .wait r' idx' true := hq
    rw [hs, Pc.wakeBuf, (hw'.unique hw).1] at hq
    simp at hq
  · intro q r' hq
    rw [show t.freeDescs = s.freeDescs by rw [ht]; rfl]
    exact hI.asleepFree (hq ▸ hpc q).alloc_asleep

/-! ## All steps -/

theorem fresh_of_not_uses (hp : s.pc p = .idle) (hb : s.uses r.buf = false) : Fresh s p r where
  idle r' idx := by
    rintro ⟨a, ha⟩
    rw [hp] at ha
    cases ha
  buf q r' hq hbuf := by
    rw [Sys.uses, List.any_eq_false] at hb
    have hno := hb q (List.mem_finRange q)
    rw [hq] at hno
    exact absurd (decide_eq_true hbuf) hno

/-- The first loop: the process sleeps, or its request is posted. -/
theorem Inv.attempt (hI : Inv s) (hF : Fresh s p r) :
    (∃ u, attempt s p r = .ok (u.goto p (.alloc r true)) ∧ Took s u [] ∧ Inv (u.goto p (.alloc r true))) ∨
      ∃ u idx, Virtio.attempt s p r = .ok (u.post p r idx) ∧ Took s u idx ∧ Inv (u.post p r idx) := by
  rcases (Took.refl s).allocLoop 3 with ⟨u, idx, hu, hT, hlen⟩ | ⟨u, hu, hT, hcard⟩
  · refine .inr ⟨u, idx, ?_, hT, hI.post hF hT hlen⟩
    rw [Virtio.attempt, alloc3Desc, hu]
    rfl
  · have hfree : u.freeDescs = s.freeDescs := by
      rw [Sys.freeDescs, Sys.freeDescs]
      refine Finset.filter_congr fun x _ => ?_
      rw [hT.free]
      simp
    refine .inl ⟨u, ?_, hT, (hT.inv hI).park (hT.fresh hF) (hfree ▸ hcard)⟩
    rw [Virtio.attempt, alloc3Desc, hu]
    rfl

/-- What a step is, label by label. -/
theorem step_cases {a : Act N β} {y : Except Panic (Sys N β)} (hst : step s a = some y) :
    match a with
    | .call p r => s.pc p = .idle ∧ s.uses r.buf = false ∧ y = attempt s p r
    | .retry p => ∃ r, s.pc p = .alloc r false ∧ y = attempt s p r
    | .resume p => ∃ r idx, s.pc p = .wait r idx false ∧ y = finish s p r idx
    | .kill p => y = .ok (s.goto p (s.pc p).wake)
    | .store b d => y = .ok { s with data := Function.update s.data b d }
    | .intr => y = .ok { s with intr := true }
    | .intrTurn => s.seen ≠ s.usedIdx ∧ y = intrTurn s
    | .intrEnd => y = .ok { s with intr := false }
    | .take => s.lastAvail ≠ s.availIdx ∧ y = .ok { s with
        taken := s.availRing (s.lastAvail % NUM) :: s.taken
        lastAvail := uint16 (s.lastAvail + 1) }
    | .complete h => h ∈ s.taken ∧ (s.chain h).map (fun c => .ok (s.complete h c.1 c.2.1 c.2.2)) = some y := by
  cases a with
  | kill p => exact (Option.some.inj hst).symm
  | call p r | retry p | resume p | store b d | intr | intrTurn | intrEnd | take | complete h =>
      simp only [step] at hst
      repeat' split at hst
      all_goals simp_all

/-- **The invariant** holds after every step, and no step panics. -/
theorem step_inv {a : Act N β} {y : Except Panic (Sys N β)} (hI : Inv s) (hst : step s a = some y) :
    ∃ t, y = .ok t ∧ Inv t := by
  have hattempt : ∀ {p r}, Fresh s p r → ∃ t, attempt s p r = .ok t ∧ Inv t := by
    intro p r hF
    rcases hI.attempt hF with ⟨u, hu, _, hI'⟩ | ⟨u, idx, hu, _, hI'⟩
    · exact ⟨_, hu, hI'⟩
    · exact ⟨_, hu, hI'⟩
  have hcases := step_cases hst
  cases a with
  | call p r =>
      obtain ⟨hp, hno, rfl⟩ := hcases
      exact hattempt (fresh_of_not_uses hp hno)
  | retry p =>
      obtain ⟨r, hp, rfl⟩ := hcases
      exact hattempt (hI.fresh_of_alloc hp)
  | resume p =>
      obtain ⟨r, idx, hp, rfl⟩ := hcases
      exact hI.finish ⟨false, hp⟩
  | kill p => exact ⟨_, hcases, hI.quiet (goto_rel .refl (Pc.woken_wake _)) (fun _ _ => rfl) rfl⟩
  | store _ _ | intr | intrEnd => exact ⟨_, hcases, hI.quiet (fun q => .refl _) (fun _ _ => rfl) rfl⟩
  | intrTurn =>
      obtain ⟨p, r, idx, _, _, ht, hI'⟩ := hI.intrTurn hcases.1
      exact ⟨_, hcases.2.trans ht, hI'⟩
  | take => exact ⟨_, hcases.2, hI.take hcases.1⟩
  | complete h =>
      obtain ⟨hh, hy⟩ := hcases
      obtain ⟨p, r, idx, _, _, hc⟩ := hI.chain_of_taken hh
      rw [hc] at hy
      cases hy
      exact ⟨_, rfl, hI.complete hh _ _⟩

theorem next_inv {a : Act N β} (hI : Inv s) (hst : next s a = some t) : Inv t := by
  obtain ⟨y, hy, hok⟩ := Option.bind_eq_some_iff.mp hst
  obtain ⟨u, rfl, hI'⟩ := step_inv hI hy
  cases hok
  exact hI'

theorem inv_run {data : β → Block} {sectors : Nat → Sector} {acts : List (Act N β)}
    (hrun : Trace.run next (init data sectors) acts = some s) : Inv s :=
  Trace.run_invariant (init_inv data sectors) (fun _ _ _ hI hst => next_inv hI hst) hrun

end

end Xv6.Virtio
