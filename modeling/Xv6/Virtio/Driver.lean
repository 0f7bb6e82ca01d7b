import Xv6.Virtio.Model

/-!
# `Virtio.Driver` — what driver and device keep

`Inv` says how the pieces fit: a process that waits for the device has a chain of three descriptors to itself, the
other descriptors are free, and the heads of the chains whose buffer is still marked as busy are, each once, in the
`avail` ring, with the device, or in the `used` ring. Each step keeps it and none of them panics (`step_inv`).
-/

namespace Xv6.Virtio

variable {N : Nat} {β : Type} {s t u : Sys N β} {p q : Fin N} {r r' : Request β} {idx idx' xs : List Nat} {a : Bool}
  {h i j k n x : Nat}

/-! ## The invariant -/

/-- The entries of the `avail` ring that the device has not taken. -/
def Sys.posted (s : Sys N β) : List Nat :=
  Ring.slots NUM s.availRing s.lastAvail (Ring.count (2 ^ 16) s.lastAvail s.availIdx)

/-- The entries of the `used` ring that the driver has not seen. -/
def Sys.completed (s : Sys N β) : List Nat :=
  Ring.slots NUM s.usedRing s.seen (Ring.count (2 ^ 16) s.seen s.usedIdx)

/-- The heads under way, from the driver to the device and back. -/
def Sys.heads (s : Sys N β) : List Nat := s.posted ++ s.taken ++ s.completed

def Sys.freeDescs (s : Sys N β) : Finset Nat := (Finset.range NUM).filter fun x => s.free x = true

/-- The process waits for the device. -/
def Sys.Waits (s : Sys N β) (p : Fin N) (r : Request β) (idx : List Nat) : Prop := ∃ a, s.pc p = .wait r idx a

/-- The descriptors of a request as the device is to find them. -/
inductive Chained (s : Sys N β) (r : Request β) : List Nat → Prop
  | mk {i j k : Nat} (nodup : [i, j, k].Nodup) (taken : ∀ x ∈ [i, j, k], x < NUM ∧ s.free x = false)
      (desc₀ : s.desc i = ⟨.ops i, 16, VRING_DESC_F_NEXT, j⟩)
      (desc₁ : s.desc j =
        ⟨.data r.buf, BSIZE, (if r.write then 0 else VRING_DESC_F_WRITE) ||| VRING_DESC_F_NEXT, k⟩)
      (desc₂ : s.desc k = ⟨.status i, 1, VRING_DESC_F_WRITE, 0⟩)
      (op : s.ops i = r.op) (info : s.info i = some r.buf) : Chained s r [i, j, k]

/-- The chains of the processes that wait, and the free descriptors. -/
structure Chains (s : Sys N β) : Prop where
  chained : ∀ {p r idx}, s.Waits p r idx → Chained s r idx
  apart : ∀ {p q r r' idx idx' x}, s.Waits p r idx → s.Waits q r' idx' → x ∈ idx → x ∈ idx' → p = q
  owned : ∀ x < NUM, s.free x = false → ∃ p r idx, s.Waits p r idx ∧ x ∈ idx

/-- The ring counters are `uint16`s. -/
def Sys.Counters (s : Sys N β) : Prop :=
  (s.availIdx < 2 ^ 16 ∧ s.lastAvail < 2 ^ 16) ∧ s.usedIdx < 2 ^ 16 ∧ s.seen < 2 ^ 16

/-- The heads under way are those of the requests whose buffer is busy. -/
structure Queues (s : Sys N β) : Prop where
  counters : s.Counters
  nodup : s.heads.Nodup
  heads : ∀ h, h ∈ s.heads ↔ ∃ p r idx, s.Waits p r (h :: idx) ∧ s.disk r.buf = true
  status : ∀ h ∈ s.completed, s.status h = 0

structure Inv (s : Sys N β) : Prop extends Chains s, Queues s where
  bufs : ∀ {p q r r'}, (s.pc p).req = some r → (s.pc q).req = some r' → r.buf = r'.buf → p = q
  asleepBuf : ∀ {p r idx}, s.pc p = .wait r idx true → s.disk r.buf = true
  asleepFree : ∀ {p r}, s.pc p = .alloc r true → s.freeDescs.card < 3

theorem completed_init (data : β → Block) (sectors : Nat → Sector) : (init data sectors : Sys N β).completed = [] := by
  show Ring.slots NUM _ 0 (Ring.count (2 ^ 16) 0 0) = []
  rw [Ring.count_self]
  rfl

theorem heads_init (data : β → Block) (sectors : Nat → Sector) : (init data sectors : Sys N β).heads = [] := by
  rw [Sys.heads, completed_init, List.append_nil]
  show Ring.slots NUM _ 0 (Ring.count (2 ^ 16) 0 0) ++ [] = []
  rw [Ring.count_self]
  rfl

theorem not_waits_init (data : β → Block) (sectors : Nat → Sector) (p : Fin N) (r : Request β) (idx : List Nat) :
    ¬(init data sectors).Waits p r idx := by
  rintro ⟨a, ha⟩
  cases ha

theorem init_inv (data : β → Block) (sectors : Nat → Sector) : Inv (init data sectors : Sys N β) where
  chained hw := absurd hw (not_waits_init data sectors _ _ _)
  apart hw := absurd hw (not_waits_init data sectors _ _ _)
  owned x _ hx := by cases hx
  counters := ⟨⟨Nat.two_pow_pos 16, Nat.two_pow_pos 16⟩, Nat.two_pow_pos 16, Nat.two_pow_pos 16⟩
  nodup := by
    rw [heads_init]
    exact List.nodup_nil
  heads h := by
    rw [heads_init]
    refine iff_of_false List.not_mem_nil ?_
    rintro ⟨p, r, idx, hw, _⟩
    exact not_waits_init data sectors p r _ hw
  status h hh := by
    rw [completed_init] at hh
    cases hh
  bufs hp := by cases hp
  asleepBuf hp := by cases hp
  asleepFree hp := by cases hp

theorem Sys.Waits.req (hw : s.Waits p r idx) : (s.pc p).req = some r := by
  obtain ⟨a, ha⟩ := hw
  rw [ha]
  rfl

theorem Sys.Waits.unique (hw : s.Waits p r idx) (hw' : s.Waits p r' idx') : r = r' ∧ idx = idx' := by
  obtain ⟨a, ha⟩ := hw
  obtain ⟨a', ha'⟩ := hw'
  rw [ha] at ha'
  cases ha'
  exact ⟨rfl, rfl⟩

theorem Chained.mem (hc : Chained s r idx) (hx : x ∈ idx) : x < NUM ∧ s.free x = false := by
  cases hc with
  | mk nodup taken => exact taken x hx

/-- A head under way is one of a chain, and so not free. -/
theorem Inv.head_taken (hI : Inv s) (hh : h ∈ s.heads) : h < NUM ∧ s.free h = false := by
  obtain ⟨p, r, idx, hw, _⟩ := (hI.heads h).mp hh
  exact (hI.chained hw).mem List.mem_cons_self

/-- There are no more heads under way than descriptors. -/
theorem Inv.length_heads (hI : Inv s) (xs : List Nat) (hn : (xs ++ s.heads).Nodup) (hlt : ∀ x ∈ xs, x < NUM) :
    xs.length + s.heads.length ≤ NUM := by
  have hsub : (xs ++ s.heads).toFinset ⊆ Finset.range NUM := by
    intro x hx
    rw [List.mem_toFinset, List.mem_append] at hx
    rw [Finset.mem_range]
    exact hx.elim (hlt x) fun hh => (hI.head_taken hh).1
  have hcard := Finset.card_le_card hsub
  rw [List.toFinset_card_of_nodup hn, Finset.card_range, List.length_append] at hcard
  exact hcard

/-! ## Steps that touch no request -/

/-- The same place, possibly awake. -/
inductive Pc.Woken : Pc β → Pc β → Prop
  | idle : Woken .idle .idle
  | alloc {r : Request β} {a a' : Bool} (ha : a' = true → a = true) : Woken (.alloc r a) (.alloc r a')
  | wait {r : Request β} {idx : List Nat} {a a' : Bool} (ha : a' = true → a = true) : Woken (.wait r idx a) (.wait r idx a')

theorem Pc.Woken.refl (pc : Pc β) : pc.Woken pc := by
  cases pc with
  | idle => exact .idle
  | alloc r a => exact .alloc id
  | wait r idx a => exact .wait id

theorem Pc.woken_wakeFree (pc : Pc β) : pc.Woken pc.wakeFree := by
  cases pc with
  | idle => exact .idle
  | alloc r a => exact .alloc fun ha => by cases ha
  | wait r idx a => exact .wait id

theorem Pc.woken_wake (pc : Pc β) : pc.Woken pc.wake := by
  cases pc with
  | idle => exact .idle
  | alloc r a => exact .alloc fun ha => by cases ha
  | wait r idx a => exact .wait fun ha => by cases ha

theorem Pc.Woken.wakeFree {pc pc' : Pc β} (hw : pc.Woken pc') : pc.Woken pc'.wakeFree := by
  cases hw with
  | idle => exact .idle
  | alloc ha => exact .alloc fun ha' => by cases ha'
  | wait ha => exact .wait ha

theorem Pc.Woken.req {pc pc' : Pc β} (hw : pc.Woken pc') : pc'.req = pc.req := by
  cases hw <;> rfl

theorem Pc.Woken.wait_asleep {pc : Pc β} (hw : pc.Woken (.wait r idx true)) : pc = .wait r idx true := by
  cases hw with
  | wait ha => rw [ha rfl]

theorem Pc.Woken.alloc_asleep {pc : Pc β} (hw : pc.Woken (.alloc r true)) : pc = .alloc r true := by
  cases hw with
  | alloc ha => rw [ha rfl]

theorem waits_woken (hw : (s.pc p).Woken (t.pc p)) : t.Waits p r idx ↔ s.Waits p r idx := by
  unfold Sys.Waits
  generalize s.pc p = pc at hw
  generalize t.pc p = pc' at hw
  cases hw with
  | idle => simp
  | alloc ha => simp
  | wait ha => simp

theorem Chained.congr (hc : Chained s r idx) (hdesc : ∀ x ∈ idx, t.desc x = s.desc x)
    (hfree : ∀ x ∈ idx, t.free x = s.free x) (hops : ∀ x ∈ idx, t.ops x = s.ops x)
    (hinfo : ∀ x ∈ idx, t.info x = s.info x) : Chained t r idx := by
  cases hc with
  | @mk i j k nodup taken desc₀ desc₁ desc₂ op info =>
      have hi : i ∈ [i, j, k] := by simp
      have hj : j ∈ [i, j, k] := by simp
      have hk : k ∈ [i, j, k] := by simp
      refine .mk nodup (fun x hx => ?_) ((hdesc i hi).trans desc₀) ((hdesc j hj).trans desc₁)
        ((hdesc k hk).trans desc₂) ((hops i hi).trans op) ((hinfo i hi).trans info)
      rw [hfree x hx]
      exact taken x hx

/-- The chains do not change. -/
theorem Chains.congr (hC : Chains s) (hwaits : ∀ {p r idx}, t.Waits p r idx ↔ s.Waits p r idx)
    (hdesc : ∀ x, s.free x = false → t.desc x = s.desc x) (hfree : t.free = s.free) (hops : t.ops = s.ops)
    (hinfo : t.info = s.info) : Chains t where
  chained hw := by
    have hc := hC.chained (hwaits.mp hw)
    exact hc.congr (fun x hx => hdesc x (hc.mem hx).2) (fun x _ => congrFun hfree x) (fun x _ => congrFun hops x)
      fun x _ => congrFun hinfo x
  apart hp hq := hC.apart (hwaits.mp hp) (hwaits.mp hq)
  owned x hx hf := by
    rw [hfree] at hf
    obtain ⟨p, r, idx, hw, hmem⟩ := hC.owned x hx hf
    exact ⟨p, r, idx, hwaits.mpr hw, hmem⟩

/-- The heads under way move from one place to another. -/
theorem Queues.congr (hQ : Queues s) (hwaits : ∀ {p r idx}, t.Waits p r idx ↔ s.Waits p r idx) (hdisk : t.disk = s.disk)
    (hcounters : t.Counters) (hperm : t.heads.Perm s.heads) (hstatus : ∀ h ∈ t.completed, t.status h = 0) : Queues t where
  counters := hcounters
  nodup := hperm.nodup_iff.mpr hQ.nodup
  heads h := by
    rw [hperm.mem_iff, hQ.heads h, hdisk]
    exact exists_congr fun p => exists_congr fun r => exists_congr fun idx => and_congr_left fun _ => hwaits.symm
  status := hstatus

/-- Processes fall asleep or wake up where they are, descriptors that nobody uses change, and so do data and the
    handler's lock. -/
theorem Inv.same (hI : Inv s) (hpc : ∀ p, (s.pc p).Woken (t.pc p) ∨ (t.pc p).Woken (s.pc p))
    (hdesc : ∀ x, s.free x = false → t.desc x = s.desc x)
    (hrest : t = { s with pc := t.pc, desc := t.desc, data := t.data, sectors := t.sectors, intr := t.intr })
    (hbuf : ∀ {p r idx}, t.pc p = .wait r idx true → s.disk r.buf = true)
    (hfew : ∀ {p r}, t.pc p = .alloc r true → s.freeDescs.card < 3) : Inv t := by
  have hwaits : ∀ {p r idx}, t.Waits p r idx ↔ s.Waits p r idx := by
    intro p r idx
    rcases hpc p with hw | hw
    · exact waits_woken hw
    · exact (waits_woken hw).symm
  have hreq : ∀ p, (t.pc p).req = (s.pc p).req := fun p => (hpc p).elim Pc.Woken.req fun hw => hw.req.symm
  have hfree : t.free = s.free := by rw [hrest]
  have hdisk : t.disk = s.disk := by rw [hrest]
  refine ⟨hI.toChains.congr hwaits hdesc hfree (by rw [hrest]) (by rw [hrest]),
    hI.toQueues.congr hwaits hdisk ?_ ?_ ?_, ?_, ?_, ?_⟩
  · rw [hrest]
    exact hI.counters
  · rw [hrest]
    exact .refl _
  · rw [hrest]
    exact hI.status
  · intro p q r r' hp hq
    rw [hreq] at hp hq
    exact hI.bufs hp hq
  · intro p r idx hp
    rw [hdisk]
    exact hbuf hp
  · intro p r hp
    rw [Sys.freeDescs, hfree]
    exact hfew hp

theorem Inv.quiet (hI : Inv s) (hpc : ∀ p, (s.pc p).Woken (t.pc p)) (hdesc : ∀ x, s.free x = false → t.desc x = s.desc x)
    (hrest : t = { s with pc := t.pc, desc := t.desc, data := t.data, sectors := t.sectors, intr := t.intr }) : Inv t :=
  hI.same (fun p => .inl (hpc p)) hdesc hrest (fun {p _ _} hp => hI.asleepBuf (hp ▸ hpc p).wait_asleep)
    fun {p _} hp => hI.asleepFree (hp ▸ hpc p).alloc_asleep

/-! ## Allocating and freeing descriptors -/

/-- The descriptors `xs`, free in `s`, have been allocated; in between others may have been, and have been freed. -/
structure Took (s t : Sys N β) (xs : List Nat) : Prop where
  nodup : xs.Nodup
  avail : ∀ x ∈ xs, x < NUM ∧ s.free x = true
  free : ∀ x, t.free x = (s.free x && decide (x ∉ xs))
  desc : ∀ x, s.free x = false → t.desc x = s.desc x
  pc : ∀ p, (s.pc p).Woken (t.pc p)
  rest : t = { s with pc := t.pc, desc := t.desc, free := t.free }

theorem Took.refl (s : Sys N β) : Took s s [] where
  nodup := List.nodup_nil
  avail x hx := by cases hx
  free x := by simp
  desc x _ := rfl
  pc p := .refl _
  rest := rfl

theorem Took.alloc (hT : Took s t xs) (ha : allocDesc t = some (u, i)) : Took s u (xs ++ [i]) := by
  rw [allocDesc, Option.map_eq_some_iff] at ha
  obtain ⟨i', hfind, heq⟩ := ha
  obtain ⟨rfl, rfl⟩ := Prod.mk.inj heq
  have hfree := List.find?_some hfind
  have hlt := List.mem_range.mp (List.mem_of_find?_eq_some hfind)
  rw [hT.free, Bool.and_eq_true, decide_eq_true_eq] at hfree
  refine ⟨?_, ?_, ?_, hT.desc, hT.pc, ?_⟩
  · rw [List.nodup_append_comm]
    exact List.nodup_cons.mpr ⟨hfree.2, hT.nodup⟩
  · intro x hx
    rcases List.mem_append.mp hx with hx | hx
    · exact hT.avail x hx
    · rw [List.mem_singleton.mp hx]
      exact ⟨hlt, hfree.1⟩
  · intro x
    show Function.update t.free i' false x = _
    by_cases hx : x = i'
    · subst hx
      simp
    · rw [Function.update_of_ne hx, hT.free]
      simp [hx]
  · rw [hT.rest]

/-- If no descriptor is left, those that were free have been allocated. -/
theorem Took.card_le (hT : Took s t xs) (ha : allocDesc t = none) : s.freeDescs.card ≤ xs.length := by
  rw [allocDesc, Option.map_eq_none_iff, List.find?_eq_none] at ha
  rw [← List.toFinset_card_of_nodup hT.nodup]
  refine Finset.card_le_card fun x hx => ?_
  obtain ⟨hlt, hfree⟩ := Finset.mem_filter.mp hx
  have hno := ha x (List.mem_range.mpr (Finset.mem_range.mp hlt))
  rw [hT.free, hfree] at hno
  simpa using hno

/-- A descriptor is free again, and whoever waits for one is awake. -/
def Sys.freed (s : Sys N β) (i : Nat) : Sys N β :=
  { s with
    desc := Function.update s.desc i ⟨.null, 0, 0, 0⟩
    free := Function.update s.free i true
    pc := fun p => (s.pc p).wakeFree }

theorem freeDesc_eq (hlt : i < NUM) (hf : s.free i = false) : freeDesc s i = .ok (s.freed i) := by
  rw [freeDesc, if_neg (Nat.not_le.mpr hlt), if_neg (by rw [hf]; exact Bool.false_ne_true)]
  rfl

theorem freeChainLoop_eq {d : Desc β} (turns : Nat) (hd : s.desc i = d) (hlt : i < NUM) (hf : s.free i = false) :
    freeChainLoop (turns + 1) s i =
      if d.flags &&& VRING_DESC_F_NEXT ≠ 0 then freeChainLoop turns (s.freed i) d.next else .ok (s.freed i) := by
  rw [freeChainLoop, freeDesc_eq hlt hf, hd]
  rfl

theorem Took.free_one (hT : Took s t (i :: xs)) : ∃ u, freeDesc t i = .ok u ∧ Took s u xs := by
  obtain ⟨hi, hxs⟩ := List.nodup_cons.mp hT.nodup
  obtain ⟨hlt, hs⟩ := hT.avail i List.mem_cons_self
  have hf : t.free i = false := by
    rw [hT.free]
    simp
  refine ⟨_, freeDesc_eq hlt hf, hxs, fun x hx => hT.avail x (List.mem_cons_of_mem i hx), ?_, ?_, ?_, ?_⟩
  · intro x
    show Function.update t.free i true x = _
    by_cases hx : x = i
    · subst hx
      rw [Function.update_self, hs]
      simp [hi]
    · rw [Function.update_of_ne hx, hT.free]
      simp [hx]
  · intro x hx
    have hne : x ≠ i := fun heq => by
      rw [heq, hs] at hx
      cases hx
    exact (Function.update_of_ne hne _ _).trans (hT.desc x hx)
  · exact fun p => (hT.pc p).wakeFree
  · rewrite [hT.rest]
    rfl

theorem Took.free_all (hT : Took s t xs) : ∃ u, xs.foldlM freeDesc t = .ok u ∧ Took s u [] := by
  induction xs generalizing t with
  | nil => exact ⟨t, rfl, hT⟩
  | cons i xs ih =>
      obtain ⟨u, hu, hT'⟩ := hT.free_one
      obtain ⟨v, hv, hT''⟩ := ih hT'
      refine ⟨v, ?_, hT''⟩
      rw [List.foldlM_cons, hu]
      exact hv

/-- The loop of `alloc3_desc` gets what it wants, or there is too little and it gives back what it has. -/
theorem Took.allocLoop (hT : Took s t xs) (n : Nat) :
    (∃ u ys, allocLoop n t xs = .ok (u, some ys) ∧ Took s u ys ∧ ys.length = xs.length + n) ∨
      ∃ u, Virtio.allocLoop n t xs = .ok (u, none) ∧ Took s u [] ∧ s.freeDescs.card < xs.length + n := by
  induction n generalizing t xs with
  | zero => exact .inl ⟨t, xs, rfl, hT, rfl⟩
  | succ n ih =>
      rw [Virtio.allocLoop]
      cases ha : allocDesc t with
      | some y =>
          obtain ⟨u, i⟩ := y
          have hlen : (xs ++ [i]).length + n = xs.length + (n + 1) := by
            rw [List.length_append, List.length_singleton]
            omega
          rw [← hlen]
          exact ih (hT.alloc ha)
      | none =>
          obtain ⟨u, hu, hT'⟩ := hT.free_all
          have hcard := hT.card_le ha
          refine .inr ⟨u, ?_, hT', by omega⟩
          simp only [hu]
          rfl

/-- `free_chain` frees the three descriptors of a request; its entry in `disk.info` has been cleared before. -/
theorem Chained.freeChain {info : Nat → Option β} (hc : Chained s r [i, j, k]) :
    freeChain { s with info := info } i = .ok (((({ s with info := info } : Sys N β).freed i).freed j).freed k) := by
  cases hc with
  | mk nodup taken desc₀ desc₁ desc₂ =>
      simp only [List.nodup_cons, List.mem_cons, List.not_mem_nil, or_false, not_or] at nodup
      obtain ⟨⟨hij, hik⟩, hjk, -⟩ := nodup
      obtain ⟨hi, hfi⟩ := taken i (by simp)
      obtain ⟨hj, hfj⟩ := taken j (by simp)
      obtain ⟨hk, hfk⟩ := taken k (by simp)
      have hfirst : VRING_DESC_F_NEXT &&& VRING_DESC_F_NEXT ≠ 0 := by decide
      have hlast : ¬VRING_DESC_F_WRITE &&& VRING_DESC_F_NEXT ≠ 0 := by decide
      have hnext : ((if r.write then 0 else VRING_DESC_F_WRITE) ||| VRING_DESC_F_NEXT) &&& VRING_DESC_F_NEXT ≠ 0 := by
        cases r.write <;> decide
      -- freeing a descriptor leaves the others
      have hother : ∀ (v : Sys N β) {x y : Nat}, x ≠ y → (v.freed x).desc y = v.desc y ∧ (v.freed x).free y = v.free y :=
        fun v x y hne => ⟨Function.update_of_ne hne.symm _ _, Function.update_of_ne hne.symm _ _⟩
      obtain ⟨hd₁, hf₁⟩ := hother { s with info := info } hij
      obtain ⟨hd₂, hf₂⟩ := hother { s with info := info } hik
      obtain ⟨hd₃, hf₃⟩ := hother (({ s with info := info } : Sys N β).freed i) hjk
      rw [Virtio.freeChain, freeChainLoop_eq (s := { s with info := info }) NUM desc₀ hi hfi, if_pos hfirst, show NUM = 6 + 1 + 1 from rfl,
        freeChainLoop_eq _ (hd₁.trans desc₁) hj (hf₁.trans hfj), if_pos hnext,
        freeChainLoop_eq _ ((hd₃.trans hd₂).trans desc₂) hk ((hf₃.trans hf₂).trans hfk), if_neg hlast]

/-! ## Waiting for descriptors -/

/-- The process may start a request: it waits for no other, and nobody else has the buffer. -/
structure Fresh (s : Sys N β) (p : Fin N) (r : Request β) : Prop where
  idle : ∀ r' idx, ¬s.Waits p r' idx
  buf : ∀ q r', (s.pc q).req = some r' → r'.buf = r.buf → q = p

theorem Inv.fresh_of_alloc {a : Bool} (hI : Inv s) (hp : s.pc p = .alloc r a) : Fresh s p r where
  idle r' idx := by
    rintro ⟨a, ha⟩
    rw [hp] at ha
    cases ha
  buf q r' hq hbuf := hI.bufs hq (by rw [hp]; rfl) hbuf

theorem goto_self (pc : Pc β) : (s.goto p pc).pc p = pc := Function.update_self _ _ _

theorem goto_of_ne (pc : Pc β) (hq : q ≠ p) : (s.goto p pc).pc q = s.pc q := Function.update_of_ne hq _ _

theorem goto_cases {pc pc' : Pc β} (h : (s.goto p pc).pc q = pc') : q = p ∧ pc = pc' ∨ q ≠ p ∧ s.pc q = pc' := by
  by_cases hq : q = p
  · subst hq
    rw [goto_self] at h
    exact .inl ⟨rfl, h⟩
  · rw [goto_of_ne _ hq] at h
    exact .inr ⟨hq, h⟩

/-- What holds of the process that moves holds of all. -/
theorem goto_rel {R : Pc β → Pc β → Prop} {pc : Pc β} (hrefl : ∀ x, R x x) (h : R (s.pc p) pc) (q : Fin N) :
    R (s.pc q) ((s.goto p pc).pc q) := by
  by_cases hq : q = p
  · rwa [hq, goto_self]
  · rw [goto_of_ne _ hq]
    exact hrefl _

/-- The process now has its request, and the others what they had. -/
theorem Inv.bufs_fresh (hI : Inv s) (hF : Fresh s p r) (hself : (t.pc p).req = some r)
    (hother : ∀ q ≠ p, (t.pc q).req = (s.pc q).req) {q' : Fin N} {r₁ r₂ : Request β} (hq : (t.pc q).req = some r₁)
    (hq' : (t.pc q').req = some r₂) (hbuf : r₁.buf = r₂.buf) : q = q' := by
  by_cases hqp : q = p <;> by_cases hqp' : q' = p
  · rw [hqp, hqp']
  · subst hqp
    cases hself.symm.trans hq
    exact (hF.buf q' r₂ (hother q' hqp' ▸ hq') hbuf.symm).symm
  · subst hqp'
    cases hself.symm.trans hq'
    exact hF.buf q r₁ (hother q hqp ▸ hq) hbuf
  · exact hI.bufs (hother q hqp ▸ hq) (hother q' hqp' ▸ hq') hbuf

/-- A process goes to sleep for want of descriptors. -/
theorem Inv.park (hI : Inv s) (hF : Fresh s p r) (hcard : s.freeDescs.card < 3) : Inv (s.goto p (.alloc r true)) := by
  have hwaits : ∀ {q r' idx}, (s.goto p (.alloc r true)).Waits q r' idx ↔ s.Waits q r' idx := by
    intro q r' idx
    by_cases hq : q = p
    · subst hq
      refine iff_of_false ?_ (hF.idle r' idx)
      rintro ⟨a, ha⟩
      rw [goto_self] at ha
      cases ha
    · rw [Sys.Waits, goto_of_ne _ hq, Sys.Waits]
  refine ⟨hI.toChains.congr hwaits (fun _ _ => rfl) rfl rfl rfl,
    hI.toQueues.congr hwaits rfl hI.counters (.refl _) hI.status, ?_, ?_, fun _ => hcard⟩
  · exact hI.bufs_fresh hF (by rw [goto_self]; rfl) fun q hq => by rw [goto_of_ne _ hq]
  · intro q r' idx hq
    rcases goto_cases hq with ⟨-, h⟩ | ⟨-, h⟩
    · cases h
    · exact hI.asleepBuf h

/-- `alloc3_desc` has given back what it had. -/
theorem Took.inv (hT : Took s u []) (hI : Inv s) : Inv u := by
  have hfree : u.free = s.free := funext fun x => by
    rw [hT.free]
    simp
  refine hI.quiet hT.pc hT.desc ?_
  have hrest := hT.rest
  rw [hfree] at hrest
  rewrite [hrest]
  rfl

theorem Took.fresh (hT : Took s u xs) (hF : Fresh s p r) : Fresh u p r where
  idle r' idx hw := hF.idle r' idx ((waits_woken (hT.pc p)).mp hw)
  buf q r' hq := hF.buf q r' (by rw [← (hT.pc q).req]; exact hq)

end Xv6.Virtio
