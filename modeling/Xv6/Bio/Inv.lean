import Xv6.Bio.Step
import Xv6.Bio.Logger

/-!
# `Bio.Inv` — the buffer cache under the log

`Inv` adds to the representation of the cache what the log relies on: the buffer of a block that is in the
log and not yet installed is in the cache, valid and pinned once, and the code that the log's process has
still to run is admitted by `Runs` in the state it is in (`Sound`). A step of a process that neither changes
a buffer's data nor the log is `Quiet`: it leaves the buffers that somebody holds or that are pinned alone
and keeps the log's copies (`Quiet.inv`). The other steps are the statements of the log, one lemma each.
-/

namespace Xv6.Bcache

open Logging (Block Log NBUF)

variable {s t : Sys} {a : Act} {p q : Fin NPROC} {i j : Fin NBUF} {l : Logger} {σ : Sym} {b lb : Nat}
  {k : List Instr}

def Sys.key (s : Sys) (i : Fin NBUF) : Nat × Nat := (s.cache.buf i).key

/-- The blocks in `log.lh.block` that `log_write` has pinned and `install_trans` has not yet unpinned. -/
def Sys.pinned (s : Sys) : List Nat :=
  match s.logger with
  | none => s.log.lh
  | some l => s.log.lh.drop (s.log.lh.length - bunpins l.code)

/-- Log block `lb` has the data of the buffer of `b`, on disk and in the cache. -/
def Copied (s : Sys) (lb b : Nat) : Prop :=
  ∀ i, s.key i = (ROOTDEV, b) → s.disk lb = (s.cache.buf i).data ∧
    ∀ j, s.key j = (ROOTDEV, lb) → (s.cache.buf j).valid = true →
      (s.cache.buf j).data = (s.cache.buf i).data

/-- The call that the log's process is in is its next statement. -/
def CallOk (l : Logger) (σ : Sym) : Option Call → Prop
  | none => True
  | some (.acquiresleep _ dev b) => dev = ROOTDEV ∧ ∃ r k, l.code = .bread r b :: k
  | some (.fill i dev b) =>
      dev = ROOTDEV ∧ (∃ r k, l.code = .bread r b :: k) ∧ ∀ r, σ.regs r ≠ none → l.regs r ≠ some i
  | some (.brelse i) => ∃ r k, l.code = .brelse r :: k ∧ l.regs r = some i

/-- What `σ` says is true of the state. While `brelse` is under way its buffer is no longer locked. -/
structure Sound (s : Sys) (l : Logger) (σ : Sym) : Prop where
  recovering : σ.recovering = l.recovering
  regs : ∀ r b, σ.regs r = some b → ∃ i, l.regs r = some i ∧
    (s.key i = (ROOTDEV, b) ∧ (s.cache.buf i).lock = some l.proc ∨ s.call l.proc = some (.brelse i))
  inj : ∀ r r' i, σ.regs r ≠ none → σ.regs r' ≠ none → l.regs r = some i → l.regs r' = some i → r = r'
  suffix : σ.pinned <:+ s.log.lh
  copies : ∀ lb b, (lb, b) ∈ σ.copies → b ∈ σ.pinned → Copied s lb b
  moved : ∀ lb b, σ.moved = some (lb, b) → s.call l.proc = none ∧ σ.regs .lbuf = some lb ∧
    (∀ b', (lb, b') ∉ σ.copies) ∧ b ∈ σ.pinned ∧
    ∀ i j, s.key i = (ROOTDEV, b) → s.key j = (ROOTDEV, lb) → (s.cache.buf j).data = (s.cache.buf i).data

structure Inv (s : Sys) : Prop where
  rep : Rep s.cache s.call s.pins
  count : s.log.outstanding = s.ops.length
  alone : ∀ l, s.logger = some l → s.ops = [] ∧ (l.recovering = false → s.log.committing = true)
  nodup : s.pinned.Nodup
  fs : ∀ b ∈ s.pinned, s.log.fsBlock b
  room : s.pinned ≠ [] → s.pinned.length < s.log.size
  pinned : ∀ i b, b ∈ s.pinned → s.key i = (ROOTDEV, b) → s.pins i = 1
  unpinned : ∀ i, (∀ b ∈ s.pinned, s.key i ≠ (ROOTDEV, b)) → s.pins i = 0
  cached : ∀ b ∈ s.pinned, ∃ i, s.key i = (ROOTDEV, b) ∧ (s.cache.buf i).valid = true
  logger : ∀ l, s.logger = some l →
    ∃ σ, Runs s.log.fsBlock s.log.start s.log.lh σ l.code ∧ CallOk l σ (s.call l.proc) ∧ Sound s l σ

/-! ## Reading the invariant -/

theorem pinned_of_some (hl : s.logger = some l) :
    s.pinned = s.log.lh.drop (s.log.lh.length - bunpins l.code) := by
  unfold Sys.pinned
  rw [hl]

theorem pinned_eq (hl : s.logger = some l) (hR : Runs s.log.fsBlock s.log.start s.log.lh σ l.code)
    (hS : Sound s l σ) : s.pinned = σ.pinned := by
  rw [pinned_of_some hl, hR.bunpins_eq]
  exact (List.suffix_iff_eq_drop.mp hS.suffix).symm

theorem pinned_of_none (hl : s.logger = none) : s.pinned = s.log.lh := by
  unfold Sys.pinned
  rw [hl]

/-- A block of `ROOTDEV` has one buffer. -/
theorem Rep.key_unique {c : Cache} {call : Fin NPROC → Option Call} {pins : Fin NBUF → Nat}
    (h : Rep c call pins) (hi : (c.buf i).key = (ROOTDEV, b)) (hj : (c.buf j).key = (ROOTDEV, b)) : i = j := by
  refine h.unique i j ?_ (hi.trans hj.symm)
  have hd : (c.buf i).dev = ROOTDEV := congrArg Prod.fst hi
  rw [hd]
  decide

theorem Inv.valid_of_pinned (hI : Inv s) (hb : b ∈ s.pinned) (hk : s.key i = (ROOTDEV, b)) :
    (s.cache.buf i).valid = true := by
  obtain ⟨j, hj, hv⟩ := hI.cached b hb
  rwa [hI.rep.key_unique hk hj]

theorem Inv.refcnt_ne_zero_of_pinned (hI : Inv s) (hb : b ∈ s.pinned) (hk : s.key i = (ROOTDEV, b)) :
    (s.cache.buf i).refcnt ≠ 0 := by
  intro hz
  have hp := hI.pinned i b hb hk
  obtain ⟨_, _, h0⟩ := hI.rep.callers_eq_zero hz
  omega

theorem Inv.refcnt_ne_zero_of_held (hI : Inv s) (hl : (s.cache.buf i).lock = some p) :
    (s.cache.buf i).refcnt ≠ 0 := by
  intro hz
  obtain ⟨hnone, _⟩ := hI.rep.callers_eq_zero hz
  rw [hl] at hnone
  cases hnone

theorem Inv.logger_none (hI : Inv s) (hp : p ∈ s.ops) : s.logger = none := by
  cases hl : s.logger with
  | none => rfl
  | some l =>
      rw [(hI.alone l hl).1] at hp
      cases hp

/-! ## Quiet steps -/

/-- What a quiet step does to one buffer. -/
inductive Fate (s t : Sys) (i : Fin NBUF) : Prop
  | same (hk : t.key i = s.key i) (hv : (t.cache.buf i).valid = (s.cache.buf i).valid)
      (hd : (t.cache.buf i).data = (s.cache.buf i).data)
  | recycled (hz : (s.cache.buf i).refcnt = 0) (hv : (t.cache.buf i).valid = false)
  | filled (hk : t.key i = s.key i) (hv : (s.cache.buf i).valid = false)
      (hd : (t.cache.buf i).data = s.disk (s.cache.buf i).blockno)

structure Quiet (s t : Sys) : Prop where
  fate : ∀ i, Fate s t i
  lock : ∀ i q, (s.cache.buf i).lock = some q →
    (t.cache.buf i).lock = some q ∨ t.call q = some (.brelse i)
  disk : t.disk = s.disk ∨ ∃ i, (s.cache.buf i).dev = ROOTDEV ∧ (s.cache.buf i).valid = true ∧
    t.disk = Function.update s.disk (s.cache.buf i).blockno (s.cache.buf i).data
  log : t.log = s.log
  pinned : t.pinned = s.pinned

/-- A buffer in use keeps its block, and its data if it is valid. -/
theorem Quiet.in_use (hq : Quiet s t) (hr : (s.cache.buf i).refcnt ≠ 0) :
    t.key i = s.key i ∧ ((s.cache.buf i).valid = true →
      (t.cache.buf i).valid = true ∧ (t.cache.buf i).data = (s.cache.buf i).data) := by
  cases hq.fate i with
  | same hk hv hd => exact ⟨hk, fun h => ⟨hv.trans h, hd⟩⟩
  | recycled hz _ => exact absurd hz hr
  | filled hk hv _ =>
      refine ⟨hk, fun h => ?_⟩
      rw [hv] at h
      cases h

theorem Quiet.of_pinned (hq : Quiet s t) (hI : Inv s) (hb : b ∈ s.pinned) (hk : s.key i = (ROOTDEV, b)) :
    t.key i = (ROOTDEV, b) ∧ (t.cache.buf i).valid = true ∧
      (t.cache.buf i).data = (s.cache.buf i).data := by
  obtain ⟨hkey, hdata⟩ := hq.in_use (hI.refcnt_ne_zero_of_pinned hb hk)
  obtain ⟨hv, hd⟩ := hdata (hI.valid_of_pinned hb hk)
  exact ⟨hkey.trans hk, hv, hd⟩

/-- The buffer of a pinned block was its buffer before. -/
theorem Quiet.key_back (hq : Quiet s t) (hI : Inv s) (hrep : Rep t.cache t.call t.pins) (hb : b ∈ s.pinned)
    (hk : t.key i = (ROOTDEV, b)) : s.key i = (ROOTDEV, b) := by
  obtain ⟨j, hj, _⟩ := hI.cached b hb
  obtain ⟨hjt, _⟩ := hq.of_pinned hI hb hj
  rwa [hrep.key_unique hk hjt]

theorem Quiet.copied (hq : Quiet s t) (hI : Inv s) (hrep : Rep t.cache t.call t.pins) (hb : b ∈ s.pinned)
    (hc : Copied s lb b) : Copied t lb b := by
  intro i hi
  have hks := hq.key_back hI hrep hb hi
  obtain ⟨_, _, hdata⟩ := hq.of_pinned hI hb hks
  obtain ⟨hdisk, hcopy⟩ := hc i hks
  rw [hdata]
  constructor
  · rcases hq.disk with hsame | ⟨j, hdev, hv, hw⟩
    · rw [hsame, hdisk]
    · rw [hw]
      by_cases hj : (s.cache.buf j).blockno = lb
      · rw [hj, Function.update_self]
        exact hcopy j (Prod.ext hdev hj) hv
      · rw [Function.update_of_ne (Ne.symm hj), hdisk]
  · intro j hj hv
    cases hq.fate j with
    | same hk hvs hd =>
        rw [hd]
        exact hcopy j (hk.symm.trans hj) (hvs.symm.trans hv)
    | recycled _ hvf =>
        rw [hvf] at hv
        cases hv
    | filled hk _ hd =>
        have hblock : (s.cache.buf j).blockno = lb := congrArg Prod.snd (hk.symm.trans hj)
        rw [hd, hblock, hdisk]

/-- A quiet step in which the log's process stays in its call, or starts one. -/
theorem Sound.quiet (hS : Sound s l σ) (hI : Inv s) (hq : Quiet s t)
    (hrep : Rep t.cache t.call t.pins) (hpin : s.pinned = σ.pinned)
    (hkeep : ∀ r i, σ.regs r ≠ none → l.regs r = some i → s.call l.proc = some (.brelse i) →
      t.call l.proc = some (.brelse i))
    (hmoved : σ.moved ≠ none → t.call l.proc = none) : Sound t l σ where
  recovering := hS.recovering
  regs := by
    intro r b hr
    obtain ⟨i, hi, hcase⟩ := hS.regs r b hr
    refine ⟨i, hi, ?_⟩
    rcases hcase with ⟨hk, hlock⟩ | hcall
    · obtain ⟨hkey, _⟩ := hq.in_use (hI.refcnt_ne_zero_of_held hlock)
      rcases hq.lock i _ hlock with hlt | hct
      · exact Or.inl ⟨hkey.trans hk, hlt⟩
      · exact Or.inr hct
    · exact Or.inr (hkeep r i (by rw [hr]; exact Option.some_ne_none b) hi hcall)
  inj := hS.inj
  suffix := by
    rw [hq.log]
    exact hS.suffix
  copies := fun lb b hm hb => hq.copied hI hrep (hpin ▸ hb) (hS.copies lb b hm hb)
  moved := by
    intro lb b hm
    obtain ⟨hcall, hl, hnew, hb, hdata⟩ := hS.moved lb b hm
    refine ⟨hmoved (by rw [hm]; exact Option.some_ne_none _), hl, hnew, hb, ?_⟩
    intro i j hi hj
    have hbs : b ∈ s.pinned := hpin ▸ hb
    have hks := hq.key_back hI hrep hbs hi
    obtain ⟨_, _, hdi⟩ := hq.of_pinned hI hbs hks
    -- the log block's buffer is the one the log's process holds
    obtain ⟨i₀, _, hcase⟩ := hS.regs .lbuf lb hl
    rcases hcase with ⟨hk₀, hlock⟩ | hbad
    · obtain ⟨hkey, hval⟩ := hq.in_use (hI.refcnt_ne_zero_of_held hlock)
      obtain rfl : j = i₀ := hrep.key_unique hj (hkey.trans hk₀)
      obtain ⟨_, hdj⟩ := hval (hI.rep.valid _ _ hlock (fun _ _ hc => by rw [hcall] at hc; cases hc))
      rw [hdi, hdj]
      exact hdata i j hks hk₀
    · rw [hcall] at hbad
      cases hbad

theorem Quiet.inv (hq : Quiet s t) (hI : Inv s) (hrep : Rep t.cache t.call t.pins) (hpins : t.pins = s.pins)
    (hops : t.ops = s.ops)
    (hrec : ∀ l', t.logger = some l' → ∃ l, s.logger = some l ∧ l.recovering = l'.recovering)
    (hlogger : ∀ l', t.logger = some l' →
      ∃ σ, Runs s.log.fsBlock s.log.start s.log.lh σ l'.code ∧ CallOk l' σ (t.call l'.proc) ∧
        Sound t l' σ) : Inv t where
  rep := hrep
  count := by
    rw [hq.log, hops]
    exact hI.count
  alone := by
    intro l' hl'
    obtain ⟨l, hl, hr⟩ := hrec l' hl'
    rw [hops, hq.log, ← hr]
    exact hI.alone l hl
  nodup := hq.pinned ▸ hI.nodup
  fs := by
    rw [hq.pinned, hq.log]
    exact hI.fs
  room := by
    rw [hq.pinned, hq.log]
    exact hI.room
  pinned := by
    intro i b hb hk
    rw [hq.pinned] at hb
    rw [hpins]
    exact hI.pinned i b hb (hq.key_back hI hrep hb hk)
  unpinned := by
    intro i hno
    rw [hpins]
    refine hI.unpinned i fun b hb hk => ?_
    exact hno b (hq.pinned.symm ▸ hb) (hq.of_pinned hI hb hk).1
  cached := by
    intro b hb
    rw [hq.pinned] at hb
    obtain ⟨i, hi, _⟩ := hI.cached b hb
    obtain ⟨hk, hv, _⟩ := hq.of_pinned hI hb hi
    exact ⟨i, hk, hv⟩
  logger := by
    rw [hq.log]
    exact hlogger

/-- A process other than the log's moves, or the log's process enters the call that is its next statement. -/
theorem Quiet.inv_call (hq : Quiet s t) (hI : Inv s) (hrep : Rep t.cache t.call t.pins)
    (hpins : t.pins = s.pins) (hops : t.ops = s.ops) (hlogger : t.logger = s.logger)
    (hother : ∀ q, q ≠ p → t.call q = s.call q)
    (hown : ∀ l σ, s.logger = some l → l.proc = p → Runs s.log.fsBlock s.log.start s.log.lh σ l.code →
      CallOk l σ (s.call p) → Sound s l σ →
      CallOk l σ (t.call p) ∧ (∀ i, s.call p ≠ some (.brelse i)) ∧ σ.moved = none) : Inv t := by
  refine hq.inv hI hrep hpins hops ?_ ?_
  · intro l' hl'
    exact ⟨l', hlogger ▸ hl', rfl⟩
  · intro l hl
    rw [hlogger] at hl
    obtain ⟨σ, hR, hC, hS⟩ := hI.logger l hl
    refine ⟨σ, hR, ?_⟩
    by_cases hlp : l.proc = p
    · subst hlp
      obtain ⟨hcall, hno, hm⟩ := hown l σ hl rfl hR hC hS
      exact ⟨hcall, hS.quiet hI hq hrep (pinned_eq hl hR hS) (fun _ i _ _ h => absurd h (hno i))
        (fun h => absurd hm h)⟩
    · have hc := hother l.proc hlp
      refine ⟨hc ▸ hC, hS.quiet hI hq hrep (pinned_eq hl hR hS) (fun _ i _ _ h => hc.trans h) ?_⟩
      intro hm
      obtain ⟨⟨lb, b⟩, hm⟩ := Option.ne_none_iff_exists'.mp hm
      exact hc.trans (hS.moved lb b hm).1

/-! ## Calls -/

theorem quiet_bread {dev : Nat} {c : Cache} (hI : Inv s) (hb : bget s.cache dev b = some (c, i)) :
    Quiet s { s with cache := c, call := Function.update s.call p (some (.acquiresleep i dev b)) } := by
  rcases bget_cases hI.rep.ordered hb with ⟨_, rfl⟩ | ⟨_, hz, rfl⟩
  · refine ⟨?_, ?_, Or.inl rfl, rfl, rfl⟩
    · exact fun j => .same (setRef_key j) (setRef_valid j) (setRef_data j)
    · exact fun j q hl => Or.inl ((setRef_lock j).trans hl)
  · refine ⟨?_, ?_, Or.inl rfl, rfl, rfl⟩
    · intro j
      by_cases hj : j = i
      · subst hj
        exact .recycled hz (congrArg Buf.valid recycle_self)
      · have hbuf : (recycle s.cache i dev b).buf j = s.cache.buf j := recycle_of_ne hj
        exact .same (congrArg Buf.key hbuf) (congrArg Buf.valid hbuf) (congrArg Buf.data hbuf)
    · exact fun j q hl => Or.inl ((recycle_lock j).trans hl)

theorem rep_bread {dev : Nat} {c : Cache} (hI : Inv s) (hp : s.call p = none)
    (hb : bget s.cache dev b = some (c, i)) :
    Rep c (Function.update s.call p (some (.acquiresleep i dev b))) s.pins := by
  rcases bget_cases hI.rep.ordered hb with ⟨hk, rfl⟩ | ⟨hno, hz, rfl⟩
  · exact rep_hit hI.rep hp hk
  · exact rep_miss hI.rep hp hno hz

theorem not_logger_of_idle (hp : s.idle p = true) (hl : s.logger = some l) : l.proc ≠ p :=
  ((idle_iff.mp hp).2 l hl).2

theorem inv_bread {dev : Nat} {c : Cache} (hI : Inv s)
    (hby : Starts s a p (.bget p dev b) fun x => dev = ROOTDEV ∧ ∃ r, x = .bread r b)
    (hb : bget s.cache dev b = some (c, i)) :
    Inv { s with cache := c, call := Function.update s.call p (some (.acquiresleep i dev b)) } := by
  have hcall := hby.call_none
  refine (quiet_bread (p := p) hI hb).inv_call (p := p) hI (rep_bread hI hcall hb) rfl rfl rfl
    (fun q hq => Function.update_of_ne hq _ _) ?_
  intro l σ hl hlp hR hC hS
  rcases hby with ⟨_, hidle⟩ | ⟨_, l', y, k, hl', _, _, hcode, hdev, r, rfl⟩
  · exact absurd hlp (not_logger_of_idle hidle hl)
  · obtain rfl : l = l' := Option.some.inj (hl.symm.trans hl')
    refine ⟨?_, by simp [hcall], ?_⟩
    · show CallOk l σ (Function.update s.call p (some (.acquiresleep i dev b)) p)
      rw [Function.update_self]
      exact ⟨hdev, r, k, hcode⟩
    · rw [hcode] at hR
      cases hR with
      | bread hnone _ => exact hnone

theorem quiet_setLock {v : Option (Fin NPROC)} {w : Option Call}
    (hl : ∀ q, (s.cache.buf i).lock = some q → v = some q ∨ Function.update s.call p w q = some (.brelse i)) :
    Quiet s { s with cache := setLock s.cache i v, call := Function.update s.call p w } := by
  refine ⟨fun j => .same (setLock_key j) (setLock_valid j) (setLock_data j), ?_, Or.inl rfl, rfl, rfl⟩
  intro j q hj
  show ((setLock s.cache i v).buf j).lock = some q ∨ _
  rw [setLock_lock]
  split
  · rename_i he
    rw [he] at hj ⊢
    exact hl q hj
  · exact Or.inl hj

theorem inv_acquiresleep {dev : Nat} (hI : Inv s) (hp : s.call p = some (.acquiresleep i dev b))
    (hlock : (s.cache.buf i).lock = none) :
    Inv { s with
      cache := setLock s.cache i (some p)
      call := Function.update s.call p (some (.fill i dev b)) } := by
  have hq := quiet_setLock (s := s) (i := i) (p := p) (v := some p) (w := some (.fill i dev b))
    (fun q h => by rw [hlock] at h; cases h)
  refine hq.inv_call (p := p) hI (rep_lock hI.rep hp hlock) rfl rfl rfl
    (fun q hq => Function.update_of_ne hq _ _) ?_
  intro l σ hl hlp hR hC hS
  subst hlp
  rw [hp] at hC
  obtain ⟨hdev, r, k, hcode⟩ := hC
  refine ⟨?_, by simp [hp], ?_⟩
  · show CallOk l σ (Function.update s.call l.proc (some (.fill i dev b)) l.proc)
    rw [Function.update_self]
    refine ⟨hdev, ⟨r, k, hcode⟩, ?_⟩
    -- the buffers in the variables are locked, this one was not
    intro r' hr' hi
    obtain ⟨b', hb'⟩ := Option.ne_none_iff_exists'.mp hr'
    obtain ⟨i', hi', hcase⟩ := hS.regs r' b' hb'
    obtain rfl : i = i' := Option.some.inj (hi.symm.trans hi')
    rcases hcase with ⟨_, hheld⟩ | hbad
    · rw [hlock] at hheld
      cases hheld
    · rw [hp] at hbad
      cases hbad
  · rw [hcode] at hR
    cases hR with
    | bread hnone _ => exact hnone

theorem inv_brelse (hI : Inv s)
    (hby : Starts s a p (.brelse p i) fun x => ∃ r l, x = .brelse r ∧ s.logger = some l ∧ l.regs r = some i)
    (hlock : (s.cache.buf i).lock = some p) :
    Inv { s with cache := setLock s.cache i none, call := Function.update s.call p (some (.brelse i)) } := by
  have hcall := hby.call_none
  have hq := quiet_setLock (s := s) (i := i) (p := p) (v := none) (w := some (.brelse i)) (by
    intro q h
    obtain rfl : p = q := Option.some.inj (hlock.symm.trans h)
    exact Or.inr (Function.update_self ..))
  refine hq.inv_call (p := p) hI (rep_unlock hI.rep hcall hlock) rfl rfl rfl
    (fun q hq => Function.update_of_ne hq _ _) ?_
  intro l σ hl hlp hR hC hS
  rcases hby with ⟨_, hidle⟩ | ⟨_, l', y, k, hl', _, _, hcode, r, l'', rfl, hl'', hr⟩
  · exact absurd hlp (not_logger_of_idle hidle hl)
  · obtain rfl : l = l' := Option.some.inj (hl.symm.trans hl')
    obtain rfl : l = l'' := Option.some.inj (hl.symm.trans hl'')
    refine ⟨?_, by simp [hcall], ?_⟩
    · show CallOk l σ (Function.update s.call p (some (.brelse i)) p)
      rw [Function.update_self]
      exact ⟨r, k, hcode, hr⟩
    · rw [hcode] at hR
      cases hR with
      | brelse hnone _ _ => exact hnone

theorem inv_bwrite (hI : Inv s) (hp : s.idle p = true) (hdev : (s.cache.buf i).dev = ROOTDEV)
    (hlock : (s.cache.buf i).lock = some p) :
    Inv { s with disk := Function.update s.disk (s.cache.buf i).blockno (s.cache.buf i).data } := by
  have hcall := (idle_iff.mp hp).1
  have hvalid := hI.rep.valid p i hlock (fun _ _ h => by rw [hcall] at h; cases h)
  have hq : Quiet s { s with
      disk := Function.update s.disk (s.cache.buf i).blockno (s.cache.buf i).data } :=
    ⟨fun j => .same rfl rfl rfl, fun j q h => Or.inl h, Or.inr ⟨i, hdev, hvalid, rfl⟩, rfl, rfl⟩
  refine hq.inv_call (p := p) hI hI.rep rfl rfl rfl (fun q _ => rfl) ?_
  intro l σ hl hlp
  exact absurd hlp (not_logger_of_idle hp hl)

/-! ## Returning from a call -/

theorem ret_pinned (s : Sys) (p : Fin NPROC) (i : Fin NBUF) : (s.ret p i).pinned = s.pinned := by
  unfold Sys.pinned Sys.ret
  cases s.logger with
  | none => rfl
  | some l =>
      simp only [Option.map_some]
      split
      · have hcount : bunpins (l.ret i).code = bunpins l.code := by
          unfold Logger.ret
          split
          · rename_i r b k hcode
            rw [hcode]
            exact (List.countP_cons_of_neg Bool.false_ne_true).symm
          · rename_i r k hcode
            rw [hcode]
            exact (List.countP_cons_of_neg Bool.false_ne_true).symm
          · rfl
        rw [hcount]
      · rfl

theorem ret_logger {l' : Logger} (h : (s.ret p i).logger = some l') :
    ∃ l, s.logger = some l ∧ l' = if l.proc = p then l.ret i else l := by
  obtain ⟨l, hl, rfl⟩ := Option.map_eq_some_iff.mp h
  exact ⟨l, hl, rfl⟩

theorem ret_recovering (l : Logger) (i : Fin NBUF) :
    (l.ret i).recovering = l.recovering ∧ (l.ret i).proc = l.proc := by
  unfold Logger.ret
  split <;> exact ⟨rfl, rfl⟩

/-- A quiet step with which a call returns to process `p`. -/
theorem Quiet.inv_ret {c : Cache} (hq : Quiet s (({ s with cache := c } : Sys).ret p i)) (hI : Inv s)
    (hrep : Rep c (Function.update s.call p none) s.pins)
    (hown : ∀ l σ, s.logger = some l → l.proc = p → Runs s.log.fsBlock s.log.start s.log.lh σ l.code →
      CallOk l σ (s.call p) → Sound s l σ →
      ∃ σ', Runs s.log.fsBlock s.log.start s.log.lh σ' (l.ret i).code ∧
        Sound (({ s with cache := c } : Sys).ret p i) (l.ret i) σ') :
    Inv (({ s with cache := c } : Sys).ret p i) := by
  refine hq.inv hI hrep rfl rfl ?_ ?_
  · intro l' hl'
    obtain ⟨l, hl, rfl⟩ := ret_logger hl'
    refine ⟨l, hl, ?_⟩
    split
    · exact (ret_recovering l i).1.symm
    · rfl
  · intro l' hl'
    obtain ⟨l, hl, rfl⟩ := ret_logger hl'
    have hl : s.logger = some l := hl
    obtain ⟨σ, hR, hC, hS⟩ := hI.logger l hl
    split
    · rename_i hlp
      obtain ⟨σ', hR', hS'⟩ := hown l σ hl hlp hR (hlp ▸ hC) hS
      refine ⟨σ', hR', ?_, hS'⟩
      show CallOk _ _ (Function.update s.call p none (l.ret i).proc)
      rw [(ret_recovering l i).2, hlp, Function.update_self]
      trivial
    · rename_i hlp
      have hc : (({ s with cache := c } : Sys).ret p i).call l.proc = s.call l.proc :=
        Function.update_of_ne hlp _ _
      refine ⟨σ, hR, hc ▸ hC, hS.quiet hI hq hrep (pinned_eq hl hR hS) (fun _ i _ _ h => hc.trans h) ?_⟩
      intro hm
      obtain ⟨⟨lb, b⟩, hm⟩ := Option.ne_none_iff_exists'.mp hm
      exact hc.trans (hS.moved lb b hm).1

/-- `bread` puts a buffer into a variable. -/
theorem Sound.load {r : Reg} (hS : Sound s l σ) (hm : σ.moved = none) (hk : s.key i = (ROOTDEV, b))
    (hlock : (s.cache.buf i).lock = some l.proc) (hnew : ∀ r, σ.regs r ≠ none → l.regs r ≠ some i) :
    Sound s { l with code := k, regs := Function.update l.regs r (some i) }
      { σ with regs := Function.update σ.regs r (some b) } where
  recovering := hS.recovering
  regs := by
    intro r' b' hr'
    by_cases hrr : r' = r
    · subst hrr
      have hb : b = b' := by simpa using hr'
      subst hb
      exact ⟨i, Function.update_self .., Or.inl ⟨hk, hlock⟩⟩
    · obtain ⟨j, hj, hcase⟩ := hS.regs r' b' ((Function.update_of_ne hrr _ _).symm.trans hr')
      exact ⟨j, (Function.update_of_ne hrr _ _).trans hj, hcase⟩
  inj := by
    intro r₁ r₂ j h₁ h₂ hj₁ hj₂
    simp only [Function.update_apply] at h₁ h₂ hj₁ hj₂
    split at hj₁ <;> split at hj₂
    · rename_i e₁ e₂
      rw [e₁, e₂]
    · rename_i e₁ e₂
      cases hj₁
      rw [if_neg e₂] at h₂
      exact absurd hj₂ (hnew r₂ h₂)
    · rename_i e₁ e₂
      cases hj₂
      rw [if_neg e₁] at h₁
      exact absurd hj₁ (hnew r₁ h₁)
    · rename_i e₁ e₂
      rw [if_neg e₁] at h₁
      rw [if_neg e₂] at h₂
      exact hS.inj r₁ r₂ j h₁ h₂ hj₁ hj₂
  suffix := hS.suffix
  copies := hS.copies
  moved := by
    intro lb b hc
    rw [hm] at hc
    cases hc

/-- `brelse` is done with a variable. -/
theorem Sound.drop {r : Reg} (hS : Sound s l σ) (hm : σ.moved = none) :
    Sound s { l with code := k, regs := Function.update l.regs r none }
      { σ with regs := Function.update σ.regs r none } where
  recovering := hS.recovering
  regs := by
    intro r' b' hr'
    by_cases hrr : r' = r
    · subst hrr
      simp at hr'
    · obtain ⟨j, hj, hcase⟩ := hS.regs r' b' ((Function.update_of_ne hrr _ _).symm.trans hr')
      exact ⟨j, (Function.update_of_ne hrr _ _).trans hj, hcase⟩
  inj := by
    intro r₁ r₂ j h₁ h₂ hj₁ hj₂
    simp only [Function.update_apply] at h₁ h₂ hj₁ hj₂
    split at hj₁
    · cases hj₁
    · split at hj₂
      · cases hj₂
      · rename_i e₁ e₂
        rw [if_neg e₁] at h₁
        rw [if_neg e₂] at h₂
        exact hS.inj r₁ r₂ j h₁ h₂ hj₁ hj₂
  suffix := hS.suffix
  copies := hS.copies
  moved := by
    intro lb b hc
    rw [hm] at hc
    cases hc

theorem quiet_fill (s : Sys) (p : Fin NPROC) (i : Fin NBUF) :
    Quiet s (({ s with cache := fill s.disk s.cache i } : Sys).ret p i) := by
  refine ⟨?_, ?_, Or.inl rfl, rfl, ret_pinned _ p i⟩
  · intro j
    show Fate s { s with cache := fill s.disk s.cache i, call := _, logger := _ } j
    by_cases hv : (s.cache.buf i).valid = true
    · have hsame : fill s.disk s.cache i = s.cache := if_pos hv
      rw [hsame]
      exact .same rfl rfl rfl
    · have hset : fill s.disk s.cache i = s.cache.set i
          { s.cache.buf i with data := s.disk (s.cache.buf i).blockno, valid := true } := if_neg hv
      rw [hset]
      by_cases hj : j = i
      · subst hj
        refine .filled ?_ (Bool.eq_false_iff.mpr hv) ?_
        · exact set_buf_field Buf.key j (by rfl)
        · exact congrArg Buf.data set_buf_self
      · have hbuf : (s.cache.set i { s.cache.buf i with
            data := s.disk (s.cache.buf i).blockno, valid := true }).buf j = s.cache.buf j := set_buf_of_ne hj
        exact .same (congrArg Buf.key hbuf) (congrArg Buf.valid hbuf) (congrArg Buf.data hbuf)
  · intro j q hl
    exact Or.inl ((fill_field Buf.lock (fun _ _ => rfl) j).trans hl)

theorem inv_fill {dev : Nat} (hI : Inv s) (hp : s.call p = some (.fill i dev b)) :
    Inv (({ s with cache := fill s.disk s.cache i } : Sys).ret p i) := by
  have hq := quiet_fill s p i
  have hrep : Rep (fill s.disk s.cache i) (Function.update s.call p none) s.pins := rep_fill hI.rep hp
  refine hq.inv_ret hI hrep ?_
  intro l σ hl hlp hR hC hS
  subst hlp
  rw [hp] at hC
  obtain ⟨rfl, ⟨r, k, hcode⟩, hnew⟩ := hC
  obtain ⟨hk, hlock⟩ := hI.rep.fills l.proc i _ b hp
  have hret : l.ret i = { l with code := k, regs := Function.update l.regs r (some i) } := by
    unfold Logger.ret
    rw [hcode]
  have hpin := pinned_eq hl hR hS
  rw [hret]
  rw [hcode] at hR
  cases hR with
  | bread hm h =>
      refine ⟨_, h, Sound.load (hS.quiet hI hq hrep hpin ?_ (fun h => absurd hm h)) hm ?_ ?_ hnew⟩
      · intro r' i' _ _ hbad
        rw [hp] at hbad
        cases hbad
      · exact (fill_field Buf.key (fun _ _ => rfl) i).trans hk
      · exact (fill_field Buf.lock (fun _ _ => rfl) i).trans hlock

theorem quiet_unref (s : Sys) (p : Fin NPROC) (i : Fin NBUF) :
    Quiet s (({ s with cache := unref s.cache i } : Sys).ret p i) := by
  have hbuf : (unref s.cache i).buf = _ := unref_buf
  refine ⟨?_, ?_, Or.inl rfl, rfl, ret_pinned _ p i⟩
  · intro j
    refine .same ?_ ?_ ?_
    · exact (congrArg (fun f => Buf.key (f j)) hbuf).trans (setRef_key j)
    · exact (congrArg (fun f => Buf.valid (f j)) hbuf).trans (setRef_valid j)
    · exact (congrArg (fun f => Buf.data (f j)) hbuf).trans (setRef_data j)
  · intro j q hl
    exact Or.inl (((congrArg (fun f => Buf.lock (f j)) hbuf).trans (setRef_lock j)).trans hl)

theorem inv_unref (hI : Inv s) (hp : s.call p = some (.brelse i)) :
    Inv (({ s with cache := unref s.cache i } : Sys).ret p i) := by
  have hq := quiet_unref s p i
  have hrep : Rep (unref s.cache i) (Function.update s.call p none) s.pins := rep_unref hI.rep hp
  refine hq.inv_ret hI hrep ?_
  intro l σ hl hlp hR hC hS
  subst hlp
  rw [hp] at hC
  obtain ⟨r, k, hcode, hr⟩ := hC
  have hret : l.ret i = { l with code := k, regs := Function.update l.regs r none } := by
    unfold Logger.ret
    rw [hcode]
  have hpin := pinned_eq hl hR hS
  rw [hret]
  rw [hcode] at hR
  cases hR with
  | brelse hm hb h =>
      refine ⟨_, h, Sound.quiet (Sound.drop hS hm) hI hq hrep hpin ?_ (fun h => absurd hm h)⟩
      -- no other variable has the buffer that is released
      intro r' i' hr' hi' hcall
      rw [hp] at hcall
      cases hcall
      have hne : r' ≠ r := by
        rintro rfl
        simp at hr'
      have hr'' : σ.regs r' ≠ none := by rwa [← Function.update_of_ne hne none σ.regs]
      have hi'' : l.regs r' = some i := by rwa [← Function.update_of_ne hne none l.regs]
      exact absurd (hS.inj r' r i hr'' (by rw [hb]; exact Option.some_ne_none _) hi'' hr) hne

end Xv6.Bcache
