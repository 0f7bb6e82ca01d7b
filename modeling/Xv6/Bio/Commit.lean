import Xv6.Bio.Inv

/-!
# `Bio.Commit` — the statements of the log keep the invariant

The steps that are not quiet: `begin_op`, `end_op`, `log_write`, a change of a buffer by its holder, and the
statements of `commit()` and `recover_from_log` that change a buffer, the disk, a pin or the header.
**`inv_step`** collects all steps.
-/

namespace Xv6.Bcache

open Logging (Block Log NBUF)

variable {s t : Sys} {a : Act} {p : Fin NPROC} {i j : Fin NBUF} {l : Logger} {σ σ' : Sym} {b lb : Nat}
  {k : List Instr} {d : Block}

/-! ## Operations -/

/-- A step that touches neither the cache nor the log's process nor `lh`. -/
theorem Inv.relog {l' : Log} {ops : List (Fin NPROC)} (hI : Inv s) (hlh : l'.lh = s.log.lh)
    (hstart : l'.start = s.log.start) (hsize : l'.size = s.log.size) (hcount : l'.outstanding = ops.length)
    (halone : ∀ l, s.logger = some l → ops = [] ∧ (l.recovering = false → l'.committing = true)) :
    Inv { s with log := l', ops := ops } := by
  have hfs : ∀ b, l'.fsBlock b ↔ s.log.fsBlock b := by
    intro b
    unfold Log.fsBlock
    rw [hstart, hsize]
  have hpin : ({ s with log := l', ops := ops } : Sys).pinned = s.pinned := by
    unfold Sys.pinned
    rw [hlh]
  refine ⟨hI.rep, hcount, halone, hpin ▸ hI.nodup, ?_, ?_, ?_, ?_, ?_, ?_⟩
  · intro b hb
    exact (hfs b).mpr (hI.fs b (hpin ▸ hb))
  · rw [hpin]
    exact fun h => hsize ▸ hI.room h
  · intro i b hb
    exact hI.pinned i b (hpin ▸ hb)
  · intro i hno
    exact hI.unpinned i fun b hb => hno b (hpin.symm ▸ hb)
  · intro b hb
    exact hI.cached b (hpin ▸ hb)
  · intro l hl
    obtain ⟨σ, hR, hC, hS⟩ := hI.logger l hl
    refine ⟨σ, ?_, hC, ?_⟩
    · show Runs l'.fsBlock l'.start l'.lh σ l.code
      rw [funext fun b => propext (hfs b), hstart, hlh]
      exact hR
    · exact ⟨hS.recovering, hS.regs, hS.inj, hlh.symm ▸ hS.suffix, hS.copies, hS.moved⟩

theorem inv_beginOp {l' : Log} (hI : Inv s) (hp : s.idle p = true) (hl : Logging.beginOp s.log = some l') :
    Inv { s with log := l', ops := p :: s.ops } := by
  obtain ⟨hc, _, rfl⟩ := Logging.beginOp_eq_some hl
  refine hI.relog rfl rfl rfl ?_ ?_
  · rw [List.length_cons, ← hI.count]
  · intro l hl'
    -- the log's process is in `commit()`, for the boot is over
    have hcom := (hI.alone l hl').2 ((idle_iff.mp hp).2 l hl').1
    rw [hc] at hcom
    cases hcom

theorem inv_endOp {l' : Log} (hI : Inv s) (hm : p ∈ s.ops) (hl : Logging.endOp s.log = .ok (l', false)) :
    Inv { s with log := l', ops := s.ops.erase p } := by
  obtain ⟨_, hcase⟩ := Logging.endOp_eq_ok hl
  rcases hcase with ⟨hbad, _⟩ | ⟨_, _, rfl⟩
  · cases hbad
  · refine hI.relog rfl rfl rfl ?_ ?_
    · rw [List.length_erase_of_mem hm, ← hI.count]
    · intro l hl'
      rw [hI.logger_none hm] at hl'
      cases hl'

theorem inv_lastOp {l' : Log} (hI : Inv s) (hp : s.idle p = true) (hm : p ∈ s.ops)
    (hl : Logging.endOp s.log = .ok (l', true)) :
    Inv { s with
      log := l'
      ops := s.ops.erase p
      logger := some
        { proc := p, recovering := false, code := commit l'.start l'.lh, regs := fun _ => none } } := by
  obtain ⟨_, hcase⟩ := Logging.endOp_eq_ok hl
  rcases hcase with ⟨_, hout, rfl⟩ | ⟨hbad, _⟩
  · have hnone := hI.logger_none hm
    have hlh : s.pinned = s.log.lh := pinned_of_none hnone
    have hlen : s.ops.length = 1 := by
      have := List.length_pos_of_mem hm
      have := hI.count
      omega
    have hops : s.ops.erase p = [] := by
      apply List.eq_nil_of_length_eq_zero
      rw [List.length_erase_of_mem hm, hlen]
    have hroom := hI.room
    have hfs := hI.fs
    rw [hlh] at hroom hfs
    have hR : Runs s.log.fsBlock s.log.start s.log.lh (.free false s.log.lh []) (commit s.log.start s.log.lh) := by
      apply commit_runs hfs
      · intro hne hbad
        have := hroom hne
        exact hbad.2 ⟨Nat.le_refl _, by omega⟩
      · intro j hj hbad
        have := hroom (List.ne_nil_of_length_pos (by omega))
        exact hbad.2 ⟨by omega, by omega⟩
    have hpin : ({ s with
        log := { s.log with outstanding := 0, committing := true }
        ops := s.ops.erase p
        logger := some { proc := p, recovering := false, code := commit s.log.start s.log.lh,
                         regs := fun _ => none } } : Sys).pinned = s.pinned := by
      rw [hlh, pinned_of_some rfl]
      show s.log.lh.drop (s.log.lh.length - bunpins (commit s.log.start s.log.lh)) = s.log.lh
      rw [hR.bunpins_eq]
      show s.log.lh.drop (s.log.lh.length - s.log.lh.length) = s.log.lh
      rw [Nat.sub_self, List.drop_zero]
    refine ⟨hI.rep, ?_, ?_, hpin ▸ hI.nodup, ?_, ?_, ?_, ?_, ?_, ?_⟩
    · show 0 = (s.ops.erase p).length
      rw [hops, List.length_nil]
    · intro l hl'
      cases hl'
      exact ⟨hops, fun _ => rfl⟩
    · intro b hb
      exact hI.fs b (hpin ▸ hb)
    · rw [hpin]
      exact hI.room
    · intro i b hb
      exact hI.pinned i b (hpin ▸ hb)
    · intro i hno
      exact hI.unpinned i fun b hb => hno b (hpin.symm ▸ hb)
    · intro b hb
      exact hI.cached b (hpin ▸ hb)
    · intro l hl'
      cases hl'
      refine ⟨.free false s.log.lh [], hR, ?_, ?_⟩
      · show CallOk _ _ (s.call p)
        rw [(idle_iff.mp hp).1]
        trivial
      · refine ⟨rfl, ?_, ?_, List.suffix_refl _, ?_, ?_⟩
        · intro r b hr
          cases hr
        · intro r _ _ hr
          exact absurd rfl hr
        · intro lb b hmem
          cases hmem
        · intro lb b hmv
          cases hmv
  · cases hbad

/-! ## Buffers of operations -/

/-- A step without the log's process that keeps every block and lock. -/
theorem Inv.unlogged (hI : Inv s) (hs : s.logger = none) (ht : t.logger = none)
    (hrep : Rep t.cache t.call t.pins) (hkey : ∀ i, t.key i = s.key i)
    (hvalid : ∀ i, (t.cache.buf i).valid = (s.cache.buf i).valid) (hlog : t.log = s.log) (hops : t.ops = s.ops)
    (hpins : t.pins = s.pins) : Inv t := by
  have hpin : t.pinned = s.pinned := by rw [pinned_of_none ht, pinned_of_none hs, hlog]
  refine ⟨hrep, ?_, ?_, hpin ▸ hI.nodup, ?_, ?_, ?_, ?_, ?_, ?_⟩
  · rw [hlog, hops]
    exact hI.count
  · intro l hl
    rw [ht] at hl
    cases hl
  · rw [hpin, hlog]
    exact hI.fs
  · rw [hpin, hlog]
    exact hI.room
  · intro i b hb hk
    rw [hpins]
    exact hI.pinned i b (hpin ▸ hb) ((hkey i).symm.trans hk)
  · intro i hno
    rw [hpins]
    exact hI.unpinned i fun b hb hk => hno b (hpin.symm ▸ hb) ((hkey i).trans hk)
  · intro b hb
    obtain ⟨i, hk, hv⟩ := hI.cached b (hpin ▸ hb)
    exact ⟨i, (hkey i).trans hk, (hvalid i).trans hv⟩
  · intro l hl
    rw [ht] at hl
    cases hl

theorem inv_store (hI : Inv s) (hm : p ∈ s.ops) : Inv { s with cache := setData s.cache i d } :=
  have hnone := hI.logger_none hm
  hI.unlogged hnone hnone (rep_data hI.rep) setData_key setData_valid rfl rfl rfl

/-- `log_write` of a block that is not in the log. -/
theorem inv_logged {l' : Log} (hI : Inv s) (hp : s.idle p = true) (hm : p ∈ s.ops)
    (hlock : (s.cache.buf i).lock = some p) (hdev : (s.cache.buf i).dev = ROOTDEV)
    (hfs : s.log.fsBlock (s.cache.buf i).blockno)
    (hl : Logging.logWrite s.log (s.cache.buf i).blockno = .ok (l', true)) :
    Inv { s with log := l', cache := bpin s.cache i, pins := Function.update s.pins i (s.pins i + 1) } := by
  obtain ⟨_, hsize, _, hcase⟩ := Logging.logWrite_eq_ok hl
  rcases hcase with ⟨hbad, _⟩ | ⟨_, hnew, rfl⟩
  · cases hbad
  have hnone := hI.logger_none hm
  have hlh : s.pinned = s.log.lh := pinned_of_none hnone
  have hkey : s.key i = (ROOTDEV, (s.cache.buf i).blockno) := Prod.ext hdev rfl
  have hvalid := hI.rep.valid p i hlock (fun _ _ h => by rw [(idle_iff.mp hp).1] at h; cases h)
  have hzero : s.pins i = 0 := by
    refine hI.unpinned i fun b hb hk => ?_
    rw [hkey] at hk
    cases hk
    exact hnew (hlh ▸ hb)
  have hpin : ({ s with
      log := { s.log with lh := s.log.lh ++ [(s.cache.buf i).blockno] }
      cache := bpin s.cache i
      pins := Function.update s.pins i (s.pins i + 1) } : Sys).pinned =
        s.pinned ++ [(s.cache.buf i).blockno] := by
    rw [hlh]
    exact pinned_of_none hnone
  have hk : ∀ j, ((bpin s.cache i).buf j).key = s.key j := setRef_key
  have hnotin : (s.cache.buf i).blockno ∉ s.pinned := hlh ▸ hnew
  refine ⟨rep_pin hI.rep hzero, hI.count, ?_, ?_, ?_, ?_, ?_, ?_, ?_, ?_⟩
  · intro l hl'
    rw [hnone] at hl'
    cases hl'
  · rw [hpin]
    exact List.nodup_append.mpr ⟨hI.nodup, List.nodup_singleton _, by
      intro x hx y hy hxy
      rw [List.mem_singleton] at hy
      exact hnotin (hy ▸ hxy ▸ hx)⟩
  · rw [hpin]
    intro b hb
    rcases List.mem_append.mp hb with hb | hb
    · exact hI.fs b hb
    · rw [List.mem_singleton.mp hb]
      exact hfs
  · intro _
    rw [hpin, List.length_append, hlh]
    show s.log.lh.length + 1 < s.log.size
    omega
  · rw [hpin]
    intro j b hb hj
    have hj : s.key j = (ROOTDEV, b) := (hk j).symm.trans hj
    show Function.update s.pins i (s.pins i + 1) j = 1
    by_cases hji : j = i
    · subst hji
      rw [Function.update_self, hzero]
    · rw [Function.update_of_ne hji]
      rcases List.mem_append.mp hb with hb | hb
      · exact hI.pinned j b hb hj
      · rw [List.mem_singleton.mp hb] at hj
        exact absurd (hI.rep.key_unique hj hkey) hji
  · rw [hpin]
    intro j hno
    show Function.update s.pins i (s.pins i + 1) j = 0
    have hji : j ≠ i := by
      rintro rfl
      exact hno _ (List.mem_append_right _ (List.mem_singleton_self _)) ((hk j).trans hkey)
    rw [Function.update_of_ne hji]
    exact hI.unpinned j fun b hb hj => hno b (List.mem_append_left _ hb) ((hk j).trans hj)
  · rw [hpin]
    intro b hb
    rcases List.mem_append.mp hb with hb | hb
    · obtain ⟨j, hj, hv⟩ := hI.cached b hb
      exact ⟨j, (hk j).trans hj, (setRef_valid j).trans hv⟩
    · rw [List.mem_singleton.mp hb]
      exact ⟨i, (hk i).trans hkey, (setRef_valid i).trans hvalid⟩
  · intro l hl'
    rw [hnone] at hl'
    cases hl'

/-! ## Statements of the log that change a buffer or the disk -/

theorem goto_pinned {x : Instr} (hl : s.logger = some l) (hcode : l.code = x :: k)
    (hx : x.isBunpin = false) (hlogger : t.logger = some { l with code := k }) (hlh : t.log.lh = s.log.lh) :
    t.pinned = s.pinned := by
  rw [pinned_of_some hl, pinned_of_some hlogger, hcode, hlh]
  congr 2
  unfold bunpins
  rw [List.countP_cons_of_neg (by rw [hx]; exact Bool.false_ne_true)]

/-- A statement that keeps blocks, locks, pins and the header. -/
theorem Inv.statement {x : Instr} (hI : Inv s) (hl : s.logger = some l) (hp : s.call l.proc = none)
    (hcode : l.code = x :: k) (hx : x.isBunpin = false) (hlogger : t.logger = some { l with code := k })
    (hrep : Rep t.cache t.call t.pins) (hkey : ∀ i, t.key i = s.key i)
    (hvalid : ∀ i, (t.cache.buf i).valid = (s.cache.buf i).valid) (hcall : t.call = s.call)
    (hlog : t.log = s.log) (hops : t.ops = s.ops) (hpins : t.pins = s.pins)
    (hR : Runs s.log.fsBlock s.log.start s.log.lh σ' k) (hS : Sound t { l with code := k } σ') : Inv t := by
  have hpin : t.pinned = s.pinned := goto_pinned hl hcode hx hlogger (by rw [hlog])
  refine ⟨hrep, ?_, ?_, hpin ▸ hI.nodup, ?_, ?_, ?_, ?_, ?_, ?_⟩
  · rw [hlog, hops]
    exact hI.count
  · intro l' hl'
    obtain rfl : { l with code := k } = l' := Option.some.inj (hlogger.symm.trans hl')
    rw [hops, hlog]
    exact hI.alone l hl
  · rw [hpin, hlog]
    exact hI.fs
  · rw [hpin, hlog]
    exact hI.room
  · intro i b hb hk
    rw [hpins]
    exact hI.pinned i b (hpin ▸ hb) ((hkey i).symm.trans hk)
  · intro i hno
    rw [hpins]
    exact hI.unpinned i fun b hb hk => hno b (hpin.symm ▸ hb) ((hkey i).trans hk)
  · intro b hb
    obtain ⟨i, hk, hv⟩ := hI.cached b (hpin ▸ hb)
    exact ⟨i, (hkey i).trans hk, (hvalid i).trans hv⟩
  · intro l' hl'
    obtain rfl : { l with code := k } = l' := Option.some.inj (hlogger.symm.trans hl')
    rw [hlog]
    refine ⟨σ', hR, ?_, hS⟩
    show CallOk _ _ (t.call l.proc)
    rw [hcall, hp]
    trivial

/-- The buffer in a variable, between calls. -/
theorem Sound.reg {r : Reg} (hS : Sound s l σ) (hp : s.call l.proc = none) (hr : σ.regs r = some b)
    (hi : l.regs r = some i) : s.key i = (ROOTDEV, b) ∧ (s.cache.buf i).lock = some l.proc := by
  obtain ⟨j, hj, hcase⟩ := hS.regs r b hr
  obtain rfl : i = j := Option.some.inj (hi.symm.trans hj)
  rcases hcase with h | hbad
  · exact h
  · rw [hp] at hbad
    cases hbad

/-- A statement that changes data or the disk: what is left to show is about the copies. -/
theorem Sound.restate (hS : Sound s l σ) (hkey : ∀ i, t.key i = s.key i)
    (hlock : ∀ i, (t.cache.buf i).lock = (s.cache.buf i).lock) (hcall : t.call = s.call)
    (hlog : t.log = s.log) (hrec : σ'.recovering = σ.recovering) (hregs : σ'.regs = σ.regs) (hpinned : σ'.pinned = σ.pinned)
    (hcopies : ∀ lb b, (lb, b) ∈ σ'.copies → b ∈ σ.pinned → Copied t lb b)
    (hmoved : ∀ lb b, σ'.moved = some (lb, b) → s.call l.proc = none ∧ σ.regs .lbuf = some lb ∧
      (∀ b', (lb, b') ∉ σ'.copies) ∧ b ∈ σ.pinned ∧
      ∀ i j, s.key i = (ROOTDEV, b) → s.key j = (ROOTDEV, lb) →
        (t.cache.buf j).data = (t.cache.buf i).data) : Sound t { l with code := k } σ' where
  recovering := hrec.trans hS.recovering
  regs := by
    intro r b hr
    rw [hregs] at hr
    obtain ⟨i, hi, hcase⟩ := hS.regs r b hr
    refine ⟨i, hi, ?_⟩
    rw [hkey, hlock, hcall]
    exact hcase
  inj := by
    rw [hregs]
    exact hS.inj
  suffix := by
    rw [hpinned, hlog]
    exact hS.suffix
  copies := by
    rw [hpinned]
    exact hcopies
  moved := by
    intro lb b hm
    obtain ⟨hc, hl, hnew, hb, hdata⟩ := hmoved lb b hm
    refine ⟨hcall ▸ hc, hregs ▸ hl, hnew, hpinned ▸ hb, fun i j hi hj => ?_⟩
    exact hdata i j ((hkey i).symm.trans hi) ((hkey j).symm.trans hj)

/-- Data changes in a buffer that is neither a copy nor its original. -/
theorem Copied.setData {x : Nat} (hc : Copied s lb b) (hi : s.key i = (ROOTDEV, x)) (hb : x ≠ b) (hlb : x ≠ lb)
    (hcache : t.cache = setData s.cache i d) (hdisk : t.disk = s.disk) : Copied t lb b := by
  have hkey : ∀ j, t.key j = s.key j := by
    intro j
    unfold Sys.key
    rw [hcache]
    exact setData_key j
  have hsame : ∀ j, s.key j ≠ (ROOTDEV, x) → (t.cache.buf j).data = (s.cache.buf j).data := by
    intro j hj
    rw [hcache, setData_data, if_neg]
    rintro rfl
    exact hj hi
  intro j hj
  rw [hkey] at hj
  obtain ⟨hd, hcopy⟩ := hc j hj
  rw [hsame j (by rw [hj]; simpa using Ne.symm hb), hdisk]
  refine ⟨hd, fun j' hj' hv => ?_⟩
  rw [hkey] at hj'
  rw [hsame j' (by rw [hj']; simpa using Ne.symm hlb)]
  refine hcopy j' hj' ?_
  rw [hcache, setData_valid] at hv
  exact hv

/-- The disk changes in a block that is not a copy. -/
theorem Copied.write {x : Nat} (hc : Copied s lb b) (hlb : x ≠ lb) (hcache : t.cache = s.cache)
    (hdisk : t.disk = Function.update s.disk x d) : Copied t lb b := by
  intro i hi
  unfold Sys.key at hi
  rw [hcache] at hi ⊢
  obtain ⟨hd, hcopy⟩ := hc i hi
  rw [hdisk, Function.update_of_ne (Ne.symm hlb)]
  refine ⟨hd, fun j hj hv => hcopy j ?_ hv⟩
  unfold Sys.key at hj
  rwa [hcache] at hj

theorem inv_memmove {dst src : Reg} (hI : Inv s) (hl : s.logger = some l) (hp : s.call l.proc = none)
    (hcode : l.code = .memmove dst src :: k) (hi : l.regs dst = some i) (hj : l.regs src = some j) :
    Inv { s.goto l k with cache := setData s.cache i (s.cache.buf j).data } := by
  obtain ⟨σ, hR, _, hS⟩ := hI.logger l hl
  have hpin := pinned_eq hl hR hS
  rw [hcode] at hR
  cases hR with
  | copy hm hlb hd htail hb hlog hnew h =>
      rename_i tail b
      obtain ⟨hki, _⟩ := hS.reg hp hlb hi
      obtain ⟨hkj, _⟩ := hS.reg hp hd hj
      have hfs : ∀ b' ∈ σ.pinned, s.log.start + tail + 1 ≠ b' := by
        rintro b' hb' rfl
        exact hlog (hI.fs _ (hpin ▸ hb'))
      have hij : j ≠ i := by
        rintro rfl
        rw [hki] at hkj
        exact hfs b hb (congrArg Prod.snd hkj)
      refine hI.statement hl hp hcode rfl rfl (rep_data hI.rep) setData_key setData_valid rfl rfl rfl rfl h ?_
      refine hS.restate setData_key setData_lock rfl rfl rfl rfl rfl ?_ ?_
      · intro lb' b' hc hb'
        refine (hS.copies lb' b' hc hb').setData hki (hfs b' hb') ?_ rfl rfl
        rintro rfl
        exact hnew b' hc
      · rintro lb' b' hmv
        cases hmv
        refine ⟨hp, hlb, hnew, hb, fun i' j' hi' hj' => ?_⟩
        obtain rfl : i' = j := hI.rep.key_unique hi' hkj
        obtain rfl : j' = i := hI.rep.key_unique hj' hki
        show ((setData s.cache j' _).buf j').data = ((setData s.cache j' _).buf i').data
        rw [setData_data, setData_data, if_pos rfl, if_neg hij]
  | install hm hlb hd htail hb hc h =>
      rename_i tail b
      obtain ⟨hkj, hlock⟩ := hS.reg hp hlb hj
      obtain ⟨hki, _⟩ := hS.reg hp hd hi
      have hvalid := hI.rep.valid _ _ hlock (fun _ _ he => by rw [hp] at he; cases he)
      -- the log block is a copy of the home block: nothing changes
      have hdata := (hS.copies _ _ hc hb i hki).2 j hkj hvalid
      have hsame : ∀ x, ((setData s.cache i (s.cache.buf j).data).buf x).data = (s.cache.buf x).data := by
        intro x
        rw [setData_data]
        split
        · rename_i hx
          rw [hx, hdata]
        · rfl
      refine hI.statement hl hp hcode rfl rfl (rep_data hI.rep) setData_key setData_valid rfl rfl rfl rfl h ?_
      refine hS.restate setData_key setData_lock rfl rfl rfl rfl rfl ?_ ?_
      · intro lb' b' hc' hb' x hx
        obtain ⟨hd', hcopy⟩ := hS.copies lb' b' hc' hb' x ((setData_key x).symm.trans hx)
        refine ⟨hd'.trans (hsame x).symm, fun y hy hv => ?_⟩
        exact ((hsame y).trans (hcopy y ((setData_key y).symm.trans hy)
          ((setData_valid y).symm.trans hv))).trans (hsame x).symm
      · intro lb' b' hmv
        rw [hm] at hmv
        cases hmv
  | reinstall hm _ hlb hd hnil h =>
      refine hI.statement hl hp hcode rfl rfl (rep_data hI.rep) setData_key setData_valid rfl rfl rfl rfl h ?_
      refine hS.restate setData_key setData_lock rfl rfl rfl rfl rfl ?_ ?_
      · intro lb' b' _ hb'
        rw [hnil] at hb'
        cases hb'
      · intro lb' b' hmv
        rw [hm] at hmv
        cases hmv

theorem inv_writeHead {r : Reg} (hI : Inv s) (hl : s.logger = some l) (hp : s.call l.proc = none)
    (hcode : l.code = .writeHead r :: k) (hi : l.regs r = some i) :
    Inv { s.goto l k with cache := setData s.cache i d } := by
  obtain ⟨σ, hR, _, hS⟩ := hI.logger l hl
  rw [hcode] at hR
  cases hR with
  | writeHead hm hr hno hc h =>
      rename_i b
      obtain ⟨hki, _⟩ := hS.reg hp hr hi
      refine hI.statement hl hp hcode rfl rfl (rep_data hI.rep) setData_key setData_valid rfl rfl rfl rfl h ?_
      refine hS.restate setData_key setData_lock rfl rfl rfl rfl rfl ?_ ?_
      · intro lb' b' hc' hb'
        refine (hS.copies lb' b' hc' hb').setData hki ?_ ?_ rfl rfl
        · rintro rfl
          exact hno hb'
        · rintro rfl
          exact hc b' hc'
      · intro lb' b' hmv
        rw [hm] at hmv
        cases hmv

theorem inv_logBwrite {r : Reg} (hI : Inv s) (hl : s.logger = some l) (hp : s.call l.proc = none)
    (hcode : l.code = .bwrite r :: k) (hi : l.regs r = some i) :
    Inv { s.goto l k with
      disk := Function.update s.disk (s.cache.buf i).blockno (s.cache.buf i).data } := by
  obtain ⟨σ, hR, _, hS⟩ := hI.logger l hl
  rw [hcode] at hR
  cases hR with
  | bwriteCopy hlb hm h =>
      rename_i lb b
      obtain ⟨hki, _⟩ := hS.reg hp hlb hi
      obtain ⟨_, _, hnew, hb, hdata⟩ := hS.moved lb b hm
      have hblock : (s.cache.buf i).blockno = lb := congrArg Prod.snd hki
      refine hI.statement hl hp hcode rfl rfl hI.rep (fun _ => rfl) (fun _ => rfl) rfl rfl rfl rfl h ?_
      refine hS.restate (fun _ => rfl) (fun _ => rfl) rfl rfl rfl rfl rfl ?_ ?_
      · intro lb' b' hc' hb'
        rcases List.mem_cons.mp hc' with he | hc'
        · -- the block just written
          cases he
          intro x hx
          refine ⟨?_, fun y hy _ => hdata x y hx hy⟩
          show Function.update s.disk (s.cache.buf i).blockno (s.cache.buf i).data lb = _
          rw [hblock, Function.update_self]
          exact hdata x i hx hki
        · refine (hS.copies lb' b' hc' hb').write ?_ rfl rfl
          rw [hblock]
          rintro rfl
          exact hnew b' hc'
      · intro lb' b' hmv
        cases hmv
  | bwrite hm hr hc h =>
      rename_i b
      obtain ⟨hki, _⟩ := hS.reg hp hr hi
      have hblock : (s.cache.buf i).blockno = b := congrArg Prod.snd hki
      refine hI.statement hl hp hcode rfl rfl hI.rep (fun _ => rfl) (fun _ => rfl) rfl rfl rfl rfl h ?_
      refine hS.restate (fun _ => rfl) (fun _ => rfl) rfl rfl rfl rfl rfl ?_ ?_
      · intro lb' b' hc' hb'
        refine (hS.copies lb' b' hc' hb').write ?_ rfl rfl
        rw [hblock]
        rintro rfl
        exact hc b' hc'
      · intro lb' b' hmv
        rw [hm] at hmv
        cases hmv

/-! ## Statements of the log that change pins or the header -/

theorem inv_bunpin {r : Reg} (hI : Inv s) (hl : s.logger = some l) (hp : s.call l.proc = none)
    (hcode : l.code = .bunpin r :: k) (hi : l.regs r = some i) :
    Inv { s.goto l k with
      cache := bunpin s.cache i, pins := Function.update s.pins i (s.pins i - 1) } := by
  obtain ⟨σ, hR, _, hS⟩ := hI.logger l hl
  have hpin := pinned_eq hl hR hS
  rw [hcode] at hR
  cases hR with
  | bunpin hm hr hps h =>
      rename_i b bs
      obtain ⟨hki, _⟩ := hS.reg hp hr hi
      have hsuffix : bs <:+ s.log.lh := (List.suffix_cons b bs).trans (hps ▸ hS.suffix)
      have hk : ∀ j, ((bunpin s.cache i).buf j).key = s.key j := setRef_key
      have hS' : Sound { s.goto l k with
          cache := bunpin s.cache i, pins := Function.update s.pins i (s.pins i - 1) }
          { l with code := k } { σ with pinned := bs } := by
        refine ⟨hS.recovering, ?_, hS.inj, hsuffix, ?_, ?_⟩
        · intro r' b' hr'
          obtain ⟨j, hj, hcase⟩ := hS.regs r' b' hr'
          refine ⟨j, hj, ?_⟩
          rcases hcase with ⟨hkj, hlock⟩ | hbad
          · exact Or.inl ⟨(hk j).trans hkj, (setRef_lock j).trans hlock⟩
          · exact Or.inr hbad
        · intro lb' b' hc hb' x hx
          obtain ⟨hd, hcopy⟩ := hS.copies lb' b' hc (hps ▸ List.mem_cons_of_mem b hb') x
            ((hk x).symm.trans hx)
          refine ⟨hd.trans (setRef_data x).symm, fun y hy hv => ?_⟩
          exact ((setRef_data y).trans (hcopy y ((hk y).symm.trans hy)
            ((setRef_valid y).symm.trans hv))).trans (setRef_data x).symm
        · intro lb' b' hmv
          rw [hm] at hmv
          cases hmv
      have hpin' : ({ s.goto l k with
          cache := bunpin s.cache i, pins := Function.update s.pins i (s.pins i - 1) } : Sys).pinned = bs :=
        pinned_eq rfl h hS'
      have hnd := hI.nodup
      rw [hpin, hps, List.nodup_cons] at hnd
      have hbs : ∀ b' ∈ bs, b' ∈ s.pinned := by
        intro b' hb'
        rw [hpin, hps]
        exact List.mem_cons_of_mem b hb'
      have hone : s.pins i = 1 := hI.pinned i b (by rw [hpin, hps]; exact List.mem_cons_self) hki
      refine ⟨rep_unpin hI.rep (by omega), hI.count, ?_, ?_, ?_, ?_, ?_, ?_, ?_, ?_⟩
      · intro l' hl'
        cases hl'
        exact hI.alone l hl
      · rw [hpin']
        exact hnd.2
      · rw [hpin']
        exact fun b' hb' => hI.fs b' (hbs b' hb')
      · rw [hpin']
        intro hne
        have hroom := hI.room
        rw [hpin, hps, List.length_cons] at hroom
        exact Nat.lt_of_succ_lt (hroom (List.cons_ne_nil b bs))
      · rw [hpin']
        intro j b' hb' hj
        have hkj : s.key j = (ROOTDEV, b') := (hk j).symm.trans hj
        have hji : j ≠ i := by
          rintro rfl
          rw [hki] at hkj
          cases hkj
          exact hnd.1 hb'
        show Function.update s.pins i (s.pins i - 1) j = 1
        rw [Function.update_of_ne hji]
        exact hI.pinned j b' (hbs b' hb') hkj
      · rw [hpin']
        intro j hno
        show Function.update s.pins i (s.pins i - 1) j = 0
        by_cases hji : j = i
        · subst hji
          rw [Function.update_self, hone]
        · rw [Function.update_of_ne hji]
          refine hI.unpinned j fun b' hb' hj => ?_
          rw [hpin, hps] at hb'
          rcases List.mem_cons.mp hb' with rfl | hb'
          · exact hji (hI.rep.key_unique hj hki)
          · exact hno b' hb' ((hk j).trans hj)
      · rw [hpin']
        intro b' hb'
        obtain ⟨j, hj, hv⟩ := hI.cached b' (hbs b' hb')
        exact ⟨j, (hk j).trans hj, (setRef_valid j).trans hv⟩
      · intro l' hl'
        cases hl'
        refine ⟨_, h, ?_, hS'⟩
        show CallOk _ _ (s.call l.proc)
        rw [hp]
        trivial

/-- The header changes while no block is pinned. -/
theorem Inv.reheader {lh : List Nat} (hI : Inv s) (hl : s.logger = some l) (hp : s.call l.proc = none)
    (hS : Sound s l σ) (hpin : s.pinned = []) (hnil : σ.pinned = []) (hm : σ.moved = none)
    (hR : Runs s.log.fsBlock s.log.start lh σ k) :
    Inv { s.goto l k with log := { s.log with lh := lh } } := by
  have hS' : Sound { s.goto l k with log := { s.log with lh := lh } } { l with code := k } σ := by
    refine ⟨hS.recovering, hS.regs, hS.inj, ?_, hS.copies, ?_⟩
    · rw [hnil]
      exact List.nil_suffix
    · intro lb b hmv
      rw [hm] at hmv
      cases hmv
  have hpin' : ({ s.goto l k with log := { s.log with lh := lh } } : Sys).pinned = [] :=
    (pinned_eq rfl hR hS').trans hnil
  have hno : ∀ b, b ∉ ({ s.goto l k with log := { s.log with lh := lh } } : Sys).pinned := by
    intro b
    rw [hpin']
    exact List.not_mem_nil
  refine ⟨hI.rep, hI.count, ?_, hpin' ▸ List.nodup_nil, ?_, ?_, ?_, ?_, ?_, ?_⟩
  · intro l' hl'
    cases hl'
    exact hI.alone l hl
  · exact fun b hb => absurd hb (hno b)
  · exact fun h => absurd hpin' h
  · exact fun _ b hb => absurd hb (hno b)
  · intro j _
    refine hI.unpinned j fun b hb => ?_
    rw [hpin] at hb
    cases hb
  · exact fun b hb => absurd hb (hno b)
  · intro l' hl'
    cases hl'
    refine ⟨σ, hR, ?_, hS'⟩
    show CallOk _ _ (s.call l.proc)
    rw [hp]
    trivial

theorem inv_readHead {r : Reg} {lh : List Nat} (hI : Inv s) (hl : s.logger = some l)
    (hp : s.call l.proc = none) (hcode : l.code = .readHead r :: k) :
    Inv { s.goto l (k ++ installTrans true s.log.start lh) with log := { s.log with lh := lh } } := by
  obtain ⟨σ, hR, _, hS⟩ := hI.logger l hl
  have hpin := pinned_eq hl hR hS
  rw [hcode] at hR
  cases hR with
  | readHead hm hnil h => exact hI.reheader hl hp hS (hpin.trans hnil) hnil hm (h lh)

theorem inv_clear (hI : Inv s) (hl : s.logger = some l) (hp : s.call l.proc = none)
    (hcode : l.code = .clear :: k) : Inv { s.goto l k with log := { s.log with lh := [] } } := by
  obtain ⟨σ, hR, _, hS⟩ := hI.logger l hl
  have hpin := pinned_eq hl hR hS
  rw [hcode] at hR
  cases hR with
  | clear hm hnil h => exact hI.reheader hl hp hS (hpin.trans hnil) hnil hm h

theorem inv_done (hI : Inv s) (hl : s.logger = some l) (hcode : l.code = []) :
    Inv { s with log := Logging.endCommit s.log, logger := none } := by
  obtain ⟨σ, hR, _, hS⟩ := hI.logger l hl
  have hpin := pinned_eq hl hR hS
  rw [hcode] at hR
  cases hR with
  | nil hlh hnil =>
      have hs : s.pinned = [] := hpin.trans hnil
      have hno : ∀ b, b ∉ ({ s with log := Logging.endCommit s.log, logger := none } : Sys).pinned := by
        intro b hb
        have hb : b ∈ s.log.lh := hb
        rw [hlh] at hb
        cases hb
      have hnone : ({ s with log := Logging.endCommit s.log, logger := none } : Sys).pinned = [] := hlh
      refine ⟨hI.rep, hI.count, ?_, hnone ▸ List.nodup_nil, ?_, ?_, ?_, ?_, ?_, ?_⟩
      · intro l' hl'
        cases hl'
      · exact fun b hb => absurd hb (hno b)
      · exact fun h => absurd hnone h
      · exact fun _ b hb => absurd hb (hno b)
      · intro j _
        refine hI.unpinned j fun b hb => ?_
        rw [hs] at hb
        cases hb
      · exact fun b hb => absurd hb (hno b)
      · intro l' hl'
        cases hl'

/-! ## Runs -/

theorem inv_boot (start size : Nat) (disk : Nat → Block) (init : Fin NPROC) :
    Inv (boot start size disk init) := by
  have hpin : (boot start size disk init).pinned = [] := rfl
  refine ⟨rep_binit, rfl, ?_, hpin ▸ List.nodup_nil, ?_, fun h => absurd hpin h, ?_, fun _ _ => rfl, ?_, ?_⟩
  · intro l hl
    cases hl
    exact ⟨rfl, fun h => by cases h⟩
  · intro b hb
    rw [hpin] at hb
    cases hb
  · intro i b hb
    rw [hpin] at hb
    cases hb
  · intro b hb
    rw [hpin] at hb
    cases hb
  · intro l hl
    cases hl
    refine ⟨.free true [] [], readHead_runs, trivial, ?_⟩
    refine ⟨rfl, ?_, ?_, List.nil_suffix, ?_, ?_⟩
    · intro r b hr
      cases hr
    · intro r _ _ hr
      exact absurd rfl hr
    · intro lb b hm
      cases hm
    · intro lb b hm
      cases hm

/-- **Every step keeps the invariant.** -/
theorem inv_step (hI : Inv s) (hst : step s a = some t) : Inv t := by
  cases step_cases hst with
  | beginOp hp hl => exact inv_beginOp hI hp hl
  | endOp hp hm hl => exact inv_endOp hI hm hl
  | lastOp hp hm hl => exact inv_lastOp hI hp hm hl
  | bread hby hb => exact inv_bread hI hby hb
  | acquiresleep hp hl => exact inv_acquiresleep hI hp hl
  | fill hp => exact inv_fill hI hp
  | store hm hl => exact inv_store hI hm
  | absorbed hl =>
      obtain ⟨_, _, _, hcase⟩ := Logging.logWrite_eq_ok hl
      rcases hcase with ⟨_, _, rfl⟩ | ⟨hbad, _⟩
      · exact hI
      · cases hbad
  | logged hp hm hlock hdev hfs hl => exact inv_logged hI hp hm hlock hdev hfs hl
  | bwrite hp hdev hlock => exact inv_bwrite hI hp hdev hlock
  | brelse hby hlock => exact inv_brelse hI hby hlock
  | unref hp => exact inv_unref hI hp
  | done hl hp hcode => exact inv_done hI hl hcode
  | memmove hl hp hcode hi hj => exact inv_memmove hI hl hp hcode hi hj
  | readHead hl hp hcode hi => exact inv_readHead hI hl hp hcode
  | writeHead hl hp hcode hi => exact inv_writeHead hI hl hp hcode hi
  | logBwrite hl hp hcode hi hlock => exact inv_logBwrite hI hl hp hcode hi
  | bunpin hl hp hcode hi => exact inv_bunpin hI hl hp hcode hi
  | clear hl hp hcode => exact inv_clear hI hl hp hcode

theorem inv_run {start size : Nat} {disk : Nat → Block} {init : Fin NPROC} {acts : List Act}
    (h : Trace.run step (boot start size disk init) acts = some s) : Inv s :=
  Trace.run_invariant (inv_boot start size disk init) (fun _ _ _ => inv_step) h

end Xv6.Bcache
