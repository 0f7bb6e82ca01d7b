import Xv6.Log.Step

/-!
# `Log.Coherence` — cached blocks and the disk

`inv_step` shows that every step keeps `Inv`, except one: a `writei` whose `either_copyin` fails after it has
copied some bytes releases a changed buffer without `log_write`. `Unharmed` says that a step is not of that
kind, and `coherent_iff_unharmed` says that these are the only steps after which a buffer that nobody holds and
that is not in the log does not show its block of the disk.
-/

namespace Xv6.Logging

variable {s t : Sys} {a : Act} {c : List Buf} {disk : Nat → Block} {w pinned : List Nat}

/-- If `either_copyin` fails, it has left the bytes of the block as they were, or the block is in the log. -/
def Unharmed (s : Sys) : Act → Prop
  | .copyin _ b pages o src m =>
      (Xv6.copyin pages src m).2 = false →
        Bytes.put (bufData s.bufs b) o (Xv6.copyin pages src m).1 = bufData s.bufs b ∨ b ∈ s.log.lh
  | _ => True

theorem inv_boot (start size : Nat) (disk : Nat → Block) : Inv (boot start size disk) := by
  have hnone : ∀ b, lookup binit b = none := by
    intro b
    simp [lookup, binit]
  refine ⟨cacheOk_binit disk, rfl, rfl, (fun h => by cases h), ?_, ?_, (fun e he => by cases he),
    (fun h => by cases h), (fun h => by cases h), fun _ => ⟨rfl, rfl, rfl, ?_⟩⟩
  all_goals
    intro b x hx
    rw [show (boot start size disk).bufs = binit from rfl, hnone b] at hx
    cases hx

/-! ## Locks and pending changes -/

theorem Inv.dirty_of (hI : Inv s) (hok : CacheOk c disk w pinned) (hn : NoNewLocks s.bufs c) {b : Nat}
    {x : Buf} (hx : lookup c b = some x) (hd : x.dirty = true) : ∃ p ∈ s.ops, x.lock = some p := by
  obtain ⟨y, hy, hyl, hyd⟩ := hn b x hx ((hok.each hx).dirty hd)
  obtain ⟨p, hp, hl⟩ := hI.dirty hy (hyd hd)
  exact ⟨p, hp, by rw [← hyl, hl]⟩

theorem Inv.held_of (hI : Inv s) (hn : NoNewLocks s.bufs c) {b : Nat} {x : Buf}
    (hx : lookup c b = some x) (hl : x.lock ≠ none) : s.log.fsBlock b := by
  obtain ⟨y, hy, hyl, _⟩ := hn b x hx hl
  exact hI.held hy (by rwa [hyl])

/-- While an operation is in progress nobody commits. -/
theorem Inv.commit_none (hI : Inv s) {p : Nat} (hp : p ∈ s.ops) : s.commit = none := by
  by_contra hc
  rw [hI.quiet (Option.isSome_iff_ne_none.mpr hc)] at hp
  cases hp

theorem pinned_eq_lh (hr : s.boot = none) (hc : s.commit = none) : s.pinned = s.log.lh := by
  simp [Sys.pinned, pinnedBlocks, hr, hc]

/-! ## The steps -/

/-- A step that only changes buffers, and takes no lock. -/
theorem Inv.setBufs (hI : Inv s) (hr : s.boot = none)
    (hok : CacheOk c s.disk (s.waits.map Prod.snd) s.pinned) (hn : NoNewLocks s.bufs c) :
    Inv { s with bufs := c } :=
  ⟨hok, hI.outstanding, hI.committing, hI.quiet, hI.dirty_of hok hn, hI.held_of hn, hI.waiting, hI.lh,
    hI.stage, fun hb => absurd hr hb⟩

theorem inv_logNew {p b : Nat} {x : Buf} (hI : Inv s) (hr : s.boot = none) (hp : p ∈ s.ops)
    (hx : lookup s.bufs b = some x) (hl : x.lock = some p) (hlen : s.log.lh.length < LOGSIZE)
    (hsize : s.log.lh.length < s.log.size - 1) (hb : b ∉ s.log.lh) :
    Inv { s with log := { s.log with lh := s.log.lh ++ [b] },
                 bufs := setBuf s.bufs b fun x => { x with refcnt := x.refcnt + 1, dirty := false } } := by
  have hlock : x.lock ≠ none := by simp [hl]
  have hnc := hI.commit_none hp
  have hpin := pinned_eq_lh hr hnc
  have hcache := hI.cache
  rw [hpin] at hcache
  have hok := hcache.pinNew hx hlock hb
  have hn : NoNewLocks s.bufs
      (setBuf s.bufs b fun x => { x with refcnt := x.refcnt + 1, dirty := false }) :=
    noNewLocks_setBuf (f := fun x => { x with refcnt := x.refcnt + 1, dirty := false }) (fun _ => rfl)
      (fun _ => rfl) fun _ h => by cases h
  obtain ⟨hnodup, hfs, _, _⟩ := hI.lh hr
  refine ⟨?_, hI.outstanding, hI.committing, hI.quiet, hI.dirty_of hok hn, hI.held_of hn, hI.waiting,
    fun _ => ⟨?_, ?_, ?_, ?_⟩, ?_, fun h => absurd hr h⟩
  · simpa [Sys.pinned, pinnedBlocks, hr, hnc] using hok
  · refine List.nodup_append'.mpr ⟨hnodup, List.nodup_singleton b, ?_⟩
    simpa using hb
  · intro b' hb'
    rcases List.mem_append.mp hb' with hb' | hb'
    · exact hfs b' hb'
    · rw [List.mem_singleton.mp hb']
      exact hI.held hx hlock
  · simpa using hlen
  · show (s.log.lh ++ [b]).length ≤ s.log.size - 1
    simpa using hsize
  · show ∀ {q k}, s.commit = some (q, k) → _
    rw [hnc]
    intro q k hk
    cases hk

/-- The caller of `end_op` that commits is the only one in an operation. -/
theorem Inv.erase_of_last {p : Nat} (hI : Inv s) (hp : p ∈ s.ops) (ho : s.log.outstanding ≤ 1) :
    s.ops.erase p = [] := by
  have hlen := hI.outstanding
  rw [← List.length_eq_zero_iff, List.length_erase_of_mem hp]
  omega

theorem inv_lastOp {p : Nat} (hI : Inv s) (hr : s.boot = none) (hp : p ∈ s.ops)
    (ho : s.log.outstanding ≤ 1) (hfree : ∀ x ∈ s.bufs, x.lock ≠ some p) :
    Inv { s with log := { s.log with outstanding := 0, committing := true }, ops := s.ops.erase p,
                 commit := some (p, if s.log.lh = [] then .done else .writeLog 0) } := by
  have hnc := hI.commit_none hp
  have herase := hI.erase_of_last hp ho
  have hcache := hI.cache
  rw [pinned_eq_lh hr hnc] at hcache
  refine ⟨?_, ?_, rfl, fun _ => herase, ?_, hI.held, hI.waiting, hI.lh, ?_, fun h => absurd hr h⟩
  · show CacheOk _ _ _ (pinnedBlocks s.log.lh s.boot (some (p, if s.log.lh = [] then .done else .writeLog 0)))
    rw [hr]
    split <;> exact hcache
  · show 0 = (s.ops.erase p).length
    rw [herase]
    rfl
  · -- the only operation in progress was the caller's, and it holds no buffer
    intro b x hx hd
    obtain ⟨q, hq, hl⟩ := hI.dirty hx hd
    have hqp : q = p := by
      by_contra hne
      have : q ∈ s.ops.erase p := (List.mem_erase_of_ne hne).mpr hq
      rw [herase] at this
      cases this
    exact absurd (hqp ▸ hl) (hfree x (mem_of_lookup hx))
  · intro q k hk
    cases hk
    split
    · rename_i hlh
      simp [Stage.ok, hlh]
    · rename_i hlh
      exact ⟨Nat.zero_le _, List.length_pos_of_ne_nil hlh⟩

/-- A disk write of `commit`, which leaves the processes alone. -/
theorem Inv.wrote {b p : Nat} {d : Block} {k : Stage} {pinned' : List Nat} {l : Log} (hI : Inv s)
    (hr : s.boot = none) (hc : s.commit.isSome = true)
    (hw : Wrote s.bufs s.disk (s.waits.map Prod.snd) b d c pinned')
    (hpin : pinnedBlocks l.lh none (some (p, k)) = pinned')
    (hl : l.outstanding = s.log.outstanding ∧ l.committing = s.log.committing ∧ l.start = s.log.start ∧
      l.size = s.log.size)
    (hlh : l.lh = s.log.lh ∨ l.lh = []) (hk : k.ok l.lh.length) :
    Inv { s with bufs := c, disk := Function.update s.disk b d, log := l, commit := some (p, k) } := by
  obtain ⟨hout, hcom, hstart, hsize⟩ := hl
  have hfs : ∀ b, s.log.fsBlock b → l.fsBlock b := by
    intro b hb
    rwa [Log.fsBlock, hstart, hsize]
  refine ⟨?_, by rw [hout]; exact hI.outstanding, by rw [hcom, hI.committing, hc]; rfl, fun _ => hI.quiet hc,
    hI.dirty_of hw.ok hw.locks, fun hx hl => hfs _ (hI.held_of hw.locks hx hl),
    fun e he => hfs _ (hI.waiting e he), fun _ => ?_, ?_, fun h => absurd hr h⟩
  · show CacheOk _ _ _ (pinnedBlocks l.lh s.boot (some (p, k)))
    rw [hr, hpin]
    exact hw.ok
  · rw [hsize]
    obtain ⟨h1, h2, h3, h4⟩ := hI.lh hr
    rcases hlh with h | h
    · rw [h]
      exact ⟨h1, fun b hb => hfs b (h2 b hb), h3, h4⟩
    · rw [h]
      exact ⟨List.nodup_nil, (fun b hb => by cases hb), Nat.zero_le _, Nat.zero_le _⟩
  · intro q k' hk'
    cases hk'
    exact hk

/-- A disk write of `recover_from_log`. -/
theorem Inv.recovering {d : Block} {b : Nat} {k : Option Boot} {l : Log} (hI : Inv s) (hr : s.boot ≠ none)
    (hw : Wrote s.bufs s.disk [] b d c [])
    (hl : l.outstanding = s.log.outstanding ∧ l.committing = s.log.committing)
    (hlh : k = none → l.lh = []) :
    Inv { s with bufs := c, disk := Function.update s.disk b d, log := l, boot := k } := by
  obtain ⟨hwaits, hops, hcommit, hunl⟩ := hI.alone hr
  have hunl' : ∀ {b x}, lookup c b = some x → x.lock = none := by
    intro b x hx
    by_contra hne
    obtain ⟨y, hy, hyl, _⟩ := hw.locks b x hx hne
    rw [hunl hy] at hyl
    exact hne hyl.symm
  have hpin : pinnedBlocks l.lh k s.commit = [] := by
    cases k with
    | none => simp [pinnedBlocks, hcommit, hlh rfl]
    | some k => rfl
  refine ⟨?_, by rw [hl.1]; exact hI.outstanding, by rw [hl.2]; exact hI.committing, hI.quiet,
    fun hx hd => absurd (hunl' hx) ((hw.ok.each hx).dirty hd), fun hx hne => absurd (hunl' hx) hne, ?_,
    fun hk => ?_, ?_, fun _ => ⟨hwaits, hops, hcommit, hunl'⟩⟩
  · show CacheOk c _ (s.waits.map Prod.snd) (pinnedBlocks l.lh k s.commit)
    rw [hpin, hwaits]
    exact hw.ok
  · show ∀ e ∈ s.waits, _
    rw [hwaits]
    intro e he
    cases he
  · simp only [hlh hk]
    exact ⟨List.nodup_nil, (fun b hb => by cases hb), Nat.zero_le _, Nat.zero_le _⟩
  · show ∀ {p k}, s.commit = some (p, k) → _
    rw [hcommit]
    intro p k hk
    cases hk

/-- A waiting process gets the buffer. -/
theorem inv_acquire {p b : Nat} (hI : Inv s) (hr : s.boot = none) (hw : (p, b) ∈ s.waits)
    (hc : acquire s.disk p s.bufs b = some c) :
    Inv { s with bufs := c, waits := s.waits.erase (p, b) } := by
  have hbw : b ∈ s.waits.map Prod.snd := List.mem_map.mpr ⟨(p, b), hw, rfl⟩
  have hok := hI.cache.acquire hbw hc
  have hperm : ((s.waits.map Prod.snd).erase b).Perm ((s.waits.erase (p, b)).map Prod.snd) := by
    have h := (List.perm_cons_erase hw).map Prod.snd
    exact ((h.erase b).trans (by simp))
  have hfs := hI.waiting (p, b) hw
  obtain ⟨x, hx, hlock, rfl⟩ := acquire_eq_some hc
  have hx' := lookup_setBuf_self (f := Buf.acquired p (s.disk b)) (fun _ => rfl) hx
  -- only the buffer of `b` has a new holder, and it has no change pending
  have hclean : (Buf.acquired p (s.disk b) x).dirty = false := by
    by_contra hd
    exact (hI.cache.each hx).dirty (by simpa [Buf.acquired] using hd) hlock
  refine ⟨?_, hI.outstanding, hI.committing, hI.quiet, ?_, ?_, ?_, hI.lh, hI.stage, fun h => absurd hr h⟩
  · exact hok.of_perm hperm
  · intro b' y hy hd
    by_cases hb : b' = b
    · subst hb
      rw [hx'] at hy
      cases hy
      rw [hclean] at hd
      cases hd
    · rw [lookup_setBuf_of_ne (f := Buf.acquired p (s.disk b)) (fun _ => rfl) hb] at hy
      exact hI.dirty hy hd
  · intro b' y hy hl
    by_cases hb : b' = b
    · subst hb
      exact hfs
    · rw [lookup_setBuf_of_ne (f := Buf.acquired p (s.disk b)) (fun _ => rfl) hb] at hy
      exact hI.held hy hl
  · intro e he
    exact hI.waiting e (List.mem_of_mem_erase he)

/-- The holder of a buffer changes it inside its operation. -/
theorem inv_modify {p b : Nat} {d : Block} {x : Buf} (hI : Inv s) (hr : s.boot = none) (hp : p ∈ s.ops)
    (hx : lookup s.bufs b = some x) (hl : x.lock = some p) :
    Inv { s with bufs := setBuf s.bufs b fun x => { x with data := d, dirty := true } } := by
  have hok := hI.cache.modify hx (by simp [hl]) d
  refine ⟨hok, hI.outstanding, hI.committing, hI.quiet, ?_, ?_, hI.waiting, hI.lh, hI.stage,
    fun h => absurd hr h⟩
  · intro b' y hy hd
    by_cases hb : b' = b
    · subst hb
      rw [lookup_setBuf_self (f := fun x => { x with data := d, dirty := true }) (fun _ => rfl) hx] at hy
      cases hy
      exact ⟨p, hp, hl⟩
    · rw [lookup_setBuf_of_ne (f := fun x => { x with data := d, dirty := true }) (fun _ => rfl) hb] at hy
      exact hI.dirty hy hd
  · intro b' y hy hlock
    by_cases hb : b' = b
    · subst hb
      exact hI.held hx (by simp [hl])
    · rw [lookup_setBuf_of_ne (f := fun x => { x with data := d, dirty := true }) (fun _ => rfl) hb] at hy
      exact hI.held hy hlock

theorem inv_endOp {p : Nat} (hI : Inv s) (hr : s.boot = none) (hp : p ∈ s.ops)
    (hfree : ∀ x ∈ s.bufs, x.lock ≠ some p) :
    Inv { s with log := { s.log with outstanding := s.log.outstanding - 1 }, ops := s.ops.erase p } := by
  have hnc := hI.commit_none hp
  refine ⟨hI.cache, ?_, hI.committing, ?_, ?_, hI.held, hI.waiting, hI.lh, hI.stage, fun h => absurd hr h⟩
  · show s.log.outstanding - 1 = (s.ops.erase p).length
    rw [List.length_erase_of_mem hp, hI.outstanding]
  · show s.commit.isSome = true → _
    rw [hnc]
    intro h
    cases h
  · intro b x hx hd
    obtain ⟨q, hq, hl⟩ := hI.dirty hx hd
    have hqp : q ≠ p := by
      rintro rfl
      exact hfree x (mem_of_lookup hx) hl
    exact ⟨q, (List.mem_erase_of_ne hqp).mpr hq, hl⟩

/-- **Every harmless step keeps the invariant.** -/
theorem inv_step (hI : Inv s) (hu : Unharmed s a) (hst : step s a = some t) : Inv t := by
  cases step_cases hI hst with
  | beginOp hr hp hl =>
      obtain ⟨hc, _, rfl⟩ := beginOp_eq_some hl
      have hnc : s.commit = none := by
        have := hI.committing
        rw [hc] at this
        simpa using this.symm
      refine ⟨hI.cache, ?_, hI.committing, ?_, ?_, hI.held, hI.waiting, hI.lh, hI.stage,
        fun h => absurd hr h⟩
      · simp [hI.outstanding]
      · show s.commit.isSome = true → _
        rw [hnc]
        intro h
        cases h
      · intro b x hx hd
        obtain ⟨q, hq, hl⟩ := hI.dirty hx hd
        exact ⟨q, List.mem_cons_of_mem _ hq, hl⟩
  | bget hr hb hc =>
      have hok := hI.cache.bget hc
      have hn := hI.cache.noNewLocks_bget hc
      refine ⟨hok, hI.outstanding, hI.committing, hI.quiet, hI.dirty_of hok hn, hI.held_of hn, ?_, hI.lh,
        hI.stage, fun h => absurd hr h⟩
      intro e he
      rcases List.mem_cons.mp he with rfl | he
      · exact hb
      · exact hI.waiting e he
  | acquire hr hw hc => exact inv_acquire hI hr hw hc
  | modify hr hp hx hl => exact inv_modify hI hr hp hx hl
  | copyin hr hp hx hl hm hok => exact inv_modify hI hr hp hx hl
  | @copyinFail p b o src m pages x hr hp hx hl hd hm hok =>
      have hcase := hu hok
      rw [bufData_of_lookup hx] at hcase
      have hset := hI.cache.setData hx (by
        rw [pinned_eq_lh hr (hI.commit_none hp)]
        exact hcase)
      have hx' := lookup_setData_self (d := Bytes.put x.data o (Xv6.copyin pages src m).1) hx
      refine hI.setBufs hr (hset.brelse hx' (by simp [hl]) hd) ?_
      refine NoNewLocks.trans ?_ (noNewLocks_brelse hx')
      exact noNewLocks_setBuf (f := fun y => { y with data := _ }) (fun _ => rfl) (fun _ => rfl) fun _ => id
  | logNew hr hp hx hl hlen hsize hb => exact inv_logNew hI hr hp hx hl hlen hsize hb
  | logAbsorb hr hp hx hl hb =>
      refine hI.setBufs hr (hI.cache.absorb hx ?_) ?_
      · rwa [pinned_eq_lh hr (hI.commit_none hp)]
      · exact noNewLocks_setBuf (f := fun x => { x with dirty := false }) (fun _ => rfl) (fun _ => rfl)
          fun _ h => by cases h
  | brelse hr hx hl hd => exact hI.setBufs hr (hI.cache.brelse hx (by simp [hl]) hd) (noNewLocks_brelse hx)
  | endOp hr hp hfree hc ho => exact inv_endOp hI hr hp hfree
  | lastOp hr hp hfree hc ho => exact inv_lastOp hI hr hp ho hfree
  | writeLog hr hk hb hw =>
      obtain ⟨hlt, _⟩ := List.getElem?_eq_some_iff.mp hb
      exact hI.wrote hr (by simp [hk]) hw rfl ⟨rfl, rfl, rfl, rfl⟩ (Or.inl rfl) ⟨hlt, by omega⟩
  | writeHead hr hk hw =>
      have hpos := (hI.stage hk).2
      exact hI.wrote hr (by simp [hk]) hw rfl ⟨rfl, rfl, rfl, rfl⟩ (Or.inl rfl) ⟨Nat.zero_le _, hpos⟩
  | install hr hk hb hw =>
      obtain ⟨hlt, _⟩ := List.getElem?_eq_some_iff.mp hb
      exact hI.wrote hr (by simp [hk]) hw rfl ⟨rfl, rfl, rfl, rfl⟩ (Or.inl rfl) ⟨hlt, by omega⟩
  | clearHead hr hk hw =>
      exact hI.wrote hr (by simp [hk]) hw rfl ⟨rfl, rfl, rfl, rfl⟩ (Or.inr rfl) rfl
  | endCommit hr hk =>
      have hlh : s.log.lh = [] := List.length_eq_zero_iff.mp (hI.stage hk)
      refine ⟨?_, hI.outstanding, rfl, (fun h => by cases h), hI.dirty, hI.held, hI.waiting, hI.lh,
        (fun h => by cases h),
        fun h => absurd hr h⟩
      have hcache := hI.cache
      rw [Sys.pinned, hr, hk] at hcache
      show CacheOk _ _ _ (pinnedBlocks s.log.lh s.boot none)
      rw [hr]
      exact hcache
  | crash => exact inv_boot _ _ _
  | readHead hr hok hshown hl =>
      obtain ⟨hwaits, hops, hcommit, _⟩ := hI.alone (by simp [hr])
      refine ⟨?_, hI.outstanding, hI.committing, hI.quiet,
        fun hx hd => absurd (hl hx) ((hok.each hx).dirty hd), fun hx hne => absurd (hl hx) hne, hI.waiting,
        (fun h => by cases h), ?_, fun _ => ⟨hwaits, hops, hcommit, hl⟩⟩
      · show CacheOk _ _ (s.waits.map Prod.snd) []
        rw [hwaits]
        exact hok
      · show ∀ {p k}, s.commit = some (p, k) → _
        rw [hcommit]
        intro p k hk
        cases hk
  | reinstall hr hb hw => exact hI.recovering (by simp [hr]) hw ⟨rfl, rfl⟩ fun h => by cases h
  | recovered hr ht hw => exact hI.recovering (by simp [hr]) hw ⟨rfl, rfl⟩ fun _ => rfl

/-- A valid buffer that is not locked and not in the log shows its block of the disk. -/
def Sys.Coherent (s : Sys) : Prop :=
  ∀ x ∈ s.bufs, ∀ b, x.blockno = some b → x.valid = true → x.lock = none → b ∉ s.log.lh →
    x.data = s.disk b

theorem Inv.coherent (hI : Inv s) : s.Coherent := by
  intro x hx b hb hv hl hlh
  have hlook := lookup_of_mem hI.cache.distinct hx hb
  have hok := hI.cache.each hlook
  refine hok.clean hv ?_ ?_
  · by_contra hd
    exact hok.dirty (by simpa using hd) hl
  · -- whatever is pinned is in the log
    refine decide_eq_false fun hp => hlh ?_
    unfold Sys.pinned pinnedBlocks at hp
    split at hp
    · cases hp
    · exact List.mem_of_mem_drop hp
    · exact hp

/-- A step that is not harmless leaves a buffer that does not show the disk. -/
theorem incoherent_of_harmed (hI : Inv s) (hu : ¬Unharmed s a) (hst : step s a = some t) :
    ¬t.Coherent := by
  cases step_cases hI hst with
  | @copyinFail p b o src m pages x hr hp hx hl hd hm hok =>
      simp only [Unharmed, not_forall, not_or] at hu
      obtain ⟨_, hne, hlh⟩ := hu
      rw [bufData_of_lookup hx] at hne
      intro hcoh
      -- before the call the buffer showed the disk
      have hdisk : x.data = s.disk b := by
        refine (hI.cache.each hx).clean ((hI.cache.each hx).held (by simp [hl])) hd ?_
        rw [pinned_eq_lh hr (hI.commit_none hp)]
        exact decide_eq_false hlh
      have hx' := lookup_setData_self (d := Bytes.put x.data o (Xv6.copyin pages src m).1) hx
      have hrel := lookup_brelse hx' b
      rw [if_pos rfl] at hrel
      have hv := (hI.cache.each hx).held (by simp [hl])
      have := hcoh _ (mem_of_lookup hrel) b (blockno_of_lookup hrel) hv rfl hlh
      exact hne (this.trans hdisk.symm)
  | copyin hr hp hx hl hm hok =>
      simp only [Unharmed, hok] at hu
      exact absurd nofun hu
  | _ => exact absurd trivial hu

/-- **Cached blocks and the disk.** From a boot on any disk, through any operations, commits, crashes and
    recoveries: every valid buffer that is not locked and not in the log holds exactly the bytes of its block
    on disk, in every state of the run, if and only if every `either_copyin` of `writei` that fails has left
    the bytes of the block as they were or the block is in the log. -/
theorem coherent_iff_unharmed {start size : Nat} {acts : List Act}
    (h : Trace.run step (boot start size disk) acts = some s) :
    (∀ pre t, pre <+: acts → Trace.run step (boot start size disk) pre = some t → t.Coherent) ↔
      Trace.Along step Unharmed (boot start size disk) acts := by
  have hinv : ∀ {pre t}, Trace.run step (boot start size disk) pre = some t →
      Trace.Along step Unharmed (boot start size disk) pre → Inv t := fun hrun hal =>
    Trace.run_invariant_along (fun _ _ _ hI hu hst => inv_step hI hu hst) (inv_boot start size disk) hal hrun
  constructor
  · -- the first harmful step would show in the state after it
    induction acts using List.reverseRecOn generalizing s with
    | nil => exact fun _ => trivial
    | append_singleton acts a ih =>
        intro hcoh
        obtain ⟨u, hu, hst⟩ := Trace.run_snoc_eq_some.mp h
        have hal := ih hu fun pre t hpre => hcoh pre t (hpre.trans (List.prefix_append acts [a]))
        rw [Trace.along_snoc hu]
        refine ⟨hal, ?_⟩
        by_contra hharm
        exact incoherent_of_harmed (hinv hu hal) hharm hst (hcoh _ s List.prefix_rfl h)
  · rintro hal pre t ⟨post, rfl⟩ hrun
    exact (hinv hrun (Trace.along_of_append hal)).coherent

/-- One page of user memory, full of sevens, followed by an unmapped one. -/
def onePage : Pages := fun n => if n = 0 then some fun _ => 7 else none

/-- `writei` of two bytes from the last byte of that page into block 50 of a zero disk. -/
def halfWrite : List Act :=
  [.recover, .recover, .beginOp 0, .bget 0 50, .acquire 0 50, .copyin 0 50 onePage 0 4095 2]

/-- The first byte has reached the buffer, which nobody holds and which is not in the log. -/
theorem failed_writei_changes_buffer :
    ∃ s, Trace.run step (boot 2 30 fun _ _ => 0) halfWrite = some s ∧ ¬s.Coherent := by
  refine ⟨_, rfl, fun hc => ?_⟩
  have hx := hc _ List.mem_cons_self 50 rfl rfl rfl List.not_mem_nil
  have h0 := congrFun hx 0
  revert h0
  decide

/-- The same call with the whole source unmapped. -/
def unreadableWrite : List Act :=
  [.recover, .recover, .beginOp 0, .bget 0 50, .acquire 0 50, .copyin 0 50 onePage 0 4096 2]

theorem unreadable_writei_keeps_buffer :
    ∃ s, Trace.run step (boot 2 30 fun _ _ => 0) unreadableWrite = some s ∧ s.Coherent := by
  obtain ⟨s, hs⟩ : ∃ s, Trace.run step (boot 2 30 fun _ _ => 0) unreadableWrite = some s := ⟨_, rfl⟩
  have hlast : ∀ s, Unharmed s (.copyin 0 50 onePage 0 4096 2) := fun _ _ => Or.inl (Bytes.put_nil _ _)
  have hal : Trace.Along step Unharmed (boot 2 30 fun _ _ => 0) unreadableWrite := by
    refine Trace.along_of_forall ?_ _
    simpa [unreadableWrite, Unharmed] using hlast
  exact ⟨s, hs, (coherent_iff_unharmed hs).mpr hal _ s List.prefix_rfl hs⟩

end Xv6.Logging
