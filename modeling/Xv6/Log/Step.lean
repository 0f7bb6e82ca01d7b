import Xv6.Log.Machine

/-!
# `Log.Step` — what a step of the log machine does

The turns of `commit` and `recover_from_log` all have one shape: read one or two blocks through the cache,
write one block to the disk and to its buffer, release (`Wrote`). `Inv` is the book-keeping invariant of the
machine, and `step_cases` gives, under it, every step with its effect.
-/

namespace Xv6.Logging

/-! ## One disk write through the cache -/

/-- Block `b` has been written with `d`, and nothing else has changed for a reader. -/
structure Wrote (c : List Buf) (disk : Nat → Block) (w : List Nat) (b : Nat) (d : Block) (c' : List Buf)
    (pinned' : List Nat) : Prop where
  ok : CacheOk c' (Function.update disk b d) w pinned'
  shown_eq : shown c' (Function.update disk b d) = Function.update (shown c disk) b d
  locks : NoNewLocks c c'

section

variable {c c₁ c₂ : List Buf} {disk : Nat → Block} {w pinned : List Nat} {p a b : Nat}

theorem lookup_setData_self {x : Buf} {d : Block} (hx : lookup c b = some x) :
    lookup (setData c b d) b = some { x with data := d } :=
  lookup_setBuf_self (f := fun x => { x with data := d }) (fun _ => rfl) hx

theorem lookup_setData_of_ne {d : Block} (h : a ≠ b) : lookup (setData c b d) a = lookup c a :=
  lookup_setBuf_of_ne (f := fun x => { x with data := d }) (fun _ => rfl) h

theorem lookup_bunpin_self {x : Buf} (hx : lookup c b = some x) :
    lookup (bunpin c b) b = some { x with refcnt := x.refcnt - 1 } :=
  lookup_setBuf_self (f := fun x => { x with refcnt := x.refcnt - 1 }) (fun _ => rfl) hx

theorem lookup_bunpin_of_ne (h : a ≠ b) : lookup (bunpin c b) a = lookup c a :=
  lookup_setBuf_of_ne (f := fun x => { x with refcnt := x.refcnt - 1 }) (fun _ => rfl) h

theorem shown_setData {x : Buf} {d : Block} (hx : lookup c b = some x) (hv : x.valid = true) :
    shown (setData c b d) (Function.update disk b d) = Function.update (shown c disk) b d :=
  shown_setBuf_data (f := fun x => { x with data := d }) (fun _ => rfl) hx hv
    fun _ hb => Function.update_of_ne hb _ _

/-- Read a block, overwrite it, release it. -/
theorem wrote_one (h : CacheOk c disk w pinned) (hr : bread disk p c b = some c₁) (d : Block) :
    Wrote c disk w b d (brelse (setData c₁ b d) b) pinned := by
  have hread := h.bread hr
  obtain ⟨x, hx, hlock, hv, hd, _⟩ := hread.held
  have hx' := lookup_setData_self (d := d) hx
  refine ⟨?_, ?_, ?_⟩
  · exact (hread.ok.writeThrough hx d).brelse hx' (by simp [hlock]) hd
  · rw [← hread.shown_eq, ← shown_setData hx hv]
    exact funext (shown_brelse hx')
  · intro b' y hy hy'
    rw [lookup_brelse hx'] at hy
    split at hy
    · cases hy
      exact absurd rfl hy'
    · rename_i hb
      rw [lookup_setData_of_ne hb] at hy
      exact ⟨y, hread.old hb hy, rfl, id⟩

/-- Two blocks read one after the other: they differ, and both are held. -/
theorem read_two (h : CacheOk c disk w pinned) (hr₁ : bread disk p c a = some c₁)
    (hr₂ : bread disk p c₁ b = some c₂) :
    a ≠ b ∧ CacheOk c₂ disk w pinned ∧ shown c₂ disk = shown c disk ∧
      (∃ x, lookup c₂ a = some x ∧ x.lock = some p ∧ x.valid = true ∧ x.dirty = false ∧
        x.data = shown c disk a) ∧
      (∃ x, lookup c₂ b = some x ∧ x.lock = some p ∧ x.valid = true ∧ x.dirty = false ∧
        x.data = shown c disk b) ∧
      ∀ {b' x}, b' ≠ a → b' ≠ b → lookup c₂ b' = some x → lookup c b' = some x := by
  have h₁ := h.bread hr₁
  have h₂ := h₁.ok.bread hr₂
  obtain ⟨x, hx, hlock, hrest⟩ := h₁.held
  have hab : a ≠ b := by
    rintro rfl
    have := h₂.unheld x hx
    rw [hlock] at this
    cases this
  refine ⟨hab, h₂.ok, by rw [h₂.shown_eq, h₁.shown_eq], ⟨x, ?_, hlock, hrest⟩, ?_, ?_⟩
  · exact h₂.kept hab hx (by simp [hlock])
  · obtain ⟨y, hy, hylock, hyv, hyd, hydata⟩ := h₂.held
    exact ⟨y, hy, hylock, hyv, hyd, by rw [hydata, h₁.shown_eq]⟩
  · intro b' x ha hb hx
    exact h₁.old ha (h₂.old hb hx)

/-- Releasing the written block `a` and the other block `b` that was read for it. -/
theorem Wrote.of_release {c₃ : List Buf} {d : Block} {x y : Buf} (hab : a ≠ b)
    (hok : CacheOk c₃ (Function.update disk a d) w pinned)
    (hshown : shown c₃ (Function.update disk a d) = Function.update (shown c disk) a d)
    (hx : lookup c₃ a = some x) (hxl : x.lock = some p) (hxd : x.dirty = false)
    (hy : lookup c₃ b = some y) (hyl : y.lock = some p) (hyd : y.dirty = false)
    (hold : ∀ {b' z}, b' ≠ a → b' ≠ b → lookup c₃ b' = some z → lookup c b' = some z) :
    Wrote c disk w a d (brelse (brelse c₃ b) a) pinned := by
  have hx₁ : lookup (brelse c₃ b) a = some x := by rw [lookup_brelse hy, if_neg hab, hx]
  refine ⟨?_, ?_, ?_⟩
  · exact (hok.brelse hy (by simp [hyl]) hyd).brelse hx₁ (by simp [hxl]) hxd
  · rw [← hshown]
    funext b'
    rw [shown_brelse hx₁, shown_brelse hy]
  · intro b' z hz hz'
    rw [lookup_brelse hx₁] at hz
    split at hz
    · cases hz
      exact absurd rfl hz'
    · rename_i hba
      rw [lookup_brelse hy] at hz
      split at hz
      · cases hz
        exact absurd rfl hz'
      · rename_i hbb
        exact ⟨z, hold hba hbb hz, rfl, id⟩

/-- A turn of `write_log`: block `b` is copied to the log block `a`. -/
theorem wrote_log (h : CacheOk c disk w pinned) (hr₁ : bread disk p c a = some c₁)
    (hr₂ : bread disk p c₁ b = some c₂) :
    bufData c₂ b = shown c disk b ∧
      Wrote c disk w a (shown c disk b) (brelse (brelse (setData c₂ a (shown c disk b)) b) a) pinned := by
  obtain ⟨hab, hok, hshown, ⟨x, hx, hxl, hxv, hxd, _⟩, ⟨y, hy, hyl, _, hyd, hydata⟩, hold⟩ :=
    read_two h hr₁ hr₂
  refine ⟨by rw [bufData_of_lookup hy, hydata], ?_⟩
  refine .of_release hab (hok.writeThrough hx _) ?_ (lookup_setData_self hx) hxl hxd
    ((lookup_setData_of_ne hab.symm).trans hy) hyl hyd fun ha hb hz => ?_
  · rw [shown_setData hx hxv, hshown]
  · exact hold ha hb (by rwa [lookup_setData_of_ne ha] at hz)

/-- A turn of `install_trans`: the log block `a` is copied to block `b`. -/
theorem wrote_install (h : CacheOk c disk w pinned) (hr₁ : bread disk p c a = some c₁)
    (hr₂ : bread disk p c₁ b = some c₂) :
    bufData c₂ a = shown c disk a ∧
      Wrote c disk w b (shown c disk a) (brelse (brelse (setData c₂ b (shown c disk a)) a) b) pinned := by
  obtain ⟨hab, hok, hshown, ⟨x, hx, hxl, _, hxd, hxdata⟩, ⟨y, hy, hyl, hyv, hyd, _⟩, hold⟩ :=
    read_two h hr₁ hr₂
  refine ⟨by rw [bufData_of_lookup hx, hxdata], ?_⟩
  refine .of_release hab.symm (hok.writeThrough hy _) ?_ (lookup_setData_self hy) hyl hyd
    ((lookup_setData_of_ne hab).trans hx) hxl hxd fun hb ha hz => ?_
  · rw [shown_setData hy hyv, hshown]
  · exact hold ha hb (by rwa [lookup_setData_of_ne hb] at hz)

/-- The same turn in `commit`, which also unpins the block. -/
theorem wrote_install_unpin (h : CacheOk c disk w (b :: pinned)) (hb : b ∉ pinned)
    (hr₁ : bread disk p c a = some c₁) (hr₂ : bread disk p c₁ b = some c₂) :
    bufData c₂ a = shown c disk a ∧
      Wrote c disk w b (shown c disk a)
        (brelse (brelse (bunpin (setData c₂ b (shown c disk a)) b) a) b) pinned := by
  obtain ⟨hab, hok, hshown, ⟨x, hx, hxl, _, hxd, hxdata⟩, ⟨y, hy, hyl, hyv, hyd, _⟩, hold⟩ :=
    read_two h hr₁ hr₂
  refine ⟨by rw [bufData_of_lookup hx, hxdata], ?_⟩
  have hy₁ := lookup_setData_self (d := shown c disk a) hy
  have hunpin := (hok.writeThrough hy (shown c disk a)).bunpin hy₁ hb (by rw [Function.update_self])
  refine .of_release hab.symm hunpin ?_ (lookup_bunpin_self hy₁) hyl hyd
    ((lookup_bunpin_of_ne hab).trans ((lookup_setData_of_ne hab).trans hx)) hxl hxd fun hbb ha hz => ?_
  · rw [← hshown, ← shown_setData hy hyv, hshown]
    funext b'
    exact shown_setBuf_same (f := fun x => { x with refcnt := x.refcnt - 1 }) (fun _ => rfl) hy₁ rfl rfl b'
  · exact hold ha hbb (by rwa [lookup_bunpin_of_ne hbb, lookup_setData_of_ne hbb] at hz)

end

/-! ## The invariant -/

/-- The blocks of the log `lh` that are pinned in the cache. `install_trans` unpins them one by one. -/
def pinnedBlocks (lh : List Nat) : Option Boot → Option (Nat × Stage) → List Nat
  | some _, _ => []
  | none, some (_, .install tail) => lh.drop tail
  | none, _ => lh

def Sys.pinned (s : Sys) : List Nat := pinnedBlocks s.log.lh s.boot s.commit

/-- The loop counter of `commit` is in range. -/
def Stage.ok (n : Nat) : Stage → Prop
  | .writeLog tail => tail ≤ n ∧ 0 < n
  | .install tail => tail ≤ n ∧ 0 < n
  | .done => n = 0

/-- Nothing runs besides `recover_from_log`. -/
structure Sys.Alone (s : Sys) : Prop where
  waits : s.waits = []
  ops : s.ops = []
  commit : s.commit = none
  unlocked : ∀ {b x}, lookup s.bufs b = some x → x.lock = none

structure Inv (s : Sys) : Prop where
  cache : CacheOk s.bufs s.disk (s.waits.map Prod.snd) s.pinned
  outstanding : s.log.outstanding = s.ops.length
  committing : s.log.committing = s.commit.isSome
  quiet : s.commit.isSome = true → s.ops = []
  dirty : ∀ {b x}, lookup s.bufs b = some x → x.dirty = true → ∃ p ∈ s.ops, x.lock = some p
  held : ∀ {b x}, lookup s.bufs b = some x → x.lock ≠ none → s.log.fsBlock b
  waiting : ∀ e ∈ s.waits, s.log.fsBlock e.2
  lh : s.boot = none → s.log.lh.Nodup ∧ (∀ b ∈ s.log.lh, s.log.fsBlock b) ∧
    s.log.lh.length ≤ LOGSIZE ∧ s.log.lh.length ≤ s.log.size - 1
  stage : ∀ {p k}, s.commit = some (p, k) → k.ok s.log.lh.length
  alone : s.boot ≠ none → s.Alone

/-! ## The steps -/

/-- Every step of the machine with its guard and its effect. -/
inductive Step (s : Sys) : Act → Sys → Prop
  | beginOp {p : Nat} {l : Log} (hr : s.boot = none) (hp : p ∉ s.ops) (hl : beginOp s.log = some l) :
      Step s (.beginOp p) { s with log := l, ops := p :: s.ops }
  | bget {p b : Nat} {c : List Buf} (hr : s.boot = none) (hb : s.log.fsBlock b)
      (hc : bget s.bufs b = some c) :
      Step s (.bget p b) { s with bufs := c, waits := (p, b) :: s.waits }
  | acquire {p b : Nat} {c : List Buf} (hr : s.boot = none) (hw : (p, b) ∈ s.waits)
      (hc : acquire s.disk p s.bufs b = some c) :
      Step s (.acquire p b) { s with bufs := c, waits := s.waits.erase (p, b) }
  | modify {p b : Nat} {d : Block} {x : Buf} (hr : s.boot = none) (hp : p ∈ s.ops)
      (hx : lookup s.bufs b = some x) (hl : x.lock = some p) :
      Step s (.modify p b d)
        { s with bufs := setBuf s.bufs b fun x => { x with data := d, dirty := true } }
  | copyin {p b o src m : Nat} {pages : Pages} {x : Buf} (hr : s.boot = none) (hp : p ∈ s.ops)
      (hx : lookup s.bufs b = some x) (hl : x.lock = some p) (hm : o + m ≤ BSIZE)
      (hok : (Xv6.copyin pages src m).2 = true) :
      Step s (.copyin p b pages o src m)
        { s with bufs := setBuf s.bufs b fun y =>
            { y with data := Bytes.put x.data o (Xv6.copyin pages src m).1, dirty := true } }
  | copyinFail {p b o src m : Nat} {pages : Pages} {x : Buf} (hr : s.boot = none) (hp : p ∈ s.ops)
      (hx : lookup s.bufs b = some x) (hl : x.lock = some p) (hd : x.dirty = false) (hm : o + m ≤ BSIZE)
      (hok : (Xv6.copyin pages src m).2 = false) :
      Step s (.copyin p b pages o src m)
        { s with bufs := brelse (setData s.bufs b (Bytes.put x.data o (Xv6.copyin pages src m).1)) b }
  | logNew {p b : Nat} {x : Buf} (hr : s.boot = none) (hp : p ∈ s.ops) (hx : lookup s.bufs b = some x)
      (hl : x.lock = some p) (hlen : s.log.lh.length < LOGSIZE) (hsize : s.log.lh.length < s.log.size - 1)
      (hb : b ∉ s.log.lh) :
      Step s (.logWrite p b)
        { s with log := { s.log with lh := s.log.lh ++ [b] },
                 bufs := setBuf s.bufs b fun x => { x with refcnt := x.refcnt + 1, dirty := false } }
  | logAbsorb {p b : Nat} {x : Buf} (hr : s.boot = none) (hp : p ∈ s.ops)
      (hx : lookup s.bufs b = some x) (hl : x.lock = some p) (hb : b ∈ s.log.lh) :
      Step s (.logWrite p b) { s with bufs := setBuf s.bufs b fun x => { x with dirty := false } }
  | brelse {p b : Nat} {x : Buf} (hr : s.boot = none) (hx : lookup s.bufs b = some x)
      (hl : x.lock = some p) (hd : x.dirty = false) :
      Step s (.brelse p b) { s with bufs := brelse s.bufs b }
  | endOp {p : Nat} (hr : s.boot = none) (hp : p ∈ s.ops) (hfree : ∀ x ∈ s.bufs, x.lock ≠ some p)
      (hc : s.log.committing = false) (ho : 2 ≤ s.log.outstanding) :
      Step s (.endOp p)
        { s with log := { s.log with outstanding := s.log.outstanding - 1 }, ops := s.ops.erase p }
  | lastOp {p : Nat} (hr : s.boot = none) (hp : p ∈ s.ops) (hfree : ∀ x ∈ s.bufs, x.lock ≠ some p)
      (hc : s.log.committing = false) (ho : s.log.outstanding ≤ 1) :
      Step s (.endOp p)
        { s with log := { s.log with outstanding := 0, committing := true }, ops := s.ops.erase p,
                 commit := some (p, if s.log.lh = [] then .done else .writeLog 0) }
  | writeLog {p tail b : Nat} {c : List Buf} (hr : s.boot = none)
      (hk : s.commit = some (p, .writeLog tail)) (hb : s.log.lh[tail]? = some b)
      (hw : Wrote s.bufs s.disk (s.waits.map Prod.snd) (s.log.start + tail + 1)
        (shown s.bufs s.disk b) c s.log.lh) :
      Step s (.writeLog p)
        { s with bufs := c,
                 disk := Function.update s.disk (s.log.start + tail + 1) (shown s.bufs s.disk b),
                 commit := some (p, .writeLog (tail + 1)) }
  | writeHead {p : Nat} {c : List Buf} (hr : s.boot = none)
      (hk : s.commit = some (p, .writeLog s.log.lh.length))
      (hw : Wrote s.bufs s.disk (s.waits.map Prod.snd) s.log.start
        (writeHead (shown s.bufs s.disk s.log.start) s.log.lh) c s.log.lh) :
      Step s (.writeHead p)
        { s with bufs := c,
                 disk := Function.update s.disk s.log.start
                   (writeHead (shown s.bufs s.disk s.log.start) s.log.lh),
                 commit := some (p, .install 0) }
  | install {p tail b : Nat} {c : List Buf} (hr : s.boot = none)
      (hk : s.commit = some (p, .install tail)) (hb : s.log.lh[tail]? = some b)
      (hw : Wrote s.bufs s.disk (s.waits.map Prod.snd) b
        (shown s.bufs s.disk (s.log.start + tail + 1)) c (s.log.lh.drop (tail + 1))) :
      Step s (.install p)
        { s with bufs := c,
                 disk := Function.update s.disk b (shown s.bufs s.disk (s.log.start + tail + 1)),
                 commit := some (p, .install (tail + 1)) }
  | clearHead {p : Nat} {c : List Buf} (hr : s.boot = none)
      (hk : s.commit = some (p, .install s.log.lh.length))
      (hw : Wrote s.bufs s.disk (s.waits.map Prod.snd) s.log.start
        (writeHead (shown s.bufs s.disk s.log.start) []) c []) :
      Step s (.clearHead p)
        { s with bufs := c,
                 disk := Function.update s.disk s.log.start
                   (writeHead (shown s.bufs s.disk s.log.start) []),
                 log := { s.log with lh := [] }, commit := some (p, .done) }
  | endCommit {p : Nat} (hr : s.boot = none) (hk : s.commit = some (p, .done)) :
      Step s (.endCommit p) { s with log := endCommit s.log, commit := none }
  | crash : Step s .crash (boot s.log.start s.log.size s.disk)
  | readHead {c : List Buf} (hr : s.boot = some .readHead)
      (hok : CacheOk c s.disk [] []) (hshown : shown c s.disk = shown s.bufs s.disk)
      (hl : ∀ {b x}, lookup c b = some x → x.lock = none) :
      Step s .recover
        { s with bufs := c, log := { s.log with lh := readHead (shown s.bufs s.disk s.log.start) },
                 boot := some (.install 0) }
  | reinstall {tail b : Nat} {c : List Buf} (hr : s.boot = some (.install tail))
      (hb : s.log.lh[tail]? = some b)
      (hw : Wrote s.bufs s.disk [] b (shown s.bufs s.disk (s.log.start + tail + 1)) c []) :
      Step s .recover
        { s with bufs := c,
                 disk := Function.update s.disk b (shown s.bufs s.disk (s.log.start + tail + 1)),
                 boot := some (.install (tail + 1)) }
  | recovered {tail : Nat} {c : List Buf} (hr : s.boot = some (.install tail))
      (ht : s.log.lh.length ≤ tail)
      (hw : Wrote s.bufs s.disk [] s.log.start (writeHead (shown s.bufs s.disk s.log.start) []) c []) :
      Step s .recover
        { s with bufs := c,
                 disk := Function.update s.disk s.log.start
                   (writeHead (shown s.bufs s.disk s.log.start) []),
                 log := { s.log with lh := [] }, boot := none }

variable {s t : Sys} {a : Act} {p b tail : Nat} {w pinned : List Nat}

theorem holds_iff : s.holds p b = true ↔ ∃ x, lookup s.bufs b = some x ∧ x.lock = some p := by
  unfold Sys.holds
  split
  · rename_i x hx
    simp [hx]
  · rename_i hx
    simp [hx]

theorem clean_iff {x : Buf} (hx : lookup s.bufs b = some x) : s.clean b = true ↔ x.dirty = false := by
  simp [Sys.clean, hx]

theorem writeHeadStep_eq_some {lh : List Nat} (h : CacheOk s.bufs s.disk w pinned)
    (hs : writeHeadStep s p lh = some t) :
    ∃ c, Wrote s.bufs s.disk w s.log.start (writeHead (shown s.bufs s.disk s.log.start) lh) c pinned ∧
      t = { s with bufs := c,
                   disk := Function.update s.disk s.log.start
                     (writeHead (shown s.bufs s.disk s.log.start) lh) } := by
  obtain ⟨c, hc, rfl⟩ := Option.map_eq_some_iff.mp hs
  obtain ⟨x, hx, _, _, _, hdata⟩ := (h.bread hc).held
  have hd : bufData c s.log.start = shown s.bufs s.disk s.log.start := by
    rw [bufData_of_lookup hx, hdata]
  rw [hd]
  exact ⟨_, wrote_one h hc _, rfl⟩

theorem writeLogStep_eq_some (h : CacheOk s.bufs s.disk w pinned)
    (hs : writeLogStep s p tail = some t) :
    ∃ b c, s.log.lh[tail]? = some b ∧
      Wrote s.bufs s.disk w (s.log.start + tail + 1) (shown s.bufs s.disk b) c pinned ∧
      t = { s with bufs := c,
                   disk := Function.update s.disk (s.log.start + tail + 1) (shown s.bufs s.disk b) } := by
  unfold writeLogStep at hs
  split at hs
  · cases hs
  · rename_i b hb
    obtain ⟨c₁, hc₁, hs⟩ := Option.bind_eq_some_iff.mp hs
    obtain ⟨c₂, hc₂, rfl⟩ := Option.map_eq_some_iff.mp hs
    obtain ⟨hd, hw⟩ := wrote_log h hc₁ hc₂
    rw [hd]
    exact ⟨b, _, hb, hw, rfl⟩

/-- A turn of `install_trans` of `commit`. -/
theorem installStep_eq_some (hn : s.log.lh.Nodup) (h : CacheOk s.bufs s.disk w (s.log.lh.drop tail))
    (hs : installStep s p tail false = some t) :
    ∃ b c, s.log.lh[tail]? = some b ∧
      Wrote s.bufs s.disk w b (shown s.bufs s.disk (s.log.start + tail + 1)) c
        (s.log.lh.drop (tail + 1)) ∧
      t = { s with bufs := c,
                   disk := Function.update s.disk b (shown s.bufs s.disk (s.log.start + tail + 1)) } := by
  unfold installStep at hs
  split at hs
  · cases hs
  · rename_i b hb
    obtain ⟨c₁, hc₁, hs⟩ := Option.bind_eq_some_iff.mp hs
    obtain ⟨c₂, hc₂, rfl⟩ := Option.map_eq_some_iff.mp hs
    obtain ⟨hlt, hbe⟩ := List.getElem?_eq_some_iff.mp hb
    have hdrop : s.log.lh.drop tail = b :: s.log.lh.drop (tail + 1) := by
      rw [List.drop_eq_getElem_cons hlt, hbe]
    have hnot : b ∉ s.log.lh.drop (tail + 1) := by
      have := hn.sublist (List.drop_sublist tail s.log.lh)
      rw [hdrop] at this
      exact (List.nodup_cons.mp this).1
    rw [hdrop] at h
    obtain ⟨hd, hw⟩ := wrote_install_unpin h hnot hc₁ hc₂
    rw [hd]
    exact ⟨b, _, hb, hw, rfl⟩

/-- A turn of `install_trans` of `recover_from_log`. -/
theorem reinstallStep_eq_some (h : CacheOk s.bufs s.disk w pinned)
    (hs : installStep s p tail true = some t) :
    ∃ b c, s.log.lh[tail]? = some b ∧
      Wrote s.bufs s.disk w b (shown s.bufs s.disk (s.log.start + tail + 1)) c pinned ∧
      t = { s with bufs := c,
                   disk := Function.update s.disk b (shown s.bufs s.disk (s.log.start + tail + 1)) } := by
  unfold installStep at hs
  split at hs
  · cases hs
  · rename_i b hb
    obtain ⟨c₁, hc₁, hs⟩ := Option.bind_eq_some_iff.mp hs
    obtain ⟨c₂, hc₂, rfl⟩ := Option.map_eq_some_iff.mp hs
    obtain ⟨hd, hw⟩ := wrote_install h hc₁ hc₂
    rw [hd]
    exact ⟨b, _, hb, hw, rfl⟩

theorem recover_step_cases {k : Boot} (hI : Inv s) (hr : s.boot = some k) (hst : recover s k = some t) :
    Step s .recover t := by
  have halone := hI.alone (by simp [hr])
  have hcache : CacheOk s.bufs s.disk [] [] := by
    have := hI.cache
    rwa [halone.waits, show s.pinned = [] by simp [Sys.pinned, pinnedBlocks, hr]] at this
  cases k with
  | readHead =>
      obtain ⟨c, hc, rfl⟩ := Option.map_eq_some_iff.mp hst
      have hread := hcache.bread hc
      obtain ⟨x, hx, hlock, _, hd, hdata⟩ := hread.held
      rw [bufData_of_lookup hx, hdata]
      refine .readHead hr (hread.ok.brelse hx (by simp [hlock]) hd) ?_ ?_
      · rw [← hread.shown_eq]
        exact funext (shown_brelse hx)
      · intro b y hy
        rw [lookup_brelse hx] at hy
        split at hy
        · cases hy
          rfl
        · rename_i hb
          exact halone.unlocked (hread.old hb hy)
  | install tail =>
      simp only [recover] at hst
      split at hst
      · obtain ⟨u, hu, rfl⟩ := Option.map_eq_some_iff.mp hst
        obtain ⟨b, c, hb, hw, rfl⟩ := reinstallStep_eq_some hcache hu
        exact .reinstall hr hb hw
      · rename_i ht
        obtain ⟨u, hu, rfl⟩ := Option.map_eq_some_iff.mp hst
        obtain ⟨c, hw, rfl⟩ := writeHeadStep_eq_some hcache hu
        exact .recovered hr (by omega) hw

theorem running_step_cases (hI : Inv s) (hr : s.boot = none) (hst : running s a = some t) :
    Step s a t := by
  have hcache := hI.cache
  cases a with
  | crash => cases hst
  | recover => cases hst
  | beginOp p =>
      obtain ⟨hp, hst⟩ := Option.ite_none_right_eq_some.mp hst
      obtain ⟨l, hl, rfl⟩ := Option.map_eq_some_iff.mp hst
      exact .beginOp hr hp hl
  | bget p b =>
      obtain ⟨⟨hb, _⟩, hst⟩ := Option.ite_none_right_eq_some.mp hst
      obtain ⟨c, hc, rfl⟩ := Option.map_eq_some_iff.mp hst
      exact .bget hr hb hc
  | acquire p b =>
      obtain ⟨hw, hst⟩ := Option.ite_none_right_eq_some.mp hst
      obtain ⟨c, hc, rfl⟩ := Option.map_eq_some_iff.mp hst
      exact .acquire hr hw hc
  | modify p b d =>
      obtain ⟨⟨hp, hh⟩, hst⟩ := Option.ite_none_right_eq_some.mp hst
      obtain ⟨x, hx, hl⟩ := holds_iff.mp hh
      cases hst
      exact .modify hr hp hx hl
  | copyin p b pages o src m =>
      obtain ⟨⟨hp, hh, hd, hm⟩, hst⟩ := Option.ite_none_right_eq_some.mp hst
      obtain ⟨x, hx, hl⟩ := holds_iff.mp hh
      cases hst
      unfold copyinStep
      rw [bufData_of_lookup hx]
      by_cases hok : (Xv6.copyin pages src m).2 = true
      · simp only [hok, if_true]
        exact .copyin hr hp hx hl hm hok
      · simp only [hok]
        exact .copyinFail hr hp hx hl ((clean_iff hx).mp hd) hm (by simpa using hok)
  | logWrite p b =>
      obtain ⟨⟨hp, hh⟩, hst⟩ := Option.ite_none_right_eq_some.mp hst
      obtain ⟨x, hx, hl⟩ := holds_iff.mp hh
      unfold logWriteStep at hst
      split at hst
      · cases hst
      · rename_i l heq
        obtain ⟨hlen, hsize, _, hcase⟩ := logWrite_eq_ok heq
        rcases hcase with ⟨hf, _⟩ | ⟨_, hb, rfl⟩
        · cases hf
        · cases hst
          exact .logNew hr hp hx hl hlen hsize hb
      · rename_i l heq
        obtain ⟨hlen, hsize, _, hcase⟩ := logWrite_eq_ok heq
        rcases hcase with ⟨_, hb, rfl⟩ | ⟨hf, _⟩
        · cases hst
          exact .logAbsorb hr hp hx hl hb
        · cases hf
  | brelse p b =>
      obtain ⟨⟨hh, hd⟩, hst⟩ := Option.ite_none_right_eq_some.mp hst
      obtain ⟨x, hx, hl⟩ := holds_iff.mp hh
      cases hst
      exact .brelse hr hx hl ((clean_iff hx).mp hd)
  | endOp p =>
      obtain ⟨⟨hp, _, hfree⟩, hst⟩ := Option.ite_none_right_eq_some.mp hst
      unfold endOpStep at hst
      split at hst
      · cases hst
      · rename_i l heq
        obtain ⟨hc, hcase⟩ := endOp_eq_ok heq
        rcases hcase with ⟨_, ho, rfl⟩ | ⟨hf, _⟩
        · cases hst
          exact .lastOp hr hp hfree hc ho
        · cases hf
      · rename_i l heq
        obtain ⟨hc, hcase⟩ := endOp_eq_ok heq
        rcases hcase with ⟨hf, _⟩ | ⟨_, ho, rfl⟩
        · cases hf
        · cases hst
          exact .endOp hr hp hfree hc ho
  | writeLog p =>
      simp only [running] at hst
      split at hst
      · rename_i q tail hk
        obtain ⟨⟨rfl, _⟩, hst⟩ := Option.ite_none_right_eq_some.mp hst
        obtain ⟨u, hu, rfl⟩ := Option.map_eq_some_iff.mp hst
        have hpin : s.pinned = s.log.lh := by simp [Sys.pinned, pinnedBlocks, hr, hk]
        rw [hpin] at hcache
        obtain ⟨b, c, hb, hw, rfl⟩ := writeLogStep_eq_some hcache hu
        exact .writeLog hr hk hb hw
      · cases hst
  | writeHead p =>
      simp only [running] at hst
      split at hst
      · rename_i q tail hk
        obtain ⟨⟨rfl, rfl⟩, hmap⟩ := Option.ite_none_right_eq_some.mp hst
        obtain ⟨u, hu, rfl⟩ := Option.map_eq_some_iff.mp hmap
        have hpin : s.pinned = s.log.lh := by simp [Sys.pinned, pinnedBlocks, hr, hk]
        rw [hpin] at hcache
        obtain ⟨c, hw, rfl⟩ := writeHeadStep_eq_some hcache hu
        exact .writeHead hr hk hw
      · cases hst
  | install p =>
      simp only [running] at hst
      split at hst
      · rename_i q tail hk
        obtain ⟨⟨rfl, _⟩, hst⟩ := Option.ite_none_right_eq_some.mp hst
        obtain ⟨u, hu, rfl⟩ := Option.map_eq_some_iff.mp hst
        have hpin : s.pinned = s.log.lh.drop tail := by simp [Sys.pinned, pinnedBlocks, hr, hk]
        rw [hpin] at hcache
        obtain ⟨b, c, hb, hw, rfl⟩ := installStep_eq_some (hI.lh hr).1 hcache hu
        exact .install hr hk hb hw
      · cases hst
  | clearHead p =>
      simp only [running] at hst
      split at hst
      · rename_i q tail hk
        obtain ⟨⟨rfl, rfl⟩, hmap⟩ := Option.ite_none_right_eq_some.mp hst
        obtain ⟨u, hu, rfl⟩ := Option.map_eq_some_iff.mp hmap
        have hpin : s.pinned = [] := by simp [Sys.pinned, pinnedBlocks, hr, hk]
        rw [hpin] at hcache
        obtain ⟨c, hw, rfl⟩ := writeHeadStep_eq_some hcache hu
        exact .clearHead hr hk hw
      · cases hst
  | endCommit p =>
      obtain ⟨hk, hst⟩ := Option.ite_none_right_eq_some.mp hst
      cases hst
      exact .endCommit hr hk

/-- **Every step is one of `Step`.** -/
theorem step_cases (hI : Inv s) (hst : step s a = some t) : Step s a t := by
  unfold step at hst
  split at hst
  · cases hst
    exact .crash
  · split at hst
    · exact recover_step_cases hI (by assumption) hst
    · cases hst
  · obtain ⟨hr, hst⟩ := Option.ite_none_right_eq_some.mp hst
    exact running_step_cases hI hr hst

end Xv6.Logging
