import Xv6.Lib.RedoLog
import Xv6.Log.Coherence

/-!
# `Log.Crash` — crash atomicity of the log

What an observer of the calls expects is written down in `History`: the contents of every block as the
operations see them, and the commit groups, where a group is closed by an `end_op` that leaves no operation
in progress and holds the blocks logged since the group before. `Tracks` says how the machine carries a
history in its cache and on its disk at each point of `commit()`; `Recoverable` says what recovery would
make of a disk. Each write of `commit()` keeps the disk recoverable to the groups before or to the groups
with the new one, and `recover_from_log` keeps what it recovers to, however often it is cut off.
-/

namespace Xv6.Logging

/-! ## Histories -/

/-- Blocks with the contents they are committed with. -/
abbrev Group := List (Nat × Block)

/-- `view` is what the operations have written, committed or not, `active` the processes in an operation,
    `logged` the blocks logged since the last group, `returned` the number of groups whose `commit()` has
    returned. -/
structure History where
  view : Nat → Block
  active : List Nat
  logged : List Nat
  groups : List Group
  returned : Nat

def History.start (disk : Nat → Block) : History where
  view := disk
  active := []
  logged := []
  groups := []
  returned := 0

/-- The end of an operation closes a group if no other operation is in progress. The `commit()` of a group
    without blocks returns at once. -/
def History.endOp (h : History) (p : Nat) : History :=
  if h.active.erase p = [] then
    { h with active := [], logged := [], groups := h.groups ++ [h.logged.map fun b => (b, h.view b)],
             returned := if h.logged = [] then h.groups.length + 1 else h.returned }
  else { h with active := h.active.erase p }

/-- `clearHead` is the last step of `commit()`. -/
def History.next (h : History) : Act → History
  | .beginOp p => { h with active := p :: h.active }
  | .modify _ b d => { h with view := Function.update h.view b d }
  | .copyin _ b pages o src m =>
      { h with view := Function.update h.view b (Bytes.put (h.view b) o (Xv6.copyin pages src m).1) }
  | .logWrite _ b => { h with logged := if b ∈ h.logged then h.logged else h.logged ++ [b] }
  | .endOp p => h.endOp p
  | .clearHead _ => { h with returned := h.groups.length }
  | _ => h

/-- The history of a run that starts on the given disk. -/
def history (disk : Nat → Block) (acts : List Act) : History := acts.foldl History.next (.start disk)

theorem history_snoc (disk : Nat → Block) (acts : List Act) (a : Act) :
    history disk (acts ++ [a]) = (history disk acts).next a := by
  simp [history]

/-- The disk after the given groups. -/
def after (disk : Nat → Block) (gs : List Group) : Nat → Block :=
  gs.foldl (fun d g => RedoLog.install g d) disk

theorem after_snoc (disk : Nat → Block) (gs : List Group) (g : Group) :
    after disk (gs ++ [g]) = RedoLog.install g (after disk gs) := by
  simp [after]

/-- A group is only ever closed when no operation is in progress. -/
theorem History.active_of_closes {h : History} {a : Act} (hne : (h.next a).groups ≠ h.groups) :
    (h.next a).active = [] := by
  cases a with
  | endOp p =>
      simp only [History.next, History.endOp] at hne ⊢
      split at hne
      · rename_i hlast
        rw [if_pos hlast]
      · exact absurd rfl hne
  | _ => exact absurd rfl hne

/-- A step of a run of operations, each of which logs what it changes: no crash, and no `either_copyin` that
    fails after it has copied a byte. -/
def Act.Plain : Act → Prop
  | .crash => False
  | .copyin _ _ pages _ src m => (Xv6.copyin pages src m).2 = false → (Xv6.copyin pages src m).1 = []
  | _ => True

variable {s t : Sys} {a : Act}

theorem unharmed_of_plain (h : a.Plain) : Unharmed s a := by
  cases a with
  | copyin p b pages o src m =>
      intro hf
      rw [h hf]
      exact Or.inl (Bytes.put_nil _ _)
  | _ => trivial

/-! ## The header block -/

theorem readHead_writeHead {hd : Block} {lh : List Nat} (hlen : lh.length ≤ LOGSIZE)
    (hlh : ∀ b ∈ lh, b < 2 ^ 32) : readHead (writeHead hd lh) = lh := by
  have hn : Bytes.load (writeHead hd lh) 0 4 = lh.length := by
    rw [writeHead, Bytes.load_storeWords_of_disjoint (Or.inl (by omega)), Bytes.load_store]
    exact lt_of_le_of_lt hlen (by decide)
  rw [readHead, hn, if_pos (lt_of_le_of_lt hlen (by decide)), writeHead,
    Bytes.loadWords_storeWords fun b hb => lt_of_lt_of_le (hlh b hb) (by decide)]

theorem readHead_writeHead_nil (hd : Block) : readHead (writeHead hd []) = [] :=
  readHead_writeHead (Nat.zero_le _) nofun

/-! ## What recovery makes of a disk -/

/-- The writes that the log blocks hold for the block numbers `lh`. -/
def logWrites (start : Nat) (disk : Nat → Block) (lh : List Nat) : Group :=
  lh.zipIdx.map fun e => (e.1, disk (start + e.2 + 1))

/-- The blocks in the header are blocks of the file system, and installing them gives `target`. -/
structure Recoverable (l : Log) (disk target : Nat → Block) : Prop where
  fs : ∀ b ∈ readHead (disk l.start), l.fsBlock b
  fits : (readHead (disk l.start)).length ≤ l.size - 1
  replay : ∀ b, l.fsBlock b →
    RedoLog.install (logWrites l.start disk (readHead (disk l.start))) disk b = target b

variable {l l' : Log} {disk disk' target d0 : Nat → Block} {lh : List Nat} {b i : Nat}

theorem map_fst_logWrites (start : Nat) (disk : Nat → Block) (lh : List Nat) :
    (logWrites start disk lh).map Prod.fst = lh := by
  simp [logWrites, Function.comp_def]

theorem logWrites_congr {start : Nat}
    (h : ∀ i, i < lh.length → disk' (start + i + 1) = disk (start + i + 1)) :
    logWrites start disk' lh = logWrites start disk lh := by
  refine List.map_congr_left fun e he => ?_
  rw [h e.2 (by simpa using List.snd_lt_of_mem_zipIdx he)]

/-- The log blocks hold the contents `view` of the blocks `lh`. -/
theorem logWrites_eq {start : Nat} {view : Nat → Block}
    (h : ∀ i b, lh[i]? = some b → disk (start + i + 1) = view b) :
    logWrites start disk lh = lh.map fun b => (b, view b) := by
  refine List.ext_getElem (by simp [logWrites]) fun i hi hi' => ?_
  simp only [logWrites, List.getElem_map, List.getElem_zipIdx, Nat.zero_add]
  rw [h i _ (List.getElem?_eq_getElem _)]

/-- The last write of the log to a block is what replaying it shows. -/
theorem replay_last {start : Nat} (hb : lh[i]? = some b) (hlast : b ∉ lh.drop (i + 1)) :
    RedoLog.install (logWrites start disk lh) disk' b = disk (start + i + 1) := by
  obtain ⟨hi, rfl⟩ := List.getElem?_eq_some_iff.mp hb
  have hlen : i < (logWrites start disk lh).length := by simpa [logWrites] using hi
  have hsplit : logWrites start disk lh = (logWrites start disk lh).take i ++
      (lh[i], disk (start + i + 1)) :: (logWrites start disk lh).drop (i + 1) := by
    conv_lhs => rw [← List.take_append_drop i (logWrites start disk lh), List.drop_eq_getElem_cons hlen]
    simp [logWrites]
  rw [hsplit]
  refine RedoLog.install_last (x := (lh[i], disk (start + i + 1))) ?_
  rwa [List.map_drop, map_fst_logWrites]

theorem recoverable_of_empty (h : readHead (disk l.start) = [])
    (ht : ∀ b, l.fsBlock b → disk b = target b) : Recoverable l disk target := by
  refine ⟨by simp [h], by simp [h], fun b hb => ?_⟩
  rw [h]
  exact ht b hb

/-- The header block is not a block of the file system. -/
theorem Log.fsBlock.ne_start (hb : l.fsBlock b) (hsize : 0 < l.size) : b ≠ l.start := by
  rintro rfl
  exact hb.2 ⟨le_rfl, by omega⟩

/-- Nor is a log block. -/
theorem Log.fsBlock.ne_logBlock (hb : l.fsBlock b) (hi : i < l.size - 1) : b ≠ l.start + i + 1 := by
  rintro rfl
  exact hb.2 ⟨by omega, by omega⟩

/-- Installing one block of the log leaves the disk recoverable. -/
theorem Recoverable.install (h : Recoverable l disk target) (hsize : 0 < l.size)
    (hb : b ∈ readHead (disk l.start)) (d : Block) :
    Recoverable l (Function.update disk b d) target := by
  have hfs := h.fs b hb
  have hhead : Function.update disk b d l.start = disk l.start :=
    Function.update_of_ne (hfs.ne_start hsize).symm _ _
  have hwrites : logWrites l.start (Function.update disk b d) (readHead (disk l.start)) =
      logWrites l.start disk (readHead (disk l.start)) :=
    logWrites_congr fun i hi =>
      Function.update_of_ne (hfs.ne_logBlock (lt_of_lt_of_le hi h.fits)).symm _ _
  refine ⟨?_, ?_, fun b' hb' => ?_⟩
  · rw [hhead]
    exact h.fs
  · rw [hhead]
    exact h.fits
  · rw [hhead, hwrites, ← h.replay b' hb']
    apply RedoLog.install_congr
    rw [map_fst_logWrites]
    by_cases hbb : b' = b
    · exact Or.inr (hbb ▸ hb)
    · exact Or.inl (Function.update_of_ne hbb _ _)

/-! ## Recovery -/

/-- Where recovery stands if it is to end with `target`. -/
def Recovering (target : Nat → Block) (s : Sys) : Prop :=
  match s.boot with
  | some .readHead => Recoverable s.log s.disk target
  | some (.install tail) =>
      Recoverable s.log s.disk target ∧ s.log.lh = readHead (s.disk s.log.start) ∧
        ∀ b, s.log.fsBlock b → b ∉ s.log.lh.drop tail → s.disk b = target b
  | none => readHead (s.disk s.log.start) = [] ∧ ∀ b, s.log.fsBlock b → s.disk b = target b

theorem Recovering.recoverable (h : Recovering target s) : Recoverable s.log s.disk target := by
  unfold Recovering at h
  split at h
  · exact h
  · exact h.1
  · exact recoverable_of_empty h.1 h.2

/-- While `recover_from_log` runs, the cache shows the disk. -/
theorem Inv.shown_eq_disk (hI : Inv s) (hr : s.boot ≠ none) : shown s.bufs s.disk = s.disk := by
  have halone := hI.alone hr
  have hpin : s.pinned = [] := by
    obtain ⟨k, hk⟩ := Option.ne_none_iff_exists'.mp hr
    simp [Sys.pinned, pinnedBlocks, hk]
  funext b
  refine hI.cache.shown_eq_disk (by simp [hpin]) fun x hx => ?_
  by_contra hd
  obtain ⟨p, hp, _⟩ := hI.dirty hx (by simpa using hd)
  rw [halone.ops] at hp
  cases hp

/-- A label of a recovery that may be cut off and started again. -/
def Act.Recovery (a : Act) : Prop := a = .crash ∨ a = .recover

/-- No step moves the log. -/
theorem area_step (hI : Inv s) (hst : step s a = some t) :
    t.log.start = s.log.start ∧ t.log.size = s.log.size := by
  cases step_cases hI hst with
  | beginOp hr hp hl =>
      obtain ⟨_, _, rfl⟩ := beginOp_eq_some hl
      exact ⟨rfl, rfl⟩
  | _ => exact ⟨rfl, rfl⟩

/-- **Every step of recovery stays on the way to the same disk.** -/
theorem recovering_step (hI : Inv s) (hsize : 0 < s.log.size) (h : Recovering target s) (ha : a.Recovery)
    (hst : step s a = some t) : Recovering target t := by
  have hrec := h.recoverable
  cases step_cases hI hst with
  | crash => exact ⟨hrec.fs, hrec.fits, hrec.replay⟩
  | readHead hr hok hshown hl =>
      rw [hI.shown_eq_disk (by simp [hr])]
      refine ⟨⟨hrec.fs, hrec.fits, hrec.replay⟩, rfl, fun b hb hnot => ?_⟩
      rw [← hrec.replay b hb]
      exact (RedoLog.install_of_notMem (by rwa [map_fst_logWrites])).symm
  | @reinstall tail b c hr hb hw =>
      rw [hI.shown_eq_disk (by simp [hr])]
      obtain ⟨_, hlh, hdone⟩ : Recoverable s.log s.disk target ∧ _ := by rwa [Recovering, hr] at h
      obtain ⟨htail, hbe⟩ := List.getElem?_eq_some_iff.mp hb
      have hmem : b ∈ readHead (s.disk s.log.start) := hlh ▸ List.mem_of_getElem? hb
      refine ⟨hrec.install hsize hmem _, ?_, fun b' hb' hnot => ?_⟩
      · show s.log.lh = readHead (Function.update s.disk b _ s.log.start)
        rw [Function.update_of_ne ((hrec.fs b hmem).ne_start hsize).symm, hlh]
      · show Function.update s.disk b _ b' = target b'
        by_cases hbb : b' = b
        · -- the block just installed
          subst hbb
          rw [Function.update_self, ← hrec.replay b' hb', ← hlh, replay_last hb hnot]
        · rw [Function.update_of_ne hbb]
          refine hdone b' hb' fun hm => hnot ?_
          rw [List.drop_eq_getElem_cons htail, List.mem_cons, hbe] at hm
          exact hm.resolve_left hbb
  | @recovered tail c hr ht hw =>
      obtain ⟨_, _, hdone⟩ : Recoverable s.log s.disk target ∧ _ := by rwa [Recovering, hr] at h
      refine ⟨?_, fun b hb => ?_⟩
      · show readHead (Function.update s.disk s.log.start _ s.log.start) = []
        rw [Function.update_self, readHead_writeHead_nil]
      · show Function.update s.disk s.log.start _ b = target b
        rw [Function.update_of_ne (Log.fsBlock.ne_start (l := s.log) hb hsize)]
        exact hdone b hb (by simp [List.drop_eq_nil_of_le ht])
  | _ => rcases ha with ha | ha <;> cases ha

/-- A run of recovery, however often it is cut off. -/
theorem recovering_run {racts : List Act} (hI : Inv s) (hsize : 0 < s.log.size) (h : Recovering target s)
    (hra : ∀ a ∈ racts, a.Recovery) (hrun : Trace.run step s racts = some t) :
    Inv t ∧ Recovering target t ∧ t.log.start = s.log.start ∧ t.log.size = s.log.size := by
  refine Trace.run_invariant_along (C := fun _ a => a.Recovery)
    (I := fun u => Inv u ∧ Recovering target u ∧ u.log.start = s.log.start ∧ u.log.size = s.log.size)
    ?_ ⟨hI, h, rfl, rfl⟩ (Trace.along_of_forall (fun a ha _ => hra a ha) s) hrun
  rintro u a v ⟨hIu, hRu, hstart, hsz⟩ ha hst
  have hunharmed : Unharmed u a := by
    rcases ha with rfl | rfl <;> trivial
  obtain ⟨hstart', hsz'⟩ := area_step hIu hst
  exact ⟨inv_step hIu hunharmed hst, recovering_step hIu (hsz ▸ hsize) hRu ha hst, hstart'.trans hstart,
    hsz'.trans hsz⟩

/-! ## Operations and commits -/

/-- No commit is on its way: the disk has all groups. -/
structure Idle (d0 : Nat → Block) (h : History) (l : Log) (disk : Nat → Block) : Prop where
  logged : h.logged = l.lh
  returned : h.returned = h.groups.length
  header : readHead (disk l.start) = []
  home : ∀ b, l.fsBlock b → disk b = after d0 h.groups b

/-- `commit()` is on its way for the last group, which is made of the blocks `lh`. -/
structure Committing (h : History) (l : Log) (gs : List Group) : Prop where
  logged : h.logged = []
  groups : h.groups = gs ++ [l.lh.map fun b => (b, h.view b)]
  returned : h.returned = gs.length

/-- Before the header is written, the disk has the groups before; the log blocks up to `tail` are written. -/
structure Writing (d0 : Nat → Block) (h : History) (l : Log) (disk : Nat → Block) (tail : Nat)
    (gs : List Group) : Prop where
  committing : Committing h l gs
  header : readHead (disk l.start) = []
  home : ∀ b, l.fsBlock b → disk b = after d0 gs b
  written : ∀ i b, i < tail → l.lh[i]? = some b → disk (l.start + i + 1) = h.view b

/-- After it, the disk has all groups except for the blocks of `lh` from `tail` on. -/
structure Installing (d0 : Nat → Block) (h : History) (l : Log) (disk : Nat → Block) (tail : Nat)
    (gs : List Group) : Prop where
  committing : Committing h l gs
  header : readHead (disk l.start) = l.lh
  home : ∀ b, l.fsBlock b → b ∉ l.lh.drop tail → disk b = after d0 h.groups b
  written : ∀ i b, l.lh[i]? = some b → disk (l.start + i + 1) = h.view b

def Phase (d0 : Nat → Block) (h : History) (l : Log) (disk : Nat → Block) : Option (Nat × Stage) → Prop
  | some (_, .writeLog tail) => ∃ gs, Writing d0 h l disk tail gs
  | some (_, .install tail) => ∃ gs, Installing d0 h l disk tail gs
  | _ => Idle d0 h l disk

/-- How the machine carries a history. -/
structure Tracks (d0 : Nat → Block) (h : History) (s : Sys) : Prop where
  active : h.active = s.ops
  view : ∀ b, s.log.fsBlock b → shown s.bufs s.disk b = h.view b
  phase : Phase d0 h s.log s.disk s.commit
  boot : s.boot ≠ none → s.log.lh = []

variable {h h' : History} {c : List Buf} {p tail : Nat}

/-- Between commits only the logged blocks, the groups and the disk matter. -/
theorem Idle.congr (hi : Idle d0 h l disk) (hlogged : h'.logged = l'.lh) (hg : h'.groups = h.groups)
    (hret : h'.returned = h.returned) (hstart : l'.start = l.start) (hsize : l'.size = l.size) :
    Idle d0 h' l' disk := by
  refine ⟨hlogged, by rw [hret, hg, hi.returned], by rw [hstart]; exact hi.header, fun b hb => ?_⟩
  rw [hg]
  rw [Log.fsBlock, hstart, hsize] at hb
  exact hi.home b hb

theorem Tracks.idle (hT : Tracks d0 h s) (hc : s.commit = none) : Idle d0 h s.log s.disk := by
  have := hT.phase
  rwa [hc] at this

/-- Blocks outside the file system are never changed in the cache alone. -/
theorem Inv.shown_log (hI : Inv s) (hr : s.boot = none) (hb : ¬s.log.fsBlock b) :
    shown s.bufs s.disk b = s.disk b := by
  refine hI.cache.shown_eq_disk (fun hp => hb ?_) fun x hx => ?_
  · obtain ⟨_, hfs, _⟩ := hI.lh hr
    refine hfs b ?_
    rw [Sys.pinned, hr] at hp
    unfold pinnedBlocks at hp
    split at hp
    · cases hp
    · exact List.mem_of_mem_drop hp
    · exact hp
  · by_contra hd
    exact hb (hI.held hx ((hI.cache.each hx).dirty (by simpa using hd)))

/-- A step of an operation that changes buffers, but not what they show. -/
theorem Tracks.setBufs {w : List (Nat × Nat)} (hT : Tracks d0 h s)
    (hs : ∀ b, shown c s.disk b = shown s.bufs s.disk b) : Tracks d0 h { s with bufs := c, waits := w } :=
  ⟨hT.active, fun b hb => (hs b).trans (hT.view b hb), hT.phase, hT.boot⟩

/-- A holder changes block `b` in its buffer. -/
theorem Tracks.modify {d : Block} {x : Buf} (hI : Inv s) (hT : Tracks d0 h s) (hr : s.boot = none)
    (hp : p ∈ s.ops) (hx : lookup s.bufs b = some x) (hl : x.lock = some p) :
    Tracks d0 { h with view := Function.update h.view b d }
      { s with bufs := setBuf s.bufs b fun x => { x with data := d, dirty := true } } := by
  have hv := (hI.cache.each hx).held (by simp [hl])
  have hnc := hI.commit_none hp
  have hs : shown (setBuf s.bufs b fun x => { x with data := d, dirty := true }) s.disk =
      Function.update (shown s.bufs s.disk) b d :=
    shown_setBuf_data (f := fun x => { x with data := d, dirty := true }) (fun _ => rfl) hx hv fun _ _ => rfl
  refine ⟨hT.active, fun b' hb' => ?_, ?_, fun hb => absurd hr hb⟩
  · show shown (setBuf s.bufs b _) s.disk b' = Function.update h.view b d b'
    rw [hs]
    by_cases hbb : b' = b
    · rw [hbb, Function.update_self, Function.update_self]
    · rw [Function.update_of_ne hbb, Function.update_of_ne hbb]
      exact hT.view b' hb'
  · show Phase d0 _ s.log s.disk s.commit
    rw [hnc]
    exact (hT.idle hnc).congr (hT.idle hnc).logged rfl rfl rfl rfl

theorem Tracks.data_eq {x : Buf} (hI : Inv s) (hT : Tracks d0 h s) (hx : lookup s.bufs b = some x)
    (hl : x.lock = some p) : x.data = h.view b := by
  have hlock : x.lock ≠ none := by simp [hl]
  rw [← hT.view b (hI.held hx hlock)]
  exact (shown_of_valid hx ((hI.cache.each hx).held hlock)).symm

/-- `log_write`: the buffer still shows the same. -/
theorem Tracks.logWrite {x : Buf} {lh : List Nat} {f : Buf → Buf} (hI : Inv s) (hT : Tracks d0 h s)
    (hr : s.boot = none) (hp : p ∈ s.ops) (hx : lookup s.bufs b = some x)
    (hf : ∀ x, (f x).blockno = x.blockno) (hd : (f x).data = x.data) (hv : (f x).valid = x.valid) :
    Tracks d0 { h with logged := lh }
      { s with log := { s.log with lh := lh }, bufs := setBuf s.bufs b f } := by
  have hnc := hI.commit_none hp
  refine ⟨hT.active, fun b' hb' => ?_, ?_, fun hb => absurd hr hb⟩
  · exact (shown_setBuf_same hf hx hv hd b').trans (hT.view b' hb')
  · show Phase d0 _ _ s.disk s.commit
    rw [hnc]
    exact (hT.idle hnc).congr rfl rfl rfl rfl rfl

/-- The last operation in progress ends, and its process commits. -/
theorem Tracks.lastOp (hI : Inv s) (hT : Tracks d0 h s) (hr : s.boot = none) (hp : p ∈ s.ops)
    (herase : s.ops.erase p = []) :
    Tracks d0 (h.endOp p)
      { s with log := { s.log with outstanding := 0, committing := true }, ops := s.ops.erase p,
               commit := some (p, if s.log.lh = [] then .done else .writeLog 0) } := by
  have hidle := hT.idle (hI.commit_none hp)
  have hend : h.endOp p =
      { h with active := [], logged := [], groups := h.groups ++ [h.logged.map fun b => (b, h.view b)],
               returned := if h.logged = [] then h.groups.length + 1 else h.returned } := by
    rw [History.endOp, hT.active, if_pos herase]
  rw [hend]
  refine ⟨herase.symm, hT.view, ?_, fun hb => absurd hr hb⟩
  by_cases hlh : s.log.lh = []
  · have hlogged : h.logged = [] := hidle.logged.trans hlh
    simp only [hlh, if_true]
    refine ⟨rfl, ?_, hidle.header, fun b hb => ?_⟩
    · simp [hlogged]
    · show s.disk b = after d0 (h.groups ++ [h.logged.map fun b => (b, h.view b)]) b
      rw [after_snoc, hlogged, List.map_nil, RedoLog.install_nil]
      exact hidle.home b hb
  · have hlogged : h.logged ≠ [] := by rwa [hidle.logged]
    simp only [hlh, if_false]
    refine ⟨h.groups, ⟨rfl, ?_, ?_⟩, hidle.header, hidle.home, nofun⟩
    · show h.groups ++ [h.logged.map _] = _
      rw [hidle.logged]
    · simp [hlogged, hidle.returned]

/-- A disk write outside the file system keeps what the operations see. -/
theorem Tracks.view_wrote {d : Block} {w pinned' : List Nat} (hT : Tracks d0 h s)
    (hw : Wrote s.bufs s.disk w b d c pinned') (hne : ∀ b', s.log.fsBlock b' → b' ≠ b) :
    ∀ b', s.log.fsBlock b' → shown c (Function.update s.disk b d) b' = h.view b' := by
  intro b' hb'
  rw [hw.shown_eq, Function.update_of_ne (hne b' hb')]
  exact hT.view b' hb'

theorem Writing.writeLog {gs : List Group} (hW : Writing d0 h l disk tail gs) (hsize : l.lh.length ≤ l.size - 1)
    (hb : l.lh[tail]? = some b) :
    Writing d0 h l (Function.update disk (l.start + tail + 1) (h.view b)) (tail + 1) gs := by
  obtain ⟨htail, _⟩ := List.getElem?_eq_some_iff.mp hb
  refine ⟨hW.committing, ?_, fun b' hb' => ?_, fun i b' hi hb' => ?_⟩
  · rw [Function.update_of_ne (by omega), hW.header]
  · rw [Function.update_of_ne (hb'.ne_logBlock (by omega)), hW.home b' hb']
  · by_cases hit : i = tail
    · subst hit
      rw [hb] at hb'
      cases hb'
      rw [Function.update_self]
    · rw [Function.update_of_ne (by omega)]
      exact hW.written i b' (by omega) hb'

/-- The header makes the group durable. -/
theorem Writing.writeHead {gs : List Group} {hd : Block} (hW : Writing d0 h l disk l.lh.length gs)
    (hlen : l.lh.length ≤ LOGSIZE) (hsize : 0 < l.size) (hfs : ∀ b ∈ l.lh, l.fsBlock b) :
    Installing d0 h l (Function.update disk l.start (writeHead hd l.lh)) 0 gs := by
  refine ⟨hW.committing, ?_, fun b hb hnot => ?_, fun i b hb => ?_⟩
  · rw [Function.update_self, readHead_writeHead hlen fun b hb => (hfs b hb).1]
  · rw [Function.update_of_ne (hb.ne_start hsize), hW.home b hb, hW.committing.groups, after_snoc]
    refine (RedoLog.install_of_notMem ?_).symm
    simpa [Function.comp_def] using hnot
  · rw [Function.update_of_ne (by omega)]
    exact hW.written i b (List.getElem?_eq_some_iff.mp hb).1 hb

/-- Replaying the log on a disk that has the groups before gives the last group. -/
theorem Installing.after_eq {gs : List Group} (hi : Installing d0 h l disk tail gs) :
    after d0 h.groups = RedoLog.install (logWrites l.start disk l.lh) (after d0 gs) := by
  rw [hi.committing.groups, after_snoc, logWrites_eq hi.written]

theorem Installing.install {gs : List Group} (hi : Installing d0 h l disk tail gs) (hn : l.lh.Nodup)
    (hfs : ∀ b ∈ l.lh, l.fsBlock b) (hpos : 0 < l.size) (hsize : l.lh.length ≤ l.size - 1)
    (hb : l.lh[tail]? = some b) :
    Installing d0 h l (Function.update disk b (h.view b)) (tail + 1) gs := by
  obtain ⟨htail, hbe⟩ := List.getElem?_eq_some_iff.mp hb
  have hbfs := hfs b (List.mem_of_getElem? hb)
  have hdrop : l.lh.drop tail = b :: l.lh.drop (tail + 1) := by
    rw [List.drop_eq_getElem_cons htail, hbe]
  have hlast : b ∉ l.lh.drop (tail + 1) := by
    have := hn.sublist (List.drop_sublist tail l.lh)
    rw [hdrop] at this
    exact (List.nodup_cons.mp this).1
  refine ⟨hi.committing, ?_, fun b' hb' hnot => ?_, fun i b' hb' => ?_⟩
  · rw [Function.update_of_ne (hbfs.ne_start hpos).symm, hi.header]
  · by_cases hbb : b' = b
    · subst hbb
      rw [Function.update_self, hi.after_eq, replay_last hb hlast, hi.written tail b' hb]
    · rw [Function.update_of_ne hbb]
      refine hi.home b' hb' ?_
      rw [hdrop, List.mem_cons, not_or]
      exact ⟨hbb, hnot⟩
  · have hlt := (List.getElem?_eq_some_iff.mp hb').1
    rw [Function.update_of_ne (hbfs.ne_logBlock (by omega)).symm]
    exact hi.written i b' hb'

/-- Clearing the header ends the commit. -/
theorem Installing.clearHead {gs : List Group} {hd : Block}
    (hi : Installing d0 h l disk l.lh.length gs) (hsize : 0 < l.size) :
    Idle d0 { h with returned := h.groups.length } { l with lh := [] }
      (Function.update disk l.start (Logging.writeHead hd [])) := by
  refine ⟨hi.committing.logged, rfl, ?_, fun b hb => ?_⟩
  · show readHead (Function.update disk l.start _ l.start) = []
    rw [Function.update_self, readHead_writeHead_nil]
  · show Function.update disk l.start _ b = after d0 h.groups b
    rw [Function.update_of_ne (Log.fsBlock.ne_start (l := l) hb hsize)]
    exact hi.home b hb (by simp)

/-- **Every plain step carries the history on.** -/
theorem tracks_step (hI : Inv s) (hsize : 0 < s.log.size) (hT : Tracks d0 h s) (ha : a.Plain)
    (hst : step s a = some t) : Tracks d0 (h.next a) t := by
  have hphase := hT.phase
  cases step_cases hI hst with
  | @beginOp p l hr hp hl =>
      obtain ⟨hc, _, rfl⟩ := beginOp_eq_some hl
      have hnc : s.commit = none := by
        have := hI.committing
        rw [hc] at this
        simpa using this.symm
      refine ⟨by rw [← hT.active]; rfl, hT.view, ?_, fun hb => absurd hr hb⟩
      show Phase d0 _ _ s.disk s.commit
      rw [hnc]
      exact (hT.idle hnc).congr (hT.idle hnc).logged rfl rfl rfl rfl
  | bget hr hb hc => exact hT.setBufs (hI.cache.shown_bget hc)
  | acquire hr hw hc => exact hT.setBufs (shown_acquire hc)
  | modify hr hp hx hl => exact hT.modify hI hr hp hx hl
  | copyin hr hp hx hl hm hok =>
      simp only [History.next]
      rw [← hT.data_eq hI hx hl]
      exact hT.modify hI hr hp hx hl
  | @copyinFail p b o src m pages x hr hp hx hl hd hm hok =>
      have hnil := ha hok
      simp only [History.next, hnil, Bytes.put_nil, Function.update_eq_self]
      have hx' := lookup_setData_self (d := x.data) hx
      refine hT.setBufs (w := s.waits) fun b' => (shown_brelse hx' b').trans ?_
      exact shown_setBuf_same (f := fun y => { y with data := x.data }) (fun _ => rfl) hx rfl rfl b'
  | @logNew p b x hr hp hx hl hlen hsz hb =>
      have hlogged := (hT.idle (hI.commit_none hp)).logged
      simp only [History.next, hlogged, if_neg hb]
      exact hT.logWrite hI hr hp hx (fun _ => rfl) rfl rfl
  | @logAbsorb p b x hr hp hx hl hb =>
      have hlogged := (hT.idle (hI.commit_none hp)).logged
      simp only [History.next, hlogged, if_pos hb]
      exact hT.logWrite hI hr hp hx (fun _ => rfl) rfl rfl
  | brelse hr hx hl hd => exact hT.setBufs (shown_brelse hx)
  | @endOp p hr hp hfree hc ho =>
      have hnc := hI.commit_none hp
      have herase : s.ops.erase p ≠ [] := by
        rw [← List.length_pos_iff, List.length_erase_of_mem hp, ← hI.outstanding]
        omega
      have hend : h.endOp p = { h with active := h.active.erase p } := by
        rw [History.endOp, hT.active, if_neg herase]
      simp only [History.next, hend]
      refine ⟨by simp only [hT.active], hT.view, ?_, fun hb => absurd hr hb⟩
      show Phase d0 _ _ s.disk s.commit
      rw [hnc]
      exact (hT.idle hnc).congr (hT.idle hnc).logged rfl rfl rfl rfl
  | lastOp hr hp hfree hc ho => exact hT.lastOp hI hr hp (hI.erase_of_last hp ho)
  | @writeLog p tail b c hr hk hb hw =>
      obtain ⟨_, hfs, _, hlen⟩ := hI.lh hr
      obtain ⟨htail, _⟩ := List.getElem?_eq_some_iff.mp hb
      rw [hk] at hphase
      obtain ⟨gs, hW⟩ := hphase
      have hview := hT.view_wrote hw fun b' hb' => hb'.ne_logBlock (by omega)
      rw [hT.view b (hfs b (List.mem_of_getElem? hb))] at hview ⊢
      exact ⟨hT.active, hview, ⟨gs, hW.writeLog hlen hb⟩, fun hb => absurd hr hb⟩
  | writeHead hr hk hw =>
      obtain ⟨_, hfs, hlen, _⟩ := hI.lh hr
      rw [hk] at hphase
      obtain ⟨gs, hW⟩ := hphase
      exact ⟨hT.active, hT.view_wrote hw fun b' hb' => hb'.ne_start hsize,
        ⟨gs, hW.writeHead hlen hsize hfs⟩, fun hb => absurd hr hb⟩
  | @install p tail b c hr hk hb hw =>
      obtain ⟨hn, hfs, _, hlen⟩ := hI.lh hr
      obtain ⟨htail, _⟩ := List.getElem?_eq_some_iff.mp hb
      rw [hk] at hphase
      obtain ⟨gs, hW⟩ := hphase
      -- the log block holds what the operations see of the block
      have hlog : shown s.bufs s.disk (s.log.start + tail + 1) = h.view b := by
        rw [hI.shown_log hr fun hb' => hb'.ne_logBlock (by omega) rfl]
        exact hW.written tail b hb
      rw [hlog] at hw ⊢
      refine ⟨hT.active, fun b' hb' => ?_, ⟨gs, hW.install hn hfs hsize hlen hb⟩, fun hb => absurd hr hb⟩
      show shown c (Function.update s.disk b (h.view b)) b' = h.view b'
      rw [hw.shown_eq]
      by_cases hbb : b' = b
      · rw [hbb, Function.update_self]
      · rw [Function.update_of_ne hbb]
        exact hT.view b' hb'
  | clearHead hr hk hw =>
      rw [hk] at hphase
      obtain ⟨gs, hW⟩ := hphase
      exact ⟨hT.active, hT.view_wrote hw fun b' hb' => hb'.ne_start hsize, hW.clearHead hsize,
        fun hb => absurd hr hb⟩
  | endCommit hr hk =>
      rw [hk] at hphase
      exact ⟨hT.active, hT.view, Idle.congr hphase hphase.logged rfl rfl rfl rfl, fun hb => absurd hr hb⟩
  | crash => exact ha.elim
  | readHead hr hok hshown hl =>
      have hboot : s.boot ≠ none := by simp [hr]
      have hnc := (hI.alone hboot).commit
      have hidle := hT.idle hnc
      have hlh : readHead (shown s.bufs s.disk s.log.start) = [] := by
        rw [hI.shown_eq_disk hboot, hidle.header]
      rw [hlh]
      refine ⟨hT.active, fun b hb => ?_, ?_, fun _ => rfl⟩
      · show shown _ s.disk b = h.view b
        rw [hshown]
        exact hT.view b hb
      · show Phase d0 _ _ s.disk s.commit
        rw [hnc]
        exact hidle.congr (hidle.logged.trans (hT.boot hboot)) rfl rfl rfl rfl
  | reinstall hr hb hw =>
      rw [hT.boot (by simp [hr])] at hb
      cases hb
  | recovered hr ht hw =>
      have hboot : s.boot ≠ none := by simp [hr]
      have hnc := (hI.alone hboot).commit
      have hidle := hT.idle hnc
      refine ⟨hT.active, hT.view_wrote hw fun b' hb' => hb'.ne_start hsize, ?_, nofun⟩
      show Phase d0 _ _ _ s.commit
      rw [hnc]
      refine ⟨hidle.logged.trans (hT.boot hboot), hidle.returned, ?_, fun b hb => ?_⟩
      · show readHead (Function.update s.disk s.log.start _ s.log.start) = []
        rw [Function.update_self, readHead_writeHead_nil]
      · show Function.update s.disk s.log.start _ b = after d0 h.groups b
        rw [Function.update_of_ne (Log.fsBlock.ne_start (l := s.log) hb hsize)]
        exact hidle.home b hb

/-- The machine on a disk with an empty log has carried the empty history. -/
theorem tracks_boot {start size : Nat} (h0 : readHead (d0 start) = []) :
    Tracks d0 (.start d0) (boot start size d0) := by
  refine ⟨rfl, fun b _ => ?_, ⟨rfl, rfl, h0, fun b _ => rfl⟩, fun _ => rfl⟩
  exact congrFun ((inv_boot start size d0).shown_eq_disk nofun) b

theorem tracks_run {start size : Nat} {acts : List Act} (hsize : 0 < size) (h0 : readHead (d0 start) = [])
    (hplain : ∀ a ∈ acts, a.Plain) (hrun : Trace.run step (boot start size d0) acts = some s) :
    Inv s ∧ Tracks d0 (history d0 acts) s ∧ s.log.start = start ∧ s.log.size = size := by
  induction acts using List.reverseRecOn generalizing s with
  | nil =>
      cases hrun
      exact ⟨inv_boot start size d0, tracks_boot h0, rfl, rfl⟩
  | append_singleton acts a ih =>
      obtain ⟨u, hu, hst⟩ := Trace.run_snoc_eq_some.mp hrun
      obtain ⟨hI, hT, hstart, hsz⟩ := ih (fun b hb => hplain b (List.mem_append_left [a] hb)) hu
      have ha := hplain a (by simp)
      obtain ⟨hstart', hsz'⟩ := area_step hI hst
      rw [history_snoc]
      exact ⟨inv_step hI (unharmed_of_plain ha) hst, tracks_step hI (by omega) hT ha hst,
        hstart'.trans hstart, hsz'.trans hsz⟩

/-- **The disk is recoverable at every point**, to all groups or, before the header of the last one is on
    disk, to the groups before it. -/
theorem Tracks.recoverable (hI : Inv s) (hT : Tracks d0 h s) :
    ∃ k, h.returned ≤ k ∧ k ≤ h.groups.length ∧
      Recoverable s.log s.disk (after d0 (h.groups.take k)) := by
  have hphase := hT.phase
  have hidle : Idle d0 h s.log s.disk → ∃ k, h.returned ≤ k ∧ k ≤ h.groups.length ∧
      Recoverable s.log s.disk (after d0 (h.groups.take k)) := by
    intro hi
    refine ⟨h.groups.length, hi.returned.le, le_rfl, recoverable_of_empty hi.header ?_⟩
    rw [List.take_length]
    exact hi.home
  cases hk : s.commit with
  | none =>
      rw [hk] at hphase
      exact hidle hphase
  | some e =>
      obtain ⟨p, stage⟩ := e
      rw [hk] at hphase
      have hr : s.boot = none := by
        by_contra hb
        rw [(hI.alone hb).commit] at hk
        cases hk
      cases stage with
      | done => exact hidle hphase
      | writeLog tail =>
          obtain ⟨gs, hW⟩ := hphase
          refine ⟨gs.length, hW.committing.returned.le, ?_, recoverable_of_empty hW.header ?_⟩
          · rw [hW.committing.groups]
            simp
          · rw [hW.committing.groups, List.take_left]
            exact hW.home
      | install tail =>
          obtain ⟨gs, hW⟩ := hphase
          obtain ⟨_, hfs, _, hlen⟩ := hI.lh hr
          have hret : h.returned ≤ h.groups.length := by
            rw [hW.committing.returned, hW.committing.groups]
            simp
          refine ⟨h.groups.length, hret, le_rfl, ?_, ?_, fun b hb => ?_⟩
          · rwa [hW.header]
          · rwa [hW.header]
          · rw [List.take_length, hW.header, hW.after_eq]
            apply RedoLog.install_congr
            rw [map_fst_logWrites]
            by_cases hm : b ∈ s.log.lh
            · exact Or.inr hm
            · left
              rw [hW.home b hb fun hd => hm (List.mem_of_mem_drop hd), hW.after_eq]
              exact RedoLog.install_of_notMem (by rwa [map_fst_logWrites])

/-- **Crash atomicity.** A machine that starts on a disk with an empty log runs any operations, interleaved
    in any way; it crashes at some point, `recover_from_log` runs and is itself cut off any number of times.
    Groups are closed only while no operation is in progress. When a recovery completes, the disk outside the
    log is the disk after some of the groups, in order, and all groups whose `commit()` had returned are
    among them; the log is empty, and recovering again changes no block outside it. -/
theorem crash_atomic {start size : Nat} {acts racts : List Act} (hsize : 0 < size)
    (h0 : readHead (d0 start) = []) (hplain : ∀ a ∈ acts, a.Plain) (hrec : ∀ a ∈ racts, a.Recovery)
    (hrun : Trace.run step (boot start size d0) (acts ++ .crash :: racts) = some t) (hdone : t.boot = none) :
    (∀ pre a, pre ++ [a] <+: acts → (history d0 (pre ++ [a])).groups ≠ (history d0 pre).groups →
      (history d0 (pre ++ [a])).active = []) ∧
    (∃ k, (history d0 acts).returned ≤ k ∧ k ≤ (history d0 acts).groups.length ∧
      ∀ b, t.log.fsBlock b → t.disk b = after d0 ((history d0 acts).groups.take k) b) ∧
    readHead (t.disk start) = [] ∧
    ∀ racts' u, (∀ a ∈ racts', a.Recovery) → Trace.run step t (.crash :: racts') = some u → u.boot = none →
      ∀ b, t.log.fsBlock b → u.disk b = t.disk b := by
  rw [Trace.run_append, Option.bind_eq_some_iff] at hrun
  obtain ⟨s, hs, hrun⟩ := hrun
  obtain ⟨hI, hT, hstart, hsz⟩ := tracks_run hsize h0 hplain hs
  obtain ⟨k, hk, hk', hR⟩ := hT.recoverable hI
  -- the crash boots on the disk of `s`, which is recoverable
  have hrun' : Trace.run step (boot s.log.start s.log.size s.disk) racts = some t := hrun
  have hboot : Recovering (after d0 ((history d0 acts).groups.take k))
      (boot s.log.start s.log.size s.disk) := ⟨hR.fs, hR.fits, hR.replay⟩
  obtain ⟨hIt, hRt, hstart', hsz'⟩ := recovering_run (inv_boot _ _ _) (by rwa [hsz]) hboot hrec hrun'
  obtain ⟨hhead, hdisk⟩ : readHead (t.disk t.log.start) = [] ∧ _ := by rwa [Recovering, hdone] at hRt
  have htstart : t.log.start = start := hstart'.trans hstart
  refine ⟨fun pre a _ hne => ?_, ⟨k, hk, hk', hdisk⟩, by rwa [← htstart], ?_⟩
  · rw [history_snoc] at hne ⊢
    exact History.active_of_closes hne
  · intro racts' u hra hru hu b hb
    have hcrash : ∀ a ∈ Act.crash :: racts', a.Recovery := by
      intro a ha
      rcases List.mem_cons.mp ha with rfl | ha
      · exact Or.inl rfl
      · exact hra a ha
    have htsize : 0 < t.log.size := by
      rw [hsz']
      exact hsz ▸ hsize
    obtain ⟨_, hRu, hus, huz⟩ := recovering_run hIt htsize hRt hcrash hru
    obtain ⟨_, hudisk⟩ : readHead (u.disk u.log.start) = [] ∧ _ := by rwa [Recovering, hu] at hRu
    rw [hudisk b (by rwa [Log.fsBlock, hus, huz]), hdisk b hb]

/-- One operation writes block 50 of a zero disk; the machine crashes once the header is written. -/
def cutCommit : List Act :=
  [.recover, .recover, .beginOp 0, .bget 0 50, .acquire 0 50, .modify 0 50 fun _ => 7, .logWrite 0 50,
    .brelse 0 50, .endOp 0, .writeLog 0, .writeHead 0]

/-- Recovery crashes after it has installed the block, and is run again. -/
def cutRecovery : List Act := [.recover, .recover, .crash, .recover, .recover, .recover]

theorem cut_commit_recovers :
    ∃ t k, Trace.run step (boot 2 30 fun _ _ => 0) (cutCommit ++ .crash :: cutRecovery) = some t ∧ k ≤ 1 ∧
      ∀ b, t.log.fsBlock b →
        t.disk b = after (fun _ _ => 0) ((history (fun _ _ => 0) cutCommit).groups.take k) b := by
  obtain ⟨t, ht, hb⟩ : ∃ t, Trace.run step (boot 2 30 fun _ _ => 0)
      (cutCommit ++ .crash :: cutRecovery) = some t ∧ t.boot = none := ⟨_, rfl, rfl⟩
  have hplain : ∀ a ∈ cutCommit, a.Plain := by simp [cutCommit, Act.Plain]
  have hrec : ∀ a ∈ cutRecovery, a.Recovery := by simp [cutRecovery, Act.Recovery]
  obtain ⟨_, ⟨k, _, hk, hdisk⟩, _⟩ := crash_atomic (by decide) (by decide) hplain hrec ht hb
  exact ⟨t, k, ht, hk, hdisk⟩

end Xv6.Logging
