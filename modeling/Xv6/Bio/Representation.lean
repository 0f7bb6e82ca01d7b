import Xv6.Bio.Commit

/-!
# `Bio.Representation` — the buffer cache over every run

**`buffer_cache_representation`**: in every state that the processes, the log and the boot can reach, the
list of buffers is one ring through all of them, a block has one buffer, `refcnt` counts callers and pins,
and the buffer of a block in the log is not recycled before `install_trans` unpins it. As long as the block is
in the log its buffer has the data that the operations stored, so that `write_log` copies that data to the
log and `install_trans` finds the same data there.
-/

namespace Xv6.Bcache

open Logging (Block NBUF)
open Trace (run Along)

variable {s t : Sys} {a : Act} {i : Fin NBUF} {l : Logger} {b : Nat} {k : List Instr}

/-- The data of buffer `i` after a step, if only operations change it. -/
def stored (i : Fin NBUF) (d : Block) : Act → Block
  | .store _ j d' => if j = i then d' else d
  | _ => d

/-- One step and the buffer of a block in the log. -/
theorem pinned_step (hI : Inv s) (hb : b ∈ s.pinned) (hk : s.key i = (ROOTDEV, b)) (hst : step s a = some t) :
    t.key i = (ROOTDEV, b) ∧ (t.cache.buf i).valid = true ∧
      (t.cache.buf i).data = stored i (s.cache.buf i).data a := by
  have hv := hI.valid_of_pinned hb hk
  cases step_cases hst with
  | beginOp hp hl => exact ⟨hk, hv, rfl⟩
  | endOp hp hm hl => exact ⟨hk, hv, rfl⟩
  | lastOp hp hm hl => exact ⟨hk, hv, rfl⟩
  | @bread _ p dev b' c j hby hget =>
      obtain ⟨hk', hv', hd⟩ := (quiet_bread (p := p) hI hget).of_pinned hI hb hk
      refine ⟨hk', hv', hd.trans ?_⟩
      rcases hby with ⟨rfl, _⟩ | ⟨rfl, _⟩ <;> rfl
  | acquiresleep hp hl =>
      exact ⟨(setLock_key i).trans hk, (setLock_valid i).trans hv, setLock_data i⟩
  | @fill p j dev b' hp => exact (quiet_fill s p j).of_pinned hI hb hk
  | @store p j d hm hl =>
      refine ⟨(setData_key i).trans hk, (setData_valid i).trans hv, ?_⟩
      show ((setData s.cache j d).buf i).data = if j = i then d else _
      rw [setData_data]
      simp only [eq_comm]
  | absorbed hl => exact ⟨hk, hv, rfl⟩
  | logged hp hm hlock hdev hfs hl =>
      exact ⟨(setRef_key i).trans hk, (setRef_valid i).trans hv, setRef_data i⟩
  | bwrite hp hdev hlock => exact ⟨hk, hv, rfl⟩
  | brelse hby hlock =>
      refine ⟨(setLock_key i).trans hk, (setLock_valid i).trans hv, (setLock_data i).trans ?_⟩
      rcases hby with ⟨rfl, _⟩ | ⟨rfl, _⟩ <;> rfl
  | @unref p j hp => exact (quiet_unref s p j).of_pinned hI hb hk
  | done hl hp hcode => exact ⟨hk, hv, rfl⟩
  | @memmove l dst src k i' j hl hp hcode hi hj =>
      refine ⟨(setData_key i).trans hk, (setData_valid i).trans hv, ?_⟩
      show ((setData s.cache i' (s.cache.buf j).data).buf i).data = (s.cache.buf i).data
      rw [setData_data]
      split
      · rename_i hii
        subst hii
        obtain ⟨σ, hR, _, hS⟩ := hI.logger l hl
        rw [pinned_eq hl hR hS] at hb
        have hfs := hI.fs
        rw [pinned_eq hl hR hS] at hfs
        rw [hcode] at hR
        cases hR with
        | copy hm hlb hd htail hb' hlog hnew h =>
            -- the destination is a log block, not a block in the log
            obtain ⟨hki, _⟩ := hS.reg hp hlb hi
            rw [hk] at hki
            cases hki
            exact absurd (hfs _ hb) hlog
        | install hm hlb hd htail hb' hc h =>
            obtain ⟨hkj, hlock⟩ := hS.reg hp hlb hj
            obtain ⟨hki, _⟩ := hS.reg hp hd hi
            have hvj := hI.rep.valid _ _ hlock (fun _ _ he => by rw [hp] at he; cases he)
            exact (hS.copies _ _ hc hb' i hki).2 j hkj hvj
        | reinstall hm hrec hlb hd hnil h =>
            rw [hnil] at hb
            cases hb
      · rfl
  | readHead hl hp hcode hi => exact ⟨hk, hv, rfl⟩
  | @writeHead l r k i' hl hp hcode hi =>
      refine ⟨(setData_key i).trans hk, (setData_valid i).trans hv, ?_⟩
      show ((setData s.cache i' _).buf i).data = (s.cache.buf i).data
      rw [setData_data]
      split
      · rename_i hii
        subst hii
        obtain ⟨σ, hR, _, hS⟩ := hI.logger l hl
        rw [pinned_eq hl hR hS] at hb
        rw [hcode] at hR
        cases hR with
        | writeHead hm hr hno hc h =>
            obtain ⟨hki, _⟩ := hS.reg hp hr hi
            rw [hk] at hki
            cases hki
            exact absurd hb hno
      · rfl
  | logBwrite hl hp hcode hi hlock => exact ⟨hk, hv, rfl⟩
  | bunpin hl hp hcode hi =>
      exact ⟨(setRef_key i).trans hk, (setRef_valid i).trans hv, setRef_data i⟩
  | clear hl hp hcode => exact ⟨hk, hv, rfl⟩

/-- A run during which the block stays in the log. -/
theorem pinned_run {more : List Act} (hI : Inv s) (hk : s.key i = (ROOTDEV, b))
    (hv : (s.cache.buf i).valid = true) (halong : Along step (fun u _ => b ∈ u.pinned) s more)
    (hrun : run step s more = some t) :
    t.key i = (ROOTDEV, b) ∧ (t.cache.buf i).valid = true ∧
      (t.cache.buf i).data = more.foldl (stored i) (s.cache.buf i).data := by
  induction more generalizing s with
  | nil =>
      cases hrun
      exact ⟨hk, hv, rfl⟩
  | cons a more ih =>
      obtain ⟨u, hu, hrun⟩ := Option.bind_eq_some_iff.mp hrun
      obtain ⟨hb, halong⟩ := halong
      rw [hu] at halong
      obtain ⟨hku, hvu, hdu⟩ := pinned_step hI hb hk hu
      obtain ⟨hkt, hvt, hdt⟩ := ih (inv_step hI hu) hku hvu halong hrun
      exact ⟨hkt, hvt, by rw [hdt, hdu, List.foldl_cons]⟩

/-- `bget` of a cached block finds it. -/
theorem Rep.cached_of_key {c : Cache} {call : Fin NPROC → Option Call} {pins : Fin NBUF → Nat}
    (h : Rep c call pins) (hk : (c.buf i).key = (ROOTDEV, b)) : c.cached ROOTDEV b = some i := by
  cases hc : c.cached ROOTDEV b with
  | none => exact absurd hk (cached_eq_none h.ordered hc i)
  | some j => rw [h.key_unique hk (cached_eq_some h.ordered hc)]

/-- The turn of `write_log` or `install_trans` that the log's process is in: `lbuf` has log block `tail`,
    `dbuf` the buffer `i` of the block `b` of the log. -/
def InTurn (s : Sys) (l : Logger) (tail b : Nat) (j i : Fin NBUF) : Prop :=
  s.log.lh[tail]? = some b ∧ b ∈ s.pinned ∧ l.regs .lbuf = some j ∧
    s.key j = (ROOTDEV, s.log.start + tail + 1) ∧ l.regs .dbuf = some i ∧ s.key i = (ROOTDEV, b)

theorem inTurn_of_regs {σ : Sym} {tail : Nat} (hS : Sound s l σ) (hp : s.call l.proc = none)
    (hl : σ.regs .lbuf = some (s.log.start + tail + 1)) (hd : σ.regs .dbuf = some b)
    (htail : s.log.lh[tail]? = some b) (hb : b ∈ s.pinned) : ∃ j i, InTurn s l tail b j i := by
  obtain ⟨j, hj, _⟩ := hS.regs .lbuf _ hl
  obtain ⟨i, hi, _⟩ := hS.regs .dbuf _ hd
  exact ⟨j, i, htail, hb, hj, (hS.reg hp hl hj).1, hi, (hS.reg hp hd hi).1⟩

/-- `write_log` copies from the buffer of a block that is still in the log. -/
theorem writeLog_reads (hI : Inv s) (hl : s.logger = some l) (hp : s.call l.proc = none)
    (hcode : l.code = .memmove .lbuf .dbuf :: k) : ∃ tail b j i, InTurn s l tail b j i := by
  obtain ⟨σ, hR, _, hS⟩ := hI.logger l hl
  have hpin := pinned_eq hl hR hS
  rw [hcode] at hR
  cases hR with
  | copy hm hlb hd htail hb hlog hnew h => exact ⟨_, _, inTurn_of_regs hS hp hlb hd htail (hpin ▸ hb)⟩

/-- `install_trans` after a commit finds in the log the data of the buffer it copies to. -/
theorem install_reads (hI : Inv s) (hl : s.logger = some l) (hrec : l.recovering = false)
    (hp : s.call l.proc = none) (hcode : l.code = .memmove .dbuf .lbuf :: k) :
    ∃ tail b j i, InTurn s l tail b j i ∧ (s.cache.buf j).data = (s.cache.buf i).data := by
  obtain ⟨σ, hR, _, hS⟩ := hI.logger l hl
  have hpin := pinned_eq hl hR hS
  rw [hcode] at hR
  cases hR with
  | install hm hlb hd htail hb hc h =>
      obtain ⟨j, i, hturn⟩ := inTurn_of_regs hS hp hlb hd htail (hpin ▸ hb)
      refine ⟨_, _, j, i, hturn, ?_⟩
      obtain ⟨_, _, hj, hkj, _, hki⟩ := hturn
      have hvj := hI.rep.valid _ _ (hS.reg hp hlb hj).2 (fun _ _ he => by rw [hp] at he; cases he)
      exact (hS.copies _ _ hc hb i hki).2 j hkj hvj
  | reinstall hm hyes hlb hd hnil h =>
      rw [hS.recovering, hrec] at hyes
      cases hyes

/-- **The buffer cache.** In every reachable state the list through `head` is well formed and contains each
    buffer once, a block of a device has at most one buffer, and `refcnt` is the number of callers and pins.
    A block in the log that is not yet installed has a buffer, which `bget` finds and which keeps the block
    and what operations store in it as long as the block is in the log; that buffer is the one `write_log`
    copies from, and `install_trans` finds the same data in the log. -/
theorem buffer_cache_representation {start size : Nat} {disk : Nat → Block} {init : Fin NPROC}
    {acts : List Act} (hrun : run step (boot start size disk init) acts = some s) :
    s.cache.Ordered ∧
      (∀ i j, (s.cache.buf i).dev ≠ 0 → s.key i = s.key j → i = j) ∧
      (∀ i, (s.cache.buf i).refcnt.toNat = callers s.cache s.call i + s.pins i) ∧
      (∀ b ∈ s.pinned, ∃ i, s.key i = (ROOTDEV, b) ∧ s.pins i = 1 ∧
        s.cache.cached ROOTDEV b = some i ∧
        ∀ more t, Along step (fun u _ => b ∈ u.pinned) s more → run step s more = some t →
          t.key i = (ROOTDEV, b) ∧ (t.cache.buf i).valid = true ∧
            (t.cache.buf i).data = more.foldl (stored i) (s.cache.buf i).data) ∧
      ∀ l k, s.logger = some l → s.call l.proc = none →
        (l.code = .memmove .lbuf .dbuf :: k → ∃ tail b j i, InTurn s l tail b j i) ∧
          (l.code = .memmove .dbuf .lbuf :: k → l.recovering = false →
            ∃ tail b j i, InTurn s l tail b j i ∧ (s.cache.buf j).data = (s.cache.buf i).data) := by
  have hI := inv_run hrun
  refine ⟨hI.rep.ordered, hI.rep.unique, hI.rep.refs, ?_, ?_⟩
  · intro b hb
    obtain ⟨i, hk, hv⟩ := hI.cached b hb
    refine ⟨i, hk, hI.pinned i b hb hk, hI.rep.cached_of_key hk, ?_⟩
    intro more t halong hmore
    exact pinned_run hI hk hv halong hmore
  · intro l k hl hp
    constructor
    · exact fun hcode => writeLog_reads hI hl hp hcode
    · exact fun hcode hrec => install_reads hI hl hrec hp hcode

/-- The boot on an empty log, and an operation that logs block 100. -/
def logOne (p : Fin NPROC) (i : Fin NBUF) : List Act :=
  [.log, .acquiresleep p, .fill p, .log, .log, .unref p, .log, .log, .acquiresleep p, .fill p, .log, .log,
    .log, .unref p, .log, .beginOp p, .bget p ROOTDEV 100, .acquiresleep p, .fill p,
    .store p i (fun _ => 7), .logWrite p i]

theorem buffer_cache_representation_pinned : ∃ p i s,
    run step (boot 2 30 (fun _ _ => 0) p) (logOne p i) = some s ∧ s.pinned = [100] ∧
      s.key i = (ROOTDEV, 100) ∧ s.cache.cached ROOTDEV 100 = some i ∧
      (s.cache.buf i).refcnt.toNat = callers s.cache s.call i + 1 := by
  obtain ⟨p, i, hpi⟩ : ∃ p i, (run step (boot 2 30 (fun _ _ => 0) p) (logOne p i)).any
      (fun s => decide (s.pinned = [100] ∧ s.key i = (ROOTDEV, 100))) = true :=
    ⟨⟨0, by decide⟩, ⟨1, by decide⟩, by decide +kernel⟩
  obtain ⟨s, hs, hz⟩ := (Option.any_eq_true _ _).mp hpi
  obtain ⟨hpin, hk⟩ := of_decide_eq_true hz
  obtain ⟨_, huniq, hrefs, hlog, _⟩ := buffer_cache_representation hs
  obtain ⟨j, hkj, hone, hcached, _⟩ := hlog 100 (by rw [hpin]; exact List.mem_singleton_self 100)
  obtain rfl : i = j := by
    refine huniq i j ?_ (hk.trans hkj.symm)
    rw [show (s.cache.buf i).dev = ROOTDEV from congrArg Prod.fst hk]
    decide
  exact ⟨p, i, s, hs, hpin, hk, hcached, by rw [hrefs i, hone]⟩

end Xv6.Bcache
