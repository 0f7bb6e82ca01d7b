import Xv6.Fs.Logged
import Xv6.Fs.Refine

/-!
# `File.Write` — `filewrite` of processes that share a `struct file`

Any number of processes have the same `struct file` of type `FD_INODE` open, after `fork` or `dup`, and call
`filewrite` on it. A large write takes several turns of the loop, each a transaction of its own; between two
turns other processes get theirs in. What happens in a turn from `ilock` to `iunlock`, the reading and the
advance of `f->off` included, is one step, because the inode is locked.

`Sys.chunks` records what the turns have written, in the order in which they had the lock.
-/

namespace Xv6.Filewrite

open Fs (NINODE MAXFILE writeMax Src Live dinode)
open Logging (BSIZE)

/-- A process in the loop of `filewrite`; `stop` once the loop has been left with `break`. -/
structure Call where
  pages : Pages
  addr : Nat
  n : Int
  i : Int
  stop : Bool

/-- `f->ip`, `f->off` and `f->writable`, the file system, and the calls in progress. -/
structure Sys (N : Nat) where
  fs : Fs.Sys
  ip : Fin NINODE
  off : UInt32
  writable : Bool
  calls : Fin N → Option Call
  chunks : List (Fin N × List UInt8)

inductive Act (N : Nat)
  | call (p : Fin N) (pages : Pages) (addr : Nat) (n : Int)
  | chunk (p : Fin N)
  | ret (p : Fin N) (v : Int)

variable {N : Nat}

/-- The length of the next chunk. -/
def Call.n1 (c : Call) : Nat := (min (c.n - c.i) writeMax).toNat

def Call.src (c : Call) : Src := .user c.pages (c.addr + c.i.toNat)

/-- One turn of the loop. -/
def writeChunk (s : Sys N) (p : Fin N) (c : Call) : Option (Sys N) :=
  match Fs.exec s.fs (.ilock s.ip) with
  | .error _ => none
  | .ok (fs, _) =>
      match Fs.exec fs (.writei s.ip c.src s.off (UInt32.ofNat c.n1)) with
      | .ok (fs, .wrote tot) =>
          let r : Int := tot.elim (-1) Int.ofNat
          some { s with
            fs := fs
            off := if 0 < r then s.off + UInt32.ofNat r.toNat else s.off
            calls := Function.update s.calls p
              (some (if r ≠ c.n1 then { c with stop := true } else { c with i := c.i + r }))
            chunks := s.chunks ++ [(p, (List.range r.toNat).map c.src.byte)] }
      | _ => none

def step (s : Sys N) : Act N → Option (Sys N)
  | .call p pages addr n =>
      if s.calls p = none then
        -- a file that is not writable answers -1 at once
        some (if s.writable then { s with calls := Function.update s.calls p (some ⟨pages, addr, n, 0, false⟩) }
          else s)
      else none
  | .chunk p =>
      match s.calls p with
      | none => none
      | some c => if c.i < c.n ∧ c.stop = false then writeChunk s p c else none
  | .ret p v =>
      match s.calls p with
      | none => none
      | some c =>
          if (c.n ≤ c.i ∨ c.stop = true) ∧ v = (if c.i = c.n then c.n else -1) then
            some { s with calls := Function.update s.calls p none }
          else none

/-! ## What the writes are for -/

/-- The bytes of a call of `filewrite`. -/
def bytesAt (pages : Pages) (addr : Nat) (n : Int) : List UInt8 :=
  (List.range n.toNat).map fun k => userByte pages (addr + k)

/-- What is left to write. -/
def Call.rest (c : Call) : List UInt8 := (bytesAt c.pages c.addr c.n).drop c.i.toNat

def Sys.rest (s : Sys N) (p : Fin N) : List UInt8 := (s.calls p).elim [] Call.rest

/-- The bytes that the calls of a process ask for, in order. -/
def requested (p : Fin N) (acts : List (Act N)) : List UInt8 :=
  acts.flatMap fun
    | .call q pages addr n => if q = p then bytesAt pages addr n else []
    | _ => []

/-- The bytes of the chunks of a process, in order. -/
def own (p : Fin N) (chunks : List (Fin N × List UInt8)) : List UInt8 :=
  chunks.flatMap fun x => if x.1 = p then x.2 else []

def Act.Readable : Act N → Prop
  | .call _ pages addr n => ∀ k < n.toNat, (pages ((addr + k) / PGSIZE)).isSome
  | _ => True

def Sys.inum (s : Sys N) : Nat := (s.fs.itable s.ip).inum

def Sys.contents (s : Sys N) : List UInt8 := s.fs.files s.inum

/-- The file is open for writing, nobody is writing, and the offset is at the end. -/
structure Start (s : Sys N) : Prop where
  inv : Fs.Inv s.fs
  ref : 0 < (s.fs.itable s.ip).ref
  live : Live s.fs.sb (dinode s.fs.sb s.fs.blk) s.inum
  writable : s.writable = true
  calls : ∀ p, s.calls p = none
  chunks : s.chunks = []
  off : s.off.toNat = s.contents.length

variable {s t s₀ : Sys N} {p q : Fin N} {c : Call} {acts : List (Act N)} {a : Act N}

/-! ## Bytes -/

theorem requested_snoc : requested p (acts ++ [a]) = requested p acts ++ requested p [a] := List.flatMap_append

theorem own_snoc (chunks : List (Fin N × List UInt8)) (bs : List UInt8) :
    own p (chunks ++ [(q, bs)]) = own p chunks ++ if q = p then bs else [] := by
  simp [own]

/-- Every chunk belongs to one process. -/
theorem sum_length_own (chunks : List (Fin N × List UInt8)) :
    ∑ p, (own p chunks).length = ((chunks.map Prod.snd).flatten).length := by
  induction chunks with
  | nil => simp [own]
  | cons x xs ih =>
      have hcons : ∀ p, (own p (x :: xs)).length = (if x.1 = p then x.2.length else 0) + (own p xs).length := by
        intro p
        rw [own, List.flatMap_cons, List.length_append, ← own]
        congr 1
        split <;> rfl
      rw [Finset.sum_congr rfl fun p _ => hcons p, Finset.sum_add_distrib, ih, Finset.sum_ite_eq, if_pos (Finset.mem_univ _)]
      simp

theorem Call.n1_le (h0 : 0 ≤ c.i) (hi : c.i ≤ c.n) : c.i.toNat + c.n1 ≤ c.n.toNat := by
  unfold Call.n1
  omega

theorem Call.n1_le_max : c.n1 ≤ writeMax := by
  unfold Call.n1
  omega

/-- A turn writes the next bytes. -/
theorem Call.rest_eq (h0 : 0 ≤ c.i) (hi : c.i ≤ c.n) :
    c.rest = (List.range c.n1).map c.src.byte ++ Call.rest { c with i := c.i + c.n1 } := by
  have hle := Call.n1_le h0 hi
  have hidx : (c.i + c.n1).toNat = c.i.toNat + c.n1 := by omega
  unfold Call.rest
  simp only [hidx]
  rw [← List.drop_drop, ← List.take_append_drop c.n1 (List.drop c.i.toNat _)]
  congr 1
  · refine List.ext_getElem ?_ fun k h1 h2 => ?_
    · simp only [bytesAt, List.length_take, List.length_drop, List.length_map, List.length_range]
      omega
    · simp only [bytesAt, List.getElem_take, List.getElem_drop, List.getElem_map, List.getElem_range, Call.src,
        Src.byte, Nat.add_assoc]
  · rw [List.take_append_drop]

/-! ## One turn -/

/-- `ilock` of an allocated inode reads it if necessary. -/
theorem ilock_ok {f : Fs.Sys} {i : Fin NINODE} (hI : Fs.Inv f) (hr : 0 < (f.itable i).ref)
    (hl : Live f.sb (dinode f.sb f.blk) (f.itable i).inum) :
    ∃ ip : Fs.Inode, Fs.exec f (.ilock i) = .ok (f.setInode i ip, .none) ∧ Fs.Inv (f.setInode i ip) ∧
      ip.inum = (f.itable i).inum ∧ ip.ref = (f.itable i).ref ∧ ip.valid = true := by
  have hsat := Fs.ilock_sat hI hr
  unfold Fs.ilock at hsat
  simp only at hsat
  cases hv : (f.itable i).valid with
  | true =>
      refine ⟨f.itable i, ?_, ?_, rfl, rfl, hv⟩
      · simp only [Fs.exec, Fs.ilock, hv, if_true, Fs.Sys.setInode, Function.update_eq_self]
        rfl
      · rw [Fs.Sys.setInode, Function.update_eq_self]
        exact hI
  | false =>
      rw [if_neg (by rw [hv]; exact Bool.false_ne_true), if_neg hl.2] at hsat
      refine ⟨{ f.itable i with toDinode := dinode f.sb f.blk (f.itable i).inum, valid := true }, ?_, hsat.of_ok.1,
        rfl, rfl, rfl⟩
      simp only [Fs.exec, Fs.ilock, hv]
      rw [if_neg (by exact Bool.false_ne_true), if_neg hl.2]
      rfl

/-- What holds before and after every turn, with the calls so far. -/
structure Good (s₀ : Sys N) (acts : List (Act N)) (s : Sys N) : Prop where
  inv : Fs.Inv s.fs
  ref : 0 < (s.fs.itable s.ip).ref
  live : Live s.fs.sb (dinode s.fs.sb s.fs.blk) s.inum
  writable : s.writable = true
  inum : s.inum = s₀.inum
  files : s.fs.files = Function.update s₀.fs.files s₀.inum (s₀.contents ++ (s.chunks.map Prod.snd).flatten)
  off : s.off.toNat = s₀.contents.length + ((s.chunks.map Prod.snd).flatten).length
  calls : ∀ {p c}, s.calls p = some c → c.stop = false ∧ 0 ≤ c.i ∧ (c.i ≤ c.n ∨ c.i = 0) ∧
    ∀ k < c.n.toNat, (c.pages ((c.addr + k) / PGSIZE)).isSome
  bytes : ∀ p, own p s.chunks ++ s.rest p = requested p acts

theorem Good.contents (h : Good s₀ acts s) : s.contents = s₀.contents ++ (s.chunks.map Prod.snd).flatten := by
  rw [Sys.contents, h.files, h.inum, Function.update_self]

/-- There is room for the next chunk below the largest file size. -/
theorem Good.room (h : Good s₀ acts s) (hc : s.calls p = some c) (hlt : c.i < c.n)
    (hmax : s₀.contents.length + ∑ p, (requested p acts).length ≤ MAXFILE * BSIZE) :
    s.off.toNat + c.n1 ≤ MAXFILE * BSIZE := by
  obtain ⟨-, h0, -, -⟩ := h.calls hc
  have hrest : c.n1 ≤ (s.rest p).length := by
    rw [Sys.rest, hc]
    show c.n1 ≤ c.rest.length
    rw [Call.rest_eq h0 (by omega)]
    simp
  have hsum : ((s.chunks.map Prod.snd).flatten).length + (s.rest p).length ≤ ∑ p, (requested p acts).length := by
    rw [← sum_length_own, ← Finset.sum_congr rfl fun p _ => congrArg List.length (h.bytes p)]
    simp only [List.length_append, Finset.sum_add_distrib]
    exact Nat.add_le_add_left (Finset.single_le_sum (f := fun p => (s.rest p).length) (fun _ _ => Nat.zero_le _)
      (Finset.mem_univ p)) _
  rw [h.off]
  omega

theorem files_setInode {f : Fs.Sys} {i : Fin NINODE} {ip : Fs.Inode} : (f.setInode i ip).files = f.files := rfl

/-- What a turn has done to the file system: the chunk is at the end of the file. -/
structure Wrote (s : Sys N) (c : Call) (fs : Fs.Sys) : Prop where
  inv : Fs.Inv fs
  inum : (fs.itable s.ip).inum = s.inum
  ref : 0 < (fs.itable s.ip).ref
  live : Live fs.sb (dinode fs.sb fs.blk) (fs.itable s.ip).inum
  files : fs.files = Function.update s.fs.files s.inum (s.contents ++ (List.range c.n1).map c.src.byte)

/-- The state after a turn. -/
def Sys.wrote (s : Sys N) (p : Fin N) (c : Call) (fs : Fs.Sys) : Sys N :=
  { s with
    fs := fs
    off := s.off + UInt32.ofNat c.n1
    calls := Function.update s.calls p (some { c with i := c.i + c.n1 })
    chunks := s.chunks ++ [(p, (List.range c.n1).map c.src.byte)] }

/-- **A turn writes its chunk at the end of the file**, if the file system has room for it. -/
theorem Good.writeChunk (h : Good s₀ acts s) (hc : s.calls p = some c) (hlt : c.i < c.n)
    (hmax : s₀.contents.length + ∑ p, (requested p acts).length ≤ MAXFILE * BSIZE) :
    (∀ t, writeChunk s p c = some t → ∃ fs, t = s.wrote p c fs ∧ Wrote s c fs) ∧
      (s.fs.sb.size ≤ 2 ^ 31 → Fs.missing s.fs.sb (dinode s.fs.sb s.fs.blk) s.fs.blk s.inum
          (Fs.touched s.off.toNat c.n1) ≤ Fs.free s.fs.sb s.fs.blk → ∃ t, writeChunk s p c = some t) := by
  obtain ⟨-, h0, -, hread⟩ := h.calls hc
  obtain ⟨ip, hlock, hI, hinum, href, hvalid⟩ := ilock_ok h.inv h.ref h.live
  have hself : (s.fs.setInode s.ip ip).itable s.ip = ip := Function.update_self _ _ _
  have hallowed : (Fs.Op.writei s.ip c.src s.off (UInt32.ofNat c.n1)).allowed (s.fs.setInode s.ip ip) := by
    refine ⟨?_, ?_⟩
    · rw [hself, href]
      exact h.ref
    · rw [hself, hvalid]
  have hmaxn : c.n1 ≤ writeMax := Call.n1_le_max
  have hn1 : (UInt32.ofNat c.n1).toNat = c.n1 :=
    UInt32.toNat_ofNat_of_lt' (Nat.lt_of_le_of_lt hmaxn (by decide))
  have hpos : 0 < c.n1 := by
    have : 0 < writeMax := by decide
    unfold Call.n1
    omega
  have hsrc : c.src.Readable (UInt32.ofNat c.n1).toNat := by
    intro k hk
    rw [hn1] at hk
    rw [Nat.add_assoc]
    exact hread _ (by have := Call.n1_le h0 (Int.le_of_lt hlt); omega)
  have hroom := h.room hc hlt hmax
  have hend : s.off.toNat = s.contents.length := by rw [h.off, h.contents, List.length_append]
  unfold Filewrite.writeChunk
  rw [hlock]
  simp only
  refine ⟨fun t ht => ?_, fun hsize hfree => ?_⟩
  · cases hexec : Fs.exec (s.fs.setInode s.ip ip) (.writei s.ip c.src s.off (UInt32.ofNat c.n1)) with
    | error e =>
        rw [hexec] at ht
        cases ht
    | ok x =>
        obtain ⟨fs, r⟩ := x
        obtain ⟨hIt, ⟨blk', d, hfs⟩, hspec⟩ := Fs.exec_writei_ok hI hallowed hsrc hexec
        -- the offset is the end of the file, and the file may grow by the chunk
        simp only [Fs.spec, hself, hinum, files_setInode, hn1] at hspec
        rw [if_neg (by
          show ¬(s.off.toNat > s.contents.length ∨ _)
          omega)] at hspec
        obtain ⟨hfiles, rfl⟩ := Prod.mk.inj hspec
        rw [hexec] at ht
        cases ht
        have hent : fs.itable s.ip = { ip with toDinode := d } := by
          rw [hfs]
          exact (Function.update_self _ _ _).trans (by rw [hself])
        have href' : 0 < (fs.itable s.ip).ref := by
          rw [hent]
          exact href ▸ h.ref
        refine ⟨fs, ?_, hIt, by rw [hent]; exact hinum, href', hIt.live href' (by rw [hent]; exact hvalid), ?_⟩
        · have hr : (0 : Int) < c.n1 := by omega
          simp [Sys.wrote, hpos]
        · rw [hfiles]
          show Function.update s.fs.files s.inum (Fs.overwrite s.contents s.off.toNat _) = _
          rw [hend, Fs.overwrite_end]
  · obtain ⟨fs, r, hexec⟩ := Fs.exec_writei_total c.src hI hsize hallowed (by
      rw [hself, hinum, hn1]
      exact hfree)
    obtain ⟨-, -, hspec⟩ := Fs.exec_writei_ok hI hallowed hsrc hexec
    have hr : ∃ tot, r = .wrote tot := by
      simp only [Fs.spec] at hspec
      split at hspec <;> exact ⟨_, (Prod.mk.inj hspec).2⟩
    obtain ⟨tot, rfl⟩ := hr
    rw [hexec]
    exact ⟨_, rfl⟩

/-! ## Runs -/

theorem rest_update {o : Option Call} (h : t.calls = Function.update s.calls p o) (q : Fin N) :
    t.rest q = if q = p then o.elim [] Call.rest else s.rest q := by
  unfold Sys.rest
  rw [h]
  by_cases hq : q = p
  · rw [if_pos hq, hq, Function.update_self]
  · rw [if_neg hq, Function.update_of_ne hq]

/-- The call of a process after another process, or it, has changed its own. -/
theorem calls_update {o : Option Call} (h : t.calls = Function.update s.calls p o) (hc : t.calls q = some c) :
    o = some c ∨ s.calls q = some c := by
  rw [h] at hc
  by_cases hq : q = p
  · rw [hq, Function.update_self] at hc
    exact .inl hc
  · rw [Function.update_of_ne hq] at hc
    exact .inr hc

/-- **A step keeps what holds**, as long as the bytes that are asked for fit. -/
theorem Good.step (h : Good s₀ acts s) (ha : a.Readable)
    (hmax : s₀.contents.length + ∑ p, (requested p acts).length ≤ MAXFILE * BSIZE)
    (hst : step s a = some t) : Good s₀ (acts ++ [a]) t := by
  cases a with
  | call p pages addr n =>
      simp only [Filewrite.step] at hst
      split at hst
      · rename_i hnone
        rw [if_pos h.writable] at hst
        cases hst
        refine ⟨h.inv, h.ref, h.live, h.writable, h.inum, h.files, h.off, fun {q c} hc => ?_, fun q => ?_⟩
        · rcases calls_update (s := s) rfl hc with hnew | hold
          · cases hnew
            exact ⟨rfl, le_rfl, .inr rfl, ha⟩
          · exact h.calls hold
        · rw [requested_snoc, ← h.bytes q, rest_update (s := s) rfl q]
          by_cases hq : q = p
          · subst hq
            rw [if_pos rfl, Sys.rest, hnone]
            simp [requested, Call.rest]
          · rw [if_neg hq]
            simp [requested, Ne.symm hq]
      · cases hst
  | chunk p =>
      simp only [Filewrite.step] at hst
      split at hst
      · cases hst
      · rename_i c hc
        split at hst
        · rename_i hloop
          obtain ⟨-, h0, -, hread⟩ := h.calls hc
          have hroom := h.room hc hloop.1 hmax
          obtain ⟨fs, rfl, hw⟩ := (h.writeChunk hc hloop.1 hmax).1 t hst
          have hle := Call.n1_le h0 (Int.le_of_lt hloop.1)
          refine ⟨hw.inv, hw.ref, hw.live, h.writable, hw.inum.trans h.inum, ?_, ?_, fun {q c'} hc' => ?_, fun q => ?_⟩
          · show fs.files = Function.update _ _ (_ ++ ((s.chunks ++ [_]).map Prod.snd).flatten)
            rw [hw.files, h.files, h.inum, Function.update_idem, h.contents]
            simp
          · show (s.off + UInt32.ofNat c.n1).toNat = _ + (((s.chunks ++ [_]).map Prod.snd).flatten).length
            have hn1 : (UInt32.ofNat c.n1).toNat = c.n1 :=
              UInt32.toNat_ofNat_of_lt' (Nat.lt_of_le_of_lt Call.n1_le_max (by decide))
            have hbig : MAXFILE * BSIZE < 2 ^ 32 := by decide
            rw [UInt32.toNat_add, hn1, Nat.mod_eq_of_lt (by omega), h.off]
            simp
            omega
          · rcases calls_update (s := s) (t := s.wrote p c fs) rfl hc' with hnew | hold
            · cases hnew
              exact ⟨hloop.2, by simp only; omega, .inl (by simp only; omega), hread⟩
            · exact h.calls hold
          · rw [requested_snoc, ← h.bytes q, rest_update (s := s) (t := s.wrote p c fs) rfl q]
            show own q (s.chunks ++ [_]) ++ _ = _
            rw [own_snoc]
            by_cases hq : q = p
            · subst hq
              rw [if_pos rfl, if_pos rfl, Sys.rest, hc]
              show _ ++ Call.rest _ = _ ++ c.rest ++ []
              rw [Call.rest_eq h0 (Int.le_of_lt hloop.1), List.append_nil, List.append_assoc]
            · rw [if_neg hq, if_neg (Ne.symm hq)]
              simp [requested]
        · cases hst
  | ret p v =>
      simp only [Filewrite.step] at hst
      split at hst
      · cases hst
      · rename_i c hc
        by_cases hdone : (c.n ≤ c.i ∨ c.stop = true) ∧ v = if c.i = c.n then c.n else -1
        · rw [if_pos hdone] at hst
          cases hst
          obtain ⟨hstop, h0, hi, -⟩ := h.calls hc
          refine ⟨h.inv, h.ref, h.live, h.writable, h.inum, h.files, h.off, fun {q c'} hc' => ?_, fun q => ?_⟩
          · rcases calls_update (s := s) rfl hc' with hnew | hold
            · cases hnew
            · exact h.calls hold
          · rw [requested_snoc, ← h.bytes q, rest_update (s := s) rfl q]
            by_cases hq : q = p
            · -- the call has written all its bytes
              subst hq
              have hnil : c.rest = [] := by
                rw [Call.rest, List.drop_eq_nil_iff, bytesAt, List.length_map, List.length_range]
                have := hdone.1.resolve_right (by rw [hstop]; exact Bool.false_ne_true)
                omega
              rw [if_pos rfl, Sys.rest, hc]
              show _ = _ ++ c.rest ++ []
              rw [hnil]
              simp
            · rw [if_neg hq]
              simp [requested]
        · rw [if_neg hdone] at hst
          cases hst

theorem Start.good (h : Start s) : Good s [] s where
  inv := h.inv
  ref := h.ref
  live := h.live
  writable := h.writable
  inum := rfl
  files := by
    rw [h.chunks]
    simp [Sys.contents]
  off := by
    rw [h.chunks, h.off]
    simp
  calls hc := by
    rw [h.calls] at hc
    cases hc
  bytes p := by
    rw [h.chunks, Sys.rest, h.calls]
    rfl

theorem sum_requested_le (acts : List (Act N)) (a : Act N) :
    ∑ p, (requested p acts).length ≤ ∑ p, (requested p (acts ++ [a])).length := by
  refine Finset.sum_le_sum fun p _ => ?_
  rw [requested_snoc, List.length_append]
  exact Nat.le_add_right _ _

theorem good_of_run (hs : Start s) (hread : ∀ a ∈ acts, a.Readable)
    (hmax : s.contents.length + ∑ p, (requested p acts).length ≤ MAXFILE * BSIZE)
    (hrun : Trace.run step s acts = some t) : Good s acts t := by
  refine Trace.run_history (P := fun acts t => (∀ a ∈ acts, a.Readable) →
    s.contents.length + ∑ p, (requested p acts).length ≤ MAXFILE * BSIZE → Good s acts t)
    (fun _ _ => hs.good) (fun acts u a t _ ih hst hread hmax => ?_) hrun hread hmax
  have hle := sum_requested_le acts a
  have hu := ih (fun b hb => hread b (List.mem_append_left _ hb)) (by omega)
  exact hu.step (hread a (List.mem_append_right _ List.mem_cons_self)) (by omega) hst

/-- **Writes through a shared offset do not overlap.** Any number of processes write through one `struct file`
    whose offset is at the end of the file, from memory that can be read, and all the bytes fit into a file.
    Then, however their turns interleave: the file is its old contents followed by the chunks in the order of
    their turns and no other file has changed; the offset is the end of the file; the chunks of each process
    are the bytes that it asked for, in order, up to what is left of a call in progress; no call stops early;
    and a call in progress can take its next turn if there are free blocks for it, or else return. -/
theorem shared_offset_writes (hs : Start s) (hread : ∀ a ∈ acts, a.Readable)
    (hmax : s.contents.length + ∑ p, (requested p acts).length ≤ MAXFILE * BSIZE)
    (hrun : Trace.run step s acts = some t) :
    t.inum = s.inum ∧
      t.fs.files = Function.update s.fs.files s.inum (s.contents ++ (t.chunks.map Prod.snd).flatten) ∧
      t.off.toNat = t.contents.length ∧ (∀ p, own p t.chunks ++ t.rest p = requested p acts) ∧
      ∀ p c, t.calls p = some c → c.stop = false ∧
        (c.i < c.n → t.fs.sb.size ≤ 2 ^ 31 → Fs.missing t.fs.sb (dinode t.fs.sb t.fs.blk) t.fs.blk t.inum
            (Fs.touched t.off.toNat c.n1) ≤ Fs.free t.fs.sb t.fs.blk → ∃ u, step t (.chunk p) = some u) ∧
        (c.n ≤ c.i → ∃ u, step t (.ret p (if 0 ≤ c.n then c.n else -1)) = some u) := by
  have h := good_of_run hs hread hmax hrun
  refine ⟨h.inum, h.files, ?_, h.bytes, fun p c hc => ?_⟩
  · rw [h.off, h.contents, List.length_append]
  · obtain ⟨hstop, h0, hi, -⟩ := h.calls hc
    refine ⟨hstop, fun hlt hsize hfree => ?_, fun hge => ?_⟩
    · simp only [step, hc]
      rw [if_pos ⟨hlt, hstop⟩]
      exact (h.writeChunk hc hlt hmax).2 hsize hfree
    · have hv : (if 0 ≤ c.n then c.n else -1) = if c.i = c.n then c.n else -1 := by
        split <;> split <;> omega
      simp only [step, hc]
      rw [if_pos ⟨.inl hge, hv⟩]
      exact ⟨_, rfl⟩

/-- Process `p` writes two sevens, process `q` an eight; `q` gets the lock first. -/
def sevensAndEight (p q : Fin N) : List (Act N) :=
  [.call p (fun _ => some fun _ => 7) 0 2, .call q (fun _ => some fun _ => 8) 0 1, .chunk q, .chunk p]

/-- A file that has just been opened. -/
def opened (fs : Fs.Sys) (i : Fin NINODE) : Sys N :=
  { fs := fs, ip := i, off := 0, writable := true, calls := fun _ => none, chunks := [] }

theorem sevensAndEight_written : ∃ fs, ∃ t : Sys 2, Trace.run Fs.step Fs.emptyFs Fs.openFile = some fs ∧
    Trace.run step (opened fs Fs.entry0) (sevensAndEight 0 1) = some t ∧ t.contents = [8, 7, 7] := by
  have hfacts : (Trace.run Fs.step Fs.emptyFs Fs.openFile).any (fun fs =>
      decide (0 < (fs.itable Fs.entry0).ref) && decide ((fs.itable Fs.entry0).valid = true) &&
        decide ((opened fs Fs.entry0 : Sys 2).contents = []) &&
        (Trace.run step (opened fs Fs.entry0 : Sys 2) (sevensAndEight 0 1)).any fun t =>
          decide (t.chunks = [(1, [8]), (0, [7, 7])])) = true := by
    decide +kernel
  obtain ⟨fs, hfs, h⟩ := Option.any_eq_true _ _ |>.mp hfacts
  simp only [Bool.and_eq_true, decide_eq_true_iff] at h
  obtain ⟨⟨⟨href, hvalid⟩, hempty⟩, h⟩ := h
  obtain ⟨t, ht, h⟩ := Option.any_eq_true _ _ |>.mp h
  have hI := Fs.inv_run hfs
  have hstart : Start (opened fs Fs.entry0 : Sys 2) :=
    ⟨hI, href, hI.live href hvalid, rfl, fun _ => rfl, rfl, by rw [hempty]; rfl⟩
  have hread : ∀ a ∈ (sevensAndEight 0 1 : List (Act 2)), a.Readable := fun a ha => by
    simp only [sevensAndEight, List.mem_cons, List.not_mem_nil, or_false] at ha
    rcases ha with rfl | rfl | rfl | rfl <;> first | exact fun _ _ => rfl | trivial
  obtain ⟨hinum, hfiles, -, -, -⟩ := shared_offset_writes hstart hread
    (by rw [hempty]; decide) ht
  refine ⟨fs, t, hfs, ht, ?_⟩
  rw [Sys.contents, hinum, hfiles, Function.update_self, hempty, of_decide_eq_true h]
  rfl

end Xv6.Filewrite
