import Xv6.File.Write
import Xv6.Fs.Takes
import Xv6.Lib.Agree

/-!
# `File.Chunked` — `filewrite` against one `writei`

`filewrite` of a process that has the file for itself, as a function: the loop splits the bytes into chunks of at most
`writeMax`, without regard to block boundaries, and checks the limits for each chunk anew. `Done` is what has been
written so far, with the blocks taken for it; two writes after one another are `Done` as one (`Done.trans`), so by
induction the chunks are what **a single `writei`** writes. Where that would be refused, the chunks before the first one
that does not fit have been written.
-/

namespace Xv6.Filewrite

open Fs (NINODE MAXFILE writeMax Src Live dinode Takes touched missing free overwrite)
open Logging (BSIZE)
open Lockstep (ok_bind)
open Outcome (Sat)

/-- The calls of one turn, and what `writei` returns. -/
def turn (s : Fs.Sys) (ip : Fin NINODE) (src : Src) (off : UInt32) (n1 : Nat) : Except Fs.Panic (Fs.Sys × Int) := do
  let s ← Fs.ilock s ip
  let ino := s.itable ip
  let (blk, d, tot) ← Fs.writei s.sb s.blk ino.inum ino.toDinode src off (UInt32.ofNat n1)
  .ok (Fs.Sys.setInode { s with blk := blk } ip { ino with toDinode := d }, tot.elim (-1) Int.ofNat)

/-- `n1`, the length of the next chunk. -/
def chunkLen (n i : Int) : Nat := (min (n - i) writeMax).toNat

theorem chunkLen_pos {n i : Int} (h : i < n) : 0 < chunkLen n i := by
  have : 0 < writeMax := by decide
  unfold chunkLen
  omega

theorem chunkLen_le {n i : Int} : chunkLen n i ≤ (n - i).toNat := by
  unfold chunkLen
  omega

/-- The loop, with the values of `f->off` and `i` after it. -/
def filewriteLoop (ip : Fin NINODE) (pages : Pages) (addr : Nat) (n : Int) (s : Fs.Sys) (off : UInt32) (i : Int) :
    Except Fs.Panic (Fs.Sys × UInt32 × Int) :=
  if i < n then
    turn s ip (.user pages (addr + i.toNat)) off (chunkLen n i) >>= fun (s, r) =>
      let off := if 0 < r then off + UInt32.ofNat r.toNat else off
      if r ≠ chunkLen n i then .ok (s, off, i) else filewriteLoop ip pages addr n s off (i + chunkLen n i)
  else .ok (s, off, i)
termination_by (n - i).toNat
decreasing_by
  have := chunkLen_pos (by assumption)
  omega

/-- `f->off` and the return value. -/
def filewrite (s : Fs.Sys) (ip : Fin NINODE) (off : UInt32) (writable : Bool) (pages : Pages) (addr : Nat) (n : Int) :
    Except Fs.Panic (Fs.Sys × UInt32 × Int) :=
  if writable = false then .ok (s, off, -1)
  else do
    let (s, off, i) ← filewriteLoop ip pages addr n s off 0
    .ok (s, off, if i = n then n else -1)

/-- The file is open. -/
structure Open (s : Fs.Sys) (ip : Fin NINODE) : Prop where
  inv : Fs.Inv s
  ref : 0 < (s.itable ip).ref
  live : Live s.sb (dinode s.sb s.blk) (s.itable ip).inum

def contents (s : Fs.Sys) (ip : Fin NINODE) : List UInt8 := s.files (s.itable ip).inum

/-- `bs` has been written at `off`. -/
structure Done (s t : Fs.Sys) (ip : Fin NINODE) (off : Nat) (bs : List UInt8) : Prop where
  isOpen : Open t ip
  sb : t.sb = s.sb
  inum : (t.itable ip).inum = (s.itable ip).inum
  files : t.files = Function.update s.files (s.itable ip).inum (overwrite (contents s ip) off bs)
  takes : Takes s.sb (s.itable ip).inum (touched off bs.length) (dinode s.sb s.blk) s.blk (dinode s.sb t.blk) t.blk

/-- The blocks that a write of `n` bytes at `off` has to take. -/
def needs (s : Fs.Sys) (ip : Fin NINODE) (off n : Nat) : Nat :=
  missing s.sb (dinode s.sb s.blk) s.blk (s.itable ip).inum (touched off n)

variable {s t u : Fs.Sys} {ip : Fin NINODE} {off m : Nat} {bs bs' : List UInt8} {src : Src}

/-! ## Writes after one another -/

theorem length_overwrite {old : List UInt8} (hoff : off ≤ old.length) :
    (overwrite old off bs).length = max old.length (off + bs.length) := by
  unfold overwrite
  simp only [List.length_append, List.length_take, List.length_drop]
  omega

theorem overwrite_append {old : List UInt8} (hoff : off ≤ old.length) :
    overwrite (overwrite old off bs) (off + bs.length) bs' = overwrite old off (bs ++ bs') := by
  refine List.ext_getElem? fun x => ?_
  have hoff' : off + bs.length ≤ (overwrite old off bs).length := by
    rw [length_overwrite hoff]
    exact Nat.le_max_right _ _
  rw [Fs.getElem?_overwrite hoff', Fs.getElem?_overwrite hoff, Fs.getElem?_overwrite hoff, List.length_append,
    ← Nat.add_assoc]
  by_cases h1 : x < off
  · rw [if_pos (by omega), if_pos h1, if_pos h1]
  · by_cases h2 : x < off + bs.length
    · rw [if_pos h2, if_neg h1, if_pos h2, if_neg h1, if_pos (by omega), List.getElem?_append_left (by omega)]
    · rw [if_neg h2, if_neg h1, if_neg h2, if_neg h1, List.getElem?_append_right (by omega), Nat.sub_sub]

theorem Done.contents (h : Done s t ip off bs) : contents t ip = overwrite (Filewrite.contents s ip) off bs := by
  rw [Filewrite.contents, h.inum, h.files, Function.update_self]

/-- **Two writes after one another** are one. -/
theorem Done.trans (h : Done s t ip off bs) (h' : Done t u ip (off + bs.length) bs')
    (hoff : off ≤ (Filewrite.contents s ip).length) : Done s u ip off (bs ++ bs') := by
  have htakes := h'.takes
  rw [h.sb, h.inum] at htakes
  refine ⟨h'.isOpen, h'.sb.trans h.sb, h'.inum.trans h.inum, ?_, ?_⟩
  · rw [h'.files, h.contents, h.files, h.inum, Function.update_idem, overwrite_append hoff]
  · rw [List.length_append, Fs.touched_add]
    exact h.takes.trans htakes

/-- The blocks that the second write takes are not those of the first. -/
theorem Done.needs_add (h : Done s t ip off bs) (m : Nat) :
    needs s ip off (bs.length + m) = needs s ip off bs.length + needs t ip (off + bs.length) m ∧
      needs s ip off bs.length + free s.sb t.blk = free s.sb s.blk := by
  refine ⟨?_, h.takes.free⟩
  unfold needs
  rw [Fs.touched_add, h.takes.missing_union, h.sb, h.inum]

/-- Nothing has been written. -/
theorem Done.nil (hO : Open s ip) (hOt : Open t ip) (hsb : t.sb = s.sb) (hblk : t.blk = s.blk)
    (hinum : (t.itable ip).inum = (s.itable ip).inum) (hoff : off ≤ (Filewrite.contents s ip).length) :
    Done s t ip off [] := by
  have hlen : (Filewrite.contents s ip).length = (dinode s.sb s.blk (s.itable ip).inum).size.toNat := by
    rw [Filewrite.contents, Fs.files_of_live hO.live, Fs.length_content]
  refine ⟨hOt, hsb, hinum, ?_, ?_⟩
  · rw [overwrite, List.append_nil, List.length_nil, Nat.add_zero, List.take_append_drop, Filewrite.contents,
      Function.update_eq_self]
    unfold Fs.Sys.files
    rw [hsb, hblk]
  · rw [hblk]
    exact Fs.takes_filled fun bn hbn => hO.inv.consistent.sized _ hO.live bn (by omega)

theorem needs_le_add (s : Fs.Sys) (ip : Fin NINODE) (off m k : Nat) : needs s ip off m ≤ needs s ip off (m + k) := by
  unfold needs missing
  rw [Fs.touched_add]
  exact Finset.card_le_card (Finset.filter_subset_filter _ Finset.subset_union_left)

/-! ## One turn -/

/-- The file is locked, and nothing else has changed. -/
structure Locked (s t : Fs.Sys) (ip : Fin NINODE) : Prop where
  inv : Fs.Inv t
  sb : t.sb = s.sb
  blk : t.blk = s.blk
  inum : (t.itable ip).inum = (s.itable ip).inum
  ref : 0 < (t.itable ip).ref
  valid : (t.itable ip).valid = true

theorem Open.ilock (hO : Open s ip) : ∃ t, Fs.ilock s ip = .ok t ∧ Locked s t ip := by
  obtain ⟨e, hexec, hI, hinum, href, hvalid⟩ := ilock_ok hO.inv hO.ref hO.live
  obtain ⟨t, hlock, heq⟩ := Lockstep.bind_eq_ok.mp hexec
  cases heq
  have hself : (s.setInode ip e).itable ip = e := Function.update_self _ _ _
  refine ⟨_, hlock, hI, rfl, rfl, ?_, ?_, ?_⟩
  · rw [hself, hinum]
  · rw [hself, href]
    exact hO.ref
  · rw [hself, hvalid]

theorem Locked.files (h : Locked s t ip) : t.files = s.files := by
  unfold Fs.Sys.files
  rw [h.sb, h.blk]

theorem Locked.length (h : Locked s t ip) : (contents s ip).length = (t.itable ip).size.toNat := by
  rw [contents, ← h.files, ← h.inum, Fs.files_of_live (h.inv.live h.ref h.valid), Fs.length_content,
    (h.inv.copy h.ref h.valid).1]

/-- A turn within the limits writes its bytes, or there are no blocks left for them. -/
theorem turn_in {off : UInt32} (hO : Open s ip) (hread : src.Readable m) (hoff : off.toNat ≤ (contents s ip).length)
    (hmax : off.toNat + m ≤ MAXFILE * BSIZE) :
    Sat (fun _ => s.sb.size ≤ 2 ^ 31 → free s.sb s.blk < needs s ip off.toNat m)
      (fun r => r.2 = (m : Int) ∧ Done s r.1 ip off.toNat ((List.range m).map src.byte)) (turn s ip src off m) := by
  have hm : (UInt32.ofNat m).toNat = m := UInt32.toNat_ofNat_of_lt' (lt_of_le_of_lt
    (show m ≤ MAXFILE * BSIZE by omega) (by decide))
  obtain ⟨s₁, hlock, h₁⟩ := hO.ilock
  have hl := h₁.inv.live h₁.ref h₁.valid
  have hcopy := (h₁.inv.copy h₁.ref h₁.valid).1
  have hsat := Fs.writei_sat src off (UInt32.ofNat m) h₁.inv.consistent hl
  rw [turn, hlock, ok_bind]
  simp only
  rw [← hcopy] at hsat
  cases hw : Fs.writei s₁.sb s₁.blk (s₁.itable ip).inum (s₁.itable ip).toDinode src off (UInt32.ofNat m) with
  | error err =>
      rw [hw] at hsat
      refine .error fun hsize => ?_
      have := hsat.of_error.2 (by rwa [h₁.sb])
      rwa [h₁.sb, h₁.blk, h₁.inum, hm] at this
  | ok r =>
      obtain ⟨blk, d, tot⟩ := r
      obtain ⟨t, ht⟩ : ∃ t, t = Fs.Sys.setInode { s₁ with blk := blk } ip { s₁.itable ip with toDinode := d } := ⟨_, rfl⟩
      have hexec : Fs.exec s₁ (.writei ip src off (UInt32.ofNat m)) = .ok (t, .wrote tot) := by
        simp only [Fs.exec, hw, ht]
        rfl
      have hent : t.itable ip = { s₁.itable ip with toDinode := d } := by
        rw [ht]
        exact Function.update_self _ _ _
      have hsb : t.sb = s.sb := by
        rw [ht, ← h₁.sb]
        rfl
      have hblk : t.blk = blk := by rw [ht]; rfl
      obtain ⟨hIt, -, hspec⟩ := Fs.exec_writei_ok h₁.inv ⟨h₁.ref, h₁.valid⟩ (by rwa [hm]) hexec
      simp only [Fs.spec, hm, h₁.inum, h₁.files] at hspec
      rw [if_neg (by
        show ¬(off.toNat > (contents s ip).length ∨ _)
        omega)] at hspec
      obtain ⟨hfiles, htot⟩ := Prod.mk.inj hspec
      cases htot
      have href : 0 < (t.itable ip).ref := by
        rw [hent]
        exact h₁.ref
      have hvalid : (t.itable ip).valid = true := by
        rw [hent]
        exact h₁.valid
      have hinum : (t.itable ip).inum = (s.itable ip).inum := by
        rw [hent]
        exact h₁.inum
      rw [hcopy] at hw
      have htakes := (Fs.writei_takes h₁.inv.consistent hl (by rwa [hm]) hw).1
      rw [h₁.sb, h₁.blk, h₁.inum, hm] at htakes
      have hdone : Done s t ip off.toNat ((List.range m).map src.byte) := by
        refine ⟨⟨hIt, href, hIt.live href hvalid⟩, hsb, hinum, hfiles, ?_⟩
        rw [List.length_map, List.length_range, hblk]
        exact htakes
      rw [ht] at hdone
      exact .ok ⟨rfl, hdone⟩

/-- A turn beyond the limits returns -1 and writes nothing. -/
theorem turn_out (src : Src) (off : UInt32) (hO : Open s ip) (hm : m < 2 ^ 32)
    (hout : off.toNat > (contents s ip).length ∨ off.toNat + m > MAXFILE * BSIZE) :
    ∃ t, turn s ip src off m = .ok (t, -1) ∧ Open t ip ∧ t.sb = s.sb ∧ t.blk = s.blk ∧
      (t.itable ip).inum = (s.itable ip).inum := by
  have hm : (UInt32.ofNat m).toNat = m := UInt32.toNat_ofNat_of_lt' hm
  obtain ⟨s₁, hlock, h₁⟩ := hO.ilock
  have hw : Fs.writei s₁.sb s₁.blk (s₁.itable ip).inum (s₁.itable ip).toDinode src off (UInt32.ofNat m) =
      .ok (s₁.blk, (s₁.itable ip).toDinode, none) := by
    rw [h₁.length] at hout
    unfold Fs.writei
    by_cases hguard : off > (s₁.itable ip).size ∨ off + UInt32.ofNat m < off
    · rw [if_pos hguard]
    · rw [if_neg hguard, if_pos]
      rw [not_or] at hguard
      rw [Fs.toNat_add_of_le hguard.2, hm]
      have hle : off.toNat ≤ (s₁.itable ip).size.toNat := UInt32.le_iff_toNat_le.mp (UInt32.not_lt.mp hguard.1)
      omega
  refine ⟨s₁, ?_, ⟨h₁.inv, h₁.ref, h₁.inv.live h₁.ref h₁.valid⟩, h₁.sb, h₁.blk, h₁.inum⟩
  rw [turn, hlock, ok_bind]
  simp only
  rw [hw, ok_bind]
  show Except.ok (Fs.Sys.setInode _ ip (s₁.itable ip), (-1 : Int)) = _
  rw [Fs.Sys.setInode, Function.update_eq_self]

/-! ## The loop -/

/-- The bytes of the call from number `i` on. -/
def bytesFrom (pages : Pages) (addr : Nat) (n i : Int) : List UInt8 :=
  (List.range (n - i).toNat).map fun k => userByte pages (addr + i.toNat + k)

theorem bytesFrom_length (pages : Pages) (addr : Nat) (n i : Int) : (bytesFrom pages addr n i).length = (n - i).toNat := by
  rw [bytesFrom, List.length_map, List.length_range]

variable {pages : Pages} {addr : Nat} {n i : Int}

theorem bytesFrom_chunk (h0 : 0 ≤ i) (hi : i ≤ n) :
    bytesFrom pages addr n i = (List.range (chunkLen n i)).map (Src.user pages (addr + i.toNat)).byte ++
      bytesFrom pages addr n (i + chunkLen n i) := by
  have hle := chunkLen_le (n := n) (i := i)
  have hrest : (n - (i + chunkLen n i)).toNat = (n - i).toNat - chunkLen n i := by omega
  have hidx : (i + chunkLen n i).toNat = i.toNat + chunkLen n i := by omega
  unfold bytesFrom
  rw [hrest, hidx]
  conv_lhs => rw [← Nat.add_sub_cancel' hle]
  rw [List.range_add, List.map_append, List.map_map]
  congr 1
  refine List.map_congr_left fun k _ => ?_
  simp only [Function.comp_apply, Nat.add_assoc]

/-- The buffer can be read. -/
def BufReadable (pages : Pages) (addr : Nat) (n : Int) : Prop := ∀ k < n.toNat, (pages ((addr + k) / PGSIZE)).isSome

theorem BufReadable.chunk (h : BufReadable pages addr n) (h0 : 0 ≤ i) (hi : i ≤ n) :
    (Src.user pages (addr + i.toNat)).Readable (chunkLen n i) := by
  intro k hk
  rw [Nat.add_assoc]
  have hle := chunkLen_le (n := n) (i := i)
  exact h _ (by omega)

theorem toNat_advance {off : UInt32} {m : Nat} (h : off.toNat + m ≤ MAXFILE * BSIZE) :
    (off + UInt32.ofNat m).toNat = off.toNat + m := by
  have hbig : MAXFILE * BSIZE < 2 ^ 32 := by decide
  rw [UInt32.toNat_add, UInt32.toNat_ofNat_of_lt' (show m < 2 ^ 32 by omega), Nat.mod_eq_of_lt (by omega)]

/-- **The loop within the limits**, by induction on the bytes that are left. -/
theorem filewriteLoop_in {off : UInt32} (hO : Open s ip) (hread : BufReadable pages addr n) (h0 : 0 ≤ i) (hi : i ≤ n)
    (hoff : off.toNat ≤ (contents s ip).length) (hmax : off.toNat + (n - i).toNat ≤ MAXFILE * BSIZE) :
    Sat (fun _ => s.sb.size ≤ 2 ^ 31 → free s.sb s.blk < needs s ip off.toNat (n - i).toNat)
      (fun r => r.2.1.toNat = off.toNat + (n - i).toNat ∧ r.2.2 = n ∧
        Done s r.1 ip off.toNat (bytesFrom pages addr n i))
      (filewriteLoop ip pages addr n s off i) := by
  induction hk : (n - i).toNat using Nat.strong_induction_on generalizing s off i with
  | _ k ih =>
      subst hk
      rw [filewriteLoop]
      by_cases hlt : i < n
      · rw [if_pos hlt]
        have hpos := chunkLen_pos hlt
        have hle := chunkLen_le (n := n) (i := i)
        have hsplit : (n - i).toNat = chunkLen n i + (n - (i + chunkLen n i)).toNat := by omega
        refine ((turn_in hO (hread.chunk h0 hi) hoff (by omega)).mono (fun _ he hsize => ?_) fun _ hr => hr).bind ?_
        · have := he hsize
          have := needs_le_add s ip off.toNat (chunkLen n i) (n - (i + chunkLen n i)).toNat
          rw [hsplit]
          omega
        · rintro ⟨t, r⟩ ⟨hr, hdone⟩
          simp only at hr hdone ⊢
          subst hr
          have hlen : ((List.range (chunkLen n i)).map (Src.user pages (addr + i.toNat)).byte).length = chunkLen n i := by
            simp
          have hoff' : (off + UInt32.ofNat (chunkLen n i)).toNat = off.toNat + chunkLen n i :=
            toNat_advance (by omega)
          have hadd := hdone.needs_add (n - (i + chunkLen n i)).toNat
          rw [hlen, ← hsplit] at hadd
          rw [if_neg (not_not.mpr rfl), if_pos (by omega), Int.toNat_natCast]
          refine (ih _ (by omega) hdone.isOpen (by omega) (by omega) ?_ (by omega) rfl).mono (fun _ he hsize => ?_) ?_
          · rw [hoff', hdone.contents, length_overwrite hoff, hlen]
            exact Nat.le_max_right _ _
          · have := he (by rwa [hdone.sb])
            rw [hoff', hdone.sb] at this
            omega
          · rintro ⟨u, off', i'⟩ ⟨h1, h2, h3⟩
            rw [hoff'] at h1 h3
            refine ⟨by rw [h1]; omega, h2, ?_⟩
            rw [bytesFrom_chunk h0 hi]
            exact hdone.trans (by rwa [hlen]) hoff
      · rw [if_neg hlt]
        have hin : i = n := by omega
        subst hin
        refine .ok ⟨by simp, rfl, ?_⟩
        rw [bytesFrom, Int.sub_self]
        exact Done.nil hO hO rfl rfl rfl hoff

/-- The bytes of the chunks that end below the largest file size. -/
def wholeChunks (off : Nat) : Nat := (MAXFILE * BSIZE - off) / writeMax * writeMax

theorem wholeChunks_eq_zero (h : MAXFILE * BSIZE < off + writeMax) : wholeChunks off = 0 := by
  have : 0 < writeMax := by decide
  rw [wholeChunks, Nat.div_eq_of_lt (by omega), Nat.zero_mul]

theorem wholeChunks_eq_add (h : off + writeMax ≤ MAXFILE * BSIZE) :
    wholeChunks off = writeMax + wholeChunks (off + writeMax) := by
  unfold wholeChunks
  rw [Nat.div_eq_sub_div (by decide) (by omega), Nat.sub_sub, Nat.add_mul, Nat.one_mul, Nat.add_comm]

theorem wholeChunks_le (off : Nat) : wholeChunks off ≤ MAXFILE * BSIZE - off := Nat.div_mul_le_self _ _

/-- **The loop beyond the largest file size** writes the chunks that fit. -/
theorem filewriteLoop_out {off : UInt32} (hO : Open s ip) (hread : BufReadable pages addr n) (h0 : 0 ≤ i)
    (hoff : off.toNat ≤ (contents s ip).length) (hle : off.toNat ≤ MAXFILE * BSIZE)
    (hout : off.toNat + (n - i).toNat > MAXFILE * BSIZE) :
    Sat (fun _ => s.sb.size ≤ 2 ^ 31 → free s.sb s.blk < needs s ip off.toNat (wholeChunks off.toNat))
      (fun r => r.2.1.toNat = off.toNat + wholeChunks off.toNat ∧ r.2.2 = i + wholeChunks off.toNat ∧
        Done s r.1 ip off.toNat ((bytesFrom pages addr n i).take (wholeChunks off.toNat)))
      (filewriteLoop ip pages addr n s off i) := by
  induction hk : (n - i).toNat using Nat.strong_induction_on generalizing s off i with
  | _ k ih =>
      subst hk
      have hlt : i < n := by omega
      have hpos := chunkLen_pos hlt
      have hlen₁ := chunkLen_le (n := n) (i := i)
      have hmax : chunkLen n i ≤ writeMax := by
        unfold chunkLen
        omega
      rw [filewriteLoop, if_pos hlt]
      by_cases hfit : off.toNat + chunkLen n i ≤ MAXFILE * BSIZE
      · -- a chunk that fits is not the last one, and so it is a whole one
        have hwhole : chunkLen n i = writeMax := by
          unfold chunkLen at hfit ⊢
          omega
        have hsplit := wholeChunks_eq_add (hwhole ▸ hfit)
        rw [← hwhole] at hsplit
        refine ((turn_in hO (hread.chunk h0 (by omega)) hoff hfit).mono (fun _ he hsize => ?_) fun _ hr => hr).bind ?_
        · have := he hsize
          have := needs_le_add s ip off.toNat (chunkLen n i) (wholeChunks (off.toNat + chunkLen n i))
          rw [hsplit]
          omega
        · rintro ⟨t, r⟩ ⟨hr, hdone⟩
          simp only at hr hdone ⊢
          subst hr
          have hlen : ((List.range (chunkLen n i)).map (Src.user pages (addr + i.toNat)).byte).length = chunkLen n i := by
            simp
          have hoff' : (off + UInt32.ofNat (chunkLen n i)).toNat = off.toNat + chunkLen n i := toNat_advance hfit
          have hadd := hdone.needs_add (wholeChunks (off.toNat + chunkLen n i))
          rw [hlen, ← hsplit] at hadd
          rw [if_neg (not_not.mpr rfl), if_pos (by omega), Int.toNat_natCast]
          refine (ih _ (by omega) hdone.isOpen (by omega) ?_ (by omega) (by omega) rfl).mono (fun _ he hsize => ?_) ?_
          · rw [hoff', hdone.contents, length_overwrite hoff, hlen]
            exact Nat.le_max_right _ _
          · have := he (by rwa [hdone.sb])
            rw [hoff', hdone.sb] at this
            omega
          · rintro ⟨u, off', i'⟩ ⟨h1, h2, h3⟩
            rw [hoff'] at h1 h2 h3
            refine ⟨by rw [h1]; omega, by simp only at h2 ⊢; omega, ?_⟩
            rw [bytesFrom_chunk h0 (by omega), hsplit, List.take_append, hlen, Nat.add_sub_cancel_left,
              List.take_of_length_le (by omega)]
            exact hdone.trans (by rwa [hlen]) hoff
      · have hzero : wholeChunks off.toNat = 0 := wholeChunks_eq_zero (by omega)
        have hsmall : chunkLen n i < 2 ^ 32 := lt_of_le_of_lt hmax (by decide)
        obtain ⟨t, hturn, hOt, hsb, hblk, hinum⟩ := turn_out (.user pages (addr + i.toNat)) off hO hsmall (Or.inr (by omega))
        rw [hturn, ok_bind]
        simp only
        rw [if_pos (by omega), if_neg (by decide), hzero]
        refine .ok ⟨rfl, by simp, ?_⟩
        rw [List.take_zero]
        exact Done.nil hO hOt hsb hblk hinum hoff

/-! ## The call -/

theorem Open.length_le (hO : Open s ip) : (contents s ip).length ≤ MAXFILE * BSIZE := by
  rw [contents, Fs.files_of_live hO.live, Fs.length_content]
  exact hO.inv.consistent.size_le hO.live

theorem exists_ok_of_room {α : Type} {Q : α → Prop} {x : Except Fs.Panic α} (hsize : s.sb.size ≤ 2 ^ 31)
    (h : Sat (fun _ => s.sb.size ≤ 2 ^ 31 → free s.sb s.blk < needs s ip off m) Q x)
    (hroom : needs s ip off m ≤ free s.sb s.blk) : ∃ a, x = .ok a ∧ Q a := by
  refine (h.mono (fun e he => ?_) fun a ha => ha).exists_ok
  have := he hsize
  omega

/-- A write that has been done had the room for it. -/
theorem Done.room (h : Done s t ip off bs) : needs s ip off bs.length ≤ free s.sb s.blk := by
  have := (h.needs_add 0).2
  omega

theorem size_eq_of_files {t u : Fs.Sys} {inum : Nat} (ht : Live t.sb (dinode t.sb t.blk) inum)
    (hu : Live u.sb (dinode u.sb u.blk) inum) (h : t.files inum = u.files inum) :
    (dinode t.sb t.blk inum).size = (dinode u.sb u.blk inum).size := by
  have := congrArg List.length h
  rw [Fs.files_of_live ht, Fs.files_of_live hu, Fs.length_content, Fs.length_content] at this
  exact UInt32.toNat_inj.mp this

/-- The same contents in every file, the same size and the same number of blocks taken. -/
structure SameWrite (t u : Fs.Sys) (ip : Fin NINODE) : Prop where
  files : t.files = u.files
  size : (dinode t.sb t.blk (t.itable ip).inum).size = (dinode u.sb u.blk (u.itable ip).inum).size
  free : free t.sb t.blk = free u.sb u.blk

theorem Done.same (ht : Done s t ip off bs) (hu : Done s u ip off bs) : SameWrite t u ip := by
  have hfiles : t.files = u.files := by rw [ht.files, hu.files]
  refine ⟨hfiles, ?_, ?_⟩
  · have h1 := ht.isOpen.live
    have h2 := hu.isOpen.live
    rw [ht.inum] at h1 ⊢
    rw [hu.inum] at h2 ⊢
    exact size_eq_of_files h1 h2 (by rw [hfiles])
  · have h1 := (ht.needs_add 0).2
    have h2 := (hu.needs_add 0).2
    rw [ht.sb, hu.sb]
    omega

/-- The bytes that a call beyond the limits still writes. -/
def written (s : Fs.Sys) (ip : Fin NINODE) (off : Nat) : Nat :=
  if off ≤ (contents s ip).length then wholeChunks off else 0

theorem filewrite_eq {off : UInt32} : filewrite s ip off true pages addr n =
    filewriteLoop ip pages addr n s off 0 >>= fun r => .ok (r.1, r.2.1, if r.2.2 = n then n else -1) := rfl

theorem bytesFrom_zero : (List.range n.toNat).map (Src.user pages addr).byte = bytesFrom pages addr n 0 := by
  rw [bytesFrom, Int.sub_zero]
  rfl

theorem eq_advance {off off' : UInt32} (h : off'.toNat = off.toNat + m) (hm : off.toNat + m ≤ MAXFILE * BSIZE) :
    off' = off + UInt32.ofNat m := by
  rw [← UInt32.toNat_inj, h, toNat_advance hm]

/-- What is written leaves no room for a failure. -/
theorem exists_error_of_done {α : Type} {E : Fs.Panic → Prop} {Q : α → Prop} {x : Except Fs.Panic α} (h : Sat E Q x)
    (hno : ∀ a, ¬Q a) : ∃ e, x = .error e := by
  cases h with
  | ok h => exact absurd h (hno _)
  | error h => exact ⟨_, rfl⟩

/-- **Chunked writes equal one write.** Within the limits, `filewrite` returns `n`, advances the offset by `n` and leaves
    what one `writei` of the `n` bytes leaves, if there are blocks for them; if there are not, both panic. Beyond the
    limits it returns -1 and has written the chunks before the first one that does not fit, the offset being advanced
    by as much. -/
theorem chunked_write (off : UInt32) (hO : Open s ip) (hsize : s.sb.size ≤ 2 ^ 31) (hn : 0 ≤ n)
    (hread : BufReadable pages addr n) :
    (off.toNat ≤ (contents s ip).length → off.toNat + n.toNat ≤ MAXFILE * BSIZE →
      (needs s ip off.toNat n.toNat ≤ free s.sb s.blk → ∃ t u,
        filewrite s ip off true pages addr n = .ok (t, off + UInt32.ofNat n.toNat, n) ∧
          turn s ip (.user pages addr) off n.toNat = .ok (u, n) ∧ SameWrite t u ip) ∧
      (free s.sb s.blk < needs s ip off.toNat n.toNat → (∃ e, filewrite s ip off true pages addr n = .error e) ∧
        ∃ e, turn s ip (.user pages addr) off n.toNat = .error e)) ∧
    (0 < n → off.toNat + n.toNat > MAXFILE * BSIZE ∨ off.toNat > (contents s ip).length →
      (off.toNat ≤ (contents s ip).length → needs s ip off.toNat (wholeChunks off.toNat) ≤ free s.sb s.blk) → ∃ t,
        filewrite s ip off true pages addr n = .ok (t, off + UInt32.ofNat (written s ip off.toNat), -1) ∧
          writeMax ∣ written s ip off.toNat ∧ written s ip off.toNat < n ∧
          t.files = Function.update s.files (s.itable ip).inum (overwrite (contents s ip) off.toNat
            ((bytesFrom pages addr n 0).take (written s ip off.toNat)))) := by
  have hlen := hO.length_le
  have hread₀ : (Src.user pages addr).Readable n.toNat := hread
  refine ⟨fun hoff hmax => ?_, fun hpos hout hroom => ?_⟩
  · have hloop := filewriteLoop_in hO hread le_rfl hn hoff (by rwa [Int.sub_zero])
    have hone := turn_in hO hread₀ hoff hmax
    rw [Int.sub_zero] at hloop
    rw [bytesFrom_zero] at hone
    refine ⟨fun hroom => ?_, fun hfull => ?_⟩
    · obtain ⟨⟨t, off', i'⟩, hrun, h1, h2, h3⟩ := exists_ok_of_room hsize hloop hroom
      obtain ⟨⟨u, r⟩, hrun', h4, h5⟩ := exists_ok_of_room hsize hone hroom
      simp only at h1 h2 h3 h4 h5
      refine ⟨t, u, ?_, ?_, h3.same h5⟩
      · rw [filewrite_eq, hrun, ok_bind, if_pos h2, eq_advance h1 hmax]
      · rw [hrun', h4, Int.toNat_of_nonneg hn]
    · have hno : ∀ t, ¬Done s t ip off.toNat (bytesFrom pages addr n 0) := by
        intro t hdone
        have := hdone.room
        rw [bytesFrom_length, Int.sub_zero] at this
        omega
      obtain ⟨e, he⟩ := exists_error_of_done hloop fun a ha => hno _ ha.2.2
      refine ⟨⟨e, ?_⟩, exists_error_of_done hone fun a ha => hno _ ha.2⟩
      rw [filewrite_eq, he]
      rfl
  · by_cases hoff : off.toNat ≤ (contents s ip).length
    · have hmax : off.toNat + n.toNat > MAXFILE * BSIZE := hout.resolve_right (by omega)
      have hloop := filewriteLoop_out hO hread le_rfl hoff (by omega) (by rwa [Int.sub_zero])
      obtain ⟨⟨t, off', i'⟩, hrun, h1, h2, h3⟩ := exists_ok_of_room hsize hloop (hroom hoff)
      simp only at h1 h2 h3
      have hle := wholeChunks_le off.toNat
      rw [written, if_pos hoff]
      refine ⟨t, ?_, Nat.dvd_mul_left _ _, by omega, h3.files⟩
      rw [filewrite_eq, hrun, ok_bind, if_neg (by show ¬i' = n; omega), eq_advance h1 (by omega)]
    · -- the first turn is refused
      rw [written, if_neg hoff]
      have hsmall : chunkLen n 0 < 2 ^ 32 := by
        have : writeMax < 2 ^ 32 := by decide
        unfold chunkLen
        omega
      obtain ⟨t, hturn, hOt, hsb, hblk, hinum⟩ := turn_out (.user pages addr) off hO hsmall (Or.inl (by omega))
      have hrun : filewriteLoop ip pages addr n s off 0 = .ok (t, off, 0) := by
        rw [filewriteLoop, if_pos hpos]
        show turn s ip (.user pages addr) off (chunkLen n 0) >>= _ = _
        rw [hturn, ok_bind]
        simp only
        rw [if_pos (by omega), if_neg (by decide)]
      refine ⟨t, ?_, Nat.dvd_zero _, by simpa using hpos, ?_⟩
      · rw [filewrite_eq, hrun, ok_bind, if_neg (by show ¬(0 : Int) = n; omega)]
        simp
      · rw [List.take_zero, overwrite, List.append_nil, List.length_nil, Nat.add_zero, List.take_append_drop, contents,
          Function.update_eq_self]
        unfold Fs.Sys.files
        rw [hsb, hblk]

/-- A buffer of sevens. -/
def sevensPages : Pages := fun _ => some fun _ => 7

theorem open_of_run {ops : List Fs.Op} (hrun : Trace.run Fs.step Fs.emptyFs ops = some s)
    (hr : 0 < (s.itable ip).ref) (hv : (s.itable ip).valid = true) : Open s ip :=
  ⟨Fs.inv_run hrun, hr, (Fs.inv_run hrun).live hr hv⟩

theorem two_sevens_written : ∃ s t u, Trace.run Fs.step Fs.emptyFs Fs.openFile = some s ∧
    filewrite s Fs.entry0 0 true sevensPages 0 2 = .ok (t, 2, 2) ∧
      turn s Fs.entry0 (.user sevensPages 0) 0 2 = .ok (u, 2) ∧ SameWrite t u Fs.entry0 := by
  have hfacts : (Trace.run Fs.step Fs.emptyFs Fs.openFile).any (fun s =>
      decide (0 < (s.itable Fs.entry0).ref) && decide ((s.itable Fs.entry0).valid = true) &&
        decide (s.sb.size ≤ 2 ^ 31) && decide (needs s Fs.entry0 0 2 ≤ free s.sb s.blk)) = true := by
    decide +kernel
  obtain ⟨s, hs, h⟩ := Option.any_eq_true _ _ |>.mp hfacts
  simp only [Bool.and_eq_true, decide_eq_true_iff] at h
  obtain ⟨⟨⟨href, hvalid⟩, hsize⟩, hroom⟩ := h
  have hread : BufReadable sevensPages 0 2 := fun _ _ => rfl
  obtain ⟨t, u, h1, h2, h3⟩ := ((chunked_write 0 (open_of_run hs href hvalid) hsize (by decide) hread).1
    (Nat.zero_le _) (by decide)).1 hroom
  exact ⟨s, t, u, hs, h1, h2, h3⟩

/-- On a full disk `filewrite` of one byte at the end of a file panics. -/
theorem filewrite_panics_on_full_disk : ∃ s,
    Trace.run Fs.step Fs.emptyFs (Fs.openFile ++ [.writei Fs.entry0 Fs.sevens 0 2048]) = some s ∧ Open s Fs.entry0 ∧
      (contents s Fs.entry0).length = 2048 ∧
      filewrite s Fs.entry0 2048 true sevensPages 0 1 = .error .outOfBlocks := by
  have hfacts : (Trace.run Fs.step Fs.emptyFs (Fs.openFile ++ [.writei Fs.entry0 Fs.sevens 0 2048])).any (fun s =>
      decide (0 < (s.itable Fs.entry0).ref) && decide ((s.itable Fs.entry0).valid = true) &&
        decide ((s.itable Fs.entry0).size = 2048) &&
        match filewrite s Fs.entry0 2048 true sevensPages 0 1 with
        | .error e => decide (e = .outOfBlocks)
        | .ok _ => false) = true := by
    decide +kernel
  obtain ⟨s, hs, h⟩ := Option.any_eq_true _ _ |>.mp hfacts
  rw [Bool.and_eq_true, Bool.and_eq_true, Bool.and_eq_true, decide_eq_true_iff, decide_eq_true_iff,
    decide_eq_true_iff] at h
  obtain ⟨⟨⟨href, hvalid⟩, hsize⟩, herr⟩ := h
  have hO := open_of_run hs href hvalid
  refine ⟨s, hs, hO, ?_, ?_⟩
  · rw [contents, Fs.files_of_live hO.live, Fs.length_content, ← (hO.inv.copy href hvalid).1, hsize]
    rfl
  · split at herr
    · rename_i e heq
      rw [heq, of_decide_eq_true herr]
    · cases herr

end Xv6.Filewrite
