import Xv6.Fs.Owner
import Xv6.Log.Basic

/-!
# `Fs.Logged` — what one `writei` logs

`filewrite` runs one `writei` per transaction, and a transaction has room for `MAXOPBLOCKS` blocks. The
functions below list the blocks that `writei` and the functions it calls give to `log_write`, in the order of
the calls, also if the call ends with a panic. A turn of the loop logs the block it fills, and for a new block
the bitmap block; the indirect block and its bitmap block come once in a call, as long as `balloc` does not
hand out block 0, which an address cannot name.
-/

namespace Xv6.Fs

open Logging (Block BSIZE MAXOPBLOCKS)
open Outcome (Sat)

variable {sb : Superblock} {blk blk' : Blocks} {ip ip' : Dinode} {addr : UInt32} {b bn n tot off : Nat} {src : Src}

/-! ## The calls of `log_write` -/

/-- The bitmap block, and the block itself from `bzero`. -/
def ballocLog (sb : Superblock) (blk : Blocks) : List Nat :=
  match balloc sb blk with
  | .ok (_, b) => [BBLOCK sb b, b]
  | .error _ => []

def addrAtLog (sb : Superblock) (blk : Blocks) (ip : Dinode) (k : Fin (NDIRECT + 1)) : List Nat :=
  if ip.addrs k = 0 then ballocLog sb blk else []

def entryAtLog (sb : Superblock) (blk : Blocks) (addr : UInt32) (bn : Nat) : List Nat :=
  if word (blk addr.toNat) (4 * bn) = 0 then
    ballocLog sb blk ++
      match balloc sb blk with
      | .ok _ => [addr.toNat]
      | .error _ => []
  else []

def bmapLog (sb : Superblock) (blk : Blocks) (ip : Dinode) (bn : Nat) : List Nat :=
  if h : bn < NDIRECT then addrAtLog sb blk ip ⟨bn, Nat.lt_succ_of_lt h⟩
  else if bn - NDIRECT < NINDIRECT then
    addrAtLog sb blk ip (Fin.last NDIRECT) ++
      match addrAt sb blk ip (Fin.last NDIRECT) with
      | .ok (blk, _, addr) => entryAtLog sb blk addr (bn - NDIRECT)
      | .error _ => []
  else []

def writeiLoopLog (sb : Superblock) (src : Src) (n : Nat) (blk : Blocks) (ip : Dinode) (tot off : Nat) : List Nat :=
  if tot < n then
    bmapLog sb blk ip (off / BSIZE) ++
      match bmap sb blk ip (off / BSIZE) with
      | .ok (blk, ip, addr) =>
          let m := chunk n tot off
          let r := src.read tot m
          let blk := Function.update blk addr.toNat (Bytes.put (blk addr.toNat) (off % BSIZE) r.1)
          if r.2 then addr.toNat :: writeiLoopLog sb src n blk ip (tot + m) (off + m) else []
      | .error _ => []
  else []
termination_by n - tot
decreasing_by
  have := chunk_pos off (by assumption)
  omega

def writeiLog (sb : Superblock) (blk : Blocks) (inum : Nat) (ip : Dinode) (src : Src) (off n : UInt32) : List Nat :=
  if off > ip.size ∨ off + n < off then []
  else if (off + n).toNat > MAXFILE * BSIZE then []
  else
    writeiLoopLog sb src n.toNat blk ip 0 off.toNat ++
      match writeiLoop sb src n.toNat blk ip 0 off.toNat with
      | .ok _ => [IBLOCK sb inum]
      | .error _ => []

/-- The bytes that `filewrite` gives to one `writei`: room for the inode, the indirect block, and two blocks for
    a write that is not aligned. -/
def writeMax : Nat := (MAXOPBLOCKS - 1 - 1 - 2) / 2 * BSIZE

/-! ## What is assumed of the file system -/

/-- The blocks before the data are marked as used, and the inode refers to data blocks. -/
structure Sound (sb : Superblock) (blk : Blocks) (ip : Dinode) : Prop where
  reserved : ∀ b < sb.data, bit sb blk b = true
  addrs : ∀ k, ip.addrs k = 0 ∨ sb.data ≤ (ip.addrs k).toNat

/-- The file has a block for every byte below its size. -/
def Allocated (blk : Blocks) (ip : Dinode) : Prop :=
  ∀ bn, bn * BSIZE < ip.size.toNat → ∃ p, slot bn = some p ∧ refsOf blk ip p ≠ none

theorem data_le_size (sb : Superblock) : sb.data ≤ sb.size := Nat.sub_le _ _

theorem Sound.data_le (h : Sound sb blk ip) (hfree : bit sb blk b = false) : sb.data ≤ b := by
  by_contra hlt
  rw [h.reserved b (by omega)] at hfree
  cases hfree

theorem Sound.update {f : Block} (h : Sound sb blk ip) (hb : sb.data ≤ b) : Sound sb (Function.update blk b f) ip where
  reserved b' hb' := by
    have hne : BBLOCK sb b' ≠ b := by
      have := BBLOCK_lt (Nat.lt_of_lt_of_le hb' (data_le_size sb))
      omega
    rw [bit_congr (Function.update_of_ne hne _ _), h.reserved b' hb']
  addrs := h.addrs

theorem Sound.taken (h : Sound sb blk ip) (hb : sb.data ≤ b) : Sound sb (taken sb blk b) ip where
  reserved b' hb' := by
    rw [bit_taken hb (Nat.lt_of_lt_of_le hb' (data_le_size sb)), h.reserved b' hb', Bool.or_true]
  addrs := h.addrs

theorem toNat_of_lt_size (hb : b < sb.size) : (UInt32.ofNat b).toNat = b :=
  UInt32.toNat_ofNat_of_lt' (Nat.lt_trans hb sb.size_lt)

theorem Sound.setAddr {k : Fin (NDIRECT + 1)} (h : Sound sb blk ip) (hb : sb.data ≤ b) (hlt : b < sb.size) :
    Sound sb blk { ip with addrs := Function.update ip.addrs k (UInt32.ofNat b) } where
  reserved := h.reserved
  addrs k' := by
    by_cases hk : k' = k
    · rw [hk]
      simp only [Function.update_self, toNat_of_lt_size hlt]
      exact .inr hb
    · simp only [Function.update_of_ne hk]
      exact h.addrs k'

/-! ## One call of `bmap` -/

/-- The indirect block and its bitmap block, if there is an indirect block. -/
def indirectBlocks (sb : Superblock) (ip : Dinode) : Finset Nat :=
  if ip.addrs (Fin.last NDIRECT) = 0 then ∅
  else {BBLOCK sb (ip.addrs (Fin.last NDIRECT)).toNat, (ip.addrs (Fin.last NDIRECT)).toNat}

theorem card_indirectBlocks (sb : Superblock) (ip : Dinode) : (indirectBlocks sb ip).card ≤ 2 := by
  unfold indirectBlocks
  split
  · exact Nat.zero_le _
  · exact Finset.card_le_two

/-- What a turn of the loop may log besides the blocks for the indirect block. -/
structure Turn (sb : Superblock) (blk : Blocks) (ip : Dinode) (log : List Nat) (r : Blocks × Dinode × UInt32) :
    Prop where
  logs : ∃ A : Finset Nat, A.card ≤ 2 ∧ ∀ b ∈ log ++ [r.2.2.toNat], b ∈ A ∪ indirectBlocks sb r.2.1
  keeps : ip.addrs (Fin.last NDIRECT) ≠ 0 → r.2.1.addrs (Fin.last NDIRECT) = ip.addrs (Fin.last NDIRECT)
  sound : r.2.1.addrs (Fin.last NDIRECT) = 0 → Sound sb r.1 r.2.1 ∧ sb.data ≤ r.2.2.toNat

theorem balloc_cases (sb : Superblock) (blk : Blocks) :
    (∃ b, balloc sb blk = .ok (taken sb blk b, b) ∧ b < sb.size ∧ bit sb blk b = false) ∨
      ∃ e, balloc sb blk = .error e := by
  have h := balloc_sat sb blk
  generalize balloc sb blk = x at h
  cases h with
  | ok h =>
      rename_i r
      obtain ⟨hlt, hfree, heq⟩ := h
      exact .inl ⟨r.2, by rw [← heq], hlt, hfree⟩
  | error h => exact .inr ⟨_, rfl⟩

theorem addrAt_ok {k : Fin (NDIRECT + 1)} (hz : ip.addrs k = 0) (hb : balloc sb blk = .ok (taken sb blk b, b)) :
    addrAt sb blk ip k =
        .ok (taken sb blk b, { ip with addrs := Function.update ip.addrs k (UInt32.ofNat b) }, UInt32.ofNat b) ∧
      addrAtLog sb blk ip k = [BBLOCK sb b, b] := by
  refine ⟨?_, ?_⟩
  · rw [addrAt, if_pos hz, hb]
    rfl
  · rw [addrAtLog, if_pos hz, ballocLog, hb]

theorem addrAt_error {k : Fin (NDIRECT + 1)} {e : Panic} (hz : ip.addrs k = 0) (he : balloc sb blk = .error e) :
    addrAt sb blk ip k = .error e ∧ addrAtLog sb blk ip k = [] := by
  refine ⟨?_, ?_⟩
  · rw [addrAt, if_pos hz, he]
    rfl
  · rw [addrAtLog, if_pos hz, ballocLog, he]

theorem addrAt_of_ne (sb : Superblock) (blk : Blocks) {k : Fin (NDIRECT + 1)} (hz : ip.addrs k ≠ 0) :
    addrAt sb blk ip k = .ok (blk, ip, ip.addrs k) ∧ addrAtLog sb blk ip k = [] := by
  rw [addrAt, addrAtLog, if_neg hz, if_neg hz]
  exact ⟨rfl, rfl⟩

/-- A direct address: two blocks if it is new, else the block itself. -/
theorem addrAt_turn {k : Fin (NDIRECT + 1)} {r : Blocks × Dinode × UInt32} (hk : k ≠ Fin.last NDIRECT)
    (hs : ip.addrs (Fin.last NDIRECT) = 0 → Sound sb blk ip) (h : addrAt sb blk ip k = .ok r) :
    Turn sb blk ip (addrAtLog sb blk ip k) r := by
  by_cases hz : ip.addrs k = 0
  · rcases balloc_cases sb blk with ⟨b, hb, hlt, hfree⟩ | ⟨e, he⟩
    · obtain ⟨heq, hlog⟩ := addrAt_ok hz hb
      rw [heq] at h
      cases h
      rw [hlog]
      have hkeep : Function.update ip.addrs k (UInt32.ofNat b) (Fin.last NDIRECT) = ip.addrs (Fin.last NDIRECT) :=
        Function.update_of_ne (Ne.symm hk) _ _
      refine ⟨⟨{BBLOCK sb b, b}, Finset.card_le_two, fun x hx => ?_⟩, fun _ => hkeep, fun hlast => ?_⟩
      · simp only [toNat_of_lt_size hlt, List.cons_append, List.nil_append, List.mem_cons, List.not_mem_nil,
          or_false] at hx
        simp only [Finset.mem_union, Finset.mem_insert, Finset.mem_singleton]
        tauto
      · have hs := hs (hkeep.symm.trans hlast)
        have hdata := hs.data_le hfree
        exact ⟨(hs.taken hdata).setAddr hdata hlt, by rw [toNat_of_lt_size hlt]; exact hdata⟩
    · rw [(addrAt_error hz he).1] at h
      cases h
  · obtain ⟨heq, hlog⟩ := addrAt_of_ne sb blk hz
    rw [heq] at h
    cases h
    rw [hlog]
    refine ⟨⟨{(ip.addrs k).toNat}, by simp, fun x hx => by simp_all⟩, fun _ => rfl, fun hlast => ?_⟩
    exact ⟨hs hlast, ((hs hlast).addrs k).resolve_left hz⟩

/-- An entry of the indirect block: two blocks besides the indirect block. -/
theorem entryAt_logs {r : Blocks × UInt32} (h : entryAt sb blk addr bn = .ok r) :
    ∃ A : Finset Nat, A.card ≤ 2 ∧ ∀ b ∈ entryAtLog sb blk addr bn ++ [r.2.toNat], b ∈ A ∨ b = addr.toNat := by
  unfold entryAt at h
  unfold entryAtLog
  by_cases hz : word (blk addr.toNat) (4 * bn) = 0
  · simp only [if_pos hz] at h ⊢
    rcases balloc_cases sb blk with ⟨b, hb, hlt, -⟩ | ⟨e, he⟩
    · rw [hb] at h
      cases h
      refine ⟨{BBLOCK sb b, b}, Finset.card_le_two, fun x hx => ?_⟩
      simp only [ballocLog, hb, toNat_of_lt_size hlt, List.cons_append, List.nil_append, List.mem_cons,
        List.not_mem_nil, or_false] at hx
      simp only [Finset.mem_insert, Finset.mem_singleton]
      tauto
    · rw [he] at h
      cases h
  · simp only [if_neg hz] at h ⊢
    cases h
    exact ⟨{(word (blk addr.toNat) (4 * bn)).toNat}, by simp, fun x hx => by simp_all⟩

theorem indirectBlocks_of_ne (hz : ip.addrs (Fin.last NDIRECT) ≠ 0) : indirectBlocks sb ip =
    {BBLOCK sb (ip.addrs (Fin.last NDIRECT)).toNat, (ip.addrs (Fin.last NDIRECT)).toNat} := if_neg hz

/-- The part of `bmap` after the indirect block `addr` is there. -/
theorem entryAt_turn {ip₁ : Dinode} {blk₁ : Blocks} {log : List Nat} {r : Blocks × Dinode × UInt32}
    (hlast : ip₁.addrs (Fin.last NDIRECT) = addr) (hne : addr ≠ 0)
    (hlog : ∀ b ∈ log, b = BBLOCK sb addr.toNat ∨ b = addr.toNat)
    (hkeep : ip.addrs (Fin.last NDIRECT) ≠ 0 → addr = ip.addrs (Fin.last NDIRECT))
    (h : (do
      let (blk, addr) ← entryAt sb blk₁ addr bn
      .ok (blk, ip₁, addr)) = Except.ok (ε := Panic) r) :
    Turn sb blk ip (log ++ entryAtLog sb blk₁ addr bn) r := by
  cases he : entryAt sb blk₁ addr bn with
  | error e =>
      rw [he] at h
      cases h
  | ok x =>
      rw [he] at h
      cases h
      obtain ⟨A, hA, hsub⟩ := entryAt_logs he
      refine ⟨⟨A, hA, fun b hb => ?_⟩, fun hz => hlast.trans (hkeep hz), fun h0 => absurd (hlast.symm.trans h0) hne⟩
      rw [indirectBlocks_of_ne (by rw [hlast]; exact hne), hlast]
      simp only [Finset.mem_union, Finset.mem_insert, Finset.mem_singleton]
      rw [List.append_assoc, List.mem_append] at hb
      rcases hb with hb | hb
      · exact .inr (hlog b hb)
      · exact (hsub b hb).imp_right .inr

/-- **A call of `bmap` and the block it returns.** -/
theorem bmap_turn {r : Blocks × Dinode × UInt32} (hs : ip.addrs (Fin.last NDIRECT) = 0 → Sound sb blk ip)
    (h : bmap sb blk ip bn = .ok r) : Turn sb blk ip (bmapLog sb blk ip bn) r := by
  unfold bmap at h
  unfold bmapLog
  split at h
  · rename_i hlt
    rw [dif_pos hlt]
    exact addrAt_turn (fun heq => by have := congrArg Fin.val heq; simp only [Fin.val_last] at this; omega) hs h
  · rename_i hnot
    rw [dif_neg hnot]
    split at h
    · rename_i hlt
      rw [if_pos hlt]
      by_cases hz : ip.addrs (Fin.last NDIRECT) = 0
      · rcases balloc_cases sb blk with ⟨b, hb, hltb, hfree⟩ | ⟨e, he⟩
        · obtain ⟨heq, hlog⟩ := addrAt_ok hz hb
          -- block 0 is not a data block, so the new address is not 0
          have hdata := (hs hz).data_le hfree
          have hpos : 0 < sb.data := Nat.lt_of_le_of_lt (Nat.zero_le _) (BBLOCK_lt hltb)
          have hne : UInt32.ofNat b ≠ 0 := fun h0 => by
            have h0' := congrArg UInt32.toNat h0
            rw [toNat_of_lt_size hltb, UInt32.toNat_zero] at h0'
            omega
          rw [heq] at h ⊢
          rw [hlog]
          refine entryAt_turn (Function.update_self (Fin.last NDIRECT) (UInt32.ofNat b) ip.addrs) hne ?_ (fun h => absurd hz h) h
          intro x hx
          rw [toNat_of_lt_size hltb]
          simpa using hx
        · rw [(addrAt_error hz he).1] at h
          cases h
      · obtain ⟨heq, hlog⟩ := addrAt_of_ne sb blk hz
        rw [heq] at h ⊢
        rw [hlog]
        exact entryAt_turn rfl hz (fun _ hb => absurd hb List.not_mem_nil) (fun _ => rfl) h
    · cases h

theorem addrAtLog_length (k : Fin (NDIRECT + 1)) : (addrAtLog sb blk ip k).length ≤ 2 := by
  unfold addrAtLog ballocLog
  split
  · split <;> simp
  · simp

theorem entryAtLog_of_error {e : Panic} (h : entryAt sb blk addr bn = .error e) : entryAtLog sb blk addr bn = [] := by
  unfold entryAt at h
  unfold entryAtLog
  by_cases hz : word (blk addr.toNat) (4 * bn) = 0
  · simp only [if_pos hz, ballocLog] at h ⊢
    cases hb : balloc sb blk with
    | error e' => rfl
    | ok r =>
        rw [hb] at h
        cases h
  · rw [if_neg hz]

/-- A call of `bmap` that panics has logged the indirect block at most. -/
theorem bmapLog_of_error {e : Panic} (h : bmap sb blk ip bn = .error e) : (bmapLog sb blk ip bn).length ≤ 2 := by
  unfold bmap at h
  unfold bmapLog
  split at h
  · rename_i hlt
    rw [dif_pos hlt]
    exact addrAtLog_length _
  · rename_i hnot
    rw [dif_neg hnot]
    split at h
    · rename_i hlt
      rw [if_pos hlt]
      cases ha : addrAt sb blk ip (Fin.last NDIRECT) with
      | error e' =>
          rw [List.append_nil]
          exact addrAtLog_length _
      | ok r =>
          rw [ha] at h
          cases he : entryAt sb r.1 r.2.2 (bn - NDIRECT) with
          | error e' =>
              show (_ ++ entryAtLog sb r.1 r.2.2 (bn - NDIRECT)).length ≤ 2
              rw [entryAtLog_of_error he, List.append_nil]
              exact addrAtLog_length _
          | ok x =>
              have h' : (do
                let (blk, addr) ← entryAt sb r.1 r.2.2 (bn - NDIRECT)
                .ok (blk, r.2.1, addr)) = Except.error (α := Blocks × Dinode × UInt32) e := h
              rw [he] at h'
              cases h'
    · rename_i hge
      rw [if_neg hge]
      exact Nat.zero_le _

/-! ## The loop -/

theorem indirectBlocks_congr (h : ip'.addrs (Fin.last NDIRECT) = ip.addrs (Fin.last NDIRECT)) :
    indirectBlocks sb ip' = indirectBlocks sb ip := by
  unfold indirectBlocks
  rw [h]

theorem indirectBlocks_sub {I : Finset Nat}
    (h : ip.addrs (Fin.last NDIRECT) ≠ 0 → I = indirectBlocks sb ip) : indirectBlocks sb ip ⊆ I := by
  by_cases hz : ip.addrs (Fin.last NDIRECT) = 0
  · rw [indirectBlocks, if_pos hz]
    exact Finset.empty_subset _
  · rw [h hz]

/-- **Over the loop**: two blocks a turn, and two for the indirect block. An aligned loop takes a turn per block. -/
theorem writeiLoopLog_sub (src : Src) {k : Nat} (hs : ip.addrs (Fin.last NDIRECT) = 0 → Sound sb blk ip)
    (halign : tot < n → off % BSIZE = 0) (hk : n - tot ≤ k * BSIZE) :
    ∃ A I : Finset Nat, A.card ≤ 2 * k ∧ I.card ≤ 2 ∧
      (∀ b ∈ writeiLoopLog sb src n blk ip tot off, b ∈ A ∪ I) ∧
      (ip.addrs (Fin.last NDIRECT) ≠ 0 → I = indirectBlocks sb ip) := by
  induction k generalizing blk ip tot off with
  | zero =>
      refine ⟨∅, indirectBlocks sb ip, Nat.zero_le _, card_indirectBlocks sb ip, fun b hb => ?_, fun _ => rfl⟩
      rw [writeiLoopLog, if_neg (by omega)] at hb
      exact absurd hb List.not_mem_nil
  | succ k ih =>
      rw [writeiLoopLog]
      by_cases hlt : tot < n
      · rw [if_pos hlt]
        cases hb : bmap sb blk ip (off / BSIZE) with
        | error e =>
            refine ⟨(bmapLog sb blk ip (off / BSIZE)).toFinset, indirectBlocks sb ip, ?_, card_indirectBlocks sb ip,
              fun b hb => ?_, fun _ => rfl⟩
            · have := List.toFinset_card_le (bmapLog sb blk ip (off / BSIZE))
              have := bmapLog_of_error hb
              omega
            · rw [List.append_nil] at hb
              exact Finset.mem_union_left _ (List.mem_toFinset.mpr hb)
        | ok r =>
            obtain ⟨blk', ip', addr⟩ := r
            have hturn := bmap_turn hs hb
            obtain ⟨A, hA, hsub⟩ := hturn.logs
            simp only
            split
            · -- the next turn starts at a block, or there is none
              have hchunk : chunk n tot off = min (n - tot) BSIZE := by rw [chunk, halign hlt, Nat.sub_zero]
              have hnext : tot + chunk n tot off < n → (off + chunk n tot off) % BSIZE = 0 := by
                intro hmore
                rw [hchunk] at hmore ⊢
                rw [show min (n - tot) BSIZE = BSIZE by omega, Nat.add_mod_right, halign hlt]
              have hs' : ip'.addrs (Fin.last NDIRECT) = 0 → Sound sb (Function.update blk' addr.toNat
                  (Bytes.put (blk' addr.toNat) (off % BSIZE) (src.read tot (chunk n tot off)).1)) ip' := fun h0 =>
                (hturn.sound h0).1.update (hturn.sound h0).2
              obtain ⟨A', I, hA', hI, hsub', hind⟩ := ih hs' hnext (by rw [hchunk, Nat.add_mul] at *; omega)
              refine ⟨A ∪ A', I, ?_, hI, fun b hb => ?_, fun hz => ?_⟩
              · have := Finset.card_union_le A A'
                omega
              · rw [List.append_cons, List.mem_append] at hb
                rcases hb with hb | hb
                · have := Finset.union_subset_union_right (indirectBlocks_sub hind) (hsub b hb)
                  simp only [Finset.mem_union] at this ⊢
                  tauto
                · have := hsub' b hb
                  simp only [Finset.mem_union] at this ⊢
                  tauto
              · have hkeep := hturn.keeps hz
                rw [hind (by rw [hkeep]; exact hz), indirectBlocks_congr hkeep]
            · refine ⟨A, indirectBlocks sb ip', by omega, card_indirectBlocks sb ip', fun b hb => ?_, fun hz => ?_⟩
              · rw [List.append_nil] at hb
                exact hsub b (List.mem_append_left _ hb)
              · exact indirectBlocks_congr (hturn.keeps hz)
      · rw [if_neg hlt]
        exact ⟨∅, indirectBlocks sb ip, Nat.zero_le _, card_indirectBlocks sb ip,
          fun b hb => absurd hb List.not_mem_nil, fun _ => rfl⟩

/-- The number of different blocks of an aligned loop. -/
theorem card_writeiLoopLog {k : Nat} (hs : ip.addrs (Fin.last NDIRECT) = 0 → Sound sb blk ip)
    (halign : tot < n → off % BSIZE = 0) (hk : n - tot ≤ k * BSIZE) :
    (writeiLoopLog sb src n blk ip tot off).toFinset.card ≤ 2 * k + 2 := by
  obtain ⟨A, I, hA, hI, hsub, -⟩ := writeiLoopLog_sub src hs halign hk
  have hle := Finset.card_le_card (s := (writeiLoopLog sb src n blk ip tot off).toFinset) (t := A ∪ I)
    fun b hb => hsub b (List.mem_toFinset.mp hb)
  have := Finset.card_union_le A I
  omega

theorem bmap_direct (sb : Superblock) (blk : Blocks) {ip : Dinode} (hlt : bn < NDIRECT) (hne : ip.addrs ⟨bn, Nat.lt_succ_of_lt hlt⟩ ≠ 0) :
    bmap sb blk ip bn = .ok (blk, ip, ip.addrs ⟨bn, Nat.lt_succ_of_lt hlt⟩) ∧ bmapLog sb blk ip bn = [] := by
  unfold bmap bmapLog
  rw [dif_pos hlt, dif_pos hlt]
  exact addrAt_of_ne sb blk hne

/-- `bmap` of a block that is there logs nothing. -/
theorem bmap_of_allocated (sb : Superblock) {p : Pos} (hp : slot bn = some p) (hb : refsOf blk ip p ≠ none) :
    bmapLog sb blk ip bn = [] ∧ ∃ addr, bmap sb blk ip bn = .ok (blk, ip, addr) := by
  unfold slot at hp
  by_cases hlt : bn < NDIRECT
  · rw [dif_pos hlt] at hp
    cases hp
    obtain ⟨heq, hlog⟩ := bmap_direct sb blk hlt fun h0 => hb (target_eq_none.mpr h0)
    exact ⟨hlog, _, heq⟩
  · unfold bmap bmapLog
    rw [dif_neg hlt] at hp ⊢
    rw [dif_neg hlt]
    split at hp
    · rename_i hlt'
      rw [if_pos hlt', if_pos hlt']
      cases hp
      have hz : ip.addrs (Fin.last NDIRECT) ≠ 0 := fun h0 => hb (by rw [refsOf, target_eq_none.mpr h0]; rfl)
      have hw : word (blk (ip.addrs (Fin.last NDIRECT)).toNat) (4 * (bn - NDIRECT)) ≠ 0 := fun h0 => hb (by
        rw [refsOf, target_eq_some.mpr ⟨hz, rfl⟩]
        exact target_eq_none.mpr h0)
      obtain ⟨heq, hlog⟩ := addrAt_of_ne sb blk hz
      rw [heq, hlog]
      refine ⟨?_, word (blk (ip.addrs (Fin.last NDIRECT)).toNat) (4 * (bn - NDIRECT)), ?_⟩
      · exact if_neg hw
      · show (do
          let (blk, addr) ← entryAt sb blk (ip.addrs (Fin.last NDIRECT)) (bn - NDIRECT)
          Except.ok (blk, ip, addr)) = _
        rw [entryAt, if_neg hw]
        rfl
    · cases hp

/-- A loop that starts inside a block that is there. -/
theorem card_writeiLoopLog_inside {p : Pos} {k : Nat} (hs : ip.addrs (Fin.last NDIRECT) = 0 → Sound sb blk ip)
    (hp : slot (off / BSIZE) = some p) (hb : refsOf blk ip p ≠ none) (hk : n ≤ tot + k * BSIZE) :
    (writeiLoopLog sb src n blk ip tot off).toFinset.card ≤ 2 * k + 3 := by
  rw [writeiLoopLog]
  split
  · obtain ⟨hlog, addr, heq⟩ := bmap_of_allocated sb hp hb
    have hturn := bmap_turn hs heq
    rw [hlog, heq, List.nil_append]
    simp only
    split
    · rw [List.toFinset_cons]
      refine (Finset.card_insert_le _ _).trans ?_
      refine (Nat.succ_le_succ (card_writeiLoopLog (k := k)
        (fun h0 => (hturn.sound h0).1.update (hturn.sound h0).2) ?_ ?_)).trans ?_
      · intro hmore
        unfold chunk at hmore ⊢
        have hdiv := Nat.div_add_mod off BSIZE
        have hmod : off % BSIZE < BSIZE := Nat.mod_lt _ (by decide)
        rw [show min (n - tot) (BSIZE - off % BSIZE) = BSIZE - off % BSIZE by omega,
          show off + (BSIZE - off % BSIZE) = BSIZE * (off / BSIZE + 1) by rw [Nat.mul_add]; omega,
          Nat.mul_mod_right]
      · omega
      · omega
    · simp
  · simp

/-! ## The blocks that change -/

theorem taken_changes (blk : Blocks) {x : Nat} (hne : taken sb blk b x ≠ blk x) : x ∈ [BBLOCK sb b, b] := by
  by_contra hx
  simp only [List.mem_cons, List.not_mem_nil, or_false, not_or] at hx
  exact hne (taken_of_ne hx.1 hx.2)

theorem addrAt_changes {k : Fin (NDIRECT + 1)} {r : Blocks × Dinode × UInt32} {x : Nat}
    (h : addrAt sb blk ip k = .ok r) (hne : r.1 x ≠ blk x) : x ∈ addrAtLog sb blk ip k := by
  by_cases hz : ip.addrs k = 0
  · rcases balloc_cases sb blk with ⟨b, hb, -, -⟩ | ⟨e, he⟩
    · obtain ⟨heq, hlog⟩ := addrAt_ok hz hb
      rw [heq] at h
      cases h
      rw [hlog]
      exact taken_changes blk hne
    · rw [(addrAt_error hz he).1] at h
      cases h
  · rw [(addrAt_of_ne sb blk hz).1] at h
    cases h
    exact absurd rfl hne

theorem entryAt_changes {r : Blocks × UInt32} {x : Nat} (h : entryAt sb blk addr bn = .ok r) (hne : r.1 x ≠ blk x) :
    x ∈ entryAtLog sb blk addr bn := by
  unfold entryAt at h
  unfold entryAtLog
  by_cases hz : word (blk addr.toNat) (4 * bn) = 0
  · simp only [if_pos hz] at h ⊢
    rcases balloc_cases sb blk with ⟨b, hb, -, -⟩ | ⟨e, he⟩
    · rw [hb] at h
      cases h
      rw [ballocLog, hb]
      by_cases hx : x = addr.toNat
      · exact List.mem_append_right _ (List.mem_singleton.mpr hx)
      · refine List.mem_append_left _ (taken_changes blk fun heq => hne ?_)
        exact (Function.update_of_ne hx _ _).trans heq
    · rw [he] at h
      cases h
  · simp only [if_neg hz] at h
    cases h
    exact absurd rfl hne

theorem bmap_changes {r : Blocks × Dinode × UInt32} {x : Nat} (h : bmap sb blk ip bn = .ok r) (hne : r.1 x ≠ blk x) :
    x ∈ bmapLog sb blk ip bn := by
  unfold bmap at h
  unfold bmapLog
  split at h
  · rename_i hlt
    rw [dif_pos hlt]
    exact addrAt_changes h hne
  · rename_i hnot
    rw [dif_neg hnot]
    split at h
    · rename_i hlt
      rw [if_pos hlt]
      cases ha : addrAt sb blk ip (Fin.last NDIRECT) with
      | error e =>
          rw [ha] at h
          cases h
      | ok y =>
          rw [ha] at h
          replace h : (do
            let (blk, addr) ← entryAt sb y.1 y.2.2 (bn - NDIRECT)
            .ok (blk, y.2.1, addr)) = Except.ok (ε := Panic) r := h
          cases he : entryAt sb y.1 y.2.2 (bn - NDIRECT) with
          | error e =>
              rw [he] at h
              cases h
          | ok z =>
              rw [he] at h
              cases h
              by_cases hx : y.1 x = blk x
              · refine List.mem_append_right _ (entryAt_changes he fun heq => hne (heq.trans hx))
              · exact List.mem_append_left _ (addrAt_changes ha hx)
    · cases h

/-- **What a complete loop changes, it logs.** -/
theorem writeiLoop_changes {r : Blocks × Dinode × Nat × Nat} {x : Nat} (hle : tot ≤ n)
    (h : writeiLoop sb src n blk ip tot off = .ok r) (hfull : r.2.2.1 = n) (hne : r.1 x ≠ blk x) :
    x ∈ writeiLoopLog sb src n blk ip tot off := by
  induction hk : n - tot using Nat.strong_induction_on generalizing blk ip tot off with
  | _ k ih =>
      rw [writeiLoop] at h
      rw [writeiLoopLog]
      by_cases hlt : tot < n
      · rw [if_pos hlt] at h ⊢
        cases hb : bmap sb blk ip (off / BSIZE) with
        | error e =>
            rw [hb] at h
            cases h
        | ok y =>
            obtain ⟨blk', ip', addr⟩ := y
            rw [hb] at h
            replace h : (if (src.read tot (chunk n tot off)).2 = true then _ else _) = Except.ok r := h
            simp only
            split at h
            · rename_i hsrc
              rw [if_pos hsrc]
              have hpos := chunk_pos off hlt
              have hchunk : tot + chunk n tot off ≤ n := by
                unfold chunk
                omega
              by_cases hx : Function.update blk' addr.toNat (Bytes.put (blk' addr.toNat) (off % BSIZE)
                  (src.read tot (chunk n tot off)).1) x = blk x
              · refine List.mem_append_right _ (List.mem_cons_of_mem _ ?_)
                exact ih (n - (tot + chunk n tot off)) (by omega) hchunk h (fun heq => hne (heq.trans hx)) rfl
              · by_cases hxa : x = addr.toNat
                · exact List.mem_append_right _ (hxa ▸ List.mem_cons_self)
                · rw [Function.update_of_ne hxa] at hx
                  exact List.mem_append_left _ (bmap_changes hb hx)
            · cases h
              exact absurd hfull (by simp only; omega)
      · rw [if_neg hlt] at h
        cases h
        exact absurd rfl hne

/-! ## A bitmap with block 0 free -/

/-- What a turn of the loop does, once `bmap` has answered and the bytes are there. -/
theorem writeiLoop_turn (src : Src) {log : List Nat} (hlt : tot < n) (hbn : off / BSIZE = bn)
    (hb : bmap sb blk ip bn = .ok (blk', ip', addr) ∧ bmapLog sb blk ip bn = log) (hsrc : (src.read tot (chunk n tot off)).2 = true) :
    writeiLoop sb src n blk ip tot off =
        writeiLoop sb src n (Function.update blk' addr.toNat
          (Bytes.put (blk' addr.toNat) (off % BSIZE) (src.read tot (chunk n tot off)).1)) ip'
          (tot + chunk n tot off) (off + chunk n tot off) ∧
      writeiLoopLog sb src n blk ip tot off =
        log ++ addr.toNat :: writeiLoopLog sb src n (Function.update blk' addr.toNat
          (Bytes.put (blk' addr.toNat) (off % BSIZE) (src.read tot (chunk n tot off)).1)) ip'
          (tot + chunk n tot off) (off + chunk n tot off) := by
  refine ⟨?_, ?_⟩
  · rw [writeiLoop, if_pos hlt, hbn, hb.1]
    show (if _ then _ else _) = _
    rw [if_pos hsrc]
  · rw [writeiLoopLog, if_pos hlt, hbn, hb.1, hb.2]
    simp only
    rw [if_pos hsrc]

/-- `bmap` of a block with a new indirect block and a new entry. -/
theorem bmap_new {j b₁ b₂ : Nat} (hj : j < NINDIRECT) (hz : ip.addrs (Fin.last NDIRECT) = 0) (hlt : b₁ < sb.size)
    (h₁ : balloc sb blk = .ok (taken sb blk b₁, b₁))
    (h₂ : balloc sb (taken sb blk b₁) = .ok (taken sb (taken sb blk b₁) b₂, b₂)) :
    bmap sb blk ip (NDIRECT + j) =
        .ok (Function.update (taken sb (taken sb blk b₁) b₂) b₁
            (Bytes.store (taken sb (taken sb blk b₁) b₂ b₁) (4 * j) 4 b₂),
          { ip with addrs := Function.update ip.addrs (Fin.last NDIRECT) (UInt32.ofNat b₁) }, UInt32.ofNat b₂) ∧
      bmapLog sb blk ip (NDIRECT + j) = [BBLOCK sb b₁, b₁, BBLOCK sb b₂, b₂, b₁] := by
  obtain ⟨heq, hlog⟩ := addrAt_ok hz h₁
  have hword : word (taken sb blk b₁ b₁) (4 * j) = 0 := by rw [taken_self, word_zero]
  unfold bmap bmapLog
  rw [dif_neg (by omega), dif_neg (by omega), Nat.add_sub_cancel_left, if_pos hj, if_pos hj, heq, hlog]
  refine ⟨?_, ?_⟩
  · show (do
      let (blk, addr) ← entryAt sb (taken sb blk b₁) (UInt32.ofNat b₁) j
      Except.ok (blk, _, addr)) = _
    simp only [entryAt, toNat_of_lt_size hlt]
    rw [if_pos hword, h₂]
    rfl
  · simp only [entryAtLog, toNat_of_lt_size hlt, ballocLog]
    rw [if_pos hword, h₂]
    rfl

/-- `bmap` of a block with a new entry of the indirect block `a`. -/
theorem bmap_entry {j a b₂ : Nat} (hj : j < NINDIRECT) (ha : a ≠ 0) (hlt : a < sb.size)
    (hz : ip.addrs (Fin.last NDIRECT) = UInt32.ofNat a) (hword : word (blk a) (4 * j) = 0)
    (h₂ : balloc sb blk = .ok (taken sb blk b₂, b₂)) :
    bmap sb blk ip (NDIRECT + j) =
        .ok (Function.update (taken sb blk b₂) a (Bytes.store (taken sb blk b₂ a) (4 * j) 4 b₂), ip, UInt32.ofNat b₂) ∧
      bmapLog sb blk ip (NDIRECT + j) = [BBLOCK sb b₂, b₂, a] := by
  have hne : ip.addrs (Fin.last NDIRECT) ≠ 0 := fun h0 => by
    have := congrArg UInt32.toNat (hz.symm.trans h0)
    rw [toNat_of_lt_size hlt, UInt32.toNat_zero] at this
    exact ha this
  obtain ⟨heq, hlog⟩ := addrAt_of_ne sb blk hne
  unfold bmap bmapLog
  rw [dif_neg (by omega), dif_neg (by omega), Nat.add_sub_cancel_left, if_pos hj, if_pos hj, heq, hlog, hz]
  refine ⟨?_, ?_⟩
  · show (do
      let (blk, addr) ← entryAt sb blk (UInt32.ofNat a) j
      Except.ok (blk, _, addr)) = _
    simp only [entryAt, toNat_of_lt_size hlt]
    rw [if_pos hword, h₂]
    rfl
  · simp only [entryAtLog, toNat_of_lt_size hlt, ballocLog]
    rw [if_pos hword, h₂]
    rfl

theorem wideDisk_bitmap_lt : ∀ b < 5 * BPB, b / BPB + 34 < 5 * BPB - (5 * BPB - 40) := by
  simp only [BPB, BSIZE]
  omega

theorem wideDisk_inodes_lt : ∀ inum < 16, inum / IPB + 32 < 34 := by
  simp only [IPB, BSIZE]
  omega

theorem wideDisk_size_lt : 5 * BPB < 2 ^ 32 := by decide

/-- A disk with five bitmap blocks, 34 to 38. -/
def wideDisk : Superblock where
  size := 5 * BPB
  nblocks := 5 * BPB - 40
  ninodes := 16
  inodestart := 32
  bmapstart := 34
  size_lt := wideDisk_size_lt
  inodes_lt := wideDisk_inodes_lt
  bitmap_lt := wideDisk_bitmap_lt

/-- From bitmap block `k` on, the first bit of every bitmap block is clear; all other bits are set. -/
def FreeFrom (k : Nat) (blk : Blocks) : Prop :=
  ∀ b < wideDisk.size, bit wideDisk blk b = !decide (b % BPB = 0 ∧ k ≤ b / BPB)

theorem FreeFrom.balloc {k : Nat} (h : FreeFrom k blk) (hk : k < 5) :
    balloc wideDisk blk = .ok (Fs.taken wideDisk blk (k * BPB), k * BPB) := by
  have hpos : 0 < BPB := by decide
  have hsize : wideDisk.size = 5 * BPB := rfl
  have hlt : k * BPB < wideDisk.size := by
    rw [hsize]
    exact (Nat.mul_lt_mul_right hpos).mpr hk
  refine balloc_of_first (by rw [hsize]; decide) hlt (fun b hb => ?_) ?_
  · rw [h b (by omega)]
    have : b / BPB < k := Nat.div_lt_of_lt_mul (by rw [Nat.mul_comm]; exact hb)
    simp
    omega
  · rw [h _ hlt, Nat.mul_mod_left, Nat.mul_div_cancel _ hpos]
    simp

theorem FreeFrom.update {k a : Nat} {f : Block} (h : FreeFrom k blk) (ha : a < 34 ∨ 40 ≤ a) :
    FreeFrom k (Function.update blk a f) := by
  intro b hb
  have hlt : BBLOCK wideDisk b < 40 := BBLOCK_lt hb
  have hle : 34 ≤ BBLOCK wideDisk b := bmapstart_le wideDisk b
  rw [bit_congr (Function.update_of_ne (by omega) _ _), h b hb]

theorem FreeFrom.taken {k : Nat} (h : FreeFrom k blk) : FreeFrom (k + 1) (Fs.taken wideDisk blk (k * BPB)) := by
  have hBPB : BPB = 8192 := rfl
  have hmark : FreeFrom (k + 1) (mark wideDisk blk (k * BPB)) := by
    intro b hb
    rw [bit_mark, h b hb, Bool.eq_iff_iff]
    simp only [hBPB, Bool.or_eq_true, decide_eq_true_eq, Bool.not_eq_true', decide_eq_false_iff_not]
    omega
  exact hmark.update (by rw [hBPB]; omega)

/-- In every block of the disk bit `j` is clear and the others are set. -/
def clearAt (j : Nat) : Blocks := fun _ => Bitmap.clear (fun _ => 255) j

theorem bit_clearAt (sb : Superblock) (j b : Nat) : bit sb (clearAt j) b = decide (b % BPB ≠ j) := by
  have hones : Bitmap.test (fun _ => 255) (b % BPB) = true := by
    have hall : ∀ k : Fin 8, (255 : UInt8).toBitVec.getLsbD k = true := by decide
    rw [Bitmap.test, Bitmap.and_mask]
    exact hall ⟨b % BPB % 8, Nat.mod_lt _ (by decide)⟩
  rw [bit, clearAt, Bitmap.test_clear, hones, Bool.and_true]

theorem clearAt_zero_free : FreeFrom 0 (clearAt 0) := by
  intro b _
  rw [bit_clearAt]
  simp

/-- A file of eleven blocks and a half: twelve addresses and no indirect block. -/
def shortFile : Dinode where
  type := 2
  major := 0
  minor := 0
  nlink := 1
  size := 11776
  addrs k := if k.val < NDIRECT then UInt32.ofNat (100 + k) else 0

def zeroPages : Src := .user (fun _ => some fun _ => 0) 0

theorem zeroPages_read (k m : Nat) : (zeroPages.read k m).2 = true := by
  show (copyin _ _ _).2 = true
  rw [copyin_of_mapped fun _ _ => rfl]

theorem shortFile_allocated (blk : Blocks) : Allocated blk shortFile := by
  intro bn hbn
  have hlt : bn < NDIRECT := by
    have : bn * 1024 < 11776 := hbn
    show bn < 12
    omega
  refine ⟨.addr ⟨bn, Nat.lt_succ_of_lt hlt⟩, by rw [slot, dif_pos hlt], fun h => ?_⟩
  have h0 := congrArg UInt32.toNat (target_eq_none.mp h)
  simp only [shortFile, if_pos hlt] at h0
  rw [UInt32.toNat_ofNat_of_lt' (by have : NDIRECT = 12 := rfl; show 100 + bn < 2 ^ 32; omega)] at h0
  simp at h0

/-- A turn that takes the first free block for the indirect block and the second one for the data. -/
theorem FreeFrom.turn {k j : Nat} (h : FreeFrom k blk) (hk : k + 1 < 5) (hz : ip.addrs (Fin.last NDIRECT) = 0)
    (hlt : tot < n) (hbn : off / BSIZE = NDIRECT + j) (hj : j < NINDIRECT) :
    ∃ blk' ip', FreeFrom (k + 2) blk' ∧ ip'.addrs (Fin.last NDIRECT) = UInt32.ofNat (k * BPB) ∧
      (∀ o, 4 * j + 4 ≤ o → word (blk' (k * BPB)) o = 0) ∧
      writeiLoop wideDisk zeroPages n blk ip tot off =
        writeiLoop wideDisk zeroPages n blk' ip' (tot + chunk n tot off) (off + chunk n tot off) ∧
      writeiLoopLog wideDisk zeroPages n blk ip tot off =
        [k + 34, k * BPB, k + 1 + 34, (k + 1) * BPB, k * BPB, (k + 1) * BPB] ++
          writeiLoopLog wideDisk zeroPages n blk' ip' (tot + chunk n tot off) (off + chunk n tot off) := by
  have hBPB : BPB = 8192 := rfl
  have hsize : wideDisk.size = 40960 := rfl
  have hBB : ∀ k, BBLOCK wideDisk (k * BPB) = k + 34 := fun k => by
    rw [BBLOCK, Nat.mul_div_cancel _ (by decide)]
    rfl
  obtain ⟨hw, hl⟩ := writeiLoop_turn zeroPages hlt hbn
    (bmap_new hj hz (by rw [hsize, hBPB]; omega) (h.balloc (by omega)) (h.taken.balloc hk)) (zeroPages_read _ _)
  have hk' : (k + 1) * BPB < wideDisk.size := by rw [hsize, hBPB]; omega
  rw [toNat_of_lt_size hk'] at hw hl
  refine ⟨_, _, ?_, ?_, fun o ho => ?_, hw, ?_⟩
  · exact ((h.taken.taken).update (by rw [hBPB]; omega)).update (by rw [hBPB]; omega)
  · exact Function.update_self (Fin.last NDIRECT) _ ip.addrs
  · have hne : k * BPB ≠ (k + 1) * BPB := by rw [hBPB]; omega
    rw [Function.update_of_ne hne, Function.update_self, word_store_of_disjoint (.inr ho),
      taken_of_ne (by rw [hBB, hBPB]; omega) hne, taken_self, word_zero]
  · rw [hl, hBB, hBB]
    rfl

/-- The blocks that 3072 bytes at the end of the file log. -/
theorem wideDisk_log : (∃ r, writeiLoop wideDisk zeroPages 3072 (clearAt 0) shortFile 0 11776 = .ok r) ∧
    writeiLoopLog wideDisk zeroPages 3072 (clearAt 0) shortFile 0 11776 =
      [111] ++ ([0 + 34, 0 * BPB, 0 + 1 + 34, (0 + 1) * BPB, 0 * BPB, (0 + 1) * BPB] ++
        ([2 + 34, 2 * BPB, 2 + 1 + 34, (2 + 1) * BPB, 2 * BPB, (2 + 1) * BPB] ++
          [38, 4 * BPB, 2 * BPB, 4 * BPB])) := by
  have haddr : (shortFile.addrs ⟨11, by decide⟩).toNat = 111 := by decide
  have hc₁ : chunk 3072 0 11776 = 512 := by decide
  have hc₂ : chunk 3072 512 12288 = 1024 := by decide
  have hc₃ : chunk 3072 1536 13312 = 1024 := by decide
  have hc₄ : chunk 3072 2560 14336 = 512 := by decide
  have hlt₁ : 11 < NDIRECT := by decide
  have hne₁ : shortFile.addrs ⟨11, by decide⟩ ≠ 0 := by decide
  obtain ⟨hw₁, hl₁⟩ := writeiLoop_turn zeroPages (show 0 < 3072 by decide)
    (show 11776 / BSIZE = 11 from rfl)
    (bmap_direct wideDisk (clearAt 0) hlt₁ hne₁) (zeroPages_read _ _)
  rw [haddr, hc₁] at hw₁ hl₁
  have hfree₁ : FreeFrom 0 (Function.update (clearAt 0) 111
      (Bytes.put ((clearAt 0) 111) (11776 % BSIZE) (zeroPages.read 0 512).1)) :=
    clearAt_zero_free.update (.inr (by decide))
  obtain ⟨blk₂, ip₂, hfree₂, hlast₂, -, hw₂, hl₂⟩ := hfree₁.turn (j := 0) (by decide)
    (show shortFile.addrs (Fin.last NDIRECT) = 0 from rfl) (show 512 < 3072 by decide)
    (show 12288 / BSIZE = NDIRECT + 0 from rfl) (by decide)
  rw [hc₂] at hw₂ hl₂
  obtain ⟨blk₃, ip₃, hfree₃, hlast₃, hword₃, hw₃, hl₃⟩ := hfree₂.turn (j := 1) (by decide)
    (show ip₂.addrs (Fin.last NDIRECT) = 0 by rw [hlast₂]; decide) (show 1536 < 3072 by decide)
    (show 13312 / BSIZE = NDIRECT + 1 from rfl) (by decide)
  rw [hc₃] at hw₃ hl₃
  obtain ⟨hw₄, hl₄⟩ := writeiLoop_turn zeroPages (show 2560 < 3072 by decide)
    (show 14336 / BSIZE = NDIRECT + 2 from rfl)
    (bmap_entry (by decide) (by decide) (by decide) hlast₃ (hword₃ 8 (by decide)) (hfree₃.balloc (by decide)))
    (zeroPages_read _ _)
  rw [hc₄] at hw₄ hl₄
  refine ⟨?_, ?_⟩
  · rw [hw₁, hw₂, hw₃, hw₄, writeiLoop, if_neg (by decide)]
    exact ⟨_, rfl⟩
  · rw [hl₁, hl₂, hl₃, hl₄, writeiLoopLog, if_neg (by decide)]
    rfl

/-! ## The bound -/

/-- **A file write fits its log reservation.** A `writei` of at most `writeMax` bytes into a file with a block for
    every byte gives at most `MAXOPBLOCKS` different blocks to `log_write`. -/
theorem writei_fits_reservation (sb : Superblock) (blk : Blocks) (inum : Nat) (ip : Dinode) (src : Src)
    (off n : UInt32) (hs : Sound sb blk ip) (ha : Allocated blk ip) (hn : n.toNat ≤ writeMax) :
    (writeiLog sb blk inum ip src off n).toFinset.card ≤ MAXOPBLOCKS := by
  have hmax : writeMax = 3 * BSIZE := rfl
  unfold writeiLog
  split
  · exact Nat.zero_le _
  · rename_i hoff
    split
    · exact Nat.zero_le _
    · rw [List.toFinset_append]
      refine (Finset.card_union_le _ _).trans ?_
      have hinode : ∀ x : Except Panic (Blocks × Dinode × Nat × Nat),
          (match x with
            | .ok _ => [IBLOCK sb inum]
            | .error _ => [] : List Nat).toFinset.card ≤ 1 := by
        intro x
        cases x <;> simp
      have hloop : (writeiLoopLog sb src n.toNat blk ip 0 off.toNat).toFinset.card ≤ 9 := by
        by_cases halign : off.toNat % BSIZE = 0
        · exact (card_writeiLoopLog (k := 3) (fun _ => hs) (fun _ => halign) (by omega)).trans (by decide)
        · have hsize : off.toNat ≤ ip.size.toNat := by
            have := not_or.mp hoff
            exact UInt32.not_lt.mp this.1
          obtain ⟨p, hp, hb⟩ := ha (off.toNat / BSIZE) (by
            have := Nat.div_add_mod off.toNat BSIZE
            rw [Nat.mul_comm]
            omega)
          exact card_writeiLoopLog_inside (k := 3) (fun _ => hs) hp hb (by omega)
      exact Nat.add_le_add hloop (hinode _)

/-- With a data block free in every bitmap block instead, ten blocks are enough. -/
theorem writei_fits_at_end :
    (writeiLog wideDisk (clearAt 50) 1 shortFile zeroPages 11776 3072).toFinset.card ≤ MAXOPBLOCKS := by
  have hsound : Sound wideDisk (clearAt 50) shortFile := by
    refine ⟨fun b hb => ?_, by decide⟩
    have hlt : b < 40 := hb
    rw [bit_clearAt, Nat.mod_eq_of_lt (by show b < 8192; omega), decide_eq_true_eq]
    omega
  exact writei_fits_reservation _ _ _ _ _ _ _ hsound (shortFile_allocated _) (by decide)

/-- With block 0 marked as free, `bmap` takes it for the indirect block and then does not see that there is one:
    3072 bytes log twelve blocks. -/
theorem free_block_zero_exceeds_reservation : ∃ (sb : Superblock) (blk : Blocks) (inum : Nat) (ip : Dinode) (src : Src)
    (off n : UInt32), Allocated blk ip ∧ off ≤ ip.size ∧ n.toNat ≤ writeMax ∧
      off.toNat + n.toNat ≤ MAXFILE * BSIZE ∧ (∃ r, writei sb blk inum ip src off n = .ok r) ∧
      MAXOPBLOCKS < (writeiLog sb blk inum ip src off n).toFinset.card := by
  obtain ⟨⟨r, hr⟩, hlog⟩ := wideDisk_log
  have hn : (3072 : UInt32).toNat = 3072 := rfl
  have hoff : (11776 : UInt32).toNat = 11776 := rfl
  have hguard : ¬((11776 : UInt32) > shortFile.size ∨ (11776 + 3072 : UInt32) < 11776) := by decide
  have hmax : ¬(11776 + 3072 : UInt32).toNat > MAXFILE * BSIZE := by decide
  refine ⟨wideDisk, clearAt 0, 1, shortFile, zeroPages, 11776, 3072, shortFile_allocated _, by decide, by decide,
    by decide, ?_, ?_⟩
  · rw [writei, if_neg hguard, if_neg hmax, hn, hoff, hr]
    exact ⟨_, rfl⟩
  · rw [writeiLog, if_neg hguard, if_neg hmax, hn, hoff, hr, hlog]
    show MAXOPBLOCKS < (_ ++ [IBLOCK wideDisk 1]).toFinset.card
    decide

/-- **The list is complete.** Every block that a `writei` changes is given to `log_write`, unless the bytes to be
    written could not be read. -/
theorem writei_changes {inum : Nat} {off n : UInt32} {r : Blocks × Dinode × Option Nat} {x : Nat}
    (h : writei sb blk inum ip src off n = .ok r) (hfull : r.2.2 = none ∨ r.2.2 = some n.toNat)
    (hne : r.1 x ≠ blk x) : x ∈ writeiLog sb blk inum ip src off n := by
  unfold writei at h
  unfold writeiLog
  split at h
  · cases h
    exact absurd rfl hne
  · rename_i hguard
    rw [if_neg hguard]
    split at h
    · cases h
      exact absurd rfl hne
    · rename_i hmax
      rw [if_neg hmax]
      cases hl : writeiLoop sb src n.toNat blk ip 0 off.toNat with
      | error e =>
          rw [hl] at h
          cases h
      | ok y =>
          rw [hl] at h
          cases h
          have htot : y.2.2.1 = n.toNat := by simpa using hfull
          by_cases hx : x = IBLOCK sb inum
          · exact List.mem_append_right _ (List.mem_singleton.mpr hx)
          · refine List.mem_append_left _ (writeiLoop_changes (Nat.zero_le _) hl htot fun heq => hne ?_)
            exact (iupdate_of_ne hx).trans heq

theorem writei_changes_data_block : ∃ r, writei wideDisk (clearAt 0) 1 shortFile zeroPages 0 1 = .ok r ∧
    r.1 100 ≠ clearAt 0 100 ∧ 100 ∈ writeiLog wideDisk (clearAt 0) 1 shortFile zeroPages 0 1 := by
  have hfacts : (writei wideDisk (clearAt 0) 1 shortFile zeroPages 0 1).toOption.any (fun r =>
      r.2.2 = some 1 ∧ r.1 100 0 ≠ clearAt 0 100 0) = true := by
    decide +kernel
  cases hr : writei wideDisk (clearAt 0) 1 shortFile zeroPages 0 1 with
  | error e =>
      rw [hr] at hfacts
      cases hfacts
  | ok r =>
      rw [hr] at hfacts
      obtain ⟨htot, hbyte⟩ := of_decide_eq_true hfacts
      have hne : r.1 100 ≠ clearAt 0 100 := fun heq => hbyte (congrFun heq 0)
      exact ⟨r, rfl, hne, writei_changes hr (.inr htot) hne⟩

end Xv6.Fs
