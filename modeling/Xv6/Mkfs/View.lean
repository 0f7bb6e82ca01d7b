import Xv6.Fs.Refine
import Xv6.Lib.Agree
import Xv6.Mkfs.Model

/-!
# `Mkfs.View` — `iappend` and the kernel's `writei` in lockstep

`mkfs` counts the blocks it has handed out and writes the bitmap once, at the end. `State.view` is the image as it
would be with the bitmap written now. Seen so, a new block is the first one whose bit is clear, which is the one
`balloc` of the kernel takes, and **`iappend` does to the image what `writei` at the end of the file does to the
file system**. What is proved of `writei` then holds of `iappend`.

The inode blocks have room for 208 inodes and `sb` admits 200 of them. The number that is admitted is a
parameter here.
-/

namespace Xv6.Mkfs

open Logging (Block BSIZE)
open Fs (Blocks Dinode Superblock NDIRECT NINDIRECT MAXFILE IPB BPB IBLOCK word dinode bit taken refs Live
  Consistent Pos slot)
open Lockstep (Agree bind_eq_ok)
open Outcome (Sat)

/-- The inodes that the inode blocks have room for. -/
def CAPACITY : Nat := ninodeblocks * IPB

/-- The layout of the image with `n` inodes. -/
def disk (n : Nat) (h : n ≤ CAPACITY) : Superblock where
  size := sb.size
  nblocks := sb.nblocks
  ninodes := n
  inodestart := sb.inodestart
  bmapstart := sb.bmapstart
  size_lt := sb.size_lt
  inodes_lt inum hi := by
    simp only [sb, CAPACITY, NINODES, ninodeblocks, nlog, LOGSIZE, IPB, BSIZE] at *
    omega
  bitmap_lt := sb.bitmap_lt

theorem sb_eq_disk : sb = disk NINODES (by decide) := rfl

def State.view (s : State) : Blocks := Function.update s.blk sb.bmapstart (bits s.freeblock)

/-- What the two counters and the image have to do with each other. -/
structure Whole (s : State) : Prop where
  len : s.len = FSSIZE
  low : nmeta ≤ s.freeblock
  high : s.freeblock ≤ FSSIZE
  blank : ∀ b, s.freeblock ≤ b → s.blk b = fun _ => 0

variable {s s' : State} {n : Nat} {h : n ≤ CAPACITY} {sec b i fbn : Nat} {din : Dinode} {dn : Nat → Dinode}

/-! ## Sectors -/

theorem sector_of_lt (hsec : sec < FSSIZE + 1) : sector sec = sec := by
  simp only [sector, FSSIZE, BSIZE] at *
  omega

theorem rsect_ok (hlen : s.len = FSSIZE) (hsec : sec < FSSIZE) : rsect s sec = .ok (s.blk sec) := by
  rw [rsect, sector_of_lt (Nat.lt_succ_of_lt hsec), hlen, if_pos hsec]

theorem rsect_beyond (hlen : s.len = FSSIZE) : rsect s FSSIZE = .error .die := by
  rw [rsect, sector_of_lt (Nat.lt_succ_self _), hlen, if_neg (lt_irrefl _)]

theorem wsect_eq (hlen : s.len = FSSIZE) (hsec : sec < FSSIZE) (f : Block) :
    wsect s sec f = { s with blk := Function.update s.blk sec f } := by
  have hmax : max s.len (sec + 1) = s.len := by omega
  rw [wsect, sector_of_lt (Nat.lt_succ_of_lt hsec), hmax]

/-! ## The bitmap -/

theorem bits_succ (k : Nat) : bits (k + 1) = Bitmap.set (bits k) k := by
  rw [bits, List.range_succ, List.foldl_append]
  rfl

theorem test_bits (k j : Nat) : Bitmap.test (bits k) j = decide (j < k) := by
  induction k with
  | zero => simp [bits, Bitmap.test]
  | succ k ih =>
      rw [bits_succ, Bitmap.test_set, ih, ← Bool.decide_or]
      exact decide_eq_decide.mpr (by omega)

theorem bitmap_block (hb : b < FSSIZE) : Fs.BBLOCK (disk n h) b = sb.bmapstart ∧ b % BPB = b := by
  have hlt : b < BPB := lt_trans hb (by decide)
  refine ⟨?_, Nat.mod_eq_of_lt hlt⟩
  rw [Fs.BBLOCK, Nat.div_eq_of_lt hlt, Nat.zero_add]
  rfl

theorem bit_view (hb : b < FSSIZE) : bit (disk n h) s.view b = decide (b < s.freeblock) := by
  obtain ⟨hblock, hmod⟩ := bitmap_block (n := n) (h := h) hb
  rw [bit, hblock, hmod, State.view, Function.update_self, test_bits]

theorem view_of_ne (hb : b ≠ sb.bmapstart) : s.view b = s.blk b := Function.update_of_ne hb _ _

theorem bmapstart_lt : sb.bmapstart < nmeta := by decide

/-- A sector other than the bitmap is written. -/
theorem view_wsect (hs : Whole s) (hsec : sec < FSSIZE) (hne : sec ≠ sb.bmapstart) (f : Block) :
    (wsect s sec f).view = Function.update s.view sec f := by
  rw [wsect_eq hs.len hsec, State.view, State.view, Function.update_comm hne]

/-- A sector below `freeblock` is written. -/
theorem Whole.wsect (hs : Whole s) (hsec : sec < s.freeblock) (f : Block) : Whole (wsect s sec f) := by
  rw [wsect_eq hs.len (lt_of_lt_of_le hsec hs.high)]
  refine ⟨hs.len, hs.low, hs.high, fun b hb => ?_⟩
  show Function.update s.blk sec f b = _
  rw [Function.update_of_ne (show b ≠ sec by simp only at hb; omega), hs.blank b hb]

/-! ## New blocks -/

/-- The next block has been handed out. -/
def State.next (s : State) : State := { s with freeblock := s.freeblock + 1 }

theorem Whole.next (hs : Whole s) (hlt : s.freeblock < FSSIZE) : Whole s.next where
  len := hs.len
  low := Nat.le_succ_of_le hs.low
  high := hlt
  blank b hb := hs.blank b (Nat.le_of_succ_le hb)

/-- The kernel takes the same block. -/
theorem balloc_view (hs : Whole s) (hlt : s.freeblock < FSSIZE) :
    Fs.balloc (disk n h) s.view = .ok (s.next.view, s.freeblock) := by
  have hset : ∀ b' < s.freeblock, bit (disk n h) s.view b' = true := by
    intro b' hb'
    rw [bit_view (lt_trans hb' hlt), decide_eq_true hb']
  have hclear : bit (disk n h) s.view s.freeblock = false := by
    rw [bit_view hlt, decide_eq_false (lt_irrefl _)]
  obtain ⟨hblock, hmod⟩ := bitmap_block (n := n) (h := h) hlt
  have hne : s.freeblock ≠ sb.bmapstart := by
    have := bmapstart_lt
    have := hs.low
    omega
  have htaken : taken (disk n h) s.view s.freeblock = s.next.view := by
    rw [taken, Fs.mark, hblock, hmod, Fs.bzero, State.view, State.view, Function.update_self,
      Function.update_idem, ← bits_succ, Function.update_comm hne.symm, ← hs.blank _ le_rfl,
      Function.update_eq_self]
    rfl
  rw [Fs.balloc_of_first (show FSSIZE ≤ 2 ^ 31 by decide) hlt hset hclear, htaken]

theorem balloc_view_full (hfull : ¬s.freeblock < FSSIZE) :
    ∃ e, Fs.balloc (disk n h) s.view = .error e := by
  have hsat := Fs.balloc_sat (disk n h) s.view
  cases hb : Fs.balloc (disk n h) s.view with
  | error e => exact ⟨e, rfl⟩
  | ok r =>
      rw [hb] at hsat
      obtain ⟨hlt, hclear, -⟩ := hsat.of_ok
      rw [bit_view hlt, decide_eq_false_iff_not] at hclear
      exact absurd (lt_of_lt_of_le hlt (not_lt.mp hfull)) hclear

/-- `addrs[k]`, where it exists or a block is left. -/
theorem addrAt_view (hs : Whole s) {k : Fin (NDIRECT + 1)} (hk : din.addrs k ≠ 0 ∨ s.freeblock < FSSIZE) :
    Fs.addrAt (disk n h) s.view din k =
        .ok ((addrAt s din k).1.view, (addrAt s din k).2, (addrAt s din k).2.addrs k) ∧
      Whole (addrAt s din k).1 ∧ (addrAt s din k).1.freeinode = s.freeinode := by
  unfold Fs.addrAt addrAt
  by_cases h0 : din.addrs k = 0
  · have hlt := hk.resolve_left fun hne => hne h0
    rw [if_pos h0, if_pos h0, balloc_view hs hlt]
    refine ⟨?_, hs.next hlt, rfl⟩
    simp only [Function.update_self]
    rfl
  · rw [if_neg h0, if_neg h0]
    exact ⟨rfl, hs, rfl⟩

theorem addrAt_view_full (hs : Whole s) {k : Fin (NDIRECT + 1)} (h0 : din.addrs k = 0)
    (hfull : ¬s.freeblock < FSSIZE) :
    (∃ e, Fs.addrAt (disk n h) s.view din k = .error e) ∧ (addrAt s din k).1.len = FSSIZE ∧
      ((addrAt s din k).2.addrs k).toNat = FSSIZE := by
  obtain ⟨e, he⟩ := balloc_view_full (n := n) (h := h) hfull
  have heq : s.freeblock = FSSIZE := le_antisymm hs.high (not_lt.mp hfull)
  unfold Fs.addrAt addrAt
  rw [if_pos h0, if_pos h0, he, heq]
  refine ⟨⟨e, rfl⟩, hs.len, ?_⟩
  simp only [Function.update_self]
  rfl

/-! ## The block of a position -/

theorem data_disk : (disk n h).data = nmeta := Nat.sub_sub_self (show nmeta ≤ FSSIZE by decide)

/-- A block the kernel knows is a data block of the image, and `mkfs` has handed it out. -/
theorem data_of_used {a : Nat} (hu : Fs.used (disk n h) s.view a) :
    nmeta ≤ a ∧ a < FSSIZE ∧ a < s.freeblock ∧ a ≠ sb.bmapstart := by
  obtain ⟨h1, h2, h3⟩ := hu
  rw [data_disk] at h1
  rw [bit_view h2, decide_eq_true_eq] at h3
  have := bmapstart_lt
  exact ⟨h1, h2, h3, by omega⟩

theorem fetch_of_blockOf {x : UInt32} {din' : Dinode} (hblock : blockOf s din fbn = .ok (s', din', x))
    (hs : Whole s') (hx : Fs.used (disk n h) s'.view x.toNat) :
    fetch s din fbn = .ok (s', din', x, s'.view x.toNat) := by
  obtain ⟨-, h2, -, h4⟩ := data_of_used hx
  rw [fetch, hblock]
  show (rsect s' x.toNat >>= _) = _
  rw [rsect_ok hs.len h2, view_of_ne h4]
  rfl

theorem fetch_of_beyond {x : UInt32} {din' : Dinode} (hblock : blockOf s din fbn = .ok (s', din', x))
    (hlen : s'.len = FSSIZE) (hx : x.toNat = FSSIZE) : fetch s din fbn = .error .die := by
  rw [fetch, hblock]
  show (rsect s' x.toNat >>= _) = _
  rw [hx, rsect_beyond hlen]
  rfl

/-- What `fetch` and `bmap` return. -/
def SameBlock (s : State) (a : State × Dinode × UInt32 × Block) (b : Blocks × Dinode × UInt32) : Prop :=
  a.1.view = b.1 ∧ a.2.1 = b.2.1 ∧ a.2.2.1 = b.2.2 ∧ a.2.2.2 = b.1 b.2.2.toNat ∧ Whole a.1 ∧
    a.1.freeinode = s.freeinode

/-- `indirect[j]`, where it exists or a block is left. -/
theorem entryAt_view {ind : UInt32} {j : Nat} (hs : Whole s) (hind : Fs.used (disk n h) s.view ind.toNat)
    (hj : word (s.blk ind.toNat) (4 * j) ≠ 0 ∨ s.freeblock < FSSIZE) :
    Fs.entryAt (disk n h) s.view ind j =
        .ok ((entryAt s ind (s.blk ind.toNat) j).1.view, (entryAt s ind (s.blk ind.toNat) j).2) ∧
      Whole (entryAt s ind (s.blk ind.toNat) j).1 ∧
      (entryAt s ind (s.blk ind.toNat) j).1.freeinode = s.freeinode := by
  obtain ⟨-, h2, h3, h4⟩ := data_of_used hind
  unfold Fs.entryAt entryAt
  simp only [view_of_ne h4]
  by_cases h0 : word (s.blk ind.toNat) (4 * j) = 0
  · have hlt := hj.resolve_left fun hne => hne h0
    have hnext := hs.next hlt
    have hnb : s.next.view ind.toNat = s.blk ind.toNat := view_of_ne h4
    rw [if_pos h0, if_pos h0, balloc_view hs hlt]
    refine ⟨?_, hnext.wsect (Nat.lt_succ_of_lt h3) _, ?_⟩
    · have hview := view_wsect hnext h2 h4 (Bytes.store (s.blk ind.toNat) (4 * j) 4 s.freeblock)
      rw [← hnb] at hview ⊢
      exact congrArg (fun v => Except.ok (v, UInt32.ofNat s.freeblock)) hview.symm
    · rfl
  · rw [if_neg h0, if_neg h0]
    exact ⟨rfl, hs, rfl⟩

theorem entryAt_view_full {ind : UInt32} {j : Nat} (hs : Whole s)
    (hind : Fs.used (disk n h) s.view ind.toNat) (h0 : word (s.blk ind.toNat) (4 * j) = 0)
    (hfull : ¬s.freeblock < FSSIZE) :
    (∃ e, Fs.entryAt (disk n h) s.view ind j = .error e) ∧
      (entryAt s ind (s.blk ind.toNat) j).1.len = FSSIZE ∧
      (entryAt s ind (s.blk ind.toNat) j).2.toNat = FSSIZE := by
  obtain ⟨-, h2, -, h4⟩ := data_of_used hind
  obtain ⟨e, he⟩ := balloc_view_full (n := n) (h := h) hfull
  have heq : s.freeblock = FSSIZE := le_antisymm hs.high (not_lt.mp hfull)
  unfold Fs.entryAt entryAt
  simp only [view_of_ne h4]
  rw [if_pos h0, if_pos h0, he]
  refine ⟨⟨e, rfl⟩, ?_, ?_⟩
  · exact (congrArg State.len (wsect_eq (s := s.next) hs.len h2 _)).trans hs.len
  · show (UInt32.ofNat s.freeblock).toNat = FSSIZE
    rw [heq]
    rfl

/-- What is known of a block that `bmap` returns. -/
theorem grows_of_bmap {p : Pos} {r : Blocks × Dinode × UInt32} (hc : Consistent (disk n h) dn s.view)
    (hl : Live (disk n h) dn i) (hp : slot fbn = some p) (hr : Fs.bmap (disk n h) s.view (dn i) fbn = .ok r) :
    Fs.Grows (disk n h) i {p, Pos.indirect} dn s.view (Function.update dn i r.2.1) r.1 ∧
      refs (disk n h) (Function.update dn i r.2.1) r.1 (i, p) = some r.2.2.toNat := by
  have hcovers : Fs.Covers {p, Pos.indirect} fbn :=
    ⟨fun q hq => by rw [hp] at hq; cases hq; exact Finset.mem_insert_self _ _, fun _ => by simp⟩
  have hsat := Fs.bmap_sat hc hl hp hcovers
  rw [hr] at hsat
  obtain ⟨hg, -, href⟩ := hsat.of_ok
  exact ⟨hg, href⟩

theorem used_of_bmap {r : Blocks × Dinode × UInt32} (hc : Consistent (disk n h) dn s.view)
    (hl : Live (disk n h) dn i) (hfbn : fbn < MAXFILE) (hr : Fs.bmap (disk n h) s.view (dn i) fbn = .ok r) :
    Fs.used (disk n h) r.1 r.2.2.toNat := by
  obtain ⟨p, hp⟩ := Fs.slot_isSome hfbn
  obtain ⟨hg, href⟩ := grows_of_bmap hc hl hp hr
  exact hg.consistent.owned.used href

/-- A direct block. -/
theorem fetch_direct (hs : Whole s) (hc : Consistent (disk n h) dn s.view) (hl : Live (disk n h) dn i)
    (hd : fbn < NDIRECT) :
    Agree (SameBlock s) (fetch s (dn i) fbn) (Fs.bmap (disk n h) s.view (dn i) fbn) := by
  obtain ⟨k, hk⟩ : ∃ k : Fin (NDIRECT + 1), k = ⟨fbn, Nat.lt_succ_of_lt hd⟩ := ⟨_, rfl⟩
  have hbmap : Fs.bmap (disk n h) s.view (dn i) fbn = Fs.addrAt (disk n h) s.view (dn i) k := by
    rw [Fs.bmap, dif_pos hd, hk]
  have hblock : blockOf s (dn i) fbn =
      .ok ((addrAt s (dn i) k).1, (addrAt s (dn i) k).2, (addrAt s (dn i) k).2.addrs k) := by
    rw [blockOf, dif_pos hd, hk]
  by_cases hroom : (dn i).addrs k ≠ 0 ∨ s.freeblock < FSSIZE
  · obtain ⟨hfs, hw, hino⟩ := addrAt_view (n := n) (h := h) hs hroom
    rw [hfs] at hbmap
    have hused := used_of_bmap hc hl (Nat.lt_add_right _ hd) hbmap
    rw [fetch_of_blockOf hblock hw hused, hbmap]
    exact .ok ⟨rfl, rfl, rfl, rfl, hw, hino⟩
  · obtain ⟨h0, hfull⟩ := not_or.mp hroom
    obtain ⟨⟨e, he⟩, hlen, hx⟩ := addrAt_view_full (n := n) (h := h) hs (not_not.mp h0) hfull
    rw [fetch_of_beyond hblock hlen hx, hbmap, he]
    exact .error _ _

/-- A block found through the indirect block. -/
theorem bmap_indirect (D : Superblock) (blk : Blocks) (ip : Dinode) (hd : ¬fbn < NDIRECT) (hlt : fbn - NDIRECT < NINDIRECT) :
    Fs.bmap D blk ip fbn = (do
      let (blk, ip, addr) ← Fs.addrAt D blk ip (Fin.last NDIRECT)
      let (blk, addr) ← Fs.entryAt D blk addr (fbn - NDIRECT)
      .ok (blk, ip, addr)) := by
  rw [Fs.bmap, dif_neg hd, if_pos hlt]

theorem fetch_indirect (hs : Whole s) (hc : Consistent (disk n h) dn s.view) (hl : Live (disk n h) dn i)
    (hd : ¬fbn < NDIRECT) (hfbn : fbn < MAXFILE) :
    Agree (SameBlock s) (fetch s (dn i) fbn) (Fs.bmap (disk n h) s.view (dn i) fbn) := by
  obtain ⟨k, hk⟩ : ∃ k : Fin (NDIRECT + 1), k = Fin.last NDIRECT := ⟨_, rfl⟩
  have hlt : fbn - NDIRECT < NINDIRECT := by
    unfold MAXFILE at hfbn
    omega
  have hbmap := bmap_indirect (disk n h) s.view (dn i) hd hlt
  rw [← hk] at hbmap
  have hblock : blockOf s (dn i) fbn = (do
      let indirect ← rsect (addrAt s (dn i) k).1 ((addrAt s (dn i) k).2.addrs k).toNat
      let r := entryAt (addrAt s (dn i) k).1 ((addrAt s (dn i) k).2.addrs k) indirect (fbn - NDIRECT)
      .ok (r.1, (addrAt s (dn i) k).2, r.2)) := by
    rw [blockOf, dif_neg hd, hk]
  by_cases hroom : (dn i).addrs k ≠ 0 ∨ s.freeblock < FSSIZE
  · obtain ⟨hfs, hw, hino⟩ := addrAt_view (n := n) (h := h) hs hroom
    have hsat := Fs.addrAt_sat (T := {Pos.addr k}) hc hl (Finset.mem_singleton_self _)
    obtain ⟨s₁, hs₁⟩ : ∃ s₁, s₁ = (addrAt s (dn i) k).1 := ⟨_, rfl⟩
    obtain ⟨d₁, hd₁⟩ : ∃ d₁, d₁ = (addrAt s (dn i) k).2 := ⟨_, rfl⟩
    rw [← hs₁, ← hd₁] at hfs hblock
    rw [← hs₁] at hw hino
    rw [hfs] at hsat hbmap
    obtain ⟨hg, -, href⟩ := hsat.of_ok
    have hind : Fs.used (disk n h) s₁.view (d₁.addrs k).toNat := hg.consistent.owned.used href
    obtain ⟨-, hin, -, -⟩ := data_of_used hind
    rw [rsect_ok hw.len hin] at hblock
    have hbmap₁ : Fs.bmap (disk n h) s.view (dn i) fbn =
        (Fs.entryAt (disk n h) s₁.view (d₁.addrs k) (fbn - NDIRECT) >>= fun r => .ok (r.1, d₁, r.2)) := hbmap
    by_cases hentry : word (s₁.blk (d₁.addrs k).toNat) (4 * (fbn - NDIRECT)) ≠ 0 ∨ s₁.freeblock < FSSIZE
    · obtain ⟨hfs', hw', hino'⟩ := entryAt_view hw hind hentry
      rw [hfs'] at hbmap₁
      have hused := used_of_bmap hc hl hfbn hbmap₁
      rw [fetch_of_blockOf hblock hw' hused, hbmap₁]
      exact .ok ⟨rfl, rfl, rfl, rfl, hw', hino'.trans hino⟩
    · obtain ⟨h0, hfull⟩ := not_or.mp hentry
      obtain ⟨⟨e, he⟩, hlen, hx⟩ := entryAt_view_full hw hind (not_not.mp h0) hfull
      rw [fetch_of_beyond hblock hlen hx, hbmap₁, he]
      exact .error _ _
  · obtain ⟨h0, hfull⟩ := not_or.mp hroom
    obtain ⟨⟨e, he⟩, hlen, hx⟩ := addrAt_view_full (n := n) (h := h) hs (not_not.mp h0) hfull
    rw [hx, rsect_beyond hlen] at hblock
    rw [fetch, hblock, hbmap, he]
    exact .error _ _

/-- **The block of a position**, found or taken: `mkfs` and the kernel do the same. -/
theorem fetch_agree (hs : Whole s) (hc : Consistent (disk n h) dn s.view) (hl : Live (disk n h) dn i)
    (hfbn : fbn < MAXFILE) :
    Agree (SameBlock s) (fetch s (dn i) fbn) (Fs.bmap (disk n h) s.view (dn i) fbn) := by
  by_cases hd : fbn < NDIRECT
  · exact fetch_direct hs hc hl hd
  · exact fetch_indirect hs hc hl hd hfbn

/-! ## The loops -/

/-- What the two loops return. -/
def SameEnd (s : State) (a : State × Dinode × Nat) (b : Blocks × Dinode × Nat × Nat) : Prop :=
  a.1.view = b.1 ∧ a.2.1 = b.2.1 ∧ a.2.2 = b.2.2.2 ∧ Whole a.1 ∧ a.1.freeinode = s.freeinode

/-- The bytes as the kernel would be given them. -/
def kernelBuf (q : List UInt8) : Fs.Src := .kernel (fun k => q.getD k 0) 0

theorem kernelBuf_read (q : List UInt8) {tot m : Nat} (hm : tot + m ≤ q.length) :
    (kernelBuf q).read tot m = ((q.drop tot).take m, true) := by
  refine Prod.ext (List.ext_getElem ?_ fun j h1 h2 => ?_) rfl
  · simp only [kernelBuf, Fs.Src.read, List.length_map, List.length_range, List.length_take, List.length_drop]
    omega
  · simp only [kernelBuf, Fs.Src.read, List.length_map, List.length_range] at h1
    simp only [kernelBuf, Fs.Src.read, List.getElem_map, List.getElem_range, List.getElem_take,
      List.getElem_drop, Nat.zero_add]
    rw [List.getD_eq_getElem _ _ (by omega)]

theorem room_eq_chunk (off : Nat) {q : List UInt8} {tot : Nat} :
    room off (q.drop tot).length = Fs.chunk q.length tot off := by
  have hmod := Nat.div_add_mod off BSIZE
  have hs : (off / BSIZE + 1) * BSIZE = BSIZE * (off / BSIZE) + BSIZE := by ring
  rw [room, Fs.chunk, List.length_drop, hs]
  congr 1
  omega

theorem div_lt_maxfile {off : Nat} (hoff : off < MAXFILE * BSIZE) : off / BSIZE < MAXFILE := by
  rwa [Nat.div_lt_iff_lt_mul (by decide)]

/-- **The loop of `iappend` is the loop of `writei`.** The induction is on the bytes that are left. -/
theorem iappendLoop_agree {q : List UInt8} {tot off : Nat} (hs : Whole s)
    (hc : Consistent (disk n h) dn s.view) (hl : Live (disk n h) dn i)
    (hmax : off + (q.length - tot) ≤ MAXFILE * BSIZE) :
    Agree (SameEnd s) (iappendLoop s (dn i) off (q.drop tot))
      (Fs.writeiLoop (disk n h) (kernelBuf q) q.length s.view (dn i) tot off) := by
  induction hk : q.length - tot using Nat.strong_induction_on generalizing s dn tot off with
  | _ k ih =>
      rw [iappendLoop, Fs.writeiLoop, List.length_drop]
      by_cases hlt : tot < q.length
      · have hbn := div_lt_maxfile (show off < MAXFILE * BSIZE by omega)
        have hm := Fs.chunk_pos off hlt
        obtain ⟨hm₁, hm₂⟩ := Fs.chunk_le q.length tot off
        rw [if_pos hlt, if_pos (by omega), if_pos hbn]
        refine (fetch_agree hs hc hl hbn).bind ?_
        rintro ⟨s₁, d₁, x, buf⟩ ⟨blk₁, ip₁, a⟩ - hmap ⟨hv, hd, hx, hbuf, hw, hino⟩
        simp only at hv hd hx hbuf hw hino
        subst hv hd hx hbuf
        obtain ⟨p, hp⟩ := Fs.slot_isSome hbn
        obtain ⟨hg, href⟩ := grows_of_bmap hc hl hp hmap
        obtain ⟨-, h2, h3, h4⟩ := data_of_used (hg.consistent.owned.used href)
        have hmod : off - off / BSIZE * BSIZE = off % BSIZE := by
          have := Nat.div_add_mod' off BSIZE
          omega
        have hwrite := hg.consistent.write (i := i) (T := {p, Pos.indirect}) href (Fs.slot_ne_indirect hp)
          (Bytes.put (s₁.view x.toNat) (off % BSIZE) ((q.drop tot).take (Fs.chunk q.length tot off)))
        simp only at hwrite h2 h3 h4 ⊢
        rw [← List.length_drop, room_eq_chunk, hmod, kernelBuf_read q (by omega), if_pos rfl, List.drop_drop]
        rw [← view_wsect hw h2 h4] at hwrite ⊢
        have hrest := ih _ (by omega) (hw.wsect h3 _) hwrite.consistent (hwrite.live.mpr (hg.live.mpr hl))
          (show off + Fs.chunk q.length tot off + (q.length - (tot + Fs.chunk q.length tot off)) ≤ _ by omega) rfl
        rw [Function.update_self] at hrest
        exact hrest.mono fun _ _ hend => ⟨hend.1, hend.2.1, hend.2.2.1, hend.2.2.2.1, hend.2.2.2.2.trans hino⟩
      · rw [if_neg hlt, if_neg (by omega)]
        exact .ok ⟨rfl, rfl, rfl, hs, rfl⟩

/-! ## Inodes -/

theorem inode_block (h : n ≤ CAPACITY) (hi : i < n) :
    IBLOCK sb i < FSSIZE ∧ IBLOCK sb i ≠ sb.bmapstart ∧ IBLOCK sb i < nmeta := by
  have hlt : IBLOCK sb i < sb.bmapstart := (disk n h).inodes_lt i hi
  have := bmapstart_lt
  have : nmeta < FSSIZE := by decide
  omega

theorem rinode_view (hs : Whole s) (hi : i < n) : rinode s i = .ok (dinode (disk n h) s.view i) := by
  obtain ⟨h1, h2, -⟩ := inode_block h hi
  rw [rinode, rsect_ok hs.len h1]
  show _ = Except.ok (Fs.readDinode (s.view (IBLOCK sb i)) _)
  rw [view_of_ne h2]
  rfl

theorem winode_view (hs : Whole s) (hi : i < n) (d : Dinode) :
    ∃ s', winode s i d = .ok s' ∧ s'.view = Fs.iupdate (disk n h) s.view i d ∧ Whole s' ∧
      s'.freeinode = s.freeinode ∧ s'.freeblock = s.freeblock := by
  obtain ⟨h1, h2, h3⟩ := inode_block h hi
  refine ⟨_, by rw [winode, rsect_ok hs.len h1]; rfl, ?_, hs.wsect (lt_of_lt_of_le h3 hs.low) _, rfl, rfl⟩
  rw [view_wsect hs h1 h2]
  show _ = Function.update s.view (IBLOCK sb i) (Fs.writeDinode (s.view (IBLOCK sb i)) _ d)
  rw [view_of_ne h2]

/-! ## `iappend` -/

theorem addrAt_counts (s : State) (din : Dinode) (k : Fin (NDIRECT + 1)) :
    (addrAt s din k).2.size = din.size ∧ (addrAt s din k).1.freeinode = s.freeinode ∧
      (addrAt s din k).1.freeblock ≤ s.freeblock + 1 := by
  unfold addrAt
  split
  · exact ⟨rfl, rfl, le_rfl⟩
  · exact ⟨rfl, rfl, Nat.le_succ _⟩

theorem entryAt_counts (s : State) (ind : UInt32) (f : Block) (j : Nat) :
    (entryAt s ind f j).1.freeinode = s.freeinode ∧ (entryAt s ind f j).1.freeblock ≤ s.freeblock + 1 := by
  unfold entryAt
  split
  · exact ⟨rfl, le_rfl⟩
  · exact ⟨rfl, Nat.le_succ _⟩

/-- What holds of a turn in any image, also in a broken one. -/
theorem fetch_counts {r : State × Dinode × UInt32 × Block} (hok : fetch s din fbn = .ok r) :
    r.2.1.size = din.size ∧ r.1.freeinode = s.freeinode ∧ r.1.freeblock ≤ s.freeblock + 2 := by
  have hblock : ∀ {q}, blockOf s din fbn = .ok q →
      q.2.1.size = din.size ∧ q.1.freeinode = s.freeinode ∧ q.1.freeblock ≤ s.freeblock + 2 := by
    intro q hq
    unfold blockOf at hq
    split at hq
    · cases hq
      obtain ⟨h1, h2, h3⟩ := addrAt_counts s din ⟨fbn, by omega⟩
      exact ⟨h1, h2, Nat.le_succ_of_le h3⟩
    · obtain ⟨h1, h2, h3⟩ := addrAt_counts s din (Fin.last NDIRECT)
      obtain ⟨f, hf, hq⟩ := bind_eq_ok.mp hq
      cases hq
      obtain ⟨h4, h5⟩ := entryAt_counts (addrAt s din (Fin.last NDIRECT)).1
        ((addrAt s din (Fin.last NDIRECT)).2.addrs (Fin.last NDIRECT)) f (fbn - NDIRECT)
      exact ⟨h1, h4.trans h2, h5.trans (Nat.add_le_add_right h3 1)⟩
  unfold fetch at hok
  obtain ⟨q, hq, hok⟩ := bind_eq_ok.mp hok
  obtain ⟨buf, -, hok⟩ := bind_eq_ok.mp hok
  cases hok
  exact hblock hq

/-- A loop that ends has added all the bytes, and a file has at most `MAXFILE` blocks. -/
theorem iappendLoop_counts {p : List UInt8} {off off' : Nat} {din' : Dinode}
    (hok : iappendLoop s din off p = .ok (s', din', off')) :
    off' = off + p.length ∧ (0 < p.length → off' ≤ MAXFILE * BSIZE) ∧ din'.size = din.size ∧
      s'.freeinode = s.freeinode := by
  induction hk : p.length using Nat.strong_induction_on generalizing s din p off with
  | _ k ih =>
      rw [iappendLoop] at hok
      split at hok
      · rename_i hpos
        split at hok
        · rename_i hbn
          obtain ⟨r, hr, hok⟩ := bind_eq_ok.mp hok
          obtain ⟨hsize, hino, -⟩ := fetch_counts hr
          have hroom := room_pos off hpos
          have hle : room off p.length ≤ p.length := Nat.min_le_left _ _
          obtain ⟨heq, hmax, hsize', hino'⟩ := ih (p.drop (room off p.length)).length
            (by rw [List.length_drop]; omega) hok rfl
          rw [List.length_drop] at heq hmax
          refine ⟨by omega, fun _ => ?_, hsize'.trans hsize, hino'.trans hino⟩
          by_cases hlast : 0 < p.length - room off p.length
          · exact hmax hlast
          · -- the last turn stays in its block
            have hend : room off p.length ≤ (off / BSIZE + 1) * BSIZE - off := Nat.min_le_right _ _
            have hcap : (off / BSIZE + 1) * BSIZE ≤ MAXFILE * BSIZE := Nat.mul_le_mul_right _ hbn
            have : off < (off / BSIZE + 1) * BSIZE := by
              rw [Nat.succ_mul]
              exact Nat.lt_div_mul_add (by decide)
            omega
        · cases hok
      · cases hok
        exact ⟨by omega, fun _ => by omega, rfl, rfl⟩

/-- **`iappend` is `writei` at the end of the file.** -/
theorem iappend_agree {p : List UInt8} (hs : Whole s)
    (hc : Consistent (disk n h) (dinode (disk n h) s.view) s.view) (hl : Live (disk n h) (dinode (disk n h) s.view) i)
    (hmax : (dinode (disk n h) s.view i).size.toNat + p.length ≤ MAXFILE * BSIZE) :
    Agree (fun s' r => s'.view = r.1 ∧ r.2.2 ≠ none ∧ Whole s' ∧ s'.freeinode = s.freeinode) (iappend s i p)
      (Fs.writei (disk n h) s.view i (dinode (disk n h) s.view i) (kernelBuf p)
        (dinode (disk n h) s.view i).size (UInt32.ofNat p.length)) := by
  have hrinode : rinode s i = .ok (dinode (disk n h) s.view i) := rinode_view hs hl.1
  obtain ⟨ip, hip⟩ : ∃ ip, ip = dinode (disk n h) s.view i := ⟨_, rfl⟩
  have hcap : MAXFILE * BSIZE < 2 ^ 31 := by decide
  rw [← hip] at hmax hrinode ⊢
  have hn : (UInt32.ofNat p.length).toNat = p.length := UInt32.toNat_ofNat_of_lt' (show p.length < 2 ^ 32 by omega)
  have hadd : (ip.size + UInt32.ofNat p.length).toNat = ip.size.toNat + p.length := by
    rw [UInt32.toNat_add, hn, Nat.mod_eq_of_lt (by omega)]
  have hguard : ¬(ip.size > ip.size ∨ ip.size + UInt32.ofNat p.length < ip.size) := by
    rw [gt_iff_lt, UInt32.lt_iff_toNat_lt, UInt32.lt_iff_toNat_lt, hadd]
    omega
  rw [iappend, hrinode, Fs.writei, if_neg hguard, if_neg (by omega), hn]
  have hloop : Agree (SameEnd s) (iappendLoop s (dinode (disk n h) s.view i) ip.size.toNat (p.drop 0))
      (Fs.writeiLoop (disk n h) (kernelBuf p) p.length s.view (dinode (disk n h) s.view i) 0 ip.size.toNat) :=
    iappendLoop_agree hs hc hl (by omega)
  rw [← hip, List.drop_zero] at hloop
  refine hloop.bind ?_
  rintro ⟨s₁, d₁, off₁⟩ ⟨blk₁, ip₁, tot₁, off₂⟩ ha - ⟨hv, hd, hoff, hw, hino⟩
  simp only at hv hd hoff hw hino ⊢
  subst hv hd hoff
  obtain ⟨hend, -, hsize, -⟩ := iappendLoop_counts ha
  -- the kernel stores the size only if it has grown
  have hgrown : (if off₁ > d₁.size.toNat then { d₁ with size := UInt32.ofNat off₁ } else d₁) =
      { d₁ with size := UInt32.ofNat off₁ } := by
    split
    · rfl
    · rename_i hle
      have heq : off₁ = d₁.size.toNat := by
        rw [hsize] at hle ⊢
        omega
      rw [heq, UInt32.ofNat_toNat]
  obtain ⟨s₂, hwi, hview, hw₂, hino₂, -⟩ := winode_view (h := h) hw hl.1 { d₁ with size := UInt32.ofNat off₁ }
  rw [hwi, hgrown]
  exact .ok ⟨hview, Option.some_ne_none _, hw₂, hino₂.trans hino⟩

end Xv6.Mkfs
