import Xv6.Lib.Outcome
import Xv6.Fs.Model

/-!
# `Fs.Alloc` — the bitmap, and inodes in their blocks

`balloc` and `bfree` change one bit of the bitmap; `iupdate` changes one inode. The lemmas say what each of
them leaves alone, which is all that the modules above need to know about the layout of a block.
-/

namespace Xv6.Fs

open Logging (Block BSIZE)
open Outcome (Sat)

variable {sb : Superblock} {blk : Blocks} {b b' inum i : Nat}

/-! ## The bitmap -/

/-- The bit of block `b`. -/
def bit (sb : Superblock) (blk : Blocks) (b : Nat) : Bool := Bitmap.test (blk (BBLOCK sb b)) (b % BPB)

/-- The blocks once the bit of `b` is set. -/
def mark (sb : Superblock) (blk : Blocks) (b : Nat) : Blocks :=
  Function.update blk (BBLOCK sb b) (Bitmap.set (blk (BBLOCK sb b)) (b % BPB))

/-- The blocks once `balloc` has returned `b`. -/
def taken (sb : Superblock) (blk : Blocks) (b : Nat) : Blocks := bzero (mark sb blk b) b

/-- The blocks once the bit of `b` is cleared. -/
def unmark (sb : Superblock) (blk : Blocks) (b : Nat) : Blocks :=
  Function.update blk (BBLOCK sb b) (Bitmap.clear (blk (BBLOCK sb b)) (b % BPB))

theorem bit_congr {blk' : Blocks} (h : blk' (BBLOCK sb b) = blk (BBLOCK sb b)) :
    bit sb blk' b = bit sb blk b := by
  unfold bit
  rw [h]

/-- Two bits at the same place of the same block are the same bit. -/
theorem eq_of_BBLOCK (h : BBLOCK sb b' = BBLOCK sb b) (hm : b' % BPB = b % BPB) : b' = b := by
  have hdiv : b' / BPB = b / BPB := Nat.add_right_cancel h
  rw [← Nat.div_add_mod b' BPB, ← Nat.div_add_mod b BPB, hdiv, hm]

theorem bit_mark : bit sb (mark sb blk b) b' = (decide (b' = b) || bit sb blk b') := by
  unfold bit mark
  by_cases hB : BBLOCK sb b' = BBLOCK sb b
  · rw [hB, Function.update_self, Bitmap.test_set]
    have hiff : b' % BPB = b % BPB ↔ b' = b := ⟨eq_of_BBLOCK hB, fun h => by rw [h]⟩
    simp only [hiff]
  · rw [Function.update_of_ne hB]
    have hne : b' ≠ b := fun h => hB (by rw [h])
    simp [hne]

theorem bit_unmark : bit sb (unmark sb blk b) b' = (decide (b' ≠ b) && bit sb blk b') := by
  unfold bit unmark
  by_cases hB : BBLOCK sb b' = BBLOCK sb b
  · rw [hB, Function.update_self, Bitmap.test_clear]
    have hiff : b' % BPB = b % BPB ↔ b' = b := ⟨eq_of_BBLOCK hB, fun h => by rw [h]⟩
    simp only [ne_eq, hiff]
  · rw [Function.update_of_ne hB]
    have hne : b' ≠ b := fun h => hB (by rw [h])
    simp [hne]

/-! ## `balloc` and `bfree` -/

theorem scan_eq_some {f : Block} {bi n r : Nat} (h : scan f bi n = some r) :
    bi ≤ r ∧ r < bi + n ∧ Bitmap.test f r = false := by
  induction n generalizing bi with
  | zero => cases h
  | succ n ih =>
      rw [scan] at h
      split at h
      · obtain ⟨h1, h2, h3⟩ := ih h
        exact ⟨by omega, by omega, h3⟩
      · cases h
        exact ⟨le_rfl, by omega, by simp_all⟩

theorem scan_eq_none {f : Block} {bi n r : Nat} (h : scan f bi n = none) (h1 : bi ≤ r) (h2 : r < bi + n) :
    Bitmap.test f r = true := by
  induction n generalizing bi with
  | zero => omega
  | succ n ih =>
      rw [scan] at h
      split at h
      · rename_i hbit
        by_cases hr : r = bi
        · rw [hr, hbit]
        · exact ih h (by omega) (by omega)
      · cases h

/-- How `balloc` fails: a disk whose size an `int` can count has no free block left. -/
def Full (sb : Superblock) (blk : Blocks) (e : Panic) : Prop :=
  (e = .outOfBlocks ∨ e = .overflow) ∧ (sb.size ≤ 2 ^ 31 → ∀ b < sb.size, bit sb blk b = true)

/-- The scan of the bitmap block for `b` looks at the bits of the blocks from `b` on. -/
theorem bit_of_aligned (sb : Superblock) {bi : Nat} (hb : b % BPB = 0) (hbi : bi < BPB) :
    BBLOCK sb (b + bi) = BBLOCK sb b ∧ (b + bi) % BPB = bi := by
  obtain ⟨q, rfl⟩ := Nat.dvd_of_mod_eq_zero hb
  have hpos : 0 < BPB := by decide
  refine ⟨?_, ?_⟩
  · rw [BBLOCK, BBLOCK, Nat.mul_add_div hpos, Nat.div_eq_of_lt hbi, Nat.mul_div_cancel_left q hpos,
      Nat.add_zero]
  · rw [Nat.mul_add_mod, Nat.mod_eq_of_lt hbi]

theorem ballocFrom_sat (hb : b % BPB = 0) (hbelow : ∀ b' < b, b' < sb.size → bit sb blk b' = true) :
    Sat (Full sb blk) (fun r => r.2 < sb.size ∧ bit sb blk r.2 = false ∧ r.1 = taken sb blk r.2)
      (ballocFrom sb blk b) := by
  have hBPB : 0 < BPB := by decide
  induction hn : sb.size - b using Nat.strong_induction_on generalizing b with
  | _ n ih =>
      rw [ballocFrom]
      split
      · rename_i hlt
        split
        · rename_i bi hbi
          obtain ⟨_, hr, hfree⟩ := scan_eq_some hbi
          obtain ⟨hblock, hmod⟩ := bit_of_aligned sb hb (show bi < BPB by omega)
          refine Sat.ok ⟨by omega, ?_, ?_⟩
          · rw [bit, hblock, hmod, hfree]
          · simp only [taken, mark, hblock, hmod]
        · rename_i hnone
          -- every bit of this block of the bitmap is set
          have hblock : ∀ b' < b + BPB, b' < sb.size → bit sb blk b' = true := by
            intro b' h1 h2
            by_cases hlow : b' < b
            · exact hbelow b' hlow h2
            · obtain ⟨bi, rfl⟩ := Nat.exists_eq_add_of_le (Nat.le_of_not_lt hlow)
              obtain ⟨hbl, hmod⟩ := bit_of_aligned sb hb (show bi < BPB by omega)
              rw [bit, hbl, hmod]
              exact scan_eq_none hnone (Nat.zero_le _) (by omega)
          split
          · refine ih (sb.size - (b + BPB)) (by omega) ?_ hblock rfl
            rw [Nat.add_mod_right, hb]
          · exact Sat.error ⟨Or.inr rfl, fun hsize b' hb' => hblock b' (by omega) hb'⟩
      · exact Sat.error ⟨Or.inl rfl, fun _ b' hb' => hbelow b' (by omega) hb'⟩

/-- **`balloc` returns a free block**, marked and zeroed, if there is one. -/
theorem balloc_sat (sb : Superblock) (blk : Blocks) :
    Sat (Full sb blk) (fun r => r.2 < sb.size ∧ bit sb blk r.2 = false ∧ r.1 = taken sb blk r.2)
      (balloc sb blk) :=
  ballocFrom_sat (Nat.zero_mod _) fun _ h => absurd h (Nat.not_lt_zero _)

theorem scan_of_first {f : Block} {bi n r : Nat} (h1 : bi ≤ r) (h2 : r < bi + n)
    (hset : ∀ j, bi ≤ j → j < r → Bitmap.test f j = true) (hfree : Bitmap.test f r = false) :
    scan f bi n = some r := by
  induction n generalizing bi with
  | zero => omega
  | succ n ih =>
      rw [scan]
      by_cases hr : r = bi
      · rw [← hr, hfree]
        rfl
      · rw [if_pos (hset bi le_rfl (by omega))]
        exact ih (by omega) (by omega) fun j h h' => hset j (by omega) h'

theorem scan_of_full {f : Block} {bi n : Nat} (hset : ∀ j, bi ≤ j → j < bi + n → Bitmap.test f j = true) :
    scan f bi n = none := by
  induction n generalizing bi with
  | zero => rfl
  | succ n ih =>
      rw [scan, if_pos (hset bi le_rfl (by omega))]
      exact ih fun j h h' => hset j (by omega) (by omega)

/-- **`balloc` returns the first free block.** -/
theorem ballocFrom_of_first {x : Nat} (hsize : sb.size ≤ 2 ^ 31) (hb : b % BPB = 0) (hbx : b ≤ x) (hx : x < sb.size)
    (hset : ∀ b', b ≤ b' → b' < x → bit sb blk b' = true) (hfree : bit sb blk x = false) :
    ballocFrom sb blk b = .ok (taken sb blk x, x) := by
  have hBPB : 0 < BPB := by decide
  induction hn : sb.size - b using Nat.strong_induction_on generalizing b with
  | _ n ih =>
      have hbits : ∀ j < BPB, Bitmap.test (blk (BBLOCK sb b)) j = bit sb blk (b + j) := by
        intro j hj
        obtain ⟨hblock, hmod⟩ := bit_of_aligned sb hb hj
        rw [bit, hblock, hmod]
      rw [ballocFrom, if_pos (by omega)]
      by_cases hnear : x < b + BPB
      · have hscan : scan (blk (BBLOCK sb b)) 0 (min BPB (sb.size - b)) = some (x - b) := by
          refine scan_of_first (Nat.zero_le _) (by omega) (fun j _ hj => ?_) ?_
          · rw [hbits j (by omega)]
            exact hset _ (by omega) (by omega)
          · rw [hbits _ (by omega), show b + (x - b) = x by omega, hfree]
        obtain ⟨hblock, hmod⟩ := bit_of_aligned sb hb (show x - b < BPB by omega)
        rw [show b + (x - b) = x by omega] at hblock hmod
        rw [hscan]
        simp only [taken, mark, hblock, hmod, show b + (x - b) = x by omega]
      · have hscan : scan (blk (BBLOCK sb b)) 0 (min BPB (sb.size - b)) = none := by
          refine scan_of_full fun j _ hj => ?_
          rw [hbits j (by omega)]
          exact hset _ (by omega) (by omega)
        rw [hscan]
        simp only
        rw [if_pos (by omega)]
        refine ih (sb.size - (b + BPB)) (by omega) ?_ (by omega) (fun b' h h' => hset b' (by omega) h') rfl
        rw [Nat.add_mod_right, hb]

theorem balloc_of_first {x : Nat} (hsize : sb.size ≤ 2 ^ 31) (hx : x < sb.size)
    (hset : ∀ b' < x, bit sb blk b' = true) (hfree : bit sb blk x = false) :
    balloc sb blk = .ok (taken sb blk x, x) :=
  ballocFrom_of_first hsize (Nat.zero_mod _) (Nat.zero_le _) hx (fun b' _ h => hset b' h) hfree

theorem bfree_of_bit (h : bit sb blk b = true) : bfree sb blk b = .ok (unmark sb blk b) := by
  unfold bit at h
  simp only [bfree, h, if_true]
  rfl

/-! ## The layout -/

/-- The blocks of the bitmap lie before the data. -/
theorem BBLOCK_lt (hb : b < sb.size) : BBLOCK sb b < sb.data := sb.bitmap_lt b hb

theorem IBLOCK_lt (hi : i < sb.ninodes) : IBLOCK sb i < sb.bmapstart := sb.inodes_lt i hi

theorem bmapstart_le (sb : Superblock) (b : Nat) : sb.bmapstart ≤ BBLOCK sb b := Nat.le_add_left _ _

theorem ne_IBLOCK_of_le (hi : i < sb.ninodes) (hb : sb.bmapstart ≤ b) : IBLOCK sb i ≠ b := by
  have := IBLOCK_lt hi
  omega

/-- A data block is neither in the bitmap nor among the inode blocks. -/
theorem bmapstart_le_data (hb : b < sb.size) : sb.bmapstart ≤ sb.data :=
  le_of_lt (lt_of_le_of_lt (bmapstart_le sb b) (BBLOCK_lt hb))

theorem taken_of_ne (h1 : b' ≠ BBLOCK sb b) (h2 : b' ≠ b) : taken sb blk b b' = blk b' := by
  rw [taken, bzero, Function.update_of_ne h2, mark, Function.update_of_ne h1]

theorem taken_self : taken sb blk b b = fun _ => 0 := Function.update_self _ _ _

theorem unmark_of_ne (h : b' ≠ BBLOCK sb b) : unmark sb blk b b' = blk b' := Function.update_of_ne h _ _

/-- `balloc` sets the bit of the block it returns and no other. -/
theorem bit_taken (hd : sb.data ≤ b) (hb' : b' < sb.size) :
    bit sb (taken sb blk b) b' = (decide (b' = b) || bit sb blk b') := by
  have hne : BBLOCK sb b' ≠ b := by
    have := BBLOCK_lt hb'
    omega
  rw [← bit_mark]
  exact bit_congr (Function.update_of_ne hne _ _)

/-! ## Inodes in their blocks -/

theorem half_store {f : Block} {o : Nat} {v : UInt16} : half (Bytes.store f o 2 v.toNat) o = v := by
  rw [half, Bytes.load_store v.toNat_lt, UInt16.ofNat_toNat]

theorem word_store {f : Block} {o : Nat} {v : UInt32} : word (Bytes.store f o 4 v.toNat) o = v := by
  rw [word, Bytes.load_store v.toNat_lt, UInt32.ofNat_toNat]

theorem half_store_of_disjoint {f : Block} {o o' w v : Nat} (h : o' + 2 ≤ o ∨ o + w ≤ o') :
    half (Bytes.store f o w v) o' = half f o' := by
  rw [half, half, Bytes.load_store_of_disjoint h]

theorem word_store_of_disjoint {f : Block} {o o' w v : Nat} (h : o' + 4 ≤ o ∨ o + w ≤ o') :
    word (Bytes.store f o w v) o' = word f o' := by
  rw [word, word, Bytes.load_store_of_disjoint h]

theorem word_zero (o : Nat) : word (fun _ => 0) o = 0 := by
  rw [word, Bytes.load_eq_zero fun _ _ _ => rfl]
  rfl

theorem readDinode_writeDinode (f : Block) (o : Nat) (d : Dinode) :
    readDinode (writeDinode f o d) o = d := by
  have hhalf : ∀ {g : Block} {p : Nat} {vs : List Nat}, p + 2 ≤ o + 12 →
      half (Bytes.storeWords g (o + 12) 4 vs) p = half g p := by
    intro g p vs h
    rw [half, half, Bytes.load_storeWords_of_disjoint (Or.inl h)]
  have hsize : ∀ {g : Block} {vs : List Nat},
      word (Bytes.storeWords g (o + 12) 4 vs) (o + 8) = word g (o + 8) := by
    intro g vs
    rw [word, word, Bytes.load_storeWords_of_disjoint (Or.inl (by omega))]
  have haddr : ∀ {g : Block} (k : Fin (NDIRECT + 1)),
      word (Bytes.storeWords g (o + 12) 4 (List.ofFn fun k => (d.addrs k).toNat)) (o + 12 + 4 * k) =
        d.addrs k := by
    intro g k
    have hlen : (k : Nat) < (List.ofFn fun k => (d.addrs k).toNat).length := by
      rw [List.length_ofFn]
      exact k.isLt
    rw [word, Bytes.load_storeWords hlen, List.getD_eq_getElem _ _ hlen, List.getElem_ofFn,
      UInt32.ofNat_toNat]
    · intro v hv
      obtain ⟨k, rfl⟩ := (List.mem_ofFn' _ _).mp hv
      exact (d.addrs k).toNat_lt
  simp only [readDinode, writeDinode]
  rw [hhalf (by omega), half_store_of_disjoint (by omega), half_store_of_disjoint (by omega),
    half_store_of_disjoint (by omega), half_store_of_disjoint (by omega), half_store]
  rw [hhalf (by omega), half_store_of_disjoint (by omega), half_store_of_disjoint (by omega),
    half_store_of_disjoint (by omega), half_store]
  rw [hhalf (by omega), half_store_of_disjoint (by omega), half_store_of_disjoint (by omega), half_store]
  rw [hhalf (by omega), half_store_of_disjoint (by omega), half_store, hsize, word_store]
  simp only [haddr]

/-- Writing an inode leaves the rest of the block alone. -/
theorem load_writeDinode {f : Block} {o p w : Nat} {d : Dinode} (h : p + w ≤ o ∨ o + 64 ≤ p) :
    Bytes.load (writeDinode f o d) p w = Bytes.load f p w := by
  have hlen : (List.ofFn fun k => (d.addrs k).toNat).length = 13 := by
    rw [List.length_ofFn]
    rfl
  simp only [writeDinode]
  rw [Bytes.load_storeWords_of_disjoint (by rw [hlen]; omega), Bytes.load_store_of_disjoint (by omega),
    Bytes.load_store_of_disjoint (by omega), Bytes.load_store_of_disjoint (by omega),
    Bytes.load_store_of_disjoint (by omega), Bytes.load_store_of_disjoint (by omega)]

theorem readDinode_writeDinode_of_disjoint {f : Block} {o p : Nat} {d : Dinode}
    (h : p + 64 ≤ o ∨ o + 64 ≤ p) : readDinode (writeDinode f o d) p = readDinode f p := by
  have hload : ∀ c w, c + w ≤ 64 → Bytes.load (writeDinode f o d) (p + c) w = Bytes.load f (p + c) w := by
    intro c w hc
    exact load_writeDinode (by omega)
  simp only [readDinode, half, word]
  rw [hload 2 2 (by omega), hload 4 2 (by omega), hload 6 2 (by omega), hload 8 4 (by omega),
    show Bytes.load (writeDinode f o d) p 2 = Bytes.load f p 2 from load_writeDinode (by omega)]
  congr 1
  funext k
  have hk : (k : Nat) < 13 := k.isLt
  rw [Nat.add_assoc, hload _ 4 (by omega)]

/-- **`iupdate` changes one inode.** -/
theorem dinode_iupdate (sb : Superblock) (blk : Blocks) (inum : Nat) (d : Dinode) :
    dinode sb (iupdate sb blk inum d) = Function.update (dinode sb blk) inum d := by
  funext i
  by_cases hi : i = inum
  · rw [hi, Function.update_self, dinode, iupdate, Function.update_self, readDinode_writeDinode]
  · rw [Function.update_of_ne hi, dinode, dinode, iupdate]
    by_cases hB : IBLOCK sb i = IBLOCK sb inum
    · rw [hB, Function.update_self]
      have hdiv : i / IPB = inum / IPB := Nat.add_right_cancel hB
      have hmod : i % IPB ≠ inum % IPB := by
        intro hmod
        apply hi
        rw [← Nat.div_add_mod i IPB, ← Nat.div_add_mod inum IPB, hdiv, hmod]
      exact readDinode_writeDinode_of_disjoint (by omega)
    · rw [Function.update_of_ne hB]

theorem load_eq_of_half {f g : Block} {o : Nat} (h : half f o = half g o) : Bytes.load f o 2 = Bytes.load g o 2 := by
  have := congrArg UInt16.toNat h
  rwa [half, half, UInt16.toNat_ofNat_of_lt' (Bytes.load_lt f o 2), UInt16.toNat_ofNat_of_lt' (Bytes.load_lt g o 2)] at this

theorem load_eq_of_word {f g : Block} {o : Nat} (h : word f o = word g o) : Bytes.load f o 4 = Bytes.load g o 4 := by
  have := congrArg UInt32.toNat h
  rwa [word, word, UInt32.toNat_ofNat_of_lt' (Bytes.load_lt f o 4), UInt32.toNat_ofNat_of_lt' (Bytes.load_lt g o 4)] at this

/-- The bytes of an inode are determined by its fields. -/
theorem eq_of_readDinode_eq {f g : Block} {o x : Nat} (h : readDinode f o = readDinode g o) (h1 : o ≤ x)
    (h2 : x < o + 64) : f x = g x := by
  simp only [readDinode, Dinode.mk.injEq] at h
  obtain ⟨ht, hmaj, hmin, hn, hs, ha⟩ := h
  by_cases h12 : x < o + 12
  · rcases (by omega : x < o + 2 ∨ (o + 2 ≤ x ∧ x < o + 4) ∨ (o + 4 ≤ x ∧ x < o + 6) ∨ (o + 6 ≤ x ∧ x < o + 8) ∨
      o + 8 ≤ x) with hx | hx | hx | hx | hx
    · exact Bytes.eq_of_load_eq (load_eq_of_half ht) h1 hx
    · exact Bytes.eq_of_load_eq (load_eq_of_half hmaj) hx.1 (by omega)
    · exact Bytes.eq_of_load_eq (load_eq_of_half hmin) hx.1 (by omega)
    · exact Bytes.eq_of_load_eq (load_eq_of_half hn) hx.1 (by omega)
    · exact Bytes.eq_of_load_eq (load_eq_of_word hs) hx (by omega)
  · obtain ⟨k, hk⟩ : ∃ k, k = (x - (o + 12)) / 4 := ⟨_, rfl⟩
    have hlt : k < NDIRECT + 1 := by
      simp only [NDIRECT]
      omega
    exact Bytes.eq_of_load_eq (load_eq_of_word (congrFun ha ⟨k, hlt⟩)) (by simp only; omega) (by simp only; omega)

/-- Writing back what was there before undoes an update. -/
theorem iupdate_restore (sb : Superblock) (blk : Blocks) (inum : Nat) (d : Dinode) :
    iupdate sb (iupdate sb blk inum d) inum (dinode sb blk inum) = blk := by
  unfold iupdate
  rw [Function.update_self, Function.update_idem]
  conv_rhs => rw [← Function.update_eq_self (IBLOCK sb inum) blk]
  congr 1
  funext x
  by_cases hx : inum % IPB * 64 ≤ x ∧ x < inum % IPB * 64 + 64
  · refine eq_of_readDinode_eq ?_ hx.1 hx.2
    rw [readDinode_writeDinode]
    rfl
  · have hload : ∀ f : Block, ∀ d, Bytes.load (writeDinode f (inum % IPB * 64) d) x 1 = Bytes.load f x 1 :=
      fun f d => load_writeDinode (by omega)
    exact Bytes.eq_of_load_eq ((hload _ _).trans (hload _ _)) le_rfl (Nat.lt_succ_self x)

theorem dinode_congr {blk' : Blocks} (h : blk' (IBLOCK sb i) = blk (IBLOCK sb i)) :
    dinode sb blk' i = dinode sb blk i := by
  unfold dinode
  rw [h]

theorem iupdate_of_ne {d : Dinode} (h : b ≠ IBLOCK sb inum) : iupdate sb blk inum d b = blk b :=
  Function.update_of_ne h _ _

end Xv6.Fs
