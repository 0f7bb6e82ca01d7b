import Xv6.Lib.Ownership
import Xv6.Fs.Alloc

/-!
# `Fs.Owner` — which place refers to which block

An inode refers to blocks from 13 addresses and, through the last of them, from 256 entries of its indirect
block. `refs` is the map from all these places to blocks and `used` the data blocks with their bit set, so a
consistent file system is an `Ownership.Owned` one. In the middle of an operation an inode is ahead of its
copy on disk, so the inodes are a parameter `dn` here.

`Grows` is what `bmap` and the writes of `writei` may do to a file system: take free blocks for one inode and
keep every reference there is. `itrunc` is the opposite, an `Ownership` release of all places of an inode.
-/

namespace Xv6.Fs

open Logging (Block BSIZE)
open Outcome (Sat)
open Ownership (Owned Tight)

/-! ## Places -/

/-- A place of an inode that can refer to a block: `addrs[k]` or `a[j]` of the indirect block. -/
inductive Pos
  | addr (k : Fin (NDIRECT + 1))
  | entry (j : Fin NINDIRECT)
deriving DecidableEq

/-- The place of the indirect block. -/
def Pos.indirect : Pos := .addr (Fin.last NDIRECT)

/-- The place `bmap` looks at for block `bn` of the file. -/
def slot (bn : Nat) : Option Pos :=
  if h : bn < NDIRECT then some (.addr ⟨bn, Nat.lt_succ_of_lt h⟩)
  else if h : bn - NDIRECT < NINDIRECT then some (.entry ⟨bn - NDIRECT, h⟩)
  else none

/-- The block an address names; 0 names none. -/
def target (w : UInt32) : Option Nat := if w = 0 then none else some w.toNat

def refsOf (blk : Blocks) (d : Dinode) : Pos → Option Nat
  | .addr k => target (d.addrs k)
  | .entry j => (target (d.addrs (Fin.last NDIRECT))).bind fun a => target (word (blk a) (4 * j))

/-- The inode is allocated. -/
def Live (sb : Superblock) (dn : Nat → Dinode) (i : Nat) : Prop := i < sb.ninodes ∧ (dn i).type ≠ 0

instance (sb : Superblock) (dn : Nat → Dinode) (i : Nat) : Decidable (Live sb dn i) :=
  inferInstanceAs (Decidable (_ ∧ _))

/-- The blocks all allocated inodes refer to. -/
def refs (sb : Superblock) (dn : Nat → Dinode) (blk : Blocks) (k : Nat × Pos) : Option Nat :=
  if Live sb dn k.1 then refsOf blk (dn k.1) k.2 else none

/-- The data blocks with their bit set. -/
def used (sb : Superblock) (blk : Blocks) (b : Nat) : Prop :=
  sb.data ≤ b ∧ b < sb.size ∧ bit sb blk b = true

/-- The file has a block for every byte below `n`. -/
def Filled (sb : Superblock) (dn : Nat → Dinode) (blk : Blocks) (i n : Nat) : Prop :=
  ∀ bn, bn * BSIZE < n → ∃ p, slot bn = some p ∧ refs sb dn blk (i, p) ≠ none

/-- No block is referred to twice, every block that is referred to is a data block with its bit set, the bits of
    the other blocks are set as well, and no file has a hole below its size. -/
structure Consistent (sb : Superblock) (dn : Nat → Dinode) (blk : Blocks) : Prop where
  owned : Owned (refs sb dn blk) (used sb blk)
  reserved : ∀ b < sb.data, bit sb blk b = true
  sized : ∀ i, Live sb dn i → Filled sb dn blk i (dn i).size.toNat

variable {sb : Superblock} {dn dn' : Nat → Dinode} {blk blk' : Blocks} {i b : Nat} {p : Pos}

theorem slot_ne_indirect {bn : Nat} (h : slot bn = some p) : p ≠ .indirect := by
  unfold slot at h
  split at h
  · rename_i hlt
    cases h
    intro heq
    have := congrArg Fin.val (Pos.addr.inj heq)
    simp only [Fin.val_last] at this
    omega
  · split at h
    · cases h
      exact fun heq => by cases heq
    · cases h

theorem slot_isSome {bn : Nat} (h : bn < MAXFILE) : ∃ p, slot bn = some p := by
  unfold slot
  split
  · exact ⟨_, rfl⟩
  · rw [dif_pos (show bn - NDIRECT < NINDIRECT by unfold MAXFILE at h; omega)]
    exact ⟨_, rfl⟩

theorem slot_inj {m n : Nat} (hm : slot m = some p) (hn : slot n = some p) : m = n := by
  unfold slot at hm hn
  split at hm <;> split at hn
  · cases hm
    simpa using hn.symm
  · split at hn
    · cases hm
      cases hn
    · cases hn
  · split at hm
    · cases hn
      cases hm
    · cases hm
  · split at hm
    · split at hn
      · cases hm
        have := congrArg Fin.val (Pos.entry.inj (Option.some.inj hn))
        simp only at this
        omega
      · cases hn
    · cases hm

theorem target_eq_none {w : UInt32} : target w = none ↔ w = 0 := by
  simp [target]

theorem target_eq_some {w : UInt32} : target w = some b ↔ w ≠ 0 ∧ w.toNat = b := by
  simp [target]

theorem target_ofNat (hb : b < 2 ^ 32) (hb0 : b ≠ 0) : target (UInt32.ofNat b) = some b := by
  have hnat : (UInt32.ofNat b).toNat = b := UInt32.toNat_ofNat_of_lt' hb
  refine target_eq_some.mpr ⟨fun h0 => hb0 ?_, hnat⟩
  rw [← hnat, h0]
  rfl

theorem refs_of_live (h : Live sb dn i) (p : Pos) : refs sb dn blk (i, p) = refsOf blk (dn i) p := if_pos h

theorem live_of_refs (h : refs sb dn blk (i, p) = some b) : Live sb dn i := by
  by_contra hl
  rw [refs, if_neg hl] at h
  cases h

/-- Only the indirect blocks matter for the references. -/
theorem refs_congr (h : ∀ i a, refs sb dn blk (i, .indirect) = some a → blk' a = blk a) :
    refs sb dn blk' = refs sb dn blk := by
  funext k
  obtain ⟨i, p⟩ := k
  unfold refs
  split
  · rename_i hl
    cases p with
    | addr k => rfl
    | entry j =>
        simp only [refsOf]
        cases ha : target ((dn i).addrs (Fin.last NDIRECT)) with
        | none => rfl
        | some a =>
            have hi : refs sb dn blk (i, .indirect) = some a := (refs_of_live hl _).trans ha
            simp only [Option.bind_some, h i a hi]
  · rfl

/-- An address of an inode is set. A new indirect block must be empty. -/
theorem refs_setAddr (blk : Blocks) {k : Fin (NDIRECT + 1)} {w : UInt32} (hl : Live sb dn i) (hw : w ≠ 0)
    (h0 : (dn i).addrs k = 0) (hempty : k = Fin.last NDIRECT → blk w.toNat = fun _ => 0) :
    refs sb (Function.update dn i { dn i with addrs := Function.update (dn i).addrs k w }) blk =
      Function.update (refs sb dn blk) (i, .addr k) (some w.toNat) := by
  have hlive : ∀ i', Live sb (Function.update dn i
      { dn i with addrs := Function.update (dn i).addrs k w }) i' ↔ Live sb dn i' := by
    intro i'
    unfold Live
    by_cases hi : i' = i
    · subst hi
      rw [Function.update_self]
    · rw [Function.update_of_ne hi]
  funext k
  obtain ⟨i', p⟩ := k
  by_cases hi : i' = i
  · subst hi
    rw [refs, if_pos ((hlive i').mpr hl), Function.update_self]
    cases p with
    | addr k' =>
        by_cases hk : k' = k
        · subst hk
          rw [Function.update_self]
          show target (Function.update (dn i').addrs k' w k') = some w.toNat
          rw [Function.update_self, target, if_neg hw]
        · rw [Function.update_of_ne (by simpa using hk), refs_of_live hl]
          show target (Function.update (dn i').addrs k w k') = target ((dn i').addrs k')
          rw [Function.update_of_ne hk]
    | entry j =>
        rw [Function.update_of_ne (by simp), refs_of_live hl]
        show (target (Function.update (dn i').addrs k w (Fin.last NDIRECT))).bind _ =
          (target ((dn i').addrs (Fin.last NDIRECT))).bind _
        by_cases hk : k = Fin.last NDIRECT
        · -- all entries of the new indirect block are 0
          rw [← hk, h0, Function.update_self]
          simp [target, hw, hempty hk, word_zero]
        · rw [Function.update_of_ne fun h => hk h.symm]
  · rw [Function.update_of_ne (by simp [hi])]
    unfold refs
    rw [Function.update_of_ne hi]
    exact if_congr (hlive i') rfl rfl

/-- An entry of the indirect block `a` of an inode is set. -/
theorem refs_setEntry {j : Fin NINDIRECT} {a : Nat} (hown : Owned (refs sb dn blk) (used sb blk))
    (ha : refs sb dn blk (i, .indirect) = some a) (hb : b < 2 ^ 32) (hb0 : b ≠ 0) :
    refs sb dn (Function.update blk a (Bytes.store (blk a) (4 * j) 4 b)) =
      Function.update (refs sb dn blk) (i, .entry j) (some b) := by
  have hl := live_of_refs ha
  funext k
  obtain ⟨i', p⟩ := k
  by_cases hi : i' = i
  · subst hi
    have hind : target ((dn i').addrs (Fin.last NDIRECT)) = some a := (refs_of_live hl _).symm.trans ha
    cases p with
    | addr k =>
        rw [Function.update_of_ne (by simp), refs_of_live hl, refs_of_live hl]
        rfl
    | entry j' =>
        rw [refs_of_live hl]
        simp only [refsOf, hind, Option.bind_some, Function.update_self]
        by_cases hj : j' = j
        · subst hj
          rw [Function.update_self, word, Bytes.load_store (lt_of_lt_of_le hb (by decide)),
            target_ofNat hb hb0]
        · have hne : (j' : Nat) ≠ j := fun h => hj (Fin.ext h)
          rw [Function.update_of_ne (by simpa using hj), refs_of_live hl, word_store_of_disjoint (by omega)]
          simp only [refsOf, hind, Option.bind_some]
  · -- another inode has another indirect block
    rw [Function.update_of_ne (by simp [hi])]
    unfold refs
    split
    · rename_i hl'
      cases p with
      | addr k => rfl
      | entry j' =>
          simp only [refsOf]
          cases ha' : target ((dn i').addrs (Fin.last NDIRECT)) with
          | none => rfl
          | some a' =>
              have hne : a' ≠ a := by
                rintro rfl
                have hk : refs sb dn blk (i', .indirect) = some a' := (refs_of_live hl' _).trans ha'
                exact hi (congrArg Prod.fst (hown.inj hk ha))
              simp only [Option.bind_some, Function.update_of_ne hne]
    · rfl

/-! ## Consistent file systems -/

/-- A free block is a data block. -/
theorem Consistent.data_le (hc : Consistent sb dn blk) (hfree : bit sb blk b = false) : sb.data ≤ b := by
  by_contra hlt
  rw [hc.reserved b (by omega)] at hfree
  cases hfree

/-- Block 0 holds no data. -/
theorem ne_zero_of_data (hd : sb.data ≤ b) (hb : b < sb.size) : b ≠ 0 := by
  have := BBLOCK_lt hb
  omega

theorem Consistent.ne_of_free (hc : Consistent sb dn blk) (hfree : bit sb blk b = false) {k : Nat × Pos}
    {b' : Nat} (hk : refs sb dn blk k = some b') : b' ≠ b := by
  rintro rfl
  rw [(hc.owned.used hk).2.2] at hfree
  cases hfree

/-- Whatever `balloc` does, it leaves the blocks that are referred to alone. -/
theorem Consistent.taken_of_refs (hc : Consistent sb dn blk) (hb : b < sb.size)
    (hfree : bit sb blk b = false) {k : Nat × Pos} {b' : Nat} (hk : refs sb dn blk k = some b') :
    taken sb blk b b' = blk b' := by
  have hB := BBLOCK_lt hb
  have hd := (hc.owned.used hk).1
  exact taken_of_ne (by omega) (hc.ne_of_free hfree hk)

theorem Consistent.refs_taken (hc : Consistent sb dn blk) (hb : b < sb.size)
    (hfree : bit sb blk b = false) : refs sb dn (taken sb blk b) = refs sb dn blk :=
  refs_congr fun _ _ ha => hc.taken_of_refs hb hfree ha

/-- Blocks from the bitmap on do not hold inodes. -/
theorem dinode_update_of_le {f : Block} (hi : i < sb.ninodes) (hb : sb.bmapstart ≤ b) :
    dinode sb (Function.update blk b f) i = dinode sb blk i :=
  dinode_congr (Function.update_of_ne (ne_IBLOCK_of_le hi hb) _ _)

theorem dinode_taken (hi : i < sb.ninodes) (hb : b < sb.size) (hd : sb.data ≤ b) :
    dinode sb (taken sb blk b) i = dinode sb blk i := by
  rw [taken, bzero, dinode_update_of_le hi (le_trans (bmapstart_le_data hb) hd), mark,
    dinode_update_of_le hi (bmapstart_le sb b)]

/-- A free block becomes an address of an inode. -/
theorem Consistent.refs_newAddr {k : Fin (NDIRECT + 1)} (hc : Consistent sb dn blk) (hl : Live sb dn i)
    (hb : b < sb.size) (hfree : bit sb blk b = false) (h0 : (dn i).addrs k = 0) :
    refs sb (Function.update dn i { dn i with addrs := Function.update (dn i).addrs k (UInt32.ofNat b) })
      (taken sb blk b) = Function.update (refs sb dn blk) (i, .addr k) (some b) := by
  have hnat : (UInt32.ofNat b).toNat = b := UInt32.toNat_ofNat_of_lt' (lt_trans hb sb.size_lt)
  have htgt := target_ofNat (lt_trans hb sb.size_lt) (ne_zero_of_data (hc.data_le hfree) hb)
  have hrefs := refs_setAddr (taken sb blk b) hl (target_eq_some.mp htgt).1 h0 fun _ => by
    rw [hnat, taken_self]
  rwa [hc.refs_taken hb hfree, hnat] at hrefs

/-- A free block becomes an entry of the indirect block `a` of an inode. -/
theorem Consistent.refs_newEntry {j : Fin NINDIRECT} {a : Nat} (hc : Consistent sb dn blk)
    (ha : refs sb dn blk (i, .indirect) = some a) (hb : b < sb.size) (hfree : bit sb blk b = false) :
    refs sb dn (Function.update (taken sb blk b) a (Bytes.store (taken sb blk b a) (4 * j) 4 b)) =
      Function.update (refs sb dn blk) (i, .entry j) (some b) := by
  have hdata := hc.data_le hfree
  have hrefs₁ := hc.refs_taken hb hfree
  have hown₁ : Owned (refs sb dn (taken sb blk b)) (used sb (taken sb blk b)) := by
    rw [hrefs₁]
    refine ⟨hc.owned.inj, fun hk => ?_⟩
    obtain ⟨h1, h2, h3⟩ := hc.owned.used hk
    exact ⟨h1, h2, by rw [bit_taken hdata h2, h3, Bool.or_true]⟩
  have hrefs := refs_setEntry (j := j) hown₁ (by rw [hrefs₁]; exact ha) (lt_trans hb sb.size_lt)
    (ne_zero_of_data hdata hb)
  rwa [hrefs₁] at hrefs

/-! ## Growing -/

/-- The number of free blocks. -/
def free (sb : Superblock) (blk : Blocks) : Nat :=
  ((Finset.range sb.size).filter fun b => bit sb blk b = false).card

/-- The number of places in `T` at which the inode has no block. -/
def missing (sb : Superblock) (dn : Nat → Dinode) (blk : Blocks) (i : Nat) (T : Finset Pos) : Nat :=
  (T.filter fun p => refs sb dn blk (i, p) = none).card

/-- Free blocks may have become blocks of inode `i`, at places in `T`. -/
structure Grows (sb : Superblock) (i : Nat) (T : Finset Pos) (dn : Nat → Dinode) (blk : Blocks)
    (dn' : Nat → Dinode) (blk' : Blocks) : Prop where
  consistent : Consistent sb dn' blk'
  tight : Tight (refs sb dn blk) (used sb blk) → Tight (refs sb dn' blk') (used sb blk')
  other : ∀ i', i' ≠ i → dn' i' = dn i'
  same : dn' i = { dn i with addrs := (dn' i).addrs }
  keeps : ∀ {k b}, refs sb dn blk k = some b → refs sb dn' blk' k = some b
  disk : ∀ inum < sb.ninodes, dinode sb blk' inum = dinode sb blk inum
  budget : missing sb dn blk i T ≤ free sb blk → missing sb dn' blk' i T ≤ free sb blk'

variable {T : Finset Pos} {dn₁ dn₂ : Nat → Dinode} {blk₁ blk₂ : Blocks}

theorem Grows.refl (hc : Consistent sb dn blk) : Grows sb i T dn blk dn blk :=
  ⟨hc, id, fun _ _ => rfl, rfl, id, fun _ _ => rfl, id⟩

theorem Grows.trans (h₁ : Grows sb i T dn blk dn₁ blk₁) (h₂ : Grows sb i T dn₁ blk₁ dn₂ blk₂) :
    Grows sb i T dn blk dn₂ blk₂ := by
  refine ⟨h₂.consistent, fun ht => h₂.tight (h₁.tight ht), ?_, ?_, fun hk => h₂.keeps (h₁.keeps hk), ?_,
    fun hm => h₂.budget (h₁.budget hm)⟩
  · intro i' hi
    rw [h₂.other i' hi, h₁.other i' hi]
  · have hsame := h₂.same
    rw [h₁.same] at hsame
    exact hsame
  · intro inum hi
    rw [h₂.disk inum hi, h₁.disk inum hi]

theorem Grows.filled {i' n : Nat} (h : Grows sb i T dn blk dn' blk') (hf : Filled sb dn blk i' n) :
    Filled sb dn' blk' i' n := by
  intro bn hbn
  obtain ⟨p, hslot, hne⟩ := hf bn hbn
  obtain ⟨b, hb⟩ := Option.ne_none_iff_exists'.mp hne
  exact ⟨p, hslot, by rw [h.keeps hb]; exact Option.some_ne_none _⟩

theorem Grows.live (h : Grows sb i T dn blk dn' blk') {i' : Nat} : Live sb dn' i' ↔ Live sb dn i' := by
  unfold Live
  by_cases hi : i' = i
  · rw [hi, h.same]
  · rw [h.other i' hi]

theorem free_attach (hb : b < sb.size) (hfree : bit sb blk b = false)
    (hbit : ∀ b' < sb.size, bit sb blk' b' = (decide (b' = b) || bit sb blk b')) :
    free sb blk' + 1 = free sb blk := by
  have hset : (Finset.range sb.size).filter (fun b' => bit sb blk' b' = false) =
      ((Finset.range sb.size).filter fun b' => bit sb blk b' = false).erase b := by
    ext b'
    simp only [Finset.mem_filter, Finset.mem_range, Finset.mem_erase]
    constructor
    · rintro ⟨hb', hbit'⟩
      rw [hbit b' hb'] at hbit'
      simp only [Bool.or_eq_false_iff, decide_eq_false_iff_not] at hbit'
      exact ⟨hbit'.1, hb', hbit'.2⟩
    · rintro ⟨hne, hb', hbit'⟩
      refine ⟨hb', ?_⟩
      rw [hbit b' hb']
      simp [hne, hbit']
  have hmem : b ∈ (Finset.range sb.size).filter fun b' => bit sb blk b' = false := by
    simp [hb, hfree]
  rw [free, hset]
  exact Finset.card_erase_add_one hmem

theorem missing_attach (hp : p ∈ T) (hnone : refs sb dn blk (i, p) = none)
    (hrefs : refs sb dn' blk' = Function.update (refs sb dn blk) (i, p) (some b)) :
    missing sb dn' blk' i T + 1 = missing sb dn blk i T := by
  have hset : T.filter (fun p' => refs sb dn' blk' (i, p') = none) =
      (T.filter fun p' => refs sb dn blk (i, p') = none).erase p := by
    ext p'
    simp only [Finset.mem_filter, Finset.mem_erase, hrefs]
    by_cases hpp : p' = p
    · subst hpp
      simp
    · rw [Function.update_of_ne (by simpa using hpp)]
      simp [hpp]
  rw [missing, hset]
  exact Finset.card_erase_add_one (by simp [hp, hnone])

/-- **A free block becomes a block of the inode.** -/
theorem Consistent.attach (hc : Consistent sb dn blk) (hb : b < sb.size) (hfree : bit sb blk b = false)
    (hp : p ∈ T) (hnone : refs sb dn blk (i, p) = none)
    (hrefs : refs sb dn' blk' = Function.update (refs sb dn blk) (i, p) (some b))
    (hbit : ∀ b' < sb.size, bit sb blk' b' = (decide (b' = b) || bit sb blk b'))
    (hother : ∀ i', i' ≠ i → dn' i' = dn i') (hsame : dn' i = { dn i with addrs := (dn' i).addrs })
    (hdisk : ∀ inum < sb.ninodes, dinode sb blk' inum = dinode sb blk inum) :
    Grows sb i T dn blk dn' blk' := by
  have hdata := hc.data_le hfree
  have hused : ∀ b', used sb blk' b' ↔ b' = b ∨ used sb blk b' := by
    intro b'
    unfold used
    constructor
    · rintro ⟨h1, h2, h3⟩
      rw [hbit b' h2] at h3
      rcases Bool.or_eq_true_iff.mp h3 with h | h
      · exact Or.inl (of_decide_eq_true h)
      · exact Or.inr ⟨h1, h2, h⟩
    · rintro (rfl | ⟨h1, h2, h3⟩)
      · exact ⟨hdata, hb, by simp [hbit b' hb]⟩
      · exact ⟨h1, h2, by simp [hbit b' h2, h3]⟩
  have hnot : ¬used sb blk b := fun h => by
    rw [h.2.2] at hfree
    cases hfree
  have hkeeps : ∀ {k b'}, refs sb dn blk k = some b' → refs sb dn' blk' k = some b' := by
    intro k b' hk
    have hne : k ≠ (i, p) := by
      rintro rfl
      rw [hnone] at hk
      cases hk
    rw [hrefs, Function.update_of_ne hne, hk]
  have hlive : ∀ i', Live sb dn' i' → Live sb dn i' ∧ (dn' i').size = (dn i').size := by
    intro i' hl
    by_cases hi : i' = i
    · subst hi
      unfold Live at hl ⊢
      rw [hsame] at hl ⊢
      exact ⟨hl, rfl⟩
    · unfold Live at hl ⊢
      rw [hother i' hi] at hl ⊢
      exact ⟨hl, rfl⟩
  refine ⟨⟨hc.owned.attach hnot hrefs hused, ?_, ?_⟩, fun ht => ht.attach hnone hrefs hused, hother, hsame,
    hkeeps, hdisk, ?_⟩
  · intro b' hb'
    rw [hbit b' (lt_of_lt_of_le hb' (Nat.sub_le _ _)), hc.reserved b' hb', Bool.or_true]
  · intro i' hl bn hbn
    obtain ⟨hl, hsize⟩ := hlive i' hl
    rw [hsize] at hbn
    obtain ⟨p', hslot, hne⟩ := hc.sized i' hl bn hbn
    obtain ⟨b', hb'⟩ := Option.ne_none_iff_exists'.mp hne
    exact ⟨p', hslot, by rw [hkeeps hb']; exact Option.some_ne_none _⟩
  · have h1 := free_attach hb hfree hbit
    have h2 := missing_attach hp hnone hrefs
    omega

theorem Consistent.refs_write (hc : Consistent sb dn blk) {k : Nat × Pos} (hk : refs sb dn blk k = some b)
    (hdata : k.2 ≠ .indirect) (f : Block) : refs sb dn (Function.update blk b f) = refs sb dn blk := by
  refine refs_congr fun i' a ha => Function.update_of_ne ?_ _ _
  rintro rfl
  exact hdata (congrArg Prod.snd (hc.owned.inj hk ha))

/-- A data block of a file is overwritten. -/
theorem Consistent.write (hc : Consistent sb dn blk) {k : Nat × Pos} (hk : refs sb dn blk k = some b)
    (hdata : k.2 ≠ .indirect) (f : Block) : Grows sb i T dn blk dn (Function.update blk b f) := by
  obtain ⟨h1, h2, _⟩ := hc.owned.used hk
  have hrefs := hc.refs_write hk hdata f
  have hbit : ∀ b' < sb.size, bit sb (Function.update blk b f) b' = bit sb blk b' := by
    intro b' hb'
    have := BBLOCK_lt hb'
    exact bit_congr (Function.update_of_ne (by omega) _ _)
  have hused : ∀ b', used sb (Function.update blk b f) b' ↔ used sb blk b' := by
    intro b'
    refine and_congr_right fun _ => and_congr_right fun hb' => ?_
    rw [hbit b' hb']
  refine ⟨⟨?_, ?_, ?_⟩, ?_, fun _ _ => rfl, rfl, ?_, ?_, ?_⟩
  · rw [hrefs]
    exact ⟨hc.owned.inj, fun hk => (hused _).mpr (hc.owned.used hk)⟩
  · intro b' hb'
    rw [hbit b' (lt_of_lt_of_le hb' (Nat.sub_le _ _)), hc.reserved b' hb']
  · unfold Filled
    rw [hrefs]
    exact hc.sized
  · intro ht b' hb'
    rw [hrefs]
    exact ht b' ((hused b').mp hb')
  · intro k' b' hk'
    rwa [hrefs]
  · intro inum hi
    exact dinode_update_of_le hi (le_trans (bmapstart_le_data h2) h1)
  · have hfree : free sb (Function.update blk b f) = free sb blk := by
      unfold free
      congr 1
      refine Finset.filter_congr fun b' hb' => ?_
      rw [hbit b' (Finset.mem_range.mp hb')]
    rw [hfree, missing, missing, hrefs]
    exact id

/-! ## `bmap` -/

/-- The bytes of every file are as they were. -/
def Kept (sb : Superblock) (dn : Nat → Dinode) (blk blk' : Blocks) : Prop :=
  ∀ k b, refs sb dn blk k = some b → k.2 ≠ .indirect → blk' b = blk b

theorem Kept.trans (hg : Grows sb i T dn blk dn₁ blk₁) (h₁ : Kept sb dn blk blk₁) (h₂ : Kept sb dn₁ blk₁ blk₂) :
    Kept sb dn blk blk₂ := by
  intro k b hk hd
  rw [h₂ k b (hg.keeps hk) hd, h₁ k b hk hd]

/-- How `bmap` fails: a disk whose size an `int` can count has too few free blocks. -/
def NoRoom (sb : Superblock) (dn : Nat → Dinode) (blk : Blocks) (i : Nat) (T : Finset Pos) (e : Panic) : Prop :=
  (e = .outOfBlocks ∨ e = .overflow) ∧ (sb.size ≤ 2 ^ 31 → free sb blk < missing sb dn blk i T)

theorem noRoom_of_full {e : Panic} (h : Full sb blk e) (hp : p ∈ T) (hnone : refs sb dn blk (i, p) = none) :
    NoRoom sb dn blk i T e := by
  refine ⟨h.1, fun hsize => ?_⟩
  have hfree : free sb blk = 0 := by
    rw [free, Finset.card_eq_zero, Finset.filter_eq_empty_iff]
    intro b hb
    rw [h.2 hsize b (Finset.mem_range.mp hb)]
    exact Bool.noConfusion
  rw [hfree]
  exact Finset.card_pos.mpr ⟨p, by simp [hp, hnone]⟩

theorem NoRoom.of_grows {e : Panic} (hg : Grows sb i T dn blk dn₁ blk₁) (h : NoRoom sb dn₁ blk₁ i T e) :
    NoRoom sb dn blk i T e := by
  refine ⟨h.1, fun hsize => ?_⟩
  by_contra hle
  have := hg.budget (by omega)
  have := h.2 hsize
  omega

/-- `balloc` for a place of the inode that has no block. -/
theorem balloc_room (hp : p ∈ T) (hnone : refs sb dn blk (i, p) = none) :
    Sat (NoRoom sb dn blk i T) (fun r => r.2 < sb.size ∧ bit sb blk r.2 = false ∧ r.1 = taken sb blk r.2)
      (balloc sb blk) :=
  (balloc_sat sb blk).mono (fun _ h => noRoom_of_full h hp hnone) fun _ h => h

/-- An address of the inode, allocated if necessary. -/
theorem addrAt_sat {k : Fin (NDIRECT + 1)} (hc : Consistent sb dn blk) (hl : Live sb dn i)
    (hT : Pos.addr k ∈ T) :
    Sat (NoRoom sb dn blk i T)
      (fun r => Grows sb i T dn blk (Function.update dn i r.2.1) r.1 ∧ Kept sb dn blk r.1 ∧
        refs sb (Function.update dn i r.2.1) r.1 (i, .addr k) = some r.2.2.toNat)
      (addrAt sb blk (dn i) k) := by
  unfold addrAt
  split
  · rename_i h0
    have hnone : refs sb dn blk (i, .addr k) = none := by
      rw [refs_of_live hl]
      exact target_eq_none.mpr h0
    refine (balloc_room hT hnone).bind ?_
    rintro ⟨blk₁, b⟩ ⟨hlt, hfree, hblk⟩
    simp only at hlt hfree hblk
    subst hblk
    have hdata := hc.data_le hfree
    have hnat : (UInt32.ofNat b).toNat = b := UInt32.toNat_ofNat_of_lt' (lt_trans hlt sb.size_lt)
    have hrefs := hc.refs_newAddr hl hlt hfree h0
    refine .ok ⟨?_, fun k' b' hk' _ => hc.taken_of_refs hlt hfree hk', ?_⟩
    · refine hc.attach hlt hfree hT hnone hrefs (fun b' hb' => bit_taken hdata hb') ?_ ?_ ?_
      · intro i' hi
        exact Function.update_of_ne hi _ _
      · rw [Function.update_self]
      · intro inum hi
        exact dinode_taken hi hlt hdata
    · rw [hrefs, Function.update_self, hnat]
  · rename_i h0
    refine .ok ⟨?_, fun _ _ _ _ => rfl, ?_⟩
    · rw [Function.update_eq_self]
      exact .refl hc
    · rw [Function.update_eq_self, refs_of_live hl]
      exact target_eq_some.mpr ⟨h0, rfl⟩

/-- An entry of the indirect block of the inode, allocated if necessary. -/
theorem entryAt_sat {j : Fin NINDIRECT} {addr : UInt32} (hc : Consistent sb dn blk)
    (ha : refs sb dn blk (i, .indirect) = some addr.toNat) (hT : Pos.entry j ∈ T) :
    Sat (NoRoom sb dn blk i T)
      (fun r => Grows sb i T dn blk dn r.1 ∧ Kept sb dn blk r.1 ∧
        refs sb dn r.1 (i, .entry j) = some r.2.toNat)
      (entryAt sb blk addr j) := by
  have hl := live_of_refs ha
  have hentry : refs sb dn blk (i, .entry j) = target (word (blk addr.toNat) (4 * j)) := by
    have hind : target ((dn i).addrs (Fin.last NDIRECT)) = some addr.toNat := (refs_of_live hl _).symm.trans ha
    rw [refs_of_live hl]
    simp only [refsOf, hind, Option.bind_some]
  unfold entryAt
  simp only
  split
  · rename_i h0
    have hnone : refs sb dn blk (i, .entry j) = none := by
      rw [hentry]
      exact target_eq_none.mpr h0
    refine (balloc_room hT hnone).bind ?_
    rintro ⟨blk₁, b⟩ ⟨hlt, hfree, hblk⟩
    simp only at hlt hfree hblk
    subst hblk
    have hdata := hc.data_le hfree
    have hnat : (UInt32.ofNat b).toNat = b := UInt32.toNat_ofNat_of_lt' (lt_trans hlt sb.size_lt)
    obtain ⟨hadata, hasize, _⟩ := hc.owned.used ha
    have hrefs := hc.refs_newEntry (j := j) ha hlt hfree
    refine .ok ⟨?_, fun k' b' hk' hd => ?_, ?_⟩
    · refine hc.attach hlt hfree hT hnone hrefs (fun b' hb' => ?_) (fun _ _ => rfl) rfl fun inum hi => ?_
      · have := BBLOCK_lt hb'
        rw [← bit_taken hdata hb']
        exact bit_congr (Function.update_of_ne (by omega) _ _)
      · rw [dinode_update_of_le hi (le_trans (bmapstart_le_data hasize) hadata), dinode_taken hi hlt hdata]
    · have hne : b' ≠ addr.toNat := by
        rintro rfl
        exact hd (congrArg Prod.snd (hc.owned.inj hk' ha))
      simp only
      rw [Function.update_of_ne hne, hc.taken_of_refs hlt hfree hk']
    · rw [hrefs, Function.update_self, hnat]
  · rename_i h0
    refine .ok ⟨.refl hc, fun _ _ _ _ => rfl, ?_⟩
    rw [hentry]
    exact target_eq_some.mpr ⟨h0, rfl⟩

/-- The places `bmap` may fill for block `bn`. -/
def Covers (T : Finset Pos) (bn : Nat) : Prop :=
  (∀ p, slot bn = some p → p ∈ T) ∧ (NDIRECT ≤ bn → Pos.indirect ∈ T)

/-- **`bmap`** returns the block of the file, allocated if necessary, and keeps the rest. -/
theorem bmap_sat {bn : Nat} (hc : Consistent sb dn blk) (hl : Live sb dn i) (hp : slot bn = some p)
    (hT : Covers T bn) :
    Sat (NoRoom sb dn blk i T)
      (fun r => Grows sb i T dn blk (Function.update dn i r.2.1) r.1 ∧ Kept sb dn blk r.1 ∧
        refs sb (Function.update dn i r.2.1) r.1 (i, p) = some r.2.2.toNat)
      (bmap sb blk (dn i) bn) := by
  have hmem := hT.1 p hp
  unfold bmap
  unfold slot at hp
  split
  · rename_i hlt
    rw [dif_pos hlt] at hp
    cases hp
    exact addrAt_sat hc hl hmem
  · rename_i hge
    rw [dif_neg hge] at hp
    split
    · rename_i hlt
      rw [dif_pos hlt] at hp
      cases hp
      refine (addrAt_sat hc hl (hT.2 (by omega))).bind ?_
      rintro ⟨blk₁, ip₁, addr⟩ ⟨hg₁, hk₁, ha⟩
      have hentry := entryAt_sat (i := i) (T := T) (j := ⟨bn - NDIRECT, hlt⟩) hg₁.consistent ha hmem
      refine (hentry.mono (fun _ h => h.of_grows hg₁) fun _ h => h).bind ?_
      rintro ⟨blk₂, addr₂⟩ ⟨hg₂, hk₂, ha₂⟩
      exact .ok ⟨hg₁.trans hg₂, hk₁.trans hg₁ hk₂, ha₂⟩
    · rename_i hge'
      rw [dif_neg hge'] at hp
      cases hp

/-- A block the file has is returned as it is. -/
theorem bmap_of_refs {bn : Nat} (hp : slot bn = some p) (hb : refs sb dn blk (i, p) = some b) :
    ∃ addr, bmap sb blk (dn i) bn = .ok (blk, dn i, addr) ∧ addr.toNat = b := by
  have hl := live_of_refs hb
  rw [refs_of_live hl] at hb
  unfold slot at hp
  unfold bmap
  split at hp
  · rename_i hlt
    cases hp
    obtain ⟨h0, hnat⟩ := target_eq_some.mp hb
    refine ⟨_, ?_, hnat⟩
    rw [dif_pos hlt, addrAt, if_neg h0]
  · rename_i hge
    split at hp
    · rename_i hlt
      cases hp
      simp only [refsOf] at hb
      obtain ⟨a, ha, hb⟩ := Option.bind_eq_some_iff.mp hb
      obtain ⟨ha0, rfl⟩ := target_eq_some.mp ha
      obtain ⟨h0, hnat⟩ := target_eq_some.mp hb
      refine ⟨_, ?_, hnat⟩
      rw [dif_neg hge, if_pos hlt, addrAt, if_neg ha0]
      show (entryAt sb blk _ _ >>= _) = _
      rw [entryAt, if_neg h0]
      rfl
    · cases hp

end Xv6.Fs
