import Xv6.Lib.Agree
import Xv6.Fs.Writei

/-!
# `Fs.Takes` — the blocks that a write takes

`Fs.Owner` says that the places of an inode may get blocks. Here is which of them do: `Takes S` says that after
the operation the places in `S` have a block, that no other place has got one, and that the free blocks are fewer by
just the number of places in `S` that had none. `bmap` takes the places of one block of the file, `writei` those of
all the blocks it touches. A block that is taken is blank, so a byte of a file that was not there before is 0.
-/

namespace Xv6.Fs

open Logging (Block BSIZE)
open Lockstep (bind_eq_ok)

variable {sb : Superblock} {dn dn₁ dn' : Nat → Dinode} {blk blk₁ blk' : Blocks} {i b : Nat} {p : Pos}
  {S T : Finset Pos}

/-- The places for block `bn` of a file. -/
def place (bn : Nat) : Finset Pos := (slot bn).toFinset ∪ if NDIRECT ≤ bn then {Pos.indirect} else ∅

structure Takes (sb : Superblock) (i : Nat) (S : Finset Pos) (dn : Nat → Dinode) (blk : Blocks)
    (dn' : Nat → Dinode) (blk' : Blocks) : Prop where
  refs_iff : ∀ i' p, refs sb dn' blk' (i', p) ≠ none ↔ refs sb dn blk (i', p) ≠ none ∨ (i' = i ∧ p ∈ S)
  free : missing sb dn blk i S + free sb blk' = free sb blk

/-- A byte that is new is 0. -/
def NewBlank (sb : Superblock) (dn : Nat → Dinode) (blk : Blocks) (dn' : Nat → Dinode) (blk' : Blocks) : Prop :=
  ∀ i x v, fileByte sb dn' blk' i x = some v → fileByte sb dn blk i x = some v ∨ v = 0

theorem missing_empty : missing sb dn blk i ∅ = 0 := rfl

/-- The references and the bitmap are as they were. -/
theorem Takes.of_eq (hrefs : refs sb dn' blk' = refs sb dn blk)
    (hbit : ∀ b' < sb.size, bit sb blk' b' = bit sb blk b') : Takes sb i ∅ dn blk dn' blk' := by
  refine ⟨fun i' p => by rw [hrefs]; simp, ?_⟩
  rw [missing_empty, Nat.zero_add, Fs.free, Fs.free]
  congr 1
  refine Finset.filter_congr fun b' hb' => ?_
  rw [hbit b' (Finset.mem_range.mp hb')]

/-- What is missing of two sets of places, with the first already there when the second is counted. -/
theorem Takes.missing_union (h : Takes sb i S dn blk dn₁ blk₁) :
    missing sb dn blk i (S ∪ T) = missing sb dn blk i S + missing sb dn₁ blk₁ i T := by
  have hnone : ∀ p, refs sb dn₁ blk₁ (i, p) = none ↔ refs sb dn blk (i, p) = none ∧ p ∉ S := by
    intro p
    have := not_congr (h.refs_iff i p)
    simpa [not_or] using this
  have hset : (S ∪ T).filter (fun p => refs sb dn blk (i, p) = none) =
      (S.filter fun p => refs sb dn blk (i, p) = none) ∪ T.filter fun p => refs sb dn₁ blk₁ (i, p) = none := by
    ext p
    simp only [Finset.mem_filter, Finset.mem_union, hnone]
    tauto
  have hdisj : Disjoint (S.filter fun p => refs sb dn blk (i, p) = none)
      (T.filter fun p => refs sb dn₁ blk₁ (i, p) = none) := by
    refine Finset.disjoint_left.mpr fun p h1 h2 => ?_
    exact ((hnone p).mp (Finset.mem_filter.mp h2).2).2 (Finset.mem_filter.mp h1).1
  rw [missing, hset, Finset.card_union_of_disjoint hdisj]
  rfl

theorem Takes.trans (h₁ : Takes sb i S dn blk dn₁ blk₁) (h₂ : Takes sb i T dn₁ blk₁ dn' blk') :
    Takes sb i (S ∪ T) dn blk dn' blk' := by
  refine ⟨fun i' p => ?_, ?_⟩
  · rw [h₂.refs_iff, h₁.refs_iff, Finset.mem_union]
    tauto
  · have := h₁.free
    have := h₂.free
    rw [h₁.missing_union]
    omega

theorem NewBlank.trans (h₁ : NewBlank sb dn blk dn₁ blk₁) (h₂ : NewBlank sb dn₁ blk₁ dn' blk') :
    NewBlank sb dn blk dn' blk' := by
  intro i x v hv
  rcases h₂ i x v hv with hv | hv
  · exact h₁ i x v hv
  · exact Or.inr hv

/-! ## `bmap` -/

/-- A free block is attached to the inode at `p`. -/
theorem takes_attach (hb : b < sb.size) (hfree : bit sb blk b = false) (hnone : refs sb dn blk (i, p) = none)
    (hrefs : refs sb dn' blk' = Function.update (refs sb dn blk) (i, p) (some b))
    (hbit : ∀ b' < sb.size, bit sb blk' b' = (decide (b' = b) || bit sb blk b')) :
    Takes sb i {p} dn blk dn' blk' := by
  refine ⟨fun i' q => ?_, ?_⟩
  · rw [hrefs, Finset.mem_singleton]
    by_cases hk : (i', q) = (i, p)
    · rw [hk, Function.update_self]
      simp [(Prod.mk.inj hk).1, (Prod.mk.inj hk).2]
    · rw [Function.update_of_ne hk]
      simp only [Prod.mk.injEq] at hk
      simp [hk]
  · have hcount : missing sb dn blk i {p} = 1 := by
      rw [missing, Finset.filter_singleton, if_pos hnone, Finset.card_singleton]
    have := free_attach hb hfree hbit
    omega

/-- The place `p` has its block already. -/
theorem takes_present (hb : refs sb dn blk (i, p) ≠ none) : Takes sb i {p} dn blk dn blk := by
  refine ⟨fun i' q => ⟨Or.inl, ?_⟩, ?_⟩
  · rintro (h | ⟨rfl, hq⟩)
    · exact h
    · rwa [Finset.mem_singleton.mp hq]
  · rw [missing, Finset.filter_singleton, if_neg hb]
    exact Nat.zero_add _

theorem newBlank_attach (hrefs : refs sb dn' blk' = Function.update (refs sb dn blk) (i, p) (some b))
    (hzero : p ≠ .indirect → blk' b = fun _ => 0) (hkept : Kept sb dn blk blk') :
    NewBlank sb dn blk dn' blk' := by
  intro i' x v hv
  obtain ⟨q, b', hq, hb', hval⟩ := fileByte_eq_some.mp hv
  have hdata := slot_ne_indirect hq
  by_cases hk : (i', q) = (i, p)
  · rw [hrefs, hk, Function.update_self] at hb'
    cases hb'
    rw [hzero ((Prod.mk.inj hk).2 ▸ hdata)] at hval
    exact Or.inr hval.symm
  · rw [hrefs, Function.update_of_ne hk] at hb'
    refine Or.inl (fileByte_eq_some.mpr ⟨q, b', hq, hb', ?_⟩)
    rw [← hkept _ _ hb' hdata, hval]

theorem addrAt_takes {k : Fin (NDIRECT + 1)} {r : Blocks × Dinode × UInt32} (hc : Consistent sb dn blk)
    (hl : Live sb dn i) (hok : addrAt sb blk (dn i) k = .ok r) :
    Takes sb i {.addr k} dn blk (Function.update dn i r.2.1) r.1 ∧
      NewBlank sb dn blk (Function.update dn i r.2.1) r.1 := by
  unfold addrAt at hok
  split at hok
  · rename_i h0
    obtain ⟨⟨blk₁, b⟩, hb, hok⟩ := bind_eq_ok.mp hok
    cases hok
    have hsat := balloc_sat sb blk
    rw [hb] at hsat
    obtain ⟨hlt, hfree, hblk⟩ := hsat.of_ok
    simp only at hlt hfree hblk ⊢
    subst hblk
    have hrefs := hc.refs_newAddr hl hlt hfree h0
    refine ⟨takes_attach hlt hfree ?_ hrefs fun b' hb' => bit_taken (hc.data_le hfree) hb',
      newBlank_attach hrefs (fun _ => taken_self) fun _ _ hk _ => hc.taken_of_refs hlt hfree hk⟩
    rw [refs_of_live hl]
    exact target_eq_none.mpr h0
  · rename_i h0
    cases hok
    simp only [Function.update_eq_self]
    refine ⟨takes_present ?_, fun _ _ _ hv => Or.inl hv⟩
    rw [refs_of_live hl]
    exact fun hnone => h0 (target_eq_none.mp hnone)

theorem entryAt_takes {j : Fin NINDIRECT} {addr : UInt32} {r : Blocks × UInt32} (hc : Consistent sb dn blk)
    (ha : refs sb dn blk (i, .indirect) = some addr.toNat) (hok : entryAt sb blk addr j = .ok r) :
    Takes sb i {.entry j} dn blk dn r.1 ∧ NewBlank sb dn blk dn r.1 := by
  have hentry : refs sb dn blk (i, .entry j) = target (word (blk addr.toNat) (4 * j)) := by
    have hl := live_of_refs ha
    have hind : target ((dn i).addrs (Fin.last NDIRECT)) = some addr.toNat := (refs_of_live hl _).symm.trans ha
    rw [refs_of_live hl]
    simp only [refsOf, hind, Option.bind_some]
  unfold entryAt at hok
  simp only at hok
  split at hok
  · rename_i h0
    obtain ⟨⟨blk₁, b⟩, hb, hok⟩ := bind_eq_ok.mp hok
    cases hok
    have hsat := balloc_sat sb blk
    rw [hb] at hsat
    obtain ⟨hlt, hfree, hblk⟩ := hsat.of_ok
    simp only at hlt hfree hblk ⊢
    subst hblk
    have hdata := hc.data_le hfree
    have hab := hc.ne_of_free hfree ha
    obtain ⟨hadata, -, -⟩ := hc.owned.used ha
    have hrefs := hc.refs_newEntry (j := j) ha hlt hfree
    refine ⟨takes_attach hlt hfree ?_ hrefs fun b' hb' => ?_, newBlank_attach hrefs (fun _ => ?_) ?_⟩
    · rw [hentry]
      exact target_eq_none.mpr h0
    · have := BBLOCK_lt hb'
      rw [← bit_taken hdata hb']
      exact bit_congr (Function.update_of_ne (by omega) _ _)
    · rw [Function.update_of_ne hab.symm, taken_self]
    · intro k b' hk hd
      have hne : b' ≠ addr.toNat := by
        rintro rfl
        exact hd (congrArg Prod.snd (hc.owned.inj hk ha))
      rw [Function.update_of_ne hne, hc.taken_of_refs hlt hfree hk]
  · rename_i h0
    cases hok
    refine ⟨takes_present ?_, fun _ _ _ hv => Or.inl hv⟩
    rw [hentry]
    exact fun hnone => h0 (target_eq_none.mp hnone)

/-- **`bmap` takes the places of its block.** -/
theorem bmap_takes {bn : Nat} {r : Blocks × Dinode × UInt32} (hc : Consistent sb dn blk) (hl : Live sb dn i)
    (hok : bmap sb blk (dn i) bn = .ok r) :
    Takes sb i (place bn) dn blk (Function.update dn i r.2.1) r.1 ∧
      NewBlank sb dn blk (Function.update dn i r.2.1) r.1 := by
  unfold bmap at hok
  unfold place slot
  split at hok
  · rename_i hlt
    rw [dif_pos hlt, if_neg (by omega), Finset.union_empty]
    exact addrAt_takes hc hl hok
  · rename_i hge
    split at hok
    · rename_i hlt
      obtain ⟨⟨blk₁, ip₁, addr⟩, hok₁, hok⟩ := bind_eq_ok.mp hok
      obtain ⟨⟨blk₂, addr₂⟩, hok₂, hok⟩ := bind_eq_ok.mp hok
      cases hok
      have hsat := addrAt_sat (T := {Pos.indirect}) hc hl (Finset.mem_singleton_self _)
      rw [hok₁] at hsat
      obtain ⟨hg, -, ha⟩ := hsat.of_ok
      obtain ⟨ht₁, hn₁⟩ := addrAt_takes hc hl hok₁
      obtain ⟨ht₂, hn₂⟩ := entryAt_takes (j := ⟨bn - NDIRECT, hlt⟩) hg.consistent ha hok₂
      rw [dif_neg hge, dif_pos hlt, if_pos (by omega), Finset.union_comm]
      exact ⟨ht₁.trans ht₂, hn₁.trans hn₂⟩
    · cases hok

/-! ## `writei` -/

theorem mem_touched {off n : Nat} : p ∈ touched off n ↔
    ∃ bn < MAXFILE, off / BSIZE ≤ bn ∧ bn * BSIZE < off + n ∧ p ∈ place bn := by
  simp only [touched, Finset.mem_biUnion, Finset.mem_filter, Finset.mem_range, and_assoc]
  rfl

/-- The places of two ranges that follow each other. -/
theorem touched_add (off m n : Nat) : touched off (m + n) = touched off m ∪ touched (off + m) n := by
  ext p
  simp only [Finset.mem_union, mem_touched]
  constructor
  · rintro ⟨bn, h1, h2, h3, h4⟩
    by_cases hlt : bn * BSIZE < off + m
    · exact Or.inl ⟨bn, h1, h2, hlt, h4⟩
    · refine Or.inr ⟨bn, h1, ?_, by omega, h4⟩
      exact Nat.div_le_of_le_mul (by rw [Nat.mul_comm]; omega)
  · rintro (⟨bn, h1, h2, h3, h4⟩ | ⟨bn, h1, h2, h3, h4⟩)
    · exact ⟨bn, h1, h2, by omega, h4⟩
    · exact ⟨bn, h1, le_trans (Nat.div_le_div_right (Nat.le_add_right _ _)) h2, by omega, h4⟩

/-- The places of a chunk are those of one block. -/
theorem touched_chunk {off m : Nat} (hpos : 0 < m) (hm : m ≤ BSIZE - off % BSIZE)
    (hbn : off / BSIZE < MAXFILE) : touched off m = place (off / BSIZE) := by
  have hdiv := Nat.div_add_mod' off BSIZE
  have hmod : off % BSIZE < BSIZE := Nat.mod_lt _ (by decide)
  ext p
  rw [mem_touched]
  constructor
  · rintro ⟨bn, -, h2, h3, h4⟩
    have hlt : bn * BSIZE < (off / BSIZE + 1) * BSIZE := by
      rw [Nat.succ_mul]
      omega
    have heq : bn = off / BSIZE := by
      have := Nat.lt_of_mul_lt_mul_right hlt
      omega
    rwa [heq] at h4
  · exact fun hp => ⟨_, hbn, le_rfl, by omega, hp⟩

/-- Nothing is taken where the file has its blocks. -/
theorem takes_filled {off : Nat} (hf : Filled sb dn blk i off) : Takes sb i (touched off 0) dn blk dn blk := by
  have hall : ∀ p ∈ touched off 0, refs sb dn blk (i, p) ≠ none := by
    intro p hp
    obtain ⟨bn, -, -, h3, h4⟩ := mem_touched.mp hp
    obtain ⟨q, hslot, hq⟩ := hf bn (by omega)
    rw [place, hslot, Option.toFinset_some, Finset.mem_union, Finset.mem_singleton] at h4
    rcases h4 with rfl | h4
    · exact hq
    · split at h4
      · -- an entry of the indirect block is only there if the indirect block is
        rename_i hge
        rw [Finset.mem_singleton] at h4
        subst h4
        obtain ⟨b, hb⟩ := Option.ne_none_iff_exists'.mp hq
        have hl := live_of_refs hb
        unfold slot at hslot
        rw [dif_neg (by omega)] at hslot
        split at hslot
        · cases hslot
          rw [refs_of_live hl] at hb ⊢
          obtain ⟨a, ha, -⟩ := Option.bind_eq_some_iff.mp hb
          exact fun hnone => by
            rw [show target _ = none from hnone] at ha
            cases ha
        · cases hslot
      · exact absurd h4 (Finset.notMem_empty _)
  refine ⟨fun i' p => ⟨Or.inl, ?_⟩, ?_⟩
  · rintro (h | ⟨rfl, hp⟩)
    · exact h
    · exact hall p hp
  · rw [missing, Finset.filter_eq_empty_iff.mpr fun p hp => hall p hp]
    exact Nat.zero_add _

/-- Outside of the range that is written, a new byte is 0. -/
def BlankOutside (sb : Superblock) (i off n : Nat) (dn : Nat → Dinode) (blk : Blocks) (dn' : Nat → Dinode)
    (blk' : Blocks) : Prop :=
  ∀ i' x v, ¬(i' = i ∧ off ≤ x ∧ x < off + n) → fileByte sb dn' blk' i' x = some v →
    fileByte sb dn blk i' x = some v ∨ v = 0

/-- **The loop of `writei` takes the places that it touches.** -/
theorem writeiLoop_takes {src : Src} {n tot off : Nat} {r : Blocks × Dinode × Nat × Nat}
    (hc : Consistent sb dn blk) (hl : Live sb dn i) (hread : src.Readable n) (htot : tot ≤ n)
    (hmax : off + (n - tot) ≤ MAXFILE * BSIZE) (hf : Filled sb dn blk i off)
    (hok : writeiLoop sb src n blk (dn i) tot off = .ok r) :
    Takes sb i (touched off (n - tot)) dn blk (Function.update dn i r.2.1) r.1 ∧
      BlankOutside sb i off (n - tot) dn blk (Function.update dn i r.2.1) r.1 := by
  induction hn : n - tot using Nat.strong_induction_on generalizing dn blk tot off with
  | _ k ih =>
      rw [writeiLoop] at hok
      split at hok
      · rename_i hlt
        obtain ⟨⟨blk₁, ip₁, addr⟩, hmap, hok⟩ := bind_eq_ok.mp hok
        have hm := chunk_pos off hlt
        obtain ⟨hm₁, hm₂⟩ := chunk_le n tot off
        have hbn : off / BSIZE < MAXFILE := by
          rw [Nat.div_lt_iff_lt_mul (by decide)]
          omega
        obtain ⟨p, hp⟩ := slot_isSome hbn
        have hsat := bmap_sat (T := touched off k) hc hl hp (covers_touched (by omega) (by
          have := Nat.div_mul_le_self off BSIZE
          omega) le_rfl)
        rw [hmap] at hsat
        obtain ⟨hg, -, hb⟩ := hsat.of_ok
        obtain ⟨ht₁, hn₁⟩ := bmap_takes hc hl hmap
        simp only at hg hb ht₁ hn₁ hok
        rw [Src.read_of_readable hread (by omega), if_pos rfl] at hok
        generalize hdn : Function.update dn i ip₁ = dn₁ at hg hb ht₁ hn₁
        generalize hbs : (List.range (chunk n tot off)).map (fun j => src.byte (tot + j)) = bs at hok
        have hlen : bs.length = chunk n tot off := by rw [← hbs, List.length_map, List.length_range]
        have hip : ip₁ = dn₁ i := by rw [← hdn, Function.update_self]
        have hdata := slot_ne_indirect hp
        have hwrite : Grows sb i (touched off k) dn₁ blk₁ dn₁ _ := hg.consistent.write hb hdata
          (Bytes.put (blk₁ addr.toNat) (off % BSIZE) bs)
        have hused := hg.consistent.owned.used hb
        have ht₂ : Takes sb i ∅ dn₁ blk₁ dn₁ (Function.update blk₁ addr.toNat
            (Bytes.put (blk₁ addr.toNat) (off % BSIZE) bs)) := by
          refine .of_eq (hg.consistent.refs_write hb hdata _) fun b' hb' => ?_
          have := BBLOCK_lt hb'
          exact bit_congr (Function.update_of_ne (by have := hused.1; omega) _ _)
        rw [hip] at hok
        obtain ⟨ht₃, hn₃⟩ := ih (n - (tot + chunk n tot off)) (by omega) hwrite.consistent
          (hwrite.live.mpr (hg.live.mpr hl)) (by omega) (by omega)
          (hwrite.filled (filled_chunk (hg.filled hf) hp hb hm₂)) hok rfl
        have hupd : Function.update dn₁ i r.2.1 = Function.update dn i r.2.1 := by
          rw [← hdn, Function.update_idem]
        rw [hupd] at ht₃ hn₃
        constructor
        · have := (ht₁.trans ht₂).trans ht₃
          rwa [Finset.union_empty, ← touched_chunk hm hm₂ hbn, ← touched_add,
            show chunk n tot off + (n - (tot + chunk n tot off)) = k by omega] at this
        · intro i' x v hout hv
          rcases hn₃ i' x v (fun hin => hout ⟨hin.1, by omega, by omega⟩) hv with hv | hv
          · rw [fileByte_write hg.consistent hp hb (by rwa [hlen]),
              if_neg fun hin => hout ⟨hin.1, hin.2.1, by omega⟩] at hv
            exact hn₁ i' x v hv
          · exact Or.inr hv
      · rename_i hge
        cases hok
        have hk : k = 0 := by omega
        subst hk
        simp only [Function.update_eq_self]
        exact ⟨takes_filled hf, fun _ _ _ _ hv => Or.inl hv⟩

/-- **`writei` takes the places that it touches.** -/
theorem writei_takes {src : Src} {off n : UInt32} {ip' : Dinode} {tot : Nat}
    (hc : Consistent sb (dinode sb blk) blk) (hl : Live sb (dinode sb blk) i) (hread : src.Readable n.toNat)
    (hok : writei sb blk i (dinode sb blk i) src off n = .ok (blk', ip', some tot)) :
    Takes sb i (touched off.toNat n.toNat) (dinode sb blk) blk (dinode sb blk') blk' ∧
      BlankOutside sb i off.toNat n.toNat (dinode sb blk) blk (dinode sb blk') blk' := by
  unfold writei at hok
  split at hok
  · cases hok
  · rename_i hguard
    obtain ⟨hoff, hwrap⟩ := not_or.mp hguard
    have hadd := toNat_add_of_le hwrap
    have hoff : off.toNat ≤ (dinode sb blk i).size.toNat := by
      rw [gt_iff_lt, UInt32.lt_iff_toNat_lt] at hoff
      omega
    split at hok
    · cases hok
    · rename_i hmax
      rw [hadd] at hmax
      have hf : Filled sb (dinode sb blk) blk i off.toNat := fun bn hbn =>
        hc.sized i hl bn (lt_of_lt_of_le hbn hoff)
      obtain ⟨⟨blk₁, ip₁, tot₁, off₁⟩, hloop, hok⟩ := bind_eq_ok.mp hok
      cases hok
      have hsat := writeiLoop_sat (T := touched off.toNat n.toNat) src hc hl (Nat.zero_le _)
        (fun bn h1 h2 => covers_touched (by omega) (by omega) h2) (by omega) hf
      rw [hloop] at hsat
      have hpost := hsat.of_ok
      obtain ⟨ht, hn⟩ := writeiLoop_takes hc hl hread (Nat.zero_le _) (by omega) hf hloop
      obtain ⟨-, hrefs, -⟩ := hpost.iupdate hl (by omega)
      rw [Nat.sub_zero] at ht hn
      constructor
      · have hsame : Takes sb i ∅ (Function.update (dinode sb blk) i ip₁) blk₁ _ _ :=
          .of_eq hrefs fun b' _ => bit_congr (iupdate_of_ne (ne_IBLOCK_of_le hl.1 (bmapstart_le sb b')).symm)
        have := ht.trans hsame
        rwa [Finset.union_empty] at this
      · intro i' x v hout hv
        refine hn i' x v hout ?_
        rw [← hv]
        exact (fileByte_iupdate hpost.grows.consistent hl.1 hrefs).symm

end Xv6.Fs
