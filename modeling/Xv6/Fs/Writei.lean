import Xv6.Fs.Content
import Xv6.Fs.Trunc

/-!
# `Fs.Writei` — `writei` and `readi` between two consistent file systems

The loop of `writei` with the `iupdate` after it. `WritePost` has two parts: what holds whatever the source is
(the file system on disk is consistent again), and what a readable source leads to.
-/

namespace Xv6.Fs

open Logging (Block BSIZE)
open Outcome (Sat)
open Ownership (Owned Tight)

variable {sb : Superblock} {dn : Nat → Dinode} {blk : Blocks} {i : Nat}

/-! ## The places a call touches -/

/-- The places of the blocks for `n` bytes at `off`, with the indirect block if it is needed. -/
def touched (off n : Nat) : Finset Pos :=
  ((Finset.range MAXFILE).filter fun bn => off / BSIZE ≤ bn ∧ bn * BSIZE < off + n).biUnion fun bn =>
    (slot bn).toFinset ∪ if NDIRECT ≤ bn then {Pos.indirect} else ∅

theorem covers_touched {off n bn : Nat} (hmax : off + n ≤ MAXFILE * BSIZE) (h1 : bn * BSIZE < off + n)
    (h2 : off / BSIZE ≤ bn) : Covers (touched off n) bn := by
  have hbn : bn < MAXFILE := Nat.lt_of_mul_lt_mul_right (lt_of_lt_of_le h1 hmax)
  have hmem : bn ∈ (Finset.range MAXFILE).filter fun bn => off / BSIZE ≤ bn ∧ bn * BSIZE < off + n := by
    simp [hbn, h1, h2]
  refine ⟨fun p hp => ?_, fun hd => ?_⟩
  · refine Finset.mem_biUnion.mpr ⟨bn, hmem, Finset.mem_union_left _ ?_⟩
    simp [hp]
  · refine Finset.mem_biUnion.mpr ⟨bn, hmem, Finset.mem_union_right _ ?_⟩
    simp [hd]

/-! ## `writei` -/

/-- An addition of two `uint`s that does not wrap. -/
theorem toNat_add_of_le {a b : UInt32} (h : ¬a + b < a) : (a + b).toNat = a.toNat + b.toNat := by
  rw [UInt32.lt_iff_toNat_lt, UInt32.toNat_add] at h
  rw [UInt32.toNat_add]
  have := a.toNat_lt
  have := b.toNat_lt
  omega

/-- Files are at most `MAXFILE` blocks long. -/
theorem Consistent.size_le (hc : Consistent sb dn blk) (hl : Live sb dn i) :
    (dn i).size.toNat ≤ MAXFILE * BSIZE := by
  by_contra hgt
  obtain ⟨p, hp, _⟩ := hc.sized i hl MAXFILE (by omega)
  have hnone : slot MAXFILE = none := by decide
  rw [hnone] at hp
  cases hp

/-- What `writei` leaves. -/
structure WritePost (sb : Superblock) (blk : Blocks) (i : Nat) (src : Src) (off n : UInt32)
    (blk' : Blocks) (ip' : Dinode) (tot : Nat) : Prop where
  consistent : Consistent sb (dinode sb blk') blk'
  tight : Tight (refs sb (dinode sb blk) blk) (used sb blk) →
    Tight (refs sb (dinode sb blk') blk') (used sb blk')
  other : ∀ i' < sb.ninodes, i' ≠ i → dinode sb blk' i' = dinode sb blk i'
  inode : dinode sb blk' i = ip'
  type : ip'.type = (dinode sb blk i).type
  range : off.toNat ≤ (dinode sb blk i).size.toNat ∧ off.toNat + n.toNat ≤ MAXFILE * BSIZE
  done : src.Readable n.toNat → tot = n.toNat ∧
    ip'.size.toNat = max (dinode sb blk i).size.toNat (off.toNat + n.toNat) ∧
    (∀ i' x v, ¬(i' = i ∧ off.toNat ≤ x ∧ x < off.toNat + n.toNat) →
      fileByte sb (dinode sb blk) blk i' x = some v → fileByte sb (dinode sb blk') blk' i' x = some v) ∧
    ∀ x, off.toNat ≤ x → x < off.toNat + n.toNat →
      fileByte sb (dinode sb blk') blk' i x = some (src.byte (x - off.toNat))

/-- Writing an inode back does not change the bytes of any file. -/
theorem fileByte_iupdate {d : Dinode} {i' x : Nat} (hc : Consistent sb dn blk) (hi : i < sb.ninodes)
    {dn' : Nat → Dinode} (hrefs : refs sb dn' (iupdate sb blk i d) = refs sb dn blk) :
    fileByte sb dn' (iupdate sb blk i d) i' x = fileByte sb dn blk i' x := by
  unfold fileByte
  rw [hrefs]
  cases slot (x / BSIZE) with
  | none => rfl
  | some p =>
      rw [Option.bind_some, Option.bind_some]
      cases hb : refs sb dn blk (i', p) with
      | none => rfl
      | some b =>
          obtain ⟨h1, h2, _⟩ := hc.owned.used hb
          have := IBLOCK_lt hi
          have := bmapstart_le_data h2
          rw [Option.map_some, Option.map_some, iupdate_of_ne (by omega)]

/-- `ip->size` after the loop. -/
theorem grown_size (ip : Dinode) {off : Nat} (hoff : off ≤ MAXFILE * BSIZE) :
    (if off > ip.size.toNat then { ip with size := UInt32.ofNat off } else ip).size.toNat =
      max ip.size.toNat off := by
  split
  · rename_i hgt
    rw [max_eq_right (le_of_lt hgt)]
    exact UInt32.toNat_ofNat_of_lt' (lt_of_le_of_lt hoff (by decide))
  · rename_i hle
    rw [max_eq_left (by omega)]

/-- `*ip` after the loop. -/
def grown (ip : Dinode) (off : Nat) : Dinode :=
  if off > ip.size.toNat then { ip with size := UInt32.ofNat off } else ip

theorem grown_type (ip : Dinode) (off : Nat) : (grown ip off).type = ip.type ∧ (grown ip off).addrs = ip.addrs := by
  unfold grown
  split <;> exact ⟨rfl, rfl⟩

/-- The inode written back: it refers to what the inode in memory referred to. -/
theorem LoopPost.iupdate {src : Src} {off n : UInt32} {T : Finset Pos} {blk₁ : Blocks} {ip₁ : Dinode}
    {tot off₁ : Nat} (hl : Live sb (dinode sb blk) i) (hmax : off.toNat + n.toNat ≤ MAXFILE * BSIZE)
    (h : LoopPost sb i T (dinode sb blk) blk src n.toNat 0 off.toNat
      (Function.update (dinode sb blk) i ip₁) blk₁ tot off₁) :
    Consistent sb (dinode sb (Fs.iupdate sb blk₁ i (grown ip₁ off₁))) (Fs.iupdate sb blk₁ i (grown ip₁ off₁)) ∧
      refs sb (dinode sb (Fs.iupdate sb blk₁ i (grown ip₁ off₁))) (Fs.iupdate sb blk₁ i (grown ip₁ off₁)) =
        refs sb (Function.update (dinode sb blk) i ip₁) blk₁ ∧
      (Tight (refs sb (dinode sb blk) blk) (used sb blk) →
        Tight (refs sb (dinode sb (Fs.iupdate sb blk₁ i (grown ip₁ off₁))) (Fs.iupdate sb blk₁ i (grown ip₁ off₁)))
          (used sb (Fs.iupdate sb blk₁ i (grown ip₁ off₁)))) := by
  have hoff₁ := h.off_le
  have hsize : (grown ip₁ off₁).size.toNat = max ip₁.size.toNat off₁ :=
    grown_size ip₁ (show off₁ ≤ MAXFILE * BSIZE by omega)
  obtain ⟨htype, haddrs⟩ := grown_type ip₁ off₁
  have hlive₁ : Live sb (Function.update (dinode sb blk) i ip₁) i := h.grows.live.mpr hl
  -- the inode in memory, then the inode on disk
  obtain ⟨hc₂, ht₂⟩ := h.grows.consistent.setInode (i := i) (d := grown ip₁ off₁)
    (by rw [Function.update_self, htype]) (by rw [Function.update_self, haddrs]) (by
      intro _
      rw [hsize]
      rcases max_choice ip₁.size.toNat off₁ with hm | hm
      · rw [hm]
        have := h.grows.consistent.sized i hlive₁
        rwa [Function.update_self] at this
      · rw [hm]
        exact h.filled)
  rw [Function.update_idem] at hc₂ ht₂
  obtain ⟨hc₃, hrefs₃, ht₃⟩ := hc₂.iupdate hl.1 h.grows.disk
  have hrefs₂ : refs sb (Function.update (dinode sb blk) i (grown ip₁ off₁)) blk₁ =
      refs sb (Function.update (dinode sb blk) i ip₁) blk₁ := by
    rw [← Function.update_idem (f := dinode sb blk) (a := i) ip₁ (grown ip₁ off₁)]
    exact refs_setInode (by rw [Function.update_self, htype]) (by rw [Function.update_self, haddrs])
  exact ⟨hc₃, hrefs₃.trans hrefs₂, fun ht => ht₃ (ht₂ (h.grows.tight ht))⟩

/-- The end of `writei`: the size is adjusted and the inode written back. -/
theorem LoopPost.writeBack {src : Src} {off n : UInt32} {T : Finset Pos} {blk₁ : Blocks} {ip₁ : Dinode}
    {tot off₁ : Nat} (hl : Live sb (dinode sb blk) i)
    (hrange : off.toNat ≤ (dinode sb blk i).size.toNat ∧ off.toNat + n.toNat ≤ MAXFILE * BSIZE)
    (h : LoopPost sb i T (dinode sb blk) blk src n.toNat 0 off.toNat
      (Function.update (dinode sb blk) i ip₁) blk₁ tot off₁) :
    WritePost sb blk i src off n (Fs.iupdate sb blk₁ i (grown ip₁ off₁)) (grown ip₁ off₁) tot := by
  have hoff₁ := h.off_le
  have hsize : (grown ip₁ off₁).size.toNat = max ip₁.size.toNat off₁ :=
    grown_size ip₁ (show off₁ ≤ MAXFILE * BSIZE by omega)
  have hip₁ : ip₁ = { dinode sb blk i with addrs := ip₁.addrs } := by
    have := h.grows.same
    rwa [Function.update_self] at this
  obtain ⟨hc₃, hrefs, ht₃⟩ := h.iupdate hl hrange.2
  refine ⟨hc₃, ht₃, ?_, ?_, ?_, hrange, fun hr => ?_⟩
  · intro i' hi' hne
    rw [dinode_iupdate, Function.update_of_ne hne, h.grows.disk i' hi']
  · rw [dinode_iupdate, Function.update_self]
  · rw [(grown_type ip₁ off₁).1, hip₁]
  · obtain ⟨hdone, hkeep, hnew⟩ := h.done hr
    have hbyte : ∀ i' x, fileByte sb (dinode sb (Fs.iupdate sb blk₁ i (grown ip₁ off₁)))
        (Fs.iupdate sb blk₁ i (grown ip₁ off₁)) i' x =
        fileByte sb (Function.update (dinode sb blk) i ip₁) blk₁ i' x := by
      intro i' x
      exact fileByte_iupdate h.grows.consistent hl.1 hrefs
    refine ⟨hdone, ?_, fun i' x v hout hv => ?_, fun x h1 h2 => ?_⟩
    · have hoff := h.off_eq
      rw [hsize, hip₁]
      simp only
      omega
    · rw [hbyte]
      exact hkeep i' x v (by simpa using hout) hv
    · rw [hbyte, hnew x h1 (by simpa using h2), Nat.zero_add]

/-- **`writei`** fails for lack of room only, and leaves a consistent file system. -/
theorem writei_sat (src : Src) (off n : UInt32) (hc : Consistent sb (dinode sb blk) blk)
    (hl : Live sb (dinode sb blk) i) :
    Sat (NoRoom sb (dinode sb blk) blk i (touched off.toNat n.toNat))
      (fun r => match r.2.2 with
        | none => r.1 = blk ∧ r.2.1 = dinode sb blk i ∧ (off > (dinode sb blk i).size ∨ off + n < off ∨
            off.toNat + n.toNat > MAXFILE * BSIZE)
        | some tot => WritePost sb blk i src off n r.1 r.2.1 tot)
      (writei sb blk i (dinode sb blk i) src off n) := by
  unfold writei
  split
  · rename_i hguard
    exact .ok ⟨rfl, rfl, by tauto⟩
  · rename_i hguard
    obtain ⟨hoff, hwrap⟩ := not_or.mp hguard
    have hadd := toNat_add_of_le hwrap
    have hoff : off.toNat ≤ (dinode sb blk i).size.toNat := by
      rw [gt_iff_lt, UInt32.lt_iff_toNat_lt] at hoff
      omega
    split
    · rename_i hmax
      exact .ok ⟨rfl, rfl, by rw [hadd] at hmax; tauto⟩
    · rename_i hmax
      rw [hadd] at hmax
      have hf : Filled sb (dinode sb blk) blk i off.toNat := fun bn hbn =>
        hc.sized i hl bn (lt_of_lt_of_le hbn hoff)
      refine (writeiLoop_sat src hc hl (Nat.zero_le _)
        (fun bn h1 h2 => covers_touched (by omega) (by omega) h2) (by omega) hf).bind ?_
      rintro ⟨blk₁, ip₁, tot, off₁⟩ hpost
      exact .ok (hpost.writeBack hl ⟨hoff, by omega⟩)

/-! ## `readi` -/

/-- The contents of a file. -/
def content (sb : Superblock) (dn : Nat → Dinode) (blk : Blocks) (i : Nat) : List UInt8 :=
  (List.range (dn i).size.toNat).map fun x => (fileByte sb dn blk i x).getD 0

/-- **`readi`** changes nothing and moves a slice of the contents. -/
theorem readi_eq (dst : Nat → Nat → Bool) (off n : UInt32) (hc : Consistent sb dn blk) (hl : Live sb dn i) :
    ∃ bs r, readi sb blk (dn i) dst off n = .ok (blk, dn i, bs, r) ∧
      ((∀ k m, k + m ≤ n.toNat → dst k m = true) → r = some bs.length ∧
        bs = if off > (dn i).size ∨ off + n < off then []
          else ((content sb dn blk i).drop off.toNat).take n.toNat) := by
  unfold readi
  split
  · exact ⟨[], some 0, rfl, fun _ => ⟨rfl, rfl⟩⟩
  · rename_i hguard
    obtain ⟨hoff, hwrap⟩ := not_or.mp hguard
    have hadd := toNat_add_of_le hwrap
    have hoff : off.toNat ≤ (dn i).size.toNat := by
      rw [gt_iff_lt, UInt32.lt_iff_toNat_lt] at hoff
      omega
    -- `n` cut off at the end of the file
    have hn : (if off + n > (dn i).size then (dn i).size - off else n).toNat =
        min n.toNat ((dn i).size.toNat - off.toNat) := by
      split
      · rename_i hgt
        rw [gt_iff_lt, UInt32.lt_iff_toNat_lt, hadd] at hgt
        rw [UInt32.toNat_sub_of_le _ _ (UInt32.le_iff_toNat_le.mpr hoff)]
        omega
      · rename_i hle
        rw [gt_iff_lt, UInt32.lt_iff_toNat_lt, hadd] at hle
        omega
    simp only
    generalize (if off + n > (dn i).size then (dn i).size - off else n) = m at hn ⊢
    have hf : Filled sb dn blk i (off.toNat + (m.toNat - 0)) := fun bn hbn => hc.sized i hl bn (by omega)
    obtain ⟨bs, r, heq, hgood⟩ := readiLoop_eq (Nat.zero_le m.toNat) hf
    refine ⟨bs, r, heq, fun hdst => ?_⟩
    obtain ⟨hr, hbs⟩ := hgood fun k l hkl => hdst k l (by omega)
    rw [Nat.sub_zero] at hbs
    refine ⟨by rw [hr, hbs, List.length_map, List.length_range], ?_⟩
    rw [hbs]
    -- both lists have the same length and the same bytes
    refine List.ext_getElem ?_ fun j h1 h2 => ?_
    · simp only [content, List.length_map, List.length_range, List.length_take, List.length_drop]
      omega
    · simp only [content, List.getElem_map, List.getElem_range, List.getElem_take, List.getElem_drop]

end Xv6.Fs
