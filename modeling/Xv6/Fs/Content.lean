import Xv6.Fs.Owner

/-!
# `Fs.Content` — the bytes of a file under `readi` and `writei`

`fileByte` is the byte of a file at a position, found through its references. `bmap` keeps every byte a file
has, and the write of a chunk changes the bytes at its positions in one file. The loop of `writei` is a
sequence of the two, the loop of `readi` only reads.
-/

namespace Xv6.Fs

open Logging (Block BSIZE)
open Outcome (Sat)

variable {sb : Superblock} {dn dn' : Nat → Dinode} {blk blk' : Blocks} {i i' b x : Nat} {p : Pos}
  {T : Finset Pos} {v : UInt8}

/-! ## Bytes of files -/

/-- Byte `x` of file `i`, if the file has a block for it. -/
def fileByte (sb : Superblock) (dn : Nat → Dinode) (blk : Blocks) (i x : Nat) : Option UInt8 :=
  (slot (x / BSIZE)).bind fun p => (refs sb dn blk (i, p)).map fun b => blk b (x % BSIZE)

theorem fileByte_eq_some :
    fileByte sb dn blk i x = some v ↔
      ∃ p b, slot (x / BSIZE) = some p ∧ refs sb dn blk (i, p) = some b ∧ blk b (x % BSIZE) = v := by
  simp [fileByte, Option.bind_eq_some_iff, Option.map_eq_some_iff]

theorem fileByte_of_refs (hp : slot (x / BSIZE) = some p) (hb : refs sb dn blk (i, p) = some b) :
    fileByte sb dn blk i x = some (blk b (x % BSIZE)) :=
  fileByte_eq_some.mpr ⟨p, b, hp, hb, rfl⟩

/-- A byte that a file has is kept. -/
theorem Grows.fileByte (hg : Grows sb i T dn blk dn' blk') (hk : Kept sb dn blk blk')
    (h : fileByte sb dn blk i' x = some v) : fileByte sb dn' blk' i' x = some v := by
  obtain ⟨p, b, hp, hb, hv⟩ := fileByte_eq_some.mp h
  refine fileByte_eq_some.mpr ⟨p, b, hp, hg.keeps hb, ?_⟩
  rw [hk (i', p) b hb (slot_ne_indirect hp), hv]

theorem div_eq_of_chunk {off m : Nat} (hm : m ≤ BSIZE - off % BSIZE) (h1 : off ≤ x) (h2 : x < off + m) :
    x / BSIZE = off / BSIZE ∧ x % BSIZE = off % BSIZE + (x - off) := by
  have hpos : 0 < BSIZE := by decide
  have hlt : off % BSIZE + (x - off) < BSIZE := by omega
  have hx : x = BSIZE * (off / BSIZE) + (off % BSIZE + (x - off)) := by
    have := Nat.div_add_mod off BSIZE
    omega
  constructor
  · conv_lhs => rw [hx]
    rw [Nat.mul_add_div hpos, Nat.div_eq_of_lt hlt, Nat.add_zero]
  · conv_lhs => rw [hx]
    rw [Nat.mul_add_mod, Nat.mod_eq_of_lt hlt]

/-- **The write of a chunk** changes the bytes at its positions, in one file. -/
theorem fileByte_write {off : Nat} {bs : List UInt8} (hc : Consistent sb dn blk)
    (hp : slot (off / BSIZE) = some p) (hb : refs sb dn blk (i, p) = some b)
    (hm : bs.length ≤ BSIZE - off % BSIZE) :
    fileByte sb dn (Function.update blk b (Bytes.put (blk b) (off % BSIZE) bs)) i' x =
      if i' = i ∧ off ≤ x ∧ x < off + bs.length then some (bs.getD (x - off) 0)
      else fileByte sb dn blk i' x := by
  have hrefs : refs sb dn (Function.update blk b (Bytes.put (blk b) (off % BSIZE) bs)) = refs sb dn blk := by
    refine refs_congr fun i₁ a ha => Function.update_of_ne ?_ _ _
    rintro rfl
    exact slot_ne_indirect hp (congrArg Prod.snd (hc.owned.inj hb ha))
  unfold fileByte
  rw [hrefs]
  by_cases hin : i' = i ∧ off ≤ x ∧ x < off + bs.length
  · obtain ⟨rfl, h1, h2⟩ := hin
    obtain ⟨hdiv, hmod⟩ := div_eq_of_chunk hm h1 h2
    rw [if_pos ⟨rfl, h1, h2⟩, hdiv, hp, Option.bind_some, hb, Option.map_some, Function.update_self, hmod,
      Bytes.put_add (by omega)]
  · rw [if_neg hin]
    cases hs : slot (x / BSIZE) with
    | none => rfl
    | some p' =>
        rw [Option.bind_some, Option.bind_some]
        cases hb' : refs sb dn blk (i', p') with
        | none => rfl
        | some b' =>
            rw [Option.map_some, Option.map_some]
            by_cases hbb : b' = b
            · -- the same block, outside the chunk
              subst hbb
              have hkey := hc.owned.inj hb' hb
              have hi : i' = i := congrArg Prod.fst hkey
              have hpp : p' = p := congrArg Prod.snd hkey
              have hdiv : x / BSIZE = off / BSIZE := slot_inj (hpp ▸ hs) hp
              have hx := Nat.div_add_mod x BSIZE
              have hoff := Nat.div_add_mod off BSIZE
              rw [hdiv] at hx
              rw [Function.update_self, Bytes.put_of_lt]
              by_contra hcon
              exact hin ⟨hi, by omega, by omega⟩
            · rw [Function.update_of_ne hbb]

/-! ## Sources -/

/-- Byte `k` of a source. -/
def Src.byte : Src → Nat → UInt8
  | .user pages va, k => userByte pages (va + k)
  | .kernel mem addr, k => mem (addr + k)

/-- The first `n` bytes of a source can be read. -/
def Src.Readable : Src → Nat → Prop
  | .user pages va, n => ∀ k < n, (pages ((va + k) / PGSIZE)).isSome
  | .kernel _ _, _ => True

theorem Src.read_of_readable {src : Src} {n k m : Nat} (h : src.Readable n) (hkm : k + m ≤ n) :
    src.read k m = ((List.range m).map fun j => src.byte (k + j), true) := by
  cases src with
  | user pages va =>
      have hmapped : ∀ j < m, (pages ((va + k + j) / PGSIZE)).isSome := by
        intro j hj
        rw [Nat.add_assoc]
        exact h (k + j) (by omega)
      simp only [Src.read, Src.byte, copyin_of_mapped hmapped, Nat.add_assoc]
  | kernel mem addr => simp only [Src.read, Src.byte, Nat.add_assoc]

/-! ## The loop of `writei` -/

theorem chunk_le (n tot off : Nat) :
    chunk n tot off ≤ n - tot ∧ chunk n tot off ≤ BSIZE - off % BSIZE :=
  ⟨Nat.min_le_left _ _, Nat.min_le_right _ _⟩

/-- With the block of `off` in place, the file is filled up to the end of the chunk. -/
theorem filled_chunk {off m : Nat} (hf : Filled sb dn blk i off) (hp : slot (off / BSIZE) = some p)
    (hb : refs sb dn blk (i, p) = some b) (hm : m ≤ BSIZE - off % BSIZE) : Filled sb dn blk i (off + m) := by
  intro bn hbn
  by_cases hlt : bn * BSIZE < off
  · exact hf bn hlt
  · have hoff := Nat.div_add_mod off BSIZE
    have hmod : off % BSIZE < BSIZE := Nat.mod_lt _ (by decide)
    have hbn' : bn = off / BSIZE := by
      apply le_antisymm
      · by_contra hgt
        have : BSIZE * (off / BSIZE + 1) ≤ bn * BSIZE := by
          rw [Nat.mul_comm bn]
          exact Nat.mul_le_mul_left _ (by omega)
        rw [Nat.mul_add] at this
        omega
      · by_contra hgt
        have : bn * BSIZE + BSIZE ≤ BSIZE * (off / BSIZE) := by
          rw [← Nat.succ_mul, Nat.mul_comm BSIZE]
          exact Nat.mul_le_mul_right _ (by omega)
        omega
    exact ⟨p, hbn' ▸ hp, by rw [hb]; exact Option.some_ne_none _⟩

/-- What the loop of `writei` has done when it stops at `tot'` and `off'`. -/
structure LoopPost (sb : Superblock) (i : Nat) (T : Finset Pos) (dn : Nat → Dinode) (blk : Blocks) (src : Src)
    (n tot off : Nat) (dn' : Nat → Dinode) (blk' : Blocks) (tot' off' : Nat) : Prop where
  grows : Grows sb i T dn blk dn' blk'
  le : tot ≤ tot'
  off_eq : off' = off + (tot' - tot)
  off_le : off' ≤ off + (n - tot)
  filled : Filled sb dn' blk' i off'
  done : src.Readable n → tot' = n ∧
    (∀ i' x v, ¬(i' = i ∧ off ≤ x ∧ x < off + (n - tot)) → fileByte sb dn blk i' x = some v →
      fileByte sb dn' blk' i' x = some v) ∧
    ∀ x, off ≤ x → x < off + (n - tot) → fileByte sb dn' blk' i x = some (src.byte (tot + (x - off)))

/-- One turn: a block for `off`, `m` bytes into it, and the rest of the loop. -/
theorem LoopPost.cons {src : Src} {n tot off m tot' off' : Nat} {dn₁ : Nat → Dinode} {blk₁ : Blocks}
    (hg : Grows sb i T dn blk dn₁ blk₁) (hk : Kept sb dn blk blk₁) (hp : slot (off / BSIZE) = some p)
    (hb : refs sb dn₁ blk₁ (i, p) = some b) (htot : tot + m ≤ n) (hm : m ≤ BSIZE - off % BSIZE)
    (h : LoopPost sb i T dn₁ (Function.update blk₁ b (Bytes.put (blk₁ b) (off % BSIZE) (src.read tot m).1))
      src n (tot + m) (off + m) dn' blk' tot' off') :
    LoopPost sb i T dn blk src n tot off dn' blk' tot' off' := by
  have hwrite : Grows sb i T dn₁ blk₁ dn₁ _ :=
    hg.consistent.write hb (slot_ne_indirect hp) (Bytes.put (blk₁ b) (off % BSIZE) (src.read tot m).1)
  have hle := h.le
  have hoff := h.off_eq
  have hoffle := h.off_le
  refine ⟨(hg.trans hwrite).trans h.grows, by omega, by omega, by omega, h.filled, fun hr => ?_⟩
  obtain ⟨hdone, hkeep, hnew⟩ := h.done hr
  have hread := Src.read_of_readable hr htot
  have hlen : (src.read tot m).1.length = m := by simp [hread]
  have hbyte : ∀ i' x, fileByte sb dn₁ (Function.update blk₁ b
      (Bytes.put (blk₁ b) (off % BSIZE) (src.read tot m).1)) i' x =
      if i' = i ∧ off ≤ x ∧ x < off + m then some ((src.read tot m).1.getD (x - off) 0)
      else fileByte sb dn₁ blk₁ i' x := by
    intro i' x
    rw [fileByte_write hg.consistent hp hb (by rwa [hlen]), hlen]
  refine ⟨hdone, fun i' x v hout hv => ?_, fun x h1 h2 => ?_⟩
  · refine hkeep i' x v (fun hin => hout ⟨hin.1, by omega, by omega⟩) ?_
    rw [hbyte, if_neg fun hin => hout ⟨hin.1, hin.2.1, by omega⟩]
    exact hg.fileByte hk hv
  · by_cases hx : x < off + m
    · refine hkeep i x _ (fun hin => by omega) ?_
      rw [hbyte, if_pos ⟨rfl, h1, hx⟩, hread]
      have hidx : x - off < ((List.range m).map fun j => src.byte (tot + j)).length := by
        simp only [List.length_map, List.length_range]
        omega
      rw [List.getD_eq_getElem _ _ hidx, List.getElem_map, List.getElem_range]
    · rw [hnew x (by omega) (by omega)]
      congr 2
      omega

/-- **The loop of `writei`.** -/
theorem writeiLoop_sat (src : Src) {n tot off : Nat} (hc : Consistent sb dn blk) (hl : Live sb dn i)
    (htot : tot ≤ n) (hT : ∀ bn, bn * BSIZE < off + (n - tot) → off / BSIZE ≤ bn → Covers T bn)
    (hmax : off + (n - tot) ≤ MAXFILE * BSIZE) (hf : Filled sb dn blk i off) :
    Sat (NoRoom sb dn blk i T)
      (fun r => LoopPost sb i T dn blk src n tot off (Function.update dn i r.2.1) r.1 r.2.2.1 r.2.2.2)
      (writeiLoop sb src n blk (dn i) tot off) := by
  induction hn : n - tot using Nat.strong_induction_on generalizing dn blk tot off with
  | _ k ih =>
      rw [writeiLoop]
      split
      · rename_i hlt
        have hm := chunk_pos off hlt
        obtain ⟨hm₁, hm₂⟩ := chunk_le n tot off
        have hdiv : off / BSIZE * BSIZE ≤ off := Nat.div_mul_le_self _ _
        have hbn : off / BSIZE < MAXFILE := by
          rw [Nat.div_lt_iff_lt_mul (by decide)]
          omega
        obtain ⟨p, hp⟩ := slot_isSome hbn
        refine (bmap_sat hc hl hp (hT _ (by omega) le_rfl)).bind ?_
        rintro ⟨blk₁, ip₁, addr⟩ ⟨hg, hk, hb⟩
        simp only at hg hk hb ⊢
        generalize hdn : Function.update dn i ip₁ = dn₁ at hg hb
        have hip : ip₁ = dn₁ i := by rw [← hdn, Function.update_self]
        have hwrite : Grows sb i T dn₁ blk₁ dn₁ _ := hg.consistent.write hb (slot_ne_indirect hp)
          (Bytes.put (blk₁ addr.toNat) (off % BSIZE) (src.read tot (chunk n tot off)).1)
        have hfill := filled_chunk (hg.filled hf) hp hb hm₂
        split
        · -- the chunk is written, and the loop goes on
          rw [hip]
          have hrest := ih (n - (tot + chunk n tot off)) (by omega) hwrite.consistent
            (hwrite.live.mpr (hg.live.mpr hl)) (by omega) (fun bn h1 h2 => hT bn (by omega) ?_) (by omega)
            (hwrite.filled hfill) rfl
          · refine hrest.mono (fun _ he => (he.of_grows hwrite).of_grows hg) ?_
            rintro ⟨blk₂, ip₂, tot₂, off₂⟩ hpost
            have hupd : Function.update dn₁ i ip₂ = Function.update dn i ip₂ := by
              rw [← hdn, Function.update_idem]
            simp only [hupd] at hpost ⊢
            exact hpost.cons hg hk hp hb (by omega) hm₂
          · exact le_trans (Nat.div_le_div_right (Nat.le_add_right _ _)) h2
        · -- the source became unreadable
          rename_i hfail
          refine .ok ?_
          simp only [hdn]
          refine ⟨hg.trans hwrite, le_rfl, by omega, by omega, hwrite.filled (hg.filled hf), fun hr => ?_⟩
          rw [Src.read_of_readable hr (by omega)] at hfail
          exact absurd rfl hfail
      · rename_i hge
        refine .ok ?_
        simp only [Function.update_eq_self]
        exact ⟨.refl hc, le_rfl, by omega, by omega, hf,
          fun _ => ⟨by omega, fun _ _ _ _ hv => hv, fun x h1 h2 => absurd h2 (by omega)⟩⟩

/-! ## The loop of `readi` -/

/-- **The loop of `readi`** changes nothing, and moves the bytes of the file if the destination takes them. -/
theorem readiLoop_eq {dst : Nat → Nat → Bool} {n tot off : Nat} (htot : tot ≤ n)
    (hf : Filled sb dn blk i (off + (n - tot))) :
    ∃ bs r, readiLoop sb dst n blk (dn i) tot off = .ok (blk, dn i, bs, r) ∧
      ((∀ k m, k + m ≤ n → dst k m = true) → r = some n ∧
        bs = (List.range (n - tot)).map fun j => (fileByte sb dn blk i (off + j)).getD 0) := by
  induction hn : n - tot using Nat.strong_induction_on generalizing tot off with
  | _ k ih =>
      rw [readiLoop]
      split
      · rename_i hlt
        have hm := chunk_pos off hlt
        obtain ⟨hm₁, hm₂⟩ := chunk_le n tot off
        have hdiv : off / BSIZE * BSIZE ≤ off := Nat.div_mul_le_self _ _
        obtain ⟨p, hp, hne⟩ := hf (off / BSIZE) (by omega)
        obtain ⟨b, hb⟩ := Option.ne_none_iff_exists'.mp hne
        obtain ⟨addr, hmap, haddr⟩ := bmap_of_refs hp hb
        have hf' : Filled sb dn blk i (off + chunk n tot off + (n - (tot + chunk n tot off))) := by
          rwa [show off + chunk n tot off + (n - (tot + chunk n tot off)) = off + (n - tot) by omega]
        obtain ⟨bs, r, hrest, hgood⟩ := ih _ (by omega) (by omega) hf' rfl
        rw [hmap]
        simp only [bind, Except.bind]
        cases hdst : dst tot (chunk n tot off) with
        | false =>
            refine ⟨[], none, rfl, fun hall => ?_⟩
            rw [hall tot (chunk n tot off) (by omega)] at hdst
            cases hdst
        | true =>
            simp only [if_true, hrest]
            refine ⟨_, r, rfl, fun hall => ⟨(hgood hall).1, ?_⟩⟩
            -- the chunk, and then what the other turns move
            have hsplit : List.range k = List.range (chunk n tot off) ++
                (List.range (n - (tot + chunk n tot off))).map (chunk n tot off + ·) := by
              rw [← List.range_add]
              congr 1
              omega
            rw [(hgood hall).2, hsplit, List.map_append, List.map_map]
            refine congrArg₂ (· ++ ·) (List.map_congr_left fun j hj => ?_) (List.map_congr_left fun j _ => ?_)
            · have hj' := List.mem_range.mp hj
              obtain ⟨hd, hmod⟩ := div_eq_of_chunk (x := off + j) hm₂ (by omega) (by omega)
              rw [Nat.add_sub_cancel_left] at hmod
              rw [fileByte_of_refs (by rw [hd]; exact hp) hb, haddr, hmod]
              rfl
            · rw [Function.comp_apply, Nat.add_assoc]
      · rename_i hge
        refine ⟨[], some tot, rfl, fun _ => ⟨by rw [show tot = n by omega], ?_⟩⟩
        rw [show n - tot = 0 by omega] at hn
        rw [← hn]
        rfl

end Xv6.Fs
