import Xv6.Fs.Owner

/-!
# `Fs.Trunc` — writing inodes back, and `itrunc`

While `itrunc` runs, blocks are free that the inode still refers to. `Freed` counts the places whose blocks
have been given back; since no two places refer to one block, each `bfree` finds its bit set. When all places
are done and the addresses are 0, the file system is consistent again.
-/

namespace Xv6.Fs

open Logging (Block BSIZE)
open Outcome (Sat)
open Ownership (Owned Tight)

variable {sb : Superblock} {dn dn' : Nat → Dinode} {blk blk' blk₁ : Blocks} {i b : Nat} {p : Pos} {d : Dinode}

/-! ## Changes that keep the references -/

/-- The references of one inode. -/
theorem refs_congr_inode (ht : (dn' i).type = (dn i).type)
    (hr : refsOf blk' (dn' i) p = refsOf blk (dn i) p) :
    refs sb dn' blk' (i, p) = refs sb dn blk (i, p) := by
  refine if_congr ?_ hr rfl
  simp only [Live, ht]

/-- Inodes beyond `ninodes` do not count. -/
theorem refs_congr_inodes (h : ∀ i < sb.ninodes, dn' i = dn i) : refs sb dn' blk = refs sb dn blk := by
  funext k
  obtain ⟨i, p⟩ := k
  by_cases hi : i < sb.ninodes
  · exact refs_congr_inode (by rw [h i hi]) (by rw [h i hi])
  · rw [refs, refs, if_neg fun hl => hi hl.1, if_neg fun hl => hi hl.1]

/-- A file system with the same references, bits and sizes is as good. -/
theorem Consistent.congr (hc : Consistent sb dn blk) (hrefs : refs sb dn' blk' = refs sb dn blk)
    (hbit : ∀ b < sb.size, bit sb blk' b = bit sb blk b)
    (hsized : ∀ i, Live sb dn' i → Filled sb dn blk i (dn' i).size.toNat) :
    Consistent sb dn' blk' ∧ (Tight (refs sb dn blk) (used sb blk) → Tight (refs sb dn' blk') (used sb blk')) := by
  have hused : ∀ b, used sb blk' b ↔ used sb blk b := by
    intro b
    refine and_congr_right fun _ => and_congr_right fun hb => ?_
    rw [hbit b hb]
  refine ⟨⟨?_, ?_, ?_⟩, ?_⟩
  · rw [hrefs]
    exact ⟨hc.owned.inj, fun hk => (hused _).mpr (hc.owned.used hk)⟩
  · intro b hb
    rw [hbit b (lt_of_lt_of_le hb (Nat.sub_le _ _)), hc.reserved b hb]
  · intro i hl
    unfold Filled
    rw [hrefs]
    exact hsized i hl
  · intro ht b hb
    rw [hrefs]
    exact ht b ((hused b).mp hb)

theorem refs_iupdate (hc : Consistent sb dn blk) (hi : i < sb.ninodes) :
    refs sb dn (iupdate sb blk i d) = refs sb dn blk := by
  refine refs_congr fun i' a ha => iupdate_of_ne ?_
  obtain ⟨h1, h2, _⟩ := hc.owned.used ha
  have := IBLOCK_lt hi
  have := bmapstart_le_data h2
  omega

theorem bit_iupdate (hi : i < sb.ninodes) : bit sb (iupdate sb blk i d) b = bit sb blk b :=
  bit_congr (iupdate_of_ne (ne_IBLOCK_of_le hi (bmapstart_le sb b)).symm)

/-- **Writing an inode back.** `dn` is what the inodes are taken to be, with `d` in place of inode `i`; then
    they are that on disk. -/
theorem Consistent.iupdate (hc : Consistent sb (Function.update dn i d) blk) (hi : i < sb.ninodes)
    (hdisk : ∀ inum < sb.ninodes, dinode sb blk inum = dn inum) :
    Consistent sb (dinode sb (Fs.iupdate sb blk i d)) (Fs.iupdate sb blk i d) ∧
      refs sb (dinode sb (Fs.iupdate sb blk i d)) (Fs.iupdate sb blk i d) =
        refs sb (Function.update dn i d) blk ∧
      (Tight (refs sb (Function.update dn i d) blk) (used sb blk) →
        Tight (refs sb (dinode sb (Fs.iupdate sb blk i d)) (Fs.iupdate sb blk i d))
          (used sb (Fs.iupdate sb blk i d))) := by
  have hdn : ∀ inum < sb.ninodes, dinode sb (Fs.iupdate sb blk i d) inum = Function.update dn i d inum := by
    intro inum hinum
    rw [dinode_iupdate]
    by_cases h : inum = i
    · rw [h, Function.update_self, Function.update_self]
    · rw [Function.update_of_ne h, Function.update_of_ne h, hdisk inum hinum]
  have hrefs : refs sb (dinode sb (Fs.iupdate sb blk i d)) (Fs.iupdate sb blk i d) =
      refs sb (Function.update dn i d) blk := by
    rw [refs_congr_inodes hdn, refs_iupdate hc hi]
  obtain ⟨h1, h2⟩ := hc.congr hrefs (fun b _ => bit_iupdate hi) (by
    intro i' hl
    unfold Live at hl
    rw [hdn i' hl.1] at hl ⊢
    exact hc.sized i' hl)
  exact ⟨h1, hrefs, h2⟩

/-- An inode changes, but neither its type nor its addresses. -/
theorem refs_setInode (ht : d.type = (dn i).type) (ha : d.addrs = (dn i).addrs) :
    refs sb (Function.update dn i d) blk = refs sb dn blk := by
  funext k
  obtain ⟨i', p⟩ := k
  by_cases hi : i' = i
  · subst hi
    refine refs_congr_inode (by rw [Function.update_self, ht]) ?_
    rw [Function.update_self]
    cases p <;> simp only [refsOf, ha]
  · exact refs_congr_inode (by rw [Function.update_of_ne hi]) (by rw [Function.update_of_ne hi])

theorem Consistent.setInode (hc : Consistent sb dn blk) (ht : d.type = (dn i).type)
    (ha : d.addrs = (dn i).addrs) (hf : Live sb dn i → Filled sb dn blk i d.size.toNat) :
    Consistent sb (Function.update dn i d) blk ∧
      (Tight (refs sb dn blk) (used sb blk) →
        Tight (refs sb (Function.update dn i d) blk) (used sb blk)) := by
  refine hc.congr (refs_setInode ht ha) (fun _ _ => rfl) fun i' hl => ?_
  by_cases hi : i' = i
  · subst hi
    unfold Live at hl
    rw [Function.update_self] at hl ⊢
    rw [ht] at hl
    exact hf hl
  · unfold Live at hl
    rw [Function.update_of_ne hi] at hl ⊢
    exact hc.sized i' hl

/-- An inode without blocks changes and still has none. -/
theorem refs_setEmpty (hold : ∀ p, refs sb dn blk (i, p) = none) (ha : d.addrs = fun _ => 0) :
    refs sb (Function.update dn i d) blk = refs sb dn blk := by
  have hempty : ∀ p, refsOf blk d p = none := by
    intro p
    cases p <;> simp [refsOf, ha, target]
  funext k
  obtain ⟨i', p⟩ := k
  by_cases hi : i' = i
  · subst hi
    rw [hold p, refs]
    simp only [Function.update_self, hempty, ite_self]
  · exact refs_congr_inode (by rw [Function.update_of_ne hi]) (by rw [Function.update_of_ne hi])

/-- An inode without blocks becomes free, or a free inode becomes one without blocks. -/
theorem Consistent.setEmpty (hc : Consistent sb dn blk) (hold : ∀ p, refs sb dn blk (i, p) = none)
    (ha : d.addrs = fun _ => 0) (hsize : d.size = 0) :
    Consistent sb (Function.update dn i d) blk ∧
      (Tight (refs sb dn blk) (used sb blk) →
        Tight (refs sb (Function.update dn i d) blk) (used sb blk)) := by
  refine hc.congr (refs_setEmpty hold ha) (fun _ _ => rfl) fun i' hl => ?_
  by_cases hi : i' = i
  · subst hi
    rw [Function.update_self, hsize]
    exact fun bn hbn => absurd hbn (Nat.not_lt_zero _)
  · unfold Live at hl
    rw [Function.update_of_ne hi] at hl ⊢
    exact hc.sized i' hl

/-! ## Giving blocks back -/

/-- The blocks of the inode at the places in `S` have been given back. -/
structure Freed (sb : Superblock) (dn : Nat → Dinode) (blk : Blocks) (i : Nat) (S : Pos → Prop)
    (blk₁ : Blocks) : Prop where
  bits : ∀ b < sb.size, bit sb blk₁ b = true ↔
    bit sb blk b = true ∧ ∀ p, S p → refs sb dn blk (i, p) ≠ some b
  same : ∀ b, b < sb.bmapstart ∨ sb.data ≤ b → blk₁ b = blk b

variable {S S' : Pos → Prop}

theorem Freed.start : Freed sb dn blk i (fun _ => False) blk :=
  ⟨fun _ _ => ⟨fun h => ⟨h, fun _ h => h.elim⟩, fun h => h.1⟩, fun _ _ => rfl⟩

/-- A place without a block has nothing to give back. -/
theorem Freed.skip (h : Freed sb dn blk i S blk₁) (hS : ∀ p, S' p → S p ∨ refs sb dn blk (i, p) = none)
    (hS' : ∀ p, S p → S' p) : Freed sb dn blk i S' blk₁ := by
  refine ⟨fun b hb => (h.bits b hb).trans ?_, h.same⟩
  refine and_congr_right fun _ => ⟨fun hall p hp => ?_, fun hall p hp => hall p (hS' p hp)⟩
  rcases hS p hp with hp | hp
  · exact hall p hp
  · rw [hp]
    exact fun h => by cases h

/-- **`bfree` of a block of the inode** finds its bit set. -/
theorem Freed.bfree (hc : Consistent sb dn blk) (h : Freed sb dn blk i S blk₁) (hp : ¬S p)
    (hb : refs sb dn blk (i, p) = some b) (hS' : ∀ q, S' q ↔ q = p ∨ S q) :
    Fs.bfree sb blk₁ b = .ok (unmark sb blk₁ b) ∧ Freed sb dn blk i S' (unmark sb blk₁ b) := by
  obtain ⟨h1, h2, h3⟩ := hc.owned.used hb
  have hset : bit sb blk₁ b = true := by
    refine (h.bits b h2).mpr ⟨h3, fun q hq hbq => hp ?_⟩
    have hpq : p = q := congrArg Prod.snd (hc.owned.inj hb hbq)
    exact hpq ▸ hq
  refine ⟨bfree_of_bit hset, fun b' hb' => ?_, fun b' hb' => ?_⟩
  · rw [bit_unmark, Bool.and_eq_true, decide_eq_true_iff, h.bits b' hb']
    constructor
    · rintro ⟨hne, hbit, hall⟩
      refine ⟨hbit, fun q hq => ?_⟩
      rcases (hS' q).mp hq with rfl | hq
      · rw [hb]
        exact fun h => hne (Option.some.inj h).symm
      · exact hall q hq
    · rintro ⟨hbit, hall⟩
      refine ⟨fun hbb => ?_, hbit, fun q hq => hall q ((hS' q).mpr (Or.inr hq))⟩
      exact hall p ((hS' p).mpr (Or.inl rfl)) (hbb ▸ hb)
  · rw [unmark_of_ne ?_, h.same b' hb']
    have := BBLOCK_lt h2
    have := bmapstart_le sb b
    omega

/-- The inode in the middle of the first loop, with the addresses in `rest` still to come. -/
structure Clearing (d : Dinode) (rest : List (Fin NDIRECT)) (ip : Dinode) : Prop where
  addrs : ∀ k : Fin NDIRECT, ip.addrs k.castSucc = if k ∈ rest then d.addrs k.castSucc else 0
  last : ip.addrs (Fin.last NDIRECT) = d.addrs (Fin.last NDIRECT)
  same : ip = { d with addrs := ip.addrs }

theorem Clearing.clear {ip : Dinode} {k : Fin NDIRECT} {ks : List (Fin NDIRECT)} (h : Clearing d (k :: ks) ip)
    (hk : k ∉ ks) : Clearing d ks { ip with addrs := Function.update ip.addrs k.castSucc 0 } := by
  refine ⟨fun k' => ?_, ?_, ?_⟩
  · by_cases hkk : k' = k
    · subst hkk
      rw [if_neg hk]
      exact Function.update_self _ _ _
    · have hne : k'.castSucc ≠ k.castSucc := fun h => hkk (Fin.castSucc_injective _ h)
      show Function.update ip.addrs k.castSucc 0 k'.castSucc = _
      rw [Function.update_of_ne hne, h.addrs k']
      simp [hkk]
  · show Function.update ip.addrs k.castSucc 0 (Fin.last NDIRECT) = _
    rw [Function.update_of_ne (Fin.castSucc_lt_last k).ne', h.last]
  · have hsame := h.same
    rw [hsame]

theorem Clearing.skip {ip : Dinode} {k : Fin NDIRECT} {ks : List (Fin NDIRECT)} (h : Clearing d (k :: ks) ip)
    (h0 : d.addrs k.castSucc = 0) : Clearing d ks ip := by
  refine ⟨fun k' => ?_, h.last, h.same⟩
  rw [h.addrs k']
  by_cases hkk : k' = k
  · subst hkk
    simp [h0]
  · simp [hkk]

/-- The direct places that are done. -/
def directDone (rest : List (Fin NDIRECT)) (p : Pos) : Prop := ∃ k : Fin NDIRECT, k ∉ rest ∧ p = .addr k.castSucc

theorem directDone_cons {k : Fin NDIRECT} {ks : List (Fin NDIRECT)} (hk : k ∉ ks) (q : Pos) :
    directDone ks q ↔ q = .addr k.castSucc ∨ directDone (k :: ks) q := by
  constructor
  · rintro ⟨k', hk', rfl⟩
    by_cases hkk : k' = k
    · exact Or.inl (by rw [hkk])
    · exact Or.inr ⟨k', by simp [hkk, hk'], rfl⟩
  · rintro (rfl | ⟨k', hk', rfl⟩)
    · exact ⟨k, hk, rfl⟩
    · exact ⟨k', fun h => hk' (List.mem_cons_of_mem _ h), rfl⟩

/-- The first loop gives the direct blocks back. -/
theorem truncDirect_sat (hc : Consistent sb dn blk) (hl : Live sb dn i) :
    Sat (fun _ => False)
      (fun s => Freed sb dn blk i (directDone []) s.1 ∧ Clearing (dn i) [] s.2)
      ((List.finRange NDIRECT).foldlM (truncDirect sb) (blk, dn i)) := by
  refine (Sat.foldlM (I := fun rest s => rest.Nodup ∧ Freed sb dn blk i (directDone rest) s.1 ∧
    Clearing (dn i) rest s.2) ?_ ?_).mono (fun _ h => h) fun _ h => h.2
  · refine ⟨List.nodup_finRange _, Freed.start.skip ?_ (fun _ h => h.elim), fun k => ?_, rfl, rfl⟩
    · rintro p ⟨k, hk, _⟩
      exact absurd (List.mem_finRange k) hk
    · rw [if_pos (List.mem_finRange k)]
  · rintro k ks ⟨blk₁, ip⟩ ⟨hn, hF, hC⟩
    obtain ⟨hk, hn⟩ := List.nodup_cons.mp hn
    have haddr : ip.addrs k.castSucc = (dn i).addrs k.castSucc := by
      rw [hC.addrs k, if_pos List.mem_cons_self]
    have hrefs : refs sb dn blk (i, .addr k.castSucc) = target (ip.addrs k.castSucc) := by
      rw [refs_of_live hl, haddr]
      rfl
    unfold truncDirect
    split
    · rename_i h0
      have hb := hrefs.trans (target_eq_some.mpr ⟨h0, rfl⟩)
      have hnot : ¬directDone (k :: ks) (.addr k.castSucc) := by
        rintro ⟨k', hk', heq⟩
        have hkk := Fin.castSucc_injective _ (Pos.addr.inj heq)
        exact hk' (hkk ▸ List.mem_cons_self)
      obtain ⟨hfree, hF'⟩ := hF.bfree hc hnot hb (directDone_cons hk)
      simp only [hfree]
      exact .ok ⟨hn, hF', hC.clear hk⟩
    · rename_i h0
      have h0 : ip.addrs k.castSucc = 0 := by simpa using h0
      refine .ok ⟨hn, hF.skip (fun q hq => ?_) (fun q hq => (directDone_cons hk q).mpr (Or.inr hq)),
        hC.skip (haddr ▸ h0)⟩
      rcases (directDone_cons hk q).mp hq with rfl | hq
      · exact Or.inr (hrefs.trans (target_eq_none.mpr h0))
      · exact Or.inl hq

/-- The places that are done once the direct blocks are, and the entries that are not in `rest`. -/
def entriesDone (rest : List (Fin NINDIRECT)) (p : Pos) : Prop :=
  directDone [] p ∨ ∃ j : Fin NINDIRECT, j ∉ rest ∧ p = .entry j

theorem entriesDone_cons {j : Fin NINDIRECT} {js : List (Fin NINDIRECT)} (hj : j ∉ js) (q : Pos) :
    entriesDone js q ↔ q = .entry j ∨ entriesDone (j :: js) q := by
  constructor
  · rintro (hd | ⟨j', hj', rfl⟩)
    · exact Or.inr (Or.inl hd)
    · by_cases hjj : j' = j
      · exact Or.inl (by rw [hjj])
      · exact Or.inr (Or.inr ⟨j', by simp [hjj, hj'], rfl⟩)
  · rintro (rfl | hd | ⟨j', hj', rfl⟩)
    · exact Or.inr ⟨j, hj, rfl⟩
    · exact Or.inl hd
    · exact Or.inr ⟨j', fun h => hj' (List.mem_cons_of_mem _ h), rfl⟩

/-- The second loop gives the blocks of the indirect block back. -/
theorem truncEntry_sat {a : Nat} (hc : Consistent sb dn blk) (ha : refs sb dn blk (i, .indirect) = some a)
    (hF : Freed sb dn blk i (directDone []) blk₁) :
    Sat (fun _ => False) (Freed sb dn blk i (entriesDone []))
      ((List.finRange NINDIRECT).foldlM (truncEntry sb a) blk₁) := by
  have hl := live_of_refs ha
  obtain ⟨hdata, _, _⟩ := hc.owned.used ha
  have hind : target ((dn i).addrs (Fin.last NDIRECT)) = some a := (refs_of_live hl _).symm.trans ha
  refine (Sat.foldlM (I := fun rest blk₂ => rest.Nodup ∧ Freed sb dn blk i (entriesDone rest) blk₂)
    ?_ ?_).mono (fun _ h => h) fun _ h => h.2
  · refine ⟨List.nodup_finRange _, hF.skip ?_ fun _ h => Or.inl h⟩
    rintro p (hd | ⟨j, hj, _⟩)
    · exact Or.inl hd
    · exact absurd (List.mem_finRange j) hj
  · rintro j js blk₂ ⟨hn, hF₂⟩
    obtain ⟨hj, hn⟩ := List.nodup_cons.mp hn
    have hrefs : refs sb dn blk (i, .entry j) = target (word (blk₂ a) (4 * j)) := by
      rw [refs_of_live hl, hF₂.same a (Or.inr hdata)]
      simp only [refsOf, hind, Option.bind_some]
    unfold truncEntry
    split
    · rename_i h0
      have hb := hrefs.trans (target_eq_some.mpr ⟨h0, rfl⟩)
      have hnot : ¬entriesDone (j :: js) (.entry j) := by
        rintro (⟨k, _, heq⟩ | ⟨j', hj', heq⟩)
        · cases heq
        · cases heq
          exact hj' List.mem_cons_self
      obtain ⟨hfree, hF'⟩ := hF₂.bfree hc hnot hb (entriesDone_cons hj)
      rw [hfree]
      exact .ok ⟨hn, hF'⟩
    · rename_i h0
      have h0 : word (blk₂ a) (4 * j) = 0 := by simpa using h0
      refine .ok ⟨hn, hF₂.skip (fun q hq => ?_) fun q hq => (entriesDone_cons hj q).mpr (Or.inr hq)⟩
      rcases (entriesDone_cons hj q).mp hq with rfl | hq
      · exact Or.inr (hrefs.trans (target_eq_none.mpr h0))
      · exact Or.inl hq

theorem addr_cases (k : Fin (NDIRECT + 1)) : k = Fin.last NDIRECT ∨ ∃ k' : Fin NDIRECT, k = k'.castSucc := by
  cases k using Fin.lastCases with
  | last => exact Or.inl rfl
  | cast k => exact Or.inr ⟨k, rfl⟩

/-- The places that are done after the second loop are all but the indirect block. -/
theorem entriesDone_nil (p : Pos) (hp : p ≠ .indirect) : entriesDone [] p := by
  cases p with
  | addr k =>
      rcases addr_cases k with rfl | ⟨k, rfl⟩
      · exact absurd rfl hp
      · exact Or.inl ⟨k, by simp, rfl⟩
  | entry j => exact Or.inr ⟨j, by simp, rfl⟩

theorem truncIndirect_sat {ip : Dinode} (hc : Consistent sb dn blk) (hl : Live sb dn i)
    (hF : Freed sb dn blk i (directDone []) blk₁) (hC : Clearing (dn i) [] ip) :
    Sat (fun _ => False)
      (fun s => Freed sb dn blk i (fun _ => True) s.1 ∧ s.2 = { dn i with addrs := fun _ => 0 })
      (truncIndirect sb blk₁ ip) := by
  have hrefs : refs sb dn blk (i, .indirect) = target (ip.addrs (Fin.last NDIRECT)) := by
    rw [refs_of_live hl, hC.last]
    rfl
  unfold truncIndirect
  simp only
  split
  · rename_i h0
    have ha := hrefs.trans (target_eq_some.mpr ⟨h0, rfl⟩)
    refine (truncEntry_sat hc ha hF).bind fun blk₂ hF₂ => ?_
    have hnot : ¬entriesDone [] .indirect := by
      rintro (⟨k, _, heq⟩ | ⟨j, _, heq⟩)
      · exact (Fin.castSucc_lt_last k).ne' (Pos.addr.inj heq)
      · cases heq
    have hall : ∀ q, True ↔ q = .indirect ∨ entriesDone [] q := fun q =>
      ⟨fun _ => or_iff_not_imp_left.mpr (entriesDone_nil q), fun _ => trivial⟩
    obtain ⟨hfree, hF'⟩ := hF₂.bfree hc hnot ha hall
    rw [hfree]
    refine .ok ⟨hF', ?_⟩
    have hall : Function.update ip.addrs (Fin.last NDIRECT) 0 = fun _ => 0 := by
      funext k
      rcases addr_cases k with rfl | ⟨k, rfl⟩
      · exact Function.update_self _ _ _
      · rw [Function.update_of_ne (Fin.castSucc_lt_last k).ne, hC.addrs k, if_neg (by simp)]
    simp only [hall]
    rw [hC.same]
  · rename_i h0
    have h0 : ip.addrs (Fin.last NDIRECT) = 0 := by simpa using h0
    have hnone : target ((dn i).addrs (Fin.last NDIRECT)) = none := target_eq_none.mpr (hC.last ▸ h0)
    refine .ok ⟨hF.skip (fun q _ => ?_) (fun _ _ => trivial), ?_⟩
    · cases q with
      | addr k =>
          rcases addr_cases k with rfl | ⟨k, rfl⟩
          · exact Or.inr (hrefs.trans (target_eq_none.mpr h0))
          · exact Or.inl ⟨k, by simp, rfl⟩
      | entry j =>
          right
          rw [refs_of_live hl]
          simp only [refsOf, hnone, Option.bind_none]
    · have hall : ip.addrs = fun _ => 0 := by
        funext k
        rcases addr_cases k with rfl | ⟨k, rfl⟩
        · exact h0
        · rw [hC.addrs k, if_neg (by simp)]
      simp only
      rw [hC.same, hall]

/-! ## `itrunc` -/

/-- **With all blocks given back and all addresses 0**, the file system is consistent again. -/
theorem Freed.consistent (hc : Consistent sb dn blk) (h : Freed sb dn blk i (fun _ => True) blk₁)
    (ha : d.addrs = fun _ => 0) (hsize : d.size = 0) :
    Consistent sb (Function.update dn i d) blk₁ ∧
      (Tight (refs sb dn blk) (used sb blk) → Tight (refs sb (Function.update dn i d) blk₁) (used sb blk₁)) ∧
      ∀ i' p, i' ≠ i → refs sb (Function.update dn i d) blk₁ (i', p) = refs sb dn blk (i', p) := by
  have hempty : ∀ p, refsOf blk₁ d p = none := by
    intro p
    cases p <;> simp [refsOf, ha, target]
  have hnone : ∀ k : Nat × Pos, k.1 = i → refs sb (Function.update dn i d) blk₁ k = none := by
    rintro ⟨i', p⟩ rfl
    rw [refs]
    simp only [Function.update_self, hempty, ite_self]
  have hother : ∀ k : Nat × Pos, ¬k.1 = i → refs sb (Function.update dn i d) blk₁ k = refs sb dn blk k := by
    rintro ⟨i', p⟩ hi
    have hblk : refs sb dn blk₁ = refs sb dn blk :=
      refs_congr fun i' a ha => h.same a (Or.inr (hc.owned.used ha).1)
    rw [← hblk]
    exact refs_congr_inode (by rw [Function.update_of_ne hi]) (by rw [Function.update_of_ne hi])
  have hused : ∀ b, used sb blk₁ b ↔ used sb blk b ∧ ∀ k : Nat × Pos, k.1 = i → refs sb dn blk k ≠ some b := by
    intro b
    constructor
    · rintro ⟨h1, h2, h3⟩
      obtain ⟨hbit, hall⟩ := (h.bits b h2).mp h3
      refine ⟨⟨h1, h2, hbit⟩, ?_⟩
      rintro ⟨i', p⟩ rfl
      exact hall p trivial
    · rintro ⟨⟨h1, h2, h3⟩, hall⟩
      exact ⟨h1, h2, (h.bits b h2).mpr ⟨h3, fun p _ => hall (i, p) rfl⟩⟩
  refine ⟨⟨hc.owned.release hnone hother hused, ?_, ?_⟩, fun ht => ht.release hother hused,
    fun i' p hi => hother (i', p) hi⟩
  · intro b hb
    refine (h.bits b (lt_of_lt_of_le hb (Nat.sub_le _ _))).mpr ⟨hc.reserved b hb, fun p _ hp => ?_⟩
    have := (hc.owned.used hp).1
    omega
  · intro i' hl
    by_cases hi : i' = i
    · subst hi
      rw [Function.update_self, hsize]
      exact fun bn hbn => absurd hbn (Nat.not_lt_zero _)
    · unfold Live at hl
      rw [Function.update_of_ne hi] at hl ⊢
      intro bn hbn
      obtain ⟨p, hp, hne⟩ := hc.sized i' hl bn hbn
      exact ⟨p, hp, by rwa [hother (i', p) hi]⟩

/-- The inode that `itrunc` leaves. -/
def Dinode.truncated (d : Dinode) : Dinode := { d with addrs := fun _ => 0, size := 0 }

/-- **`itrunc` never fails**: it gives every block of the inode back. -/
theorem itrunc_eq (hc : Consistent sb dn blk) (hl : Live sb dn i) :
    ∃ blk₁, Freed sb dn blk i (fun _ => True) blk₁ ∧
      itrunc sb blk i (dn i) = .ok (Fs.iupdate sb blk₁ i (dn i).truncated, (dn i).truncated) := by
  obtain ⟨⟨blk₁, ip₁⟩, h₁, hF₁, hC₁⟩ := (truncDirect_sat hc hl).exists_ok
  obtain ⟨⟨blk₂, ip₂⟩, h₂, hF₂, hip₂⟩ := (truncIndirect_sat hc hl hF₁ hC₁).exists_ok
  refine ⟨blk₂, hF₂, ?_⟩
  simp only at hip₂ h₂
  unfold itrunc
  rw [h₁]
  simp only [bind, Except.bind, h₂, hip₂]
  rfl

end Xv6.Fs
