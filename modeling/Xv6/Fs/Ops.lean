import Xv6.Fs.Writei

/-!
# `Fs.Ops` — block ownership over whole runs

`Inv` adds the inode table to a consistent file system: an entry in use that has been read is the inode on
disk. `exec_sat` says that every operation keeps `Inv` and the absence of leaks, and never tries to free a
block that is free.
-/

namespace Xv6.Fs

open Outcome (Sat)
open Ownership (Owned Tight)

structure Inv (s : Sys) : Prop where
  consistent : Consistent s.sb (dinode s.sb s.blk) s.blk
  inum_lt : ∀ {i}, 0 < (s.itable i).ref → (s.itable i).inum < s.sb.ninodes
  copy : ∀ {i}, 0 < (s.itable i).ref → (s.itable i).valid = true →
    (s.itable i).toDinode = dinode s.sb s.blk (s.itable i).inum ∧ (s.itable i).type ≠ 0
  distinct : ∀ {i j}, 0 < (s.itable i).ref → 0 < (s.itable j).ref →
    (s.itable i).inum = (s.itable j).inum → i = j

/-- Every set bit of a data block belongs to a block that some inode refers to. -/
def Sys.NoLeak (s : Sys) : Prop := Tight (refs s.sb (dinode s.sb s.blk) s.blk) (used s.sb s.blk)

variable {s : Sys} {i : Fin NINODE}

/-- An entry that a caller may use is an allocated inode. -/
theorem Inv.live (hI : Inv s) (hr : 0 < (s.itable i).ref) (hv : (s.itable i).valid = true) :
    Live s.sb (dinode s.sb s.blk) (s.itable i).inum := by
  obtain ⟨hcopy, ht⟩ := hI.copy hr hv
  exact ⟨hI.inum_lt hr, by rwa [← hcopy]⟩

/-- The inode of an entry changes, on disk and in the table. -/
theorem Inv.store (blk' : Blocks) {ip : Inode} (hI : Inv s) (hr : 0 < (s.itable i).ref)
    (hc : Consistent s.sb (dinode s.sb blk') blk')
    (hother : ∀ inum < s.sb.ninodes, inum ≠ (s.itable i).inum → dinode s.sb blk' inum = dinode s.sb s.blk inum)
    (hinum : ip.inum = (s.itable i).inum)
    (hcopy : 0 < ip.ref → ip.valid = true → ip.toDinode = dinode s.sb blk' ip.inum ∧ ip.type ≠ 0) :
    Inv (Sys.setInode { s with blk := blk' } i ip) := by
  have hsame : (Sys.setInode { s with blk := blk' } i ip).itable i = ip := Function.update_self _ _ _
  have hne : ∀ {j}, j ≠ i → (Sys.setInode { s with blk := blk' } i ip).itable j = s.itable j := fun hj =>
    Function.update_of_ne hj _ _
  refine ⟨hc, fun {j} hj => ?_, fun {j} hj hv => ?_, fun {j k} hj hk hjk => ?_⟩
  · by_cases hji : j = i
    · subst hji
      rw [hsame, hinum]
      exact hI.inum_lt hr
    · rw [hne hji] at hj ⊢
      exact hI.inum_lt hj
  · by_cases hji : j = i
    · subst hji
      rw [hsame] at hj hv ⊢
      exact hcopy hj hv
    · rw [hne hji] at hj hv ⊢
      obtain ⟨h1, h2⟩ := hI.copy hj hv
      refine ⟨h1.trans (hother _ (hI.inum_lt hj) fun hi => hji (hI.distinct hj hr hi)).symm, h2⟩
  · -- the entry has kept its number
    have hnum : ∀ {j}, 0 < ((Sys.setInode { s with blk := blk' } i ip).itable j).ref →
        0 < (s.itable j).ref ∧
          ((Sys.setInode { s with blk := blk' } i ip).itable j).inum = (s.itable j).inum := by
      intro j hj
      by_cases hji : j = i
      · subst hji
        exact ⟨hr, by rw [hsame, hinum]⟩
      · rw [hne hji] at hj ⊢
        exact ⟨hj, rfl⟩
    obtain ⟨hj, hj'⟩ := hnum hj
    obtain ⟨hk, hk'⟩ := hnum hk
    exact hI.distinct hj hk (by rw [← hj', ← hk', hjk])

/-- An entry changes in its reference count only. -/
theorem Inv.setRef {r : Nat} (hI : Inv s) (hr : 0 < (s.itable i).ref) :
    Inv (s.setInode i { s.itable i with ref := r }) :=
  hI.store s.blk hr hI.consistent (fun _ _ _ => rfl) rfl fun _ hv => hI.copy hr hv

/-- A free entry is taken for an inode that is not in the table. -/
theorem Inv.insert {inum : Nat} (hI : Inv s) (hi : inum < s.sb.ninodes)
    (hnew : ∀ j, ¬(0 < (s.itable j).ref ∧ (s.itable j).inum = inum)) :
    Inv (s.setInode i { s.itable i with inum := inum, ref := 1, valid := false }) := by
  have hsame : (s.setInode i { s.itable i with inum := inum, ref := 1, valid := false }).itable i =
      { s.itable i with inum := inum, ref := 1, valid := false } := Function.update_self _ _ _
  have hne : ∀ {j}, j ≠ i →
      (s.setInode i { s.itable i with inum := inum, ref := 1, valid := false }).itable j = s.itable j :=
    fun hj => Function.update_of_ne hj _ _
  refine ⟨hI.consistent, fun {j} hj => ?_, fun {j} hj hv => ?_, fun {j k} hj hk hjk => ?_⟩
  · by_cases hji : j = i
    · subst hji
      rw [hsame]
      exact hi
    · rw [hne hji] at hj ⊢
      exact hI.inum_lt hj
  · by_cases hji : j = i
    · subst hji
      rw [hsame] at hv
      cases hv
    · rw [hne hji] at hj hv ⊢
      exact hI.copy hj hv
  · by_cases hji : j = i
    · subst hji
      by_cases hki : k = j
      · exact hki.symm
      · rw [hne hki] at hk hjk
        rw [hsame] at hjk
        exact absurd ⟨hk, hjk.symm⟩ (hnew k)
    · by_cases hki : k = i
      · subst hki
        rw [hne hji] at hj hjk
        rw [hsame] at hjk
        exact absurd ⟨hj, hjk⟩ (hnew j)
      · rw [hne hji] at hj hjk
        rw [hne hki] at hk hjk
        exact hI.distinct hj hk hjk

/-! ## The functions of the inode table -/

/-- The errors other than freeing a free block. -/
def Harmless (e : Panic) : Prop := e ≠ .freeingFreeBlock

theorem iget_sat {inum : Nat} (hI : Inv s) (hi : inum < s.sb.ninodes) :
    Sat Harmless (fun r => Inv r.1 ∧ r.1.sb = s.sb ∧ r.1.blk = s.blk) (iget s inum) := by
  unfold iget
  split
  · rename_i j hj
    have hfound := List.find?_some hj
    simp only [decide_eq_true_eq] at hfound
    exact .ok ⟨hI.setRef hfound.1, rfl, rfl⟩
  · rename_i hnone
    split
    · refine .ok ⟨hI.insert hi fun j hj => ?_, rfl, rfl⟩
      have := List.find?_eq_none.mp hnone j (List.mem_finRange j)
      simp only [decide_eq_true_eq] at this
      exact this hj
    · exact .error (fun h => by cases h)

theorem ifree_sat {sb : Superblock} {blk : Blocks} {inum n : Nat} :
    Sat Harmless (fun r => inum ≤ r ∧ r < inum + n ∧ (dinode sb blk r).type = 0) (ifree sb blk inum n) := by
  induction n generalizing inum with
  | zero => exact .error (fun h => by cases h)
  | succ n ih =>
      rw [ifree]
      split
      · rename_i h0
        exact .ok ⟨le_rfl, by omega, h0⟩
      · split
        · exact ih.mono (fun _ h => h) fun r h => ⟨by omega, by omega, h.2.2⟩
        · exact .error (fun h => by cases h)

/-- Allocating an inode on disk. -/
theorem Inv.allocate {inum : Nat} {d : Dinode} (hI : Inv s) (hi : inum < s.sb.ninodes)
    (h0 : (dinode s.sb s.blk inum).type = 0) (ha : d.addrs = fun _ => 0) (hsize : d.size = 0) :
    Inv { s with blk := iupdate s.sb s.blk inum d } ∧
      (s.NoLeak → Sys.NoLeak { s with blk := iupdate s.sb s.blk inum d }) := by
  have hdead : ∀ p, refs s.sb (dinode s.sb s.blk) s.blk (inum, p) = none := by
    intro p
    rw [refs, if_neg fun hl : Live s.sb (dinode s.sb s.blk) inum => hl.2 h0]
  obtain ⟨hc₁, ht₁⟩ := hI.consistent.setEmpty hdead ha hsize
  obtain ⟨hc₂, _, ht₂⟩ := hc₁.iupdate hi fun _ _ => rfl
  refine ⟨⟨hc₂, hI.inum_lt, fun {j} hj hv => ?_, hI.distinct⟩, fun ht => ht₂ (ht₁ ht)⟩
  obtain ⟨h1, h2⟩ := hI.copy hj hv
  -- an inode in the table is not free
  have hne : (s.itable j).inum ≠ inum := by
    rintro rfl
    rw [h1] at h2
    exact h2 h0
  refine ⟨?_, h2⟩
  rw [h1]
  show _ = dinode s.sb (iupdate s.sb s.blk inum d) (s.itable j).inum
  rw [dinode_iupdate, Function.update_of_ne hne]

theorem ialloc_sat {type : UInt16} (hI : Inv s) :
    Sat Harmless (fun r => Inv r.1 ∧ (s.NoLeak → r.1.NoLeak)) (ialloc s type) := by
  unfold ialloc
  refine ifree_sat.bind fun inum ⟨h1, h2, h3⟩ => ?_
  have hi : inum < s.sb.ninodes := by omega
  obtain ⟨hI', hleak⟩ := hI.allocate (d := .fresh type) hi h3 rfl rfl
  refine (iget_sat hI' hi).mono (fun _ h => h) ?_
  rintro ⟨t, j⟩ ⟨ht, hsb, hblk⟩
  refine ⟨ht, fun h => ?_⟩
  unfold Sys.NoLeak
  rw [hsb, hblk]
  exact hleak h

theorem ilock_sat (hI : Inv s) (hr : 0 < (s.itable i).ref) :
    Sat Harmless (fun t => Inv t ∧ (s.NoLeak → t.NoLeak)) (ilock s i) := by
  unfold ilock
  simp only
  split
  · exact .ok ⟨hI, id⟩
  · split
    · exact .error (fun h => by cases h)
    · rename_i h0
      refine .ok ⟨hI.store s.blk hr hI.consistent (fun _ _ _ => rfl) rfl ?_, id⟩
      exact fun _ _ => ⟨rfl, h0⟩

/-- `itrunc` of an entry, with what is then stored for the inode. -/
theorem Inv.trunc (hI : Inv s) (hr : 0 < (s.itable i).ref) (hv : (s.itable i).valid = true) :
    ∃ blk', itrunc s.sb s.blk (s.itable i).inum (s.itable i).toDinode =
        .ok (blk', (s.itable i).toDinode.truncated) ∧
      Consistent s.sb (dinode s.sb blk') blk' ∧ (s.NoLeak → Tight (refs s.sb (dinode s.sb blk') blk') (used s.sb blk')) ∧
      (∀ inum < s.sb.ninodes, inum ≠ (s.itable i).inum → dinode s.sb blk' inum = dinode s.sb s.blk inum) ∧
      dinode s.sb blk' (s.itable i).inum = (s.itable i).toDinode.truncated := by
  have hl := hI.live hr hv
  obtain ⟨hcopy, _⟩ := hI.copy hr hv
  obtain ⟨blk₁, hF, heq⟩ := itrunc_eq hI.consistent hl
  rw [← hcopy] at heq
  have hdisk : ∀ inum < s.sb.ninodes, dinode s.sb blk₁ inum = dinode s.sb s.blk inum := fun inum hinum =>
    dinode_congr (hF.same _ (Or.inl (IBLOCK_lt hinum)))
  obtain ⟨hc₁, ht₁, _⟩ := hF.consistent (d := (s.itable i).toDinode.truncated) hI.consistent rfl rfl
  obtain ⟨hc₂, _, ht₂⟩ := hc₁.iupdate hl.1 hdisk
  refine ⟨_, heq, hc₂, fun ht => ht₂ (ht₁ ht), fun inum hinum hne => ?_, ?_⟩
  · rw [dinode_iupdate, Function.update_of_ne hne, hdisk inum hinum]
  · rw [dinode_iupdate, Function.update_self]

theorem iput_sat (hI : Inv s) (hr : 0 < (s.itable i).ref) :
    Sat Harmless (fun t => Inv t ∧ (s.NoLeak → t.NoLeak)) (iput s i) := by
  unfold iput
  simp only
  split
  · rename_i hlast
    obtain ⟨href, hv, _⟩ := hlast
    obtain ⟨blk', heq, hc, ht, hother, hnew⟩ := hI.trunc hr hv
    rw [heq]
    have hempty : ∀ p, refs s.sb (dinode s.sb blk') blk' ((s.itable i).inum, p) = none := by
      intro p
      rw [refs]
      simp only [hnew]
      cases p <;> simp [refsOf, Dinode.truncated, target]
    obtain ⟨hc₁, ht₁⟩ := hc.setEmpty (d := { (s.itable i).toDinode.truncated with type := 0 }) hempty rfl rfl
    obtain ⟨hc₂, _, ht₂⟩ := hc₁.iupdate (hI.inum_lt hr) fun _ _ => rfl
    refine .ok ⟨hI.store _ hr hc₂ (fun inum hinum hne => ?_) rfl fun href' => ?_, fun h => ht₂ (ht₁ (ht h))⟩
    · rw [dinode_iupdate, Function.update_of_ne hne, hother inum hinum hne]
    · simp [href] at href'
  · exact .ok ⟨hI.setRef hr, id⟩

theorem noRoom_harmless {sb : Superblock} {dn : Nat → Dinode} {blk : Blocks} {inum : Nat} {T : Finset Pos}
    (e : Panic) (h : NoRoom sb dn blk inum T e) : Harmless e := by
  rcases h.1 with rfl | rfl <;> exact fun h => by cases h

/-! ## Operations -/

/-- **Every operation keeps the invariant** and leaks nothing. -/
theorem exec_sat {op : Op} (hI : Inv s) (ha : op.allowed s) :
    Sat Harmless (fun r => Inv r.1 ∧ (s.NoLeak → r.1.NoLeak)) (exec s op) := by
  cases op with
  | iget inum =>
      refine (iget_sat hI ha).bind ?_
      rintro ⟨t, j⟩ ⟨ht, hsb, hblk⟩
      refine .ok ⟨ht, fun h => ?_⟩
      unfold Sys.NoLeak
      rw [hsb, hblk]
      exact h
  | idup i => exact .ok ⟨hI.setRef ha, id⟩
  | ilock i => exact (ilock_sat hI ha).bind fun t ht => .ok ht
  | iput i => exact (iput_sat hI ha).bind fun t ht => .ok ht
  | ialloc type => exact (ialloc_sat hI).bind fun r hr => .ok hr
  | itrunc i =>
      obtain ⟨hr, hv⟩ := ha
      obtain ⟨blk', heq, hc, ht, hother, hnew⟩ := hI.trunc hr hv
      simp only [exec, heq]
      refine .ok ⟨hI.store _ hr hc hother rfl fun _ _ => ⟨hnew.symm, (hI.copy hr hv).2⟩, ht⟩
  | readi i dst off n =>
      obtain ⟨hr, hv⟩ := ha
      obtain ⟨hcopy, ht⟩ := hI.copy hr hv
      obtain ⟨bs, r, heq, _⟩ := readi_eq dst off n hI.consistent (hI.live hr hv)
      simp only [exec, hcopy, heq]
      exact .ok ⟨hI.store _ hr hI.consistent (fun _ _ _ => rfl) rfl fun _ _ => ⟨rfl, hcopy ▸ ht⟩, id⟩
  | writei i src off n =>
      obtain ⟨hr, hv⟩ := ha
      obtain ⟨hcopy, ht⟩ := hI.copy hr hv
      have hwrite := writei_sat src off n hI.consistent (hI.live hr hv)
      rw [← hcopy] at hwrite
      refine (hwrite.mono noRoom_harmless fun _ h => h).bind ?_
      rintro ⟨blk', d, tot⟩ hpost
      cases tot with
      | none =>
          obtain ⟨hblk, hd, _⟩ := hpost
          simp only at hblk hd
          subst hblk hd
          exact .ok ⟨hI.store _ hr hI.consistent (fun _ _ _ => rfl) rfl fun _ _ => ⟨hcopy, ht⟩, id⟩
      | some tot =>
          have hpost : WritePost s.sb s.blk (s.itable i).inum src off n blk' d tot := hpost
          refine .ok ⟨hI.store _ hr hpost.consistent hpost.other rfl fun _ _ => ⟨hpost.inode.symm, ?_⟩, hpost.tight⟩
          rw [hpost.type, ← hcopy]
          exact ht
  | link i nlink =>
      obtain ⟨hr, hv⟩ := ha
      obtain ⟨hcopy, ht⟩ := hI.copy hr hv
      have hl := hI.live hr hv
      obtain ⟨hc₁, ht₁⟩ := hI.consistent.setInode (i := (s.itable i).inum)
        (d := { (s.itable i).toDinode with nlink := nlink }) (by rw [hcopy]) (by rw [hcopy])
        (by rw [hcopy]; exact fun _ => hI.consistent.sized _ hl)
      obtain ⟨hc₂, _, ht₂⟩ := hc₁.iupdate hl.1 fun _ _ => rfl
      refine .ok ⟨hI.store _ hr hc₂ (fun inum _ hne => ?_) rfl fun _ _ => ⟨?_, ht⟩, fun h => ht₂ (ht₁ h)⟩
      · rw [dinode_iupdate, Function.update_of_ne hne]
      · show _ = dinode s.sb (iupdate s.sb s.blk (s.itable i).inum _) (s.itable i).inum
        rw [dinode_iupdate, Function.update_self]

theorem inv_step {t : Sys} {op : Op} (hI : Inv s) (hst : step s op = some t) :
    Inv t ∧ (s.NoLeak → t.NoLeak) := by
  unfold step at hst
  split at hst
  · rename_i ha
    have hsat := exec_sat hI ha
    split at hst
    · rename_i u r heq
      rw [heq] at hsat
      cases hst
      exact hsat.of_ok
    · cases hst
  · cases hst

/-- **Block ownership.** From a file system in which exactly the metadata blocks and the blocks that allocated
    inodes refer to have their bit set, each of these once, and no file has a hole below its size, every
    sequence of completed operations leads to such a file system again, whatever `sb.size` is and wherever a
    `writei` stops. No operation that is called there panics with "freeing free block". -/
theorem block_ownership {t : Sys} {ops : List Op} (hI : Inv s) (hleak : s.NoLeak)
    (hrun : Trace.run step s ops = some t) :
    Inv t ∧ t.NoLeak ∧ ∀ op : Op, op.allowed t → exec t op ≠ .error .freeingFreeBlock := by
  obtain ⟨hIt, hleak'⟩ := Trace.run_invariant (I := fun u => Inv u ∧ u.NoLeak) ⟨hI, hleak⟩
    (fun u op v hu hst => ⟨(inv_step hu.1 hst).1, (inv_step hu.1 hst).2 hu.2⟩) hrun
  refine ⟨hIt, hleak', fun op ha heq => ?_⟩
  have hsat := exec_sat hIt ha
  rw [heq] at hsat
  exact hsat.of_error rfl

/-- No inode is allocated, only the data blocks are free, and nothing is in the table. -/
theorem inv_of_blank (hdead : ∀ i < s.sb.ninodes, (dinode s.sb s.blk i).type = 0)
    (hbits : ∀ b < s.sb.size, bit s.sb s.blk b = decide (b < s.sb.data)) (href : ∀ i, (s.itable i).ref = 0) :
    Inv s ∧ s.NoLeak := by
  have hrefs : ∀ k, refs s.sb (dinode s.sb s.blk) s.blk k = none := fun k => if_neg fun hl => hl.2 (hdead k.1 hl.1)
  have hnone : ∀ {k b}, refs s.sb (dinode s.sb s.blk) s.blk k ≠ some b := by
    intro k b hk
    rw [hrefs k] at hk
    cases hk
  have hfree : ∀ {i}, ¬0 < (s.itable i).ref := fun {i} => by rw [href i]; exact lt_irrefl 0
  refine ⟨⟨⟨⟨fun h => absurd h hnone, fun h => absurd h hnone⟩, ?_, fun i hl => absurd (hdead i hl.1) hl.2⟩,
    fun h => absurd h hfree, fun h => absurd h hfree, fun h => absurd h hfree⟩, ?_⟩
  · intro b hb
    rw [hbits b (lt_of_lt_of_le hb (Nat.sub_le _ _))]
    exact decide_eq_true hb
  · rintro b ⟨h1, h2, h3⟩
    rw [hbits b h2, decide_eq_true_iff] at h3
    omega

/-- A disk of six blocks: an inode block, a bitmap block and two data blocks. -/
def smallDisk : Superblock where
  size := 6
  nblocks := 2
  ninodes := 3
  inodestart := 2
  bmapstart := 3
  size_lt := by decide
  inodes_lt := by decide
  bitmap_lt := by decide

/-- No inode is allocated and nothing is in the table. -/
def emptyFs : Sys where
  sb := smallDisk
  blk b o := if b = 3 ∧ o = 0 then 15 else 0
  itable _ := { Dinode.fresh 0 with inum := 0, ref := 0, valid := false }

theorem emptyFs_inv : Inv emptyFs ∧ emptyFs.NoLeak :=
  inv_of_blank (by decide) (by decide) fun _ => rfl

/-- The first entry of the table. -/
def entry0 : Fin NINODE := ⟨0, Nat.succ_pos 49⟩

/-- A file is created, written, and removed with its last reference. -/
def shortLife : List Op :=
  [.ialloc 2, .ilock entry0, .writei entry0 (.kernel (fun _ => 7) 0) 0 2, .iput entry0]

theorem shortLife_owned : ∃ t, Trace.run step emptyFs shortLife = some t ∧ Inv t ∧ t.NoLeak := by
  have hsome : (Trace.run step emptyFs shortLife).isSome = true := by decide +kernel
  obtain ⟨t, ht⟩ := Option.isSome_iff_exists.mp hsome
  obtain ⟨h1, h2, _⟩ := block_ownership emptyFs_inv.1 emptyFs_inv.2 ht
  exact ⟨t, ht, h1, h2⟩

end Xv6.Fs
