import Xv6.Mkfs.Main

/-!
# `Mkfs.Boot` — reading never allocates

The kernel starts on the image that `mkfs` has written, with an empty inode table. `readi` shares `bmap` with
`writei`, which allocates what is missing, so reading is harmless only where no file has a hole below its size.
The file-system calls keep that. `mkfs` gives it to them unless it rounds the size of a root directory that fills its
blocks exactly: **reading never allocates, in any state that is reached, exactly if the number of entries of the root
directory is no multiple of the number of entries in a block.**
-/

namespace Xv6.Mkfs

open Logging (Block BSIZE)
open Fs (Dinode MAXFILE NDIRECT NINODE IBLOCK dinode Live Consistent Filled slot)
open Syscall (ROOTINO DESIZE)

/-- The kernel on the image. -/
def boot (s : State) : Fs.Sys where
  sb := sb
  blk := s.blk
  itable _ := { Dinode.fresh 0 with inum := 0, ref := 0, valid := false }

/-- Reading allocates nothing: every block below the size of a locked inode has an address, `bmap` returns it and
    changes nothing, and neither does `readi`, whatever is read. -/
def Quiet (t : Fs.Sys) : Prop :=
  ∀ i : Fin NINODE, 0 < (t.itable i).ref → (t.itable i).valid = true →
    (∀ bn, bn * BSIZE < (t.itable i).size.toNat →
      ∃ addr, addr ≠ 0 ∧ Fs.bmap t.sb t.blk (t.itable i).toDinode bn = .ok (t.blk, (t.itable i).toDinode, addr)) ∧
    ∀ dst off n, ∃ bs r,
      Fs.readi t.sb t.blk (t.itable i).toDinode dst off n = .ok (t.blk, (t.itable i).toDinode, bs, r)

variable {s s₁ : State} {n : Nat} {h : n ≤ CAPACITY} {files : List Input} {t : Fs.Sys}

/-- A file system without holes is quiet. -/
theorem quiet_of_inv (hI : Fs.Inv t) : Quiet t := by
  intro i hr hv
  obtain ⟨hcopy, -⟩ := hI.copy hr hv
  have hl := hI.live hr hv
  constructor
  · intro bn hbn
    rw [hcopy] at hbn ⊢
    obtain ⟨p, hp, hne⟩ := hI.consistent.sized _ hl bn hbn
    obtain ⟨b, hb⟩ := Option.ne_none_iff_exists'.mp hne
    obtain ⟨addr, hmap, haddr⟩ := Fs.bmap_of_refs hp hb
    refine ⟨addr, fun h0 => ?_, hmap⟩
    obtain ⟨h1, h2, -⟩ := hI.consistent.owned.used hb
    exact Fs.ne_zero_of_data h1 h2 (by rw [← haddr, h0]; rfl)
  · intro dst off n
    obtain ⟨bs, r, hread, -⟩ := Fs.readi_eq dst off n hI.consistent hl
    rw [hcopy]
    exact ⟨bs, r, hread⟩

/-! ## The size of the root directory -/

theorem Finished.root_size (hfin : Finished n h files s₁ s) (hn : ROOTINO < n) :
    (dinode (disk n h) s₁.view ROOTINO).size.toNat = 16 * (files.length + 2) := by
  rw [← hfin.built.length_files hn, hfin.files, length_imageFiles_root]

theorem rounded_size {d : Dinode} (hd : d.size.toNat ≤ MAXFILE * BSIZE) :
    (rounded d).size.toNat = (d.size.toNat / BSIZE + 1) * BSIZE := by
  have h1 : d.size.toNat / BSIZE * BSIZE ≤ d.size.toNat := Nat.div_mul_le_self _ _
  have h2 : MAXFILE * BSIZE + BSIZE < 2 ^ 32 := by decide
  refine UInt32.toNat_ofNat_of_lt' ?_
  rw [Nat.succ_mul]
  show _ < 2 ^ 32
  omega

/-- The root directory has blocks up to the rounded size, unless it fills its blocks. -/
theorem Finished.filled (hfin : Finished n h files s₁ s) (hn : ROOTINO < n)
    (hpart : (files.length + 2) % 64 ≠ 0) :
    Filled (disk n h) (dinode (disk n h) s₁.view) s₁.view ROOTINO
      (rounded (dinode (disk n h) s₁.view ROOTINO)).size.toNat := by
  have hl : Live (disk n h) (dinode (disk n h) s₁.view) ROOTINO :=
    hfin.built.live Nat.one_pos (by rw [hfin.freeinode]; exact Nat.succ_lt_succ (Nat.succ_pos _)) hn
  have hsize := hfin.root_size hn
  rw [rounded_size (hfin.built.consistent.size_le hl)]
  intro bn hbn
  refine hfin.built.consistent.sized _ hl bn ?_
  rw [hsize] at hbn ⊢
  simp only [BSIZE] at hbn ⊢
  omega

theorem Finished.consistent (hfin : Finished n h files s₁ s) (hn : ROOTINO < n)
    (hpart : (files.length + 2) % 64 ≠ 0) : Consistent (disk n h) (dinode (disk n h) s.blk) s.blk := by
  obtain ⟨hc, -⟩ := hfin.built.consistent.setInode (i := ROOTINO)
    (d := rounded (dinode (disk n h) s₁.view ROOTINO)) rfl rfl fun _ => hfin.filled hn hpart
  obtain ⟨hc', -⟩ := hc.iupdate hn fun _ _ => rfl
  rwa [← hfin.blk] at hc'

/-- The kernel opens the root directory. -/
def openRoot : List Fs.Op := [.iget ROOTINO, .ilock Fs.entry0]

theorem boot_iget (s : State) (inum : Nat) : Fs.iget (boot s) inum =
    .ok ((boot s).setInode Fs.entry0 ⟨Dinode.fresh 0, inum, 1, false⟩, Fs.entry0) := by
  have hnone : (List.finRange NINODE).find? (fun i => ((boot s).itable i).ref > 0 ∧
      ((boot s).itable i).inum = inum) = none := by
    rw [List.find?_eq_none]
    intro i _ hi
    exact absurd (of_decide_eq_true hi).1 (lt_irrefl 0)
  have hfirst : (List.finRange NINODE).find? (fun i => ((boot s).itable i).ref = 0) = some Fs.entry0 := rfl
  unfold Fs.iget
  rw [hnone, hfirst]
  rfl

theorem openRoot_run (hlive : Live sb (dinode sb s.blk) ROOTINO) :
    Trace.run Fs.step (boot s) openRoot =
      some ((boot s).setInode Fs.entry0 ⟨dinode sb s.blk ROOTINO, ROOTINO, 1, true⟩) := by
  obtain ⟨t₁, ht₁⟩ : ∃ t₁, t₁ = (boot s).setInode Fs.entry0 ⟨Dinode.fresh 0, ROOTINO, 1, false⟩ := ⟨_, rfl⟩
  have hstep₁ : Fs.step (boot s) (.iget ROOTINO) = some t₁ := by
    have hallowed : (Fs.Op.iget ROOTINO).allowed (boot s) := hlive.1
    rw [Fs.step, if_pos hallowed, Fs.exec, boot_iget, ht₁]
    rfl
  have hentry : t₁.itable Fs.entry0 = ⟨Dinode.fresh 0, ROOTINO, 1, false⟩ := by
    simp only [ht₁, Fs.Sys.setInode, Function.update_self]
  have hlock : Fs.ilock t₁ Fs.entry0 = .ok (t₁.setInode Fs.entry0 ⟨dinode sb s.blk ROOTINO, ROOTINO, 1, true⟩) := by
    have hdisk : dinode t₁.sb t₁.blk ROOTINO = dinode sb s.blk ROOTINO := by
      rw [ht₁]
      rfl
    unfold Fs.ilock
    simp only [hentry, hdisk]
    rw [if_neg (by decide), if_neg hlive.2]
  have hallowed : (Fs.Op.ilock Fs.entry0).allowed t₁ := by
    show 0 < (t₁.itable Fs.entry0).ref
    rw [hentry]
    exact Nat.one_pos
  rw [openRoot, Trace.run_cons, hstep₁, Option.bind_some, Trace.run_cons, Fs.step, if_pos hallowed, Fs.exec, hlock,
    ht₁]
  simp only [Lockstep.ok_bind, Fs.Sys.setInode, Function.update_idem]
  rfl

/-- A root directory that fills its blocks has a hole below its rounded size. -/
theorem Finished.hole (hfin : Finished NINODES (by decide) files s₁ s) (hlt : files.length + 2 ≤ NINODES)
    (hfull : (files.length + 2) % 64 = 0) :
    ¬Quiet ((boot s).setInode Fs.entry0 ⟨dinode sb s.blk ROOTINO, ROOTINO, 1, true⟩) := by
  intro hquiet
  have hroot : ROOTINO < NINODES := by decide
  have hino : ROOTINO < s₁.freeinode := by
    rw [hfin.freeinode]
    exact Nat.succ_lt_succ (Nat.succ_pos _)
  have hl : Live sb (dinode sb s₁.view) ROOTINO := hfin.built.live Nat.one_pos hino hroot
  have hsize : (dinode sb s₁.view ROOTINO).size.toNat = 16 * (files.length + 2) := hfin.root_size hroot
  have hd : dinode sb s.blk ROOTINO = rounded (dinode sb s₁.view ROOTINO) := by
    rw [sb_eq_disk, hfin.blk, Fs.dinode_iupdate, Function.update_self]
  obtain ⟨q, hq⟩ : ∃ q, q = (files.length + 2) / 64 := ⟨_, rfl⟩
  have hq12 : q < NDIRECT := by
    simp only [NINODES, NDIRECT] at hlt ⊢
    omega
  -- block `q` is the one that the rounding adds
  have hbelow : q * BSIZE < (dinode sb s.blk ROOTINO).size.toNat := by
    have hle : (dinode sb s₁.view ROOTINO).size.toNat ≤ MAXFILE * BSIZE := hfin.built.consistent.size_le hl
    rw [hd, rounded_size hle, hsize]
    simp only [BSIZE]
    omega
  have hzero : (dinode sb s.blk ROOTINO).addrs ⟨q, Nat.lt_succ_of_lt hq12⟩ = 0 := by
    have hplaces := hfin.built.places ROOTINO hroot Nat.one_pos hino (.addr ⟨q, Nat.lt_succ_of_lt hq12⟩)
    have hout : Fs.Pos.addr ⟨q, Nat.lt_succ_of_lt hq12⟩ ∉
        Fs.touched 0 (dinode sb s₁.view ROOTINO).size.toNat := by
      intro hmem
      obtain ⟨bn, -, -, hlt', hp⟩ := Fs.mem_touched.mp hmem
      have hslot : slot q = some (.addr ⟨q, Nat.lt_succ_of_lt hq12⟩) := dif_pos hq12
      rcases Finset.mem_union.mp hp with hp | hp
      · have := Fs.slot_inj (Option.mem_toFinset.mp hp) hslot
        rw [hsize] at hlt'
        simp only [BSIZE] at hlt'
        omega
      · split at hp
        · exact Fs.slot_ne_indirect hslot (Finset.mem_singleton.mp hp)
        · exact absurd hp (Finset.notMem_empty _)
    have hnone : Fs.refs sb (dinode sb s₁.view) s₁.view (ROOTINO, .addr ⟨q, Nat.lt_succ_of_lt hq12⟩) = none :=
      not_not.mp fun hne => hout (hplaces.mp hne)
    rw [Fs.refs_of_live hl] at hnone
    rw [hd]
    exact Fs.target_eq_none.mp hnone
  obtain ⟨hmap, -⟩ := hquiet Fs.entry0 (by simp [Fs.Sys.setInode]) (by simp [Fs.Sys.setInode])
  simp only [Fs.Sys.setInode, Function.update_self] at hmap
  obtain ⟨addr, hne, hbmap⟩ := hmap q hbelow
  rw [Fs.bmap, dif_pos hq12, Fs.addrAt, if_pos hzero] at hbmap
  obtain ⟨⟨blk, b⟩, -, hres⟩ := Lockstep.bind_eq_ok.mp hbmap
  simp only [Except.ok.injEq, Prod.mk.injEq] at hres
  obtain ⟨-, hip, haddr⟩ := hres
  have := congrArg (fun d : Dinode => d.addrs ⟨q, Nat.lt_succ_of_lt hq12⟩) hip
  simp only [Function.update_self, hzero] at this
  exact hne (haddr ▸ this)

/-- **Reading never allocates exactly if the root directory does not fill its blocks.** -/
theorem reading_never_allocates_iff (hok : main files = .ok s) (hlt : files.length < sb.ninodes - 1) :
    (∀ ops t, Trace.run Fs.step (boot s) ops = some t → Quiet t) ↔ (files.length + 2) % (BSIZE / DESIZE) ≠ 0 := by
  have hle : files.length + 2 ≤ NINODES := by
    have : sb.ninodes = NINODES := rfl
    omega
  have hsat := main_sat (n := NINODES) files (by decide) hle
  rw [hok] at hsat
  obtain ⟨s₁, hfin⟩ := hsat.of_ok
  show _ ↔ (files.length + 2) % 64 ≠ 0
  constructor
  · intro hall hfull
    have hlive := hfin.live Nat.one_pos (Nat.succ_lt_succ (Nat.succ_pos _)) (show ROOTINO < NINODES by decide)
    exact hfin.hole hle hfull (hall openRoot _ (openRoot_run hlive))
  · intro hpart ops t hrun
    have hI : Fs.Inv (boot s) := by
      refine ⟨hfin.consistent (by decide) hpart, fun hr => ?_, fun hr => ?_, fun hr => ?_⟩
      all_goals exact absurd hr (lt_irrefl 0)
    exact quiet_of_inv (Trace.run_invariant hI (fun _ _ _ hI hst => (Fs.inv_step hI hst).1) hrun)

theorem empty_image_quiet : ∃ s, main [] = .ok s ∧
    ((∀ ops t, Trace.run Fs.step (boot s) ops = some t → Quiet t) ↔
      (([] : List Input).length + 2) % (BSIZE / DESIZE) ≠ 0) := by
  obtain ⟨s, hs⟩ := empties_complete (k := 0) (by decide)
  exact ⟨s, hs, reading_never_allocates_iff hs (by decide)⟩

/-- With 62 files the root directory has 64 entries, which fill a block, and a second block below its size that it
    does not have. -/
theorem full_root_has_hole : ∃ s t, main (List.replicate 62 emptyInput) = .ok s ∧
    Trace.run Fs.step (boot s) openRoot = some t ∧ ¬Quiet t := by
  obtain ⟨s, hs⟩ := empties_complete (k := 62) (by decide)
  have hsat := main_sat (n := NINODES) (List.replicate 62 emptyInput) (by decide) (by decide)
  rw [hs] at hsat
  obtain ⟨s₁, hfin⟩ := hsat.of_ok
  have hlive := hfin.live Nat.one_pos (Nat.succ_lt_succ (Nat.succ_pos _)) (show ROOTINO < NINODES by decide)
  exact ⟨s, _, hs, openRoot_run hlive, hfin.hole (by decide) (by decide)⟩

end Xv6.Mkfs
