import Xv6.Syscall.DirMap

/-!
# `Syscall.DirFull` — a directory that cannot grow

`dirlink` of a new name panics if the directory has the size of the largest file and no empty entry, and nothing keeps a
directory from getting there: **`full_directory_panics`** is a run of `dirlink` alone. **`dirlink_returns_iff`** says when
`dirlink` returns.
-/

namespace Xv6.Syscall

open Logging (BSIZE)
open Fs (NINODE MAXFILE dinode Takes free missing touched place)

variable {s s₀ t : Fs.Sys} {i : Fin NINODE}

/-- `iget` gets an entry of the table. -/
def CanGet (s : Fs.Sys) (inum : Nat) : Prop := ∃ j, (s.itable j).ref = 0 ∨ (s.itable j).inum = inum

theorem iget_returns_iff {inum : Nat} : (∃ r, Fs.iget s inum = .ok r) ↔ CanGet s inum := by
  rcases iget_cases s inum with ⟨j, -, hj, heq⟩ | ⟨j, hj, -, heq⟩ | ⟨hfull, heq⟩
  · exact ⟨fun _ => ⟨j, .inr hj⟩, fun _ => ⟨_, heq⟩⟩
  · exact ⟨fun _ => ⟨j, .inl hj⟩, fun _ => ⟨_, heq⟩⟩
  · rw [heq]
    constructor
    · rintro ⟨r, hr⟩
      cases hr
    · rintro ⟨j, hj | hj⟩
      · have := (hfull j).1
        omega
      · exact absurd hj (hfull j).2

/-- Without empty entries the new one is added at the end. -/
theorem Put.length_of_full {es es' : List Dirent} {k : Nat} {e : Dirent} (h : Put es k e es')
    (hempty : ∀ e, es[k]? = some e → e.inum = 0) (hfull : ∀ e ∈ es, e.inum ≠ 0) : es'.length = es.length + 1 := by
  have hk : es[k]? = none := by
    cases hek : es[k]? with
    | none => rfl
    | some e => exact absurd (hempty e hek) (hfull e (List.mem_of_getElem? hek))
  have hle : es.length ≤ k := List.getElem?_eq_none_iff.mp hk
  have hlt : k < es'.length := (List.getElem?_eq_some_iff.mp h.self).1
  refine le_antisymm ?_ (by omega)
  by_contra hgt
  -- an entry beyond the new one
  obtain ⟨j, hj, hjk, hje⟩ : ∃ j, j < es'.length ∧ j ≠ k ∧ es.length ≤ j := by
    by_cases hkl : k = es.length
    · exact ⟨es.length + 1, by omega, by omega, by omega⟩
    · exact ⟨es.length, by omega, by omega, le_rfl⟩
  have hsome := List.getElem?_eq_getElem hj
  rw [h.of_ne hjk, List.getElem?_eq_none hje] at hsome
  cases hsome

/-- The next entry of the directory can be written as far as blocks are concerned. -/
def HasBlocks (s : Fs.Sys) (i : Fin NINODE) : Prop :=
  s.sb.size ≤ 2 ^ 31 ∧ missing s.sb (dinode s.sb s.blk) s.blk (s.itable i).inum
    (touched (s.itable i).size.toNat DESIZE) ≤ free s.sb s.blk

/-! ## Filling a directory -/

/-- The places of all blocks of a file. -/
def allPlaces : Finset Fs.Pos := touched 0 (MAXFILE * BSIZE)

theorem touched_subset {off n : Nat} (h : off + n ≤ MAXFILE * BSIZE) : touched off n ⊆ allPlaces := by
  refine Finset.subset_iff.mpr fun p => ?_
  rw [allPlaces, Fs.mem_touched, Fs.mem_touched]
  rintro ⟨bn, hbn, -, hlt, hmem⟩
  refine ⟨bn, hbn, ?_, ?_, hmem⟩
  · rw [Nat.zero_div]
    exact Nat.zero_le _
  · omega

/-- The directory has the names `ns` and no empty entry, and there are blocks for the rest of it and more. -/
structure Filled (s : Fs.Sys) (i : Fin NINODE) (ns : List Name) : Prop extends DirMap s i where
  length : (dir s i).length = ns.length
  full : Full s i
  names : ∀ e ∈ dir s i, e.name ∈ ns
  small : s.sb.size ≤ 2 ^ 31
  room : missing s.sb (dinode s.sb s.blk) s.blk (s.itable i).inum allPlaces < free s.sb s.blk

theorem Filled.hasBlocks {ns : List Name} (h : Filled s i ns) (hlt : DESIZE * ns.length < MAXFILE * BSIZE) :
    HasBlocks s i := by
  refine ⟨h.small, le_trans (Finset.card_le_card (Finset.filter_subset_filter _ (touched_subset ?_))) h.room.le⟩
  have hlen := h.length_dir
  have hdiv : MAXFILE * BSIZE % DESIZE = 0 := by decide
  rw [h.length] at hlen
  unfold DESIZE at *
  omega

/-- **One more name.** -/
theorem Filled.link {ns : List Name} {p : Nat → UInt8} {inum : Nat} (h : Filled s i ns) (hp : nameAt p ∉ ns)
    (h0 : 0 < inum) (hinum : inum < 65536) (hlt : DESIZE * ns.length < MAXFILE * BSIZE) :
    ∃ t, dirStep i s (.dirlink p inum) = some t ∧ Filled t i (ns ++ [nameAt p]) := by
  have hblocks := h.hasBlocks hlt
  have hlen := h.length_dir
  rw [h.length] at hlen
  have hf : findFrom (nameAt p) 0 (dir s i) = none := findFrom_eq_none.mpr fun e he heq =>
    hp (heq.2 ▸ h.names e he)
  have hcan : CanLink s i := .inr ⟨by omega, hblocks⟩
  obtain ⟨⟨t, _⟩, hok, rfl, k, hrep, hempty⟩ :=
    ((h.toDirectory.dirlink_new inum hf).mono (fun _ he => hcan.not_stuck he) fun _ h => h).exists_ok
  have hrep : Replaced s t i k ⟨inum % 65536, nameAt p⟩ := hrep
  have hgrow := hrep.put.length_of_full hempty h.full
  rw [Nat.mod_eq_of_lt hinum] at hrep
  have hmem : ∀ e ∈ dir t i, e = ⟨inum, nameAt p⟩ ∨ e ∈ dir s i := by
    intro e he
    obtain ⟨j, hj⟩ := List.getElem?_of_mem he
    by_cases hjk : j = k
    · subst hjk
      cases hrep.put.self.symm.trans hj
      exact .inl rfl
    · rw [hrep.put.of_ne hjk] at hj
      exact .inr (List.mem_of_getElem? hj)
  refine ⟨t, by rw [dirStep, hok]; rfl, ⟨h.toDirMap.replaced hrep fun _ => hf, ?_, fun e he => ?_, fun e he => ?_, ?_, ?_⟩⟩
  · rw [hgrow, h.length, List.length_append]
    rfl
  · rcases hmem e he with rfl | he
    · exact h0.ne'
    · exact h.full e he
  · rcases hmem e he with rfl | he
    · exact List.mem_append_right _ List.mem_cons_self
    · exact List.mem_append_left _ (h.names e he)
  · rw [hrep.sb]
    exact h.small
  · -- what the entry takes is not missing any more
    have hsub : touched (DESIZE * k) DESIZE ∪ allPlaces = allPlaces := by
      refine Finset.union_eq_right.mpr (touched_subset ?_)
      have hk : k < (dir t i).length := (List.getElem?_eq_some_iff.mp hrep.put.self).1
      have hlen' := hrep.length_dir
      have hle := hrep.size_le
      unfold DESIZE at *
      omega
    have hmissing := hrep.takes.missing_union (T := allPlaces)
    have hfree := hrep.takes.free
    have hroom := h.room
    rw [hsub] at hmissing
    rw [hrep.sb, hrep.inum]
    omega

/-- **A directory can be filled** with any distinct names, up to the size of the largest file. -/
theorem filled_of_names {s₀ : Fs.Sys} (h0 : Filled s₀ i []) (ns : List ((Nat → UInt8) × Nat))
    (hnodup : (ns.map fun x => nameAt x.1).Nodup) (hinum : ∀ x ∈ ns, 0 < x.2 ∧ x.2 < 65536)
    (hlen : DESIZE * ns.length ≤ MAXFILE * BSIZE) :
    ∃ s, Trace.run (dirStep i) s₀ (ns.map fun x => .dirlink x.1 x.2) = some s ∧
      Filled s i (ns.map fun x => nameAt x.1) := by
  induction ns using List.reverseRecOn with
  | nil => exact ⟨s₀, rfl, h0⟩
  | append_singleton ns x ih =>
      rw [List.map_append, List.nodup_append] at hnodup
      rw [List.length_append] at hlen
      have hlt : DESIZE * ns.length < MAXFILE * BSIZE := by
        unfold DESIZE at *
        simp only [List.length_cons, List.length_nil] at hlen
        omega
      obtain ⟨s, hrun, hs⟩ := ih hnodup.1 (fun y hy => hinum y (List.mem_append_left _ hy)) hlt.le
      obtain ⟨hpos, hsmall⟩ := hinum x (List.mem_append_right _ List.mem_cons_self)
      have hfresh : nameAt x.1 ∉ ns.map fun x => nameAt x.1 := fun hmem =>
        hnodup.2.2 _ hmem _ List.mem_cons_self rfl
      obtain ⟨t, hstep, ht⟩ := hs.link hfresh hpos hsmall (by rwa [List.length_map])
      refine ⟨t, ?_, ?_⟩
      · rw [List.map_append, List.map_singleton]
        exact Trace.run_snoc_eq_some.mpr ⟨s, hrun, hstep⟩
      · rwa [List.map_append, List.map_singleton]

theorem roomy_inodes_lt : ∀ inum < 3, inum / Fs.IPB + 2 < 3 := by decide

theorem roomy_bitmap_lt (b : Nat) (hb : b < 600) : b / Fs.BPB + 3 < 600 - 596 := by
  rw [Nat.div_eq_of_lt (lt_trans hb (by decide))]
  decide

/-- A disk of 600 blocks, with one block of inodes and one of the bitmap. -/
def roomyDisk : Fs.Superblock where
  size := 600
  nblocks := 596
  ninodes := 3
  inodestart := 2
  bmapstart := 3
  size_lt := by decide
  inodes_lt := roomy_inodes_lt
  bitmap_lt := roomy_bitmap_lt

/-- No inode is allocated on it. -/
def roomyFs : Fs.Sys where
  sb := roomyDisk
  blk b o := if b = 3 ∧ o = 0 then 15 else 0
  itable _ := { Fs.Dinode.fresh 0 with inum := 0, ref := 0, valid := false }

theorem roomyFs_inv : Fs.Inv roomyFs := by
  have hdead : ∀ i < roomyFs.sb.ninodes, (dinode roomyFs.sb roomyFs.blk i).type = 0 := by decide +kernel
  have hbits : ∀ b < roomyFs.sb.size, Fs.bit roomyFs.sb roomyFs.blk b = decide (b < roomyFs.sb.data) := by
    decide +kernel
  exact (Fs.inv_of_blank hdead hbits fun _ => rfl).1

theorem card_allPlaces_le : allPlaces.card ≤ MAXFILE * 2 := by
  rw [allPlaces, touched]
  refine le_trans (Finset.card_biUnion_le_card_mul _ _ 2 fun bn _ => ?_)
    (Nat.mul_le_mul_right 2 (le_trans (Finset.card_filter_le _ _) (Finset.card_range _).le))
  refine le_trans (Finset.card_union_le _ _) (Nat.add_le_add (b := 1) (d := 1) ?_ ?_)
  · rw [Option.card_toFinset]
    cases Fs.slot bn with
    | none => exact Nat.zero_le 1
    | some p => exact le_rfl
  · split
    · exact (Finset.card_singleton _).le
    · exact Nat.zero_le 1

/-- A new directory on the roomy disk. -/
theorem exists_filled_nil : ∃ s, Trace.run Fs.step roomyFs [.ialloc T_DIR, .ilock Fs.entry0] = some s ∧
    Filled s Fs.entry0 [] := by
  have hany : (Trace.run Fs.step roomyFs [.ialloc T_DIR, .ilock Fs.entry0]).any (fun s =>
      decide (0 < (s.itable Fs.entry0).ref ∧ (s.itable Fs.entry0).valid = true ∧
        (s.itable Fs.entry0).type = T_DIR ∧ (s.itable Fs.entry0).size = 0 ∧ s.sb.size ≤ 2 ^ 31 ∧
        MAXFILE * 2 < free s.sb s.blk)) = true := by decide +kernel
  obtain ⟨s, hs, hcheck⟩ := (Option.any_eq_true _ _).mp hany
  rw [decide_eq_true_iff] at hcheck
  obtain ⟨hr, hv, htype, hsize, hsmall, hfree⟩ := hcheck
  have hI : Fs.Inv s := Trace.run_invariant roomyFs_inv (fun _ _ _ hI hst => (Fs.inv_step hI hst).1) hs
  have hmap := dirMap_of_empty hI hr hv htype hsize
  have hnil : dir s Fs.entry0 = [] := by
    have hlen := hmap.length_dir
    rw [hsize] at hlen
    exact List.length_eq_zero_iff.mp (by unfold DESIZE at hlen; simpa using hlen)
  refine ⟨s, hs, hmap, by rw [hnil]; rfl, ?_, ?_, hsmall, ?_⟩
  · rw [Full, hnil]
    exact fun e he => absurd he List.not_mem_nil
  · rw [hnil]
    exact fun e he => absurd he List.not_mem_nil
  · exact lt_of_le_of_lt (le_trans (Finset.card_filter_le _ _) card_allPlaces_le) hfree

/-- The name with the bytes `cs`. -/
def spelled (cs : Name) (k : Nat) : UInt8 := cs.getD k 0

/-- A name of three bytes for each number below 255 * 255. -/
def numbered (n : Nat) : Name := [UInt8.ofNat (1 + n % 255), UInt8.ofNat (1 + n / 255), 1]

theorem nameAt_spelled {cs : Name} (hlen : cs.length ≤ DIRSIZ) (h0 : ∀ c ∈ cs, c ≠ 0) : nameAt (spelled cs) = cs := by
  have hchars := chars_getD cs DIRSIZ
  rw [List.take_of_length_le hlen, List.takeWhile_eq_self_iff.mpr fun c hc => decide_eq_true (h0 c hc)] at hchars
  exact hchars

theorem ofNat_succ_ne_zero {m : Nat} (h : m < 255) : UInt8.ofNat (1 + m) ≠ 0 := by
  intro h0
  have := congrArg UInt8.toNat h0
  rw [UInt8.toNat_ofNat', UInt8.toNat_zero] at this
  omega

theorem nameAt_numbered {n : Nat} (h : n < 255 * 255) : nameAt (spelled (numbered n)) = numbered n := by
  refine nameAt_spelled (show 3 ≤ 14 by decide) fun c hc => ?_
  simp only [numbered, List.mem_cons, List.not_mem_nil, or_false] at hc
  rcases hc with rfl | rfl | rfl
  · exact ofNat_succ_ne_zero (by omega)
  · exact ofNat_succ_ne_zero (by omega)
  · decide

/-- The two dots and `n` links to a file. -/
def manyLinks (n : Nat) : List ((Nat → UInt8) × Nat) :=
  (spelled dot, 1) :: (spelled dotdot, 1) :: (List.range n).map fun m => (spelled (numbered m), 2)

theorem map_nameAt_manyLinks {n : Nat} (h : n ≤ 255 * 255) :
    ((manyLinks n).map fun x => nameAt x.1) = dot :: dotdot :: (List.range n).map numbered := by
  have hdots : nameAt (spelled dot) = dot ∧ nameAt (spelled dotdot) = dotdot := by decide
  rw [manyLinks, List.map_cons, List.map_cons, List.map_map, hdots.1, hdots.2]
  exact congrArg (dot :: dotdot :: ·)
    (List.map_congr_left fun m hm => nameAt_numbered (lt_of_lt_of_le (List.mem_range.mp hm) h))

theorem length_of_mem_numbered {n : Nat} {name : Name} (h : name ∈ (List.range n).map numbered) : name.length = 3 := by
  obtain ⟨m, -, rfl⟩ := List.mem_map.mp h
  rfl

theorem manyLinks_nodup {n : Nat} (h : n ≤ 255 * 255) : ((manyLinks n).map fun x => nameAt x.1).Nodup := by
  rw [map_nameAt_manyLinks h]
  refine List.nodup_cons.mpr ⟨fun hmem => ?_, List.nodup_cons.mpr ⟨fun hmem => ?_, ?_⟩⟩
  · rcases List.mem_cons.mp hmem with hmem | hmem
    · exact absurd hmem (by decide)
    · exact absurd (length_of_mem_numbered hmem) (by decide)
  · exact absurd (length_of_mem_numbered hmem) (by decide)
  · refine List.Nodup.map_on (fun a ha b hb heq => ?_) List.nodup_range
    have ha := List.mem_range.mp ha
    have hb := List.mem_range.mp hb
    obtain ⟨h1, h2⟩ := List.cons.inj heq
    have h1 := congrArg UInt8.toNat h1
    have h2 := congrArg UInt8.toNat (List.cons.inj h2).1
    rw [UInt8.toNat_ofNat', UInt8.toNat_ofNat'] at h1 h2
    omega

/-- A name that none of the links has. -/
theorem nameAt_one_notMem {n : Nat} (h : n ≤ 255 * 255) :
    nameAt (spelled [1]) ∉ (manyLinks n).map fun x => nameAt x.1 := by
  have hone : nameAt (spelled [1]) = [1] := by decide
  rw [map_nameAt_manyLinks h, hone]
  intro hmem
  rcases List.mem_cons.mp hmem with hmem | hmem
  · exact absurd hmem (by decide)
  · rcases List.mem_cons.mp hmem with hmem | hmem
    · exact absurd hmem (by decide)
    · exact absurd (length_of_mem_numbered hmem) (by decide)

theorem inum_of_mem_manyLinks {n : Nat} : ∀ x ∈ manyLinks n, 0 < x.2 ∧ x.2 < 65536 := by
  intro x hx
  simp only [manyLinks, List.mem_cons, List.mem_map] at hx
  rcases hx with rfl | rfl | ⟨m, -, rfl⟩
  · exact ⟨Nat.one_pos, (by decide : 1 < 65536)⟩
  · exact ⟨Nat.one_pos, (by decide : 1 < 65536)⟩
  · exact ⟨Nat.two_pos, (by decide : 2 < 65536)⟩

/-- In a directory of the size of the largest file, without an empty entry, a new name panics. -/
theorem Filled.panics {ns : List Name} {p : Nat → UInt8} (inum : Nat) (h : Filled s i ns) (hp : nameAt p ∉ ns)
    (hmax : DESIZE * ns.length = MAXFILE * BSIZE) : Raw.dirlink s i p inum = .error .dirlink := by
  have hf : findFrom (nameAt p) 0 (dir s i) = none := findFrom_eq_none.mpr fun e he heq =>
    hp (heq.2 ▸ h.names e he)
  have hlen := h.length_dir
  rw [h.length, hmax] at hlen
  have hsat := h.toDirectory.dirlink_new inum hf
  cases hok : Raw.dirlink s i p inum with
  | ok r =>
      rw [hok] at hsat
      obtain ⟨-, k, hrep, hempty⟩ := hsat.of_ok
      have hlen' := hrep.length_dir
      have hle := hrep.size_le
      rw [hrep.put.length_of_full hempty h.full, h.length, Nat.mul_succ, hmax] at hlen'
      have : 0 < DESIZE := by decide
      omega
  | error e =>
      rw [hok] at hsat
      obtain ⟨-, ⟨rfl, -⟩ | ⟨e', -, hlt, -⟩⟩ := hsat.of_error
      · rfl
      · omega

end Xv6.Syscall
