import Xv6.Fs.Takes
import Xv6.Mkfs.View

/-!
# `Mkfs.Image` — the image while `main` runs

`Built` is the invariant of `main` as long as the inode blocks have room for the inodes: the image is a consistent
file system, every file has blocks for its bytes and for no more, and `freeblock` is the number of blocks that the
files need. Each call keeps it, and `iappend` fails only if a file becomes too long or the blocks do not suffice.
-/

namespace Xv6.Mkfs

open Logging (Block BSIZE)
open Fs (Blocks Dinode Superblock NDIRECT MAXFILE IPB IBLOCK dinode refs Live Consistent Pos fileByte touched)
open Lockstep (bind_eq_ok)
open Outcome (Sat)

/-- The kernel's view of the image, with an empty inode table. -/
def State.sys (s : State) (n : Nat) (h : n ≤ CAPACITY) : Fs.Sys where
  sb := disk n h
  blk := s.view
  itable _ := { Dinode.fresh 0 with inum := 0, ref := 0, valid := false }

/-- The blocks for a file of `k` bytes, its indirect block included. -/
def need (k : Nat) : Nat := (touched 0 k).card

structure Built (n : Nat) (h : n ≤ CAPACITY) (s : State) : Prop where
  whole : Whole s
  consistent : Consistent (disk n h) (dinode (disk n h) s.view) s.view
  pos : 0 < s.freeinode
  type : ∀ j < n, (dinode (disk n h) s.view j).type ≠ 0 ↔ 0 < j ∧ j < s.freeinode
  size : ∀ j < n, ¬(0 < j ∧ j < s.freeinode) → (dinode (disk n h) s.view j).size = 0
  places : ∀ j < n, 0 < j → j < s.freeinode → ∀ p,
    refs (disk n h) (dinode (disk n h) s.view) s.view (j, p) ≠ none ↔
      p ∈ touched 0 (dinode (disk n h) s.view j).size.toNat
  blank : ∀ j x v, (dinode (disk n h) s.view j).size.toNat ≤ x →
    fileByte (disk n h) (dinode (disk n h) s.view) s.view j x = some v → v = 0
  count : s.freeblock = nmeta + ∑ j ∈ Finset.range n, need (dinode (disk n h) s.view j).size.toNat

variable {s s' : State} {n i : Nat} {h : n ≤ CAPACITY}

/-! ## The start -/

theorem touched_zero : touched 0 0 = ∅ := by
  refine Finset.eq_empty_of_forall_notMem fun p hp => ?_
  obtain ⟨bn, -, -, hlt, -⟩ := Fs.mem_touched.mp hp
  exact Nat.not_lt_zero _ hlt

theorem need_zero : need 0 = 0 := by rw [need, touched_zero, Finset.card_empty]

/-- The first loop of `main`, after `k` turns. -/
theorem zeroes_written {k : Nat} (hk : k ≤ FSSIZE) (s : State) (hlen : s.len = 0) (hblk : s.blk = fun _ _ => 0) :
    (List.range k).foldl (fun s i => wsect s i fun _ => 0) s = { s with len := k } := by
  induction k with
  | zero => rw [List.range_zero, List.foldl_nil, ← hlen]
  | succ k ih =>
      rw [List.range_succ, List.foldl_append, ih (by omega), List.foldl_cons, List.foldl_nil, wsect,
        sector_of_lt (by omega)]
      simp only [hblk, max_eq_right (Nat.le_succ k)]
      rw [Function.update_eq_self]

theorem zeroed_eq : zeroed = { len := FSSIZE, blk := fun _ _ => 0, freeinode := 1, freeblock := nmeta } :=
  zeroes_written le_rfl _ rfl rfl

/-- The image before the first `ialloc`. -/
def blankImage : State := wsect zeroed 1 superblock

theorem blankImage_eq : blankImage =
    { len := FSSIZE, blk := Function.update (fun _ _ => 0) 1 superblock, freeinode := 1, freeblock := nmeta } := by
  rw [blankImage, zeroed_eq, wsect_eq rfl (by decide)]

theorem blankImage_dinode (hi : i < n) : dinode (disk n h) blankImage.view i = Dinode.fresh 0 := by
  obtain ⟨-, h2, -⟩ := inode_block h hi
  have h1 : IBLOCK sb i ≠ 1 := by
    have h2 : 1 < sb.inodestart := by decide
    exact ne_of_gt (lt_of_lt_of_le h2 (Nat.le_add_left _ _))
  have hblk : blankImage.view (IBLOCK sb i) = fun _ => 0 := by
    rw [view_of_ne h2, blankImage_eq]
    simp only [Function.update_of_ne h1]
  show Fs.readDinode (blankImage.view (IBLOCK sb i)) _ = _
  rw [hblk]
  simp only [Fs.readDinode, Fs.half, Fs.word, Bytes.load_eq_zero fun _ _ _ => rfl]
  rfl

theorem blankImage_built (h : n ≤ CAPACITY) : Built n h blankImage := by
  have hdead : ∀ j, ¬Live (disk n h) (dinode (disk n h) blankImage.view) j := by
    rintro j ⟨hj, ht⟩
    rw [show dinode (disk n h) blankImage.view j = _ from blankImage_dinode hj] at ht
    exact ht rfl
  have hrefs : ∀ k, refs (disk n h) (dinode (disk n h) blankImage.view) blankImage.view k = none := by
    intro k
    rw [refs, if_neg (hdead k.1)]
  have hwhole : Whole blankImage := by
    rw [blankImage_eq]
    refine ⟨rfl, le_rfl, show nmeta ≤ FSSIZE by decide, fun b hb => ?_⟩
    have h1 : 1 < b := lt_of_lt_of_le (show 1 < nmeta by decide) hb
    show Function.update (fun _ _ => 0) 1 superblock b = _
    rw [Function.update_of_ne (ne_of_gt h1)]
  refine ⟨hwhole, ⟨⟨?_, ?_⟩, ?_, ?_⟩, by rw [blankImage_eq]; exact Nat.one_pos, ?_, ?_, ?_, ?_, ?_⟩
  · intro k k' b hk
    rw [hrefs] at hk
    cases hk
  · intro k b hk
    rw [hrefs] at hk
    cases hk
  · intro b hb
    rw [data_disk] at hb
    have hfb : blankImage.freeblock = nmeta := by rw [blankImage_eq]
    rw [bit_view (lt_of_lt_of_le hb (by decide)), hfb, decide_eq_true hb]
  · exact fun j hl => absurd hl (hdead j)
  · intro j hj
    rw [blankImage_dinode hj, blankImage_eq]
    exact ⟨fun ht => absurd rfl ht, fun hlt => by simp only at hlt; omega⟩
  · intro j hj _
    rw [blankImage_dinode hj]
    rfl
  · intro j _ h1 h2
    rw [blankImage_eq] at h2
    simp only at h2
    omega
  · intro j x v _ hv
    obtain ⟨p, b, -, hb, -⟩ := Fs.fileByte_eq_some.mp hv
    rw [hrefs] at hb
    cases hb
  · rw [Finset.sum_eq_zero]
    · rw [blankImage_eq, Nat.add_zero]
    · intro j hj
      rw [blankImage_dinode (Finset.mem_range.mp hj)]
      exact need_zero

theorem Built.inv (hB : Built n h s) : Fs.Inv (s.sys n h) where
  consistent := hB.consistent
  inum_lt hr := absurd hr (lt_irrefl 0)
  copy hr := absurd hr (lt_irrefl 0)
  distinct hr := absurd hr (lt_irrefl 0)

theorem Built.live (hB : Built n h s) (h0 : 0 < i) (hi : i < s.freeinode) (hn : i < n) :
    Live (disk n h) (dinode (disk n h) s.view) i :=
  ⟨hn, (hB.type i hn).mpr ⟨h0, hi⟩⟩

theorem files_of_size (hsize : (dinode (disk n h) s.view i).size = 0) : (s.sys n h).files i = [] := by
  unfold Fs.Sys.files
  split
  · show Fs.content (disk n h) (dinode (disk n h) s.view) s.view i = []
    rw [Fs.content, hsize]
    rfl
  · rfl

theorem files_of_le (hi : n ≤ i) : (s.sys n h).files i = [] := if_neg fun hl => absurd hl.1 (not_lt.mpr hi)

/-! ## `ialloc` -/

theorem ialloc_built (hB : Built n h s) (hn : s.freeinode < n) {type : UInt16} (ht : type ≠ 0) :
    ∃ s', ialloc s type = .ok (s', s.freeinode) ∧ Built n h s' ∧ s'.freeinode = s.freeinode + 1 ∧
      (s'.sys n h).files = (s.sys n h).files ∧
      ∀ j < n, (dinode (disk n h) s'.view j).size = (dinode (disk n h) s.view j).size := by
  obtain ⟨d, hd⟩ : ∃ d : Dinode, d = { Dinode.fresh type with nlink := 1 } := ⟨_, rfl⟩
  have hwhole : Whole { s with freeinode := s.freeinode + 1 } := ⟨hB.whole.1, hB.whole.2, hB.whole.3, hB.whole.4⟩
  obtain ⟨s', hwi, hview, hw, hino, hfb⟩ := winode_view (h := h) hwhole hn d
  have hview' : s'.view = Fs.iupdate (disk n h) s.view s.freeinode d := hview
  -- the inode was free
  have h0 : (dinode (disk n h) s.view s.freeinode).type = 0 :=
    not_not.mp fun hne => absurd ((hB.type _ hn).mp hne).2 (lt_irrefl _)
  have hdead : ∀ p, refs (disk n h) (dinode (disk n h) s.view) s.view (s.freeinode, p) = none := by
    intro p
    rw [refs, if_neg fun hl : Live _ _ _ => hl.2 h0]
  have haddrs : d.addrs = fun _ => 0 := by rw [hd]; rfl
  have hsize0 : d.size = 0 := by rw [hd]; rfl
  obtain ⟨hc₁, -⟩ := hB.consistent.setEmpty hdead haddrs hsize0
  obtain ⟨hc₂, hrefs, -⟩ := hc₁.iupdate hn fun _ _ => rfl
  rw [← hview', Fs.refs_setEmpty hdead haddrs] at hrefs
  rw [← hview'] at hc₂
  have hdn : dinode (disk n h) s'.view = Function.update (dinode (disk n h) s.view) s.freeinode d := by
    rw [hview', Fs.dinode_iupdate]
  have hsize : ∀ j < n, (dinode (disk n h) s'.view j).size = (dinode (disk n h) s.view j).size := by
    intro j hj
    rw [hdn]
    by_cases hji : j = s.freeinode
    · rw [hji, Function.update_self, hsize0, hB.size _ hn fun hlt => absurd hlt.2 (lt_irrefl _)]
    · rw [Function.update_of_ne hji]
  have hbyte : ∀ j x, fileByte (disk n h) (dinode (disk n h) s'.view) s'.view j x =
      fileByte (disk n h) (dinode (disk n h) s.view) s.view j x := by
    intro j x
    have hrefs' : Fs.refs (disk n h) (dinode (disk n h) s'.view) (Fs.iupdate (disk n h) s.view s.freeinode d) =
        Fs.refs (disk n h) (dinode (disk n h) s.view) s.view := by
      rw [← hview']
      exact hrefs
    have hbyte : fileByte (disk n h) (dinode (disk n h) s'.view) (Fs.iupdate (disk n h) s.view s.freeinode d) j x =
        fileByte (disk n h) (dinode (disk n h) s.view) s.view j x := Fs.fileByte_iupdate hB.consistent hn hrefs'
    rwa [← hview'] at hbyte
  have hpos := hB.pos
  refine ⟨s', ?_, ⟨hw, hc₂, ?_, ?_, ?_, ?_, ?_, ?_⟩, hino, ?_, hsize⟩
  · rw [ialloc]
    simp only [← hd, hwi]
    rfl
  · rw [hino]
    exact Nat.succ_pos _
  · intro j hj
    rw [hino, hdn]
    by_cases hji : j = s.freeinode
    · rw [hji, Function.update_self, hd]
      exact ⟨fun _ => ⟨hpos, Nat.lt_succ_self _⟩, fun _ => ht⟩
    · rw [Function.update_of_ne hji, hB.type j hj]
      simp only
      omega
  · intro j hj hout
    rw [hsize j hj]
    refine hB.size j hj fun hin => hout ⟨hin.1, ?_⟩
    rw [hino]
    exact Nat.lt_succ_of_lt hin.2
  · intro j hj h1 h2 p
    rw [hrefs, hsize j hj]
    by_cases hji : j = s.freeinode
    · rw [hji, hdead, hB.size _ hn fun hlt => absurd hlt.2 (lt_irrefl _)]
      show none ≠ none ↔ p ∈ touched 0 0
      simp [touched_zero]
    · rw [hino] at h2
      exact hB.places j hj h1 (by simp only at h2; omega) p
  · intro j x v hx hv
    rw [hbyte] at hv
    by_cases hj : j < n
    · rw [hsize j hj] at hx
      exact hB.blank j x v hx hv
    · obtain ⟨p, b, -, hb, -⟩ := Fs.fileByte_eq_some.mp hv
      exact absurd (Fs.live_of_refs hb).1 hj
  · rw [hfb, hB.count]
    refine congrArg (nmeta + ·) (Finset.sum_congr rfl fun j hj => ?_)
    rw [hsize j (Finset.mem_range.mp hj)]
  · funext j
    by_cases hj : j < n
    · by_cases hin : 0 < j ∧ j < s.freeinode
      · have hl := hB.live hin.1 hin.2 hj
        have hl' : Live (disk n h) (dinode (disk n h) s'.view) j := by
          rw [hdn]
          unfold Live
          rw [Function.update_of_ne (ne_of_lt hin.2)]
          exact hl
        rw [Fs.files_of_live (s := s'.sys n h) hl', Fs.files_of_live (s := s.sys n h) hl]
        exact Fs.content_congr (hsize j hj) fun x _ => hbyte j x
      · have h0 := hB.size j hj hin
        rw [files_of_size h0, files_of_size ((hsize j hj).trans h0)]
    · rw [files_of_le (not_lt.mp hj), files_of_le (not_lt.mp hj)]

/-! ## `iappend` -/

/-- The bytes `p` have been added to file `i`. -/
structure Appended (n : Nat) (h : n ≤ CAPACITY) (s : State) (i : Nat) (p : List UInt8) (s' : State) : Prop where
  built : Built n h s'
  freeinode : s'.freeinode = s.freeinode
  size : ∀ j < n, (dinode (disk n h) s'.view j).size.toNat =
    (dinode (disk n h) s.view j).size.toNat + if j = i then p.length else 0
  files : (s'.sys n h).files = Function.update (s.sys n h).files i ((s.sys n h).files i ++ p)

theorem free_view : Fs.free (disk n h) s.view = FSSIZE - s.freeblock := by
  have hset : (Finset.range FSSIZE).filter (fun b => Fs.bit (disk n h) s.view b = false) =
      Finset.Ico s.freeblock FSSIZE := by
    ext b
    simp only [Finset.mem_filter, Finset.mem_range, Finset.mem_Ico]
    constructor
    · rintro ⟨hb, hbit⟩
      rw [bit_view hb, decide_eq_false_iff_not] at hbit
      exact ⟨not_lt.mp hbit, hb⟩
    · rintro ⟨h1, h2⟩
      rw [bit_view h2]
      exact ⟨h2, decide_eq_false (not_lt.mpr h1)⟩
  rw [Fs.free]
  show ((Finset.range FSSIZE).filter _).card = _
  rw [hset, Nat.card_Ico]

theorem touched_mono {a b : Nat} (hab : a ≤ b) : touched 0 a ⊆ touched 0 b := by
  obtain ⟨k, rfl⟩ := Nat.exists_eq_add_of_le hab
  rw [Fs.touched_add]
  exact Finset.subset_union_left

theorem need_mono {a b : Nat} (hab : a ≤ b) : need a ≤ need b := Finset.card_le_card (touched_mono hab)

/-- **The need of a file in numbers.** -/
theorem need_eq {k : Nat} (hk : k ≤ MAXFILE * BSIZE) :
    need k = (k + BSIZE - 1) / BSIZE + if NDIRECT * BSIZE < k then 1 else 0 := by
  have hpos : 0 < BSIZE := by decide
  obtain ⟨c, hc⟩ : ∃ c, c = (k + BSIZE - 1) / BSIZE := ⟨_, rfl⟩
  have hlt : ∀ bn, bn * BSIZE < k ↔ bn < c := by
    intro bn
    rw [hc]
    show bn * BSIZE < k ↔ bn + 1 ≤ (k + BSIZE - 1) / BSIZE
    rw [Nat.le_div_iff_mul_le hpos, Nat.succ_mul]
    omega
  have hcmax : ∀ bn < c, bn < MAXFILE := fun bn hbn =>
    Nat.lt_of_mul_lt_mul_right (lt_of_lt_of_le ((hlt bn).mpr hbn) hk)
  -- one place for each block, and the indirect block
  have hset : touched 0 k = ((Finset.range c).biUnion fun bn => (Fs.slot bn).toFinset) ∪
      if NDIRECT * BSIZE < k then {Pos.indirect} else ∅ := by
    ext p
    rw [Fs.mem_touched, Finset.mem_union, Finset.mem_biUnion]
    constructor
    · rintro ⟨bn, -, -, h3, h4⟩
      rw [Nat.zero_add] at h3
      rcases Finset.mem_union.mp h4 with h4 | h4
      · exact Or.inl ⟨bn, Finset.mem_range.mpr ((hlt bn).mp h3), h4⟩
      · split at h4
        · rename_i hge
          rw [if_pos (lt_of_le_of_lt (Nat.mul_le_mul_right _ hge) h3)]
          exact Or.inr h4
        · exact absurd h4 (Finset.notMem_empty _)
    · rintro (⟨bn, hbn, hp⟩ | hp)
      · have hbn := Finset.mem_range.mp hbn
        refine ⟨bn, hcmax bn hbn, Nat.zero_le _, ?_, Finset.mem_union_left _ hp⟩
        rw [Nat.zero_add]
        exact (hlt bn).mpr hbn
      · split at hp
        · rename_i hge
          refine ⟨NDIRECT, by decide, Nat.zero_le _, by rwa [Nat.zero_add], Finset.mem_union_right _ ?_⟩
          rwa [if_pos le_rfl]
        · exact absurd hp (Finset.notMem_empty _)
  have hone : ∀ bn ∈ Finset.range c, (Fs.slot bn).toFinset.card = 1 := by
    intro bn hbn
    obtain ⟨p, hp⟩ := Fs.slot_isSome (hcmax bn (Finset.mem_range.mp hbn))
    rw [hp, Option.toFinset_some, Finset.card_singleton]
  have hdisj : (Finset.range c : Set Nat).PairwiseDisjoint fun bn => (Fs.slot bn).toFinset := by
    intro a _ b _ hab
    refine Finset.disjoint_left.mpr fun p ha hb => hab ?_
    exact Fs.slot_inj (Option.mem_toFinset.mp ha) (Option.mem_toFinset.mp hb)
  rw [← hc, need, hset, Finset.card_union_of_disjoint, Finset.card_biUnion hdisj, Finset.sum_congr rfl hone,
    Finset.sum_const, Finset.card_range, smul_eq_mul, Nat.mul_one]
  · congr 1
    split <;> rfl
  · refine Finset.disjoint_left.mpr fun p hp hind => ?_
    obtain ⟨bn, -, hp⟩ := Finset.mem_biUnion.mp hp
    split at hind
    · exact Fs.slot_ne_indirect (Option.mem_toFinset.mp hp) (Finset.mem_singleton.mp hind)
    · exact absurd hind (Finset.notMem_empty _)

/-- What an append takes is the difference in need. -/
theorem Built.missing (hB : Built n h s) (h0 : 0 < i) (hi : i < s.freeinode) (hn : i < n) (k : Nat) :
    Fs.missing (disk n h) (dinode (disk n h) s.view) s.view i
        (touched (dinode (disk n h) s.view i).size.toNat k) + need (dinode (disk n h) s.view i).size.toNat =
      need ((dinode (disk n h) s.view i).size.toNat + k) := by
  generalize hz : (dinode (disk n h) s.view i).size.toNat = z
  have hset : (touched z k).filter (fun p => refs (disk n h) (dinode (disk n h) s.view) s.view (i, p) = none) =
      touched 0 (z + k) \ touched 0 z := by
    ext p
    have hp := hB.places i hn h0 hi p
    rw [hz] at hp
    rw [Fs.touched_add, Nat.zero_add, Finset.mem_filter, Finset.mem_sdiff, Finset.mem_union, ← hp, not_not]
    tauto
  have hsub : touched 0 z ⊆ touched 0 (z + k) := touched_mono (Nat.le_add_right _ _)
  rw [Fs.missing, hset, need, need]
  exact Finset.card_sdiff_add_card_eq_card hsub

theorem iappend_fits {p : List UInt8} {din : Dinode} (hr : rinode s i = .ok din) (hok : iappend s i p = .ok s') :
    p = [] ∨ din.size.toNat + p.length ≤ MAXFILE * BSIZE := by
  rw [iappend, hr] at hok
  obtain ⟨d, hd, hok⟩ := bind_eq_ok.mp hok
  cases hd
  obtain ⟨⟨s₁, d₁, off⟩, hloop, -⟩ := bind_eq_ok.mp hok
  obtain ⟨hoff, hmax, -⟩ := iappendLoop_counts hloop
  by_cases hp : 0 < p.length
  · exact Or.inr (hoff ▸ hmax hp)
  · exact Or.inl (List.length_eq_zero_iff.mp (Nat.eq_zero_of_not_pos hp))

theorem kernelBuf_bytes (p : List UInt8) : (List.range p.length).map (kernelBuf p).byte = p := by
  refine List.ext_getElem (by simp) fun j h1 h2 => ?_
  simp only [kernelBuf, Fs.Src.byte, List.getElem_map, List.getElem_range, Nat.zero_add]
  exact List.getD_eq_getElem _ _ h2

/-- The sum of what the files need, after one of them has grown. -/
theorem sum_need {f g : Nat → Nat} (hi : i < n) (hfg : ∀ j < n, j ≠ i → g j = f j) :
    ∑ j ∈ Finset.range n, need (g j) + need (f i) = ∑ j ∈ Finset.range n, need (f j) + need (g i) := by
  have hmem := Finset.mem_range.mpr hi
  rw [← Finset.sum_erase_add _ _ hmem, ← Finset.sum_erase_add (f := fun j => need (f j)) _ hmem]
  have hrest : ∑ j ∈ (Finset.range n).erase i, need (g j) = ∑ j ∈ (Finset.range n).erase i, need (f j) := by
    refine Finset.sum_congr rfl fun j hj => ?_
    obtain ⟨hne, hj⟩ := Finset.mem_erase.mp hj
    rw [hfg j (Finset.mem_range.mp hj) hne]
  omega

/-- What a completed `writei` at the end of a file has made of the image. -/
theorem Built.appended {p : List UInt8} {ip' : Dinode} {tot : Nat} (hB : Built n h s) (h0 : 0 < i)
    (hi : i < s.freeinode) (hn : i < n)
    (hmax : (dinode (disk n h) s.view i).size.toNat + p.length ≤ MAXFILE * BSIZE) (hw : Whole s')
    (hino : s'.freeinode = s.freeinode)
    (hok : Fs.writei (disk n h) s.view i (dinode (disk n h) s.view i) (kernelBuf p)
      (dinode (disk n h) s.view i).size (UInt32.ofNat p.length) = .ok (s'.view, ip', some tot)) :
    Appended n h s i p s' := by
  have hl := hB.live h0 hi hn
  have hlen : (UInt32.ofNat p.length).toNat = p.length :=
    UInt32.toNat_ofNat_of_lt' (lt_of_le_of_lt (show p.length ≤ MAXFILE * BSIZE by omega) (by decide))
  have hread : (kernelBuf p).Readable (UInt32.ofNat p.length).toNat := trivial
  obtain ⟨htakes, hblank⟩ := Fs.writei_takes hB.consistent hl hread hok
  have hsat := Fs.writei_sat (kernelBuf p) (dinode (disk n h) s.view i).size (UInt32.ofNat p.length)
    hB.consistent hl
  rw [hok] at hsat
  have hpost : Fs.WritePost (disk n h) s.view i (kernelBuf p) (dinode (disk n h) s.view i).size
    (UInt32.ofNat p.length) s'.view ip' tot := hsat.of_ok
  obtain ⟨-, hgrown, -, -⟩ := hpost.done hread
  rw [hlen] at htakes hblank hgrown
  have hself : (dinode (disk n h) s'.view i).size.toNat =
      (dinode (disk n h) s.view i).size.toNat + p.length := by
    rw [hpost.inode, hgrown]
    omega
  have hother : ∀ j < n, j ≠ i → dinode (disk n h) s'.view j = dinode (disk n h) s.view j := hpost.other
  have hsize : ∀ j < n, (dinode (disk n h) s'.view j).size.toNat =
      (dinode (disk n h) s.view j).size.toNat + if j = i then p.length else 0 := by
    intro j hj
    by_cases hji : j = i
    · rw [if_pos hji, hji, hself]
    · rw [if_neg hji, hother j hj hji, Nat.add_zero]
  refine ⟨⟨hw, hpost.consistent, by rw [hino]; exact hB.pos, ?_, ?_, ?_, ?_, ?_⟩, hino, hsize, ?_⟩
  · intro j hj
    rw [hino, ← hB.type j hj]
    by_cases hji : j = i
    · rw [hji, hpost.inode, hpost.type]
    · rw [hother j hj hji]
  · intro j hj hout
    rw [hino] at hout
    have hji : j ≠ i := fun heq => hout (heq ▸ ⟨h0, hi⟩)
    rw [hother j hj hji]
    exact hB.size j hj hout
  · intro j hj h1 h2 q
    rw [hino] at h2
    rw [htakes.refs_iff, hB.places j hj h1 h2 q, hsize j hj]
    by_cases hji : j = i
    · rw [if_pos hji, Fs.touched_add, Nat.zero_add, Finset.mem_union, hji]
      simp
    · simp [hji]
  · intro j x v hx hv
    by_cases hj : j < n
    · rw [hsize j hj] at hx
      refine (hblank j x v ?_ hv).elim (fun hv => hB.blank j x v (by omega) hv) id
      rintro ⟨hji, h1, h2⟩
      rw [if_pos hji, hji] at hx
      omega
    · obtain ⟨q, b, -, hb, -⟩ := Fs.fileByte_eq_some.mp hv
      exact absurd (Fs.live_of_refs hb).1 hj
  · -- the blocks that were taken are those the longer file needs
    have hfree := htakes.free
    rw [free_view, free_view] at hfree
    have hhigh := hB.whole.high
    have hhigh' := hw.high
    have hmissing := hB.missing h0 hi hn p.length
    have hsum := sum_need (f := fun j => (dinode (disk n h) s.view j).size.toNat)
      (g := fun j => (dinode (disk n h) s'.view j).size.toNat) hn
      fun j hj hji => by simp only [hother j hj hji]
    have hcount := hB.count
    simp only [hself] at hsum
    omega
  · have hfiles := Fs.WritePost.files (s := s.sys n h) (t := s'.sys n h) hB.inv.consistent hl rfl le_rfl hpost hread
    have hold : ((s.sys n h).files i).length = (dinode (s.sys n h).sb (s.sys n h).blk i).size.toNat := by
      rw [Fs.files_of_live (s := s.sys n h) hl, Fs.length_content]
    rw [hfiles, hlen, kernelBuf_bytes, ← hold, Fs.overwrite_end]

/-- **`iappend`** adds the bytes, if the file does not become too long and there are blocks enough. -/
theorem iappend_sat (hB : Built n h s) (h0 : 0 < i) (hi : i < s.freeinode) (hn : i < n) (p : List UInt8) :
    Sat (fun _ => MAXFILE * BSIZE < (dinode (disk n h) s.view i).size.toNat + p.length ∨
        FSSIZE + need (dinode (disk n h) s.view i).size.toNat <
          s.freeblock + need ((dinode (disk n h) s.view i).size.toNat + p.length))
      (Appended n h s i p) (iappend s i p) := by
  have hl := hB.live h0 hi hn
  by_cases hmax : (dinode (disk n h) s.view i).size.toNat + p.length ≤ MAXFILE * BSIZE
  · have hag := iappend_agree hB.whole hB.consistent hl hmax
    cases hx : iappend s i p with
    | ok s' =>
        obtain ⟨⟨blk', ip', o⟩, hy, hview, hsome, hw, hino⟩ := hag.exists_of_ok hx
        simp only at hview hsome
        subst hview
        obtain ⟨tot, rfl⟩ := Option.ne_none_iff_exists'.mp hsome
        exact .ok (hB.appended h0 hi hn hmax hw hino hy)
    | error e =>
        -- the kernel fails as well, for want of blocks
        have hsat := Fs.writei_sat (kernelBuf p) (dinode (disk n h) s.view i).size (UInt32.ofNat p.length)
          hB.consistent hl
        cases hy : Fs.writei (disk n h) s.view i (dinode (disk n h) s.view i) (kernelBuf p)
            (dinode (disk n h) s.view i).size (UInt32.ofNat p.length) with
        | ok r =>
            rw [hx, hy] at hag
            cases hag
        | error e' =>
            have hlen : (UInt32.ofNat p.length).toNat = p.length := UInt32.toNat_ofNat_of_lt'
              (lt_of_le_of_lt (show p.length ≤ MAXFILE * BSIZE by omega) (by decide))
            rw [hy] at hsat
            have hroom := hsat.of_error.2 (show FSSIZE ≤ 2 ^ 31 by decide)
            have hmissing := hB.missing h0 hi hn p.length
            have hhigh := hB.whole.high
            rw [free_view, hlen] at hroom
            exact .error (Or.inr (by omega))
  · cases hx : iappend s i p with
    | error e => exact .error (Or.inl (not_le.mp hmax))
    | ok s' =>
        rcases iappend_fits (rinode_view (h := h) hB.whole hn) hx with rfl | hfits
        · exact absurd (hB.consistent.size_le hl) (by simpa using hmax)
        · exact absurd hfits hmax

end Xv6.Mkfs
