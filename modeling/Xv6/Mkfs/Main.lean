import Xv6.Mkfs.Image

/-!
# `Mkfs.Main` — what `main` of `mkfs` leaves behind

`filesAfter` says what the run is for: one file for each input, and the root directory with their names. As long as
the inode blocks have room for the inodes, `main` leaves the image of these files, and it stops early only if an
input cannot be used or the files do not fit. Nothing stops it, however, when it runs out of inodes:
**the image is sound exactly if there are fewer than `sb.ninodes - 1` files.**
-/

namespace Xv6.Mkfs

open Logging (Block BSIZE)
open Fs (Dinode MAXFILE NDIRECT BPB IBLOCK dinode Files touched)
open Lockstep (bind_eq_ok ok_bind)
open Outcome (Sat)
open Syscall (Dirent Name ROOTINO T_DIR T_FILE slash dot dotdot)

/-! ## The files of the image -/

def Input.bytes (f : Input) : List UInt8 := (f.reads.getD []).flatten

def Input.entryName (f : Input) : Name := fileName (shortname f.name)

/-- The input can be opened, and its name has no directory in it. -/
def Input.Usable (f : Input) : Prop := f.reads.isSome ∧ slash ∉ shortname f.name

/-- One more file, with inode number `m`. -/
def addTo (m : Nat) (g : Files) (f : Input) : Files :=
  Function.update (Function.update g ROOTINO (g ROOTINO ++ Dirent.toBytes ⟨m, f.entryName⟩)) m f.bytes

/-- All the files, with inode numbers from `m` on. -/
def filesAfter : Nat → Files → List Input → Files
  | _, g, [] => g
  | m, g, f :: fs => filesAfter (m + 1) (addTo m g f) fs

/-- The root directory before the first file. -/
def emptyRoot : Files :=
  Function.update (fun _ => []) ROOTINO (Dirent.toBytes ⟨ROOTINO, dot⟩ ++ Dirent.toBytes ⟨ROOTINO, dotdot⟩)

/-- The files of the image. -/
def imageFiles (files : List Input) : Files := filesAfter 2 emptyRoot files

/-- Files of these lengths fit on the disk. -/
def Fit (n : Nat) (F : Nat → Nat) : Prop :=
  (∀ j < n, F j ≤ MAXFILE * BSIZE) ∧ nmeta + ∑ j ∈ Finset.range n, need (F j) ≤ FSSIZE

variable {s s' : State} {n i m : Nat} {h : n ≤ CAPACITY} {F : Nat → Nat} {p : List UInt8} {f : Input}
  {fs : List Input} {g : Files}

theorem length_toBytes (e : Dirent) : e.toBytes.length = 16 := by
  simp only [Dirent.toBytes, List.length_append, List.length_cons, List.length_nil, List.length_take,
    List.length_replicate, Syscall.DIRSIZ]
  omega

theorem Built.length_files (hB : Built n h s) (hi : i < n) :
    ((s.sys n h).files i).length = (dinode (disk n h) s.view i).size.toNat := by
  by_cases hin : 0 < i ∧ i < s.freeinode
  · rw [Fs.files_of_live (s := s.sys n h) (hB.live hin.1 hin.2 hi), Fs.length_content]
    rfl
  · rw [files_of_size (hB.size i hi hin), hB.size i hi hin]
    rfl

theorem Built.files_nil (hB : Built n h s) (hi : s.freeinode ≤ i) : (s.sys n h).files i = [] := by
  by_cases hn : i < n
  · exact files_of_size (hB.size i hn fun hin => absurd hin.2 (not_lt.mpr hi))
  · exact files_of_le (not_lt.mp hn)

theorem lengths_le_filesAfter (hm : ROOTINO < m) (hg : ∀ j, m ≤ j → g j = []) (j : Nat) :
    (g j).length ≤ (filesAfter m g fs j).length := by
  induction fs generalizing m g with
  | nil => exact le_rfl
  | cons f fs ih =>
      refine le_trans ?_ (ih (g := addTo m g f) (by omega) fun j hj => ?_)
      · unfold addTo
        by_cases hjm : j = m
        · rw [hjm, hg m le_rfl]
          exact Nat.zero_le _
        · rw [Function.update_of_ne hjm]
          by_cases hjr : j = ROOTINO
          · rw [hjr, Function.update_self, List.length_append]
            exact Nat.le_add_right _ _
          · rw [Function.update_of_ne hjr]
      · unfold addTo
        rw [Function.update_of_ne (by omega), Function.update_of_ne (by omega), hg j (by omega)]

/-- Each file adds one entry to the root directory. -/
theorem length_root (hm : ROOTINO < m) :
    (filesAfter m g fs ROOTINO).length = (g ROOTINO).length + 16 * fs.length := by
  induction fs generalizing m g with
  | nil => rfl
  | cons f fs ih =>
      rw [filesAfter, ih (g := addTo m g f) (by omega), addTo, Function.update_of_ne (ne_of_lt hm),
        Function.update_self, List.length_append, length_toBytes, List.length_cons]
      omega

theorem length_imageFiles_root (files : List Input) :
    (imageFiles files ROOTINO).length = 16 * (files.length + 2) := by
  rw [imageFiles, length_root (by decide), emptyRoot, Function.update_self, List.length_append, length_toBytes,
    length_toBytes]
  omega

/-! ## Runs -/

theorem Appended.trans {q : List UInt8} {s₂ : State} (h₁ : Appended n h s i p s') (h₂ : Appended n h s' i q s₂) :
    Appended n h s i (p ++ q) s₂ := by
  refine ⟨h₂.built, h₂.freeinode.trans h₁.freeinode, fun j hj => ?_, ?_⟩
  · rw [h₂.size j hj, h₁.size j hj, List.length_append]
    split <;> omega
  · rw [h₂.files, h₁.files, Function.update_self, Function.update_idem, List.append_assoc]

/-- `iappend`, if the files are going to fit. -/
theorem iappend_fit (hB : Built n h s) (h0 : 0 < i) (hi : i < s.freeinode) (hn : i < n)
    (hF : ∀ j < n, ((s.sys n h).files j).length + (if j = i then p.length else 0) ≤ F j) :
    Sat (fun _ => ¬Fit n F) (Appended n h s i p) (iappend s i p) := by
  refine (iappend_sat hB h0 hi hn p).mono (fun _ hfail hfit => ?_) fun _ ha => ha
  have hFi := hF i hn
  rw [hB.length_files hn, if_pos rfl] at hFi
  rcases hfail with hlong | hroom
  · exact absurd (le_trans hFi (hfit.1 i hn)) (not_le.mpr hlong)
  · -- what all files need after the append is at most what they need in the end
    have hsum := sum_need (f := fun j => (dinode (disk n h) s.view j).size.toNat)
      (g := fun j => (dinode (disk n h) s.view j).size.toNat + if j = i then p.length else 0) hn
      fun j _ hji => by simp only [if_neg hji, Nat.add_zero]
    have hle : ∑ j ∈ Finset.range n,
        need ((dinode (disk n h) s.view j).size.toNat + if j = i then p.length else 0) ≤
        ∑ j ∈ Finset.range n, need (F j) := by
      refine Finset.sum_le_sum fun j hj => need_mono ?_
      have := hF j (Finset.mem_range.mp hj)
      rwa [hB.length_files (Finset.mem_range.mp hj)] at this
    simp only [if_true] at hsum
    have := hB.count
    have := hfit.2
    omega

/-- The read loop for one file. -/
theorem appendAll_fit {chunks : List (List UInt8)} (hB : Built n h s) (h0 : 0 < i) (hi : i < s.freeinode)
    (hn : i < n)
    (hF : ∀ j < n, ((s.sys n h).files j).length + (if j = i then chunks.flatten.length else 0) ≤ F j) :
    Sat (fun _ => ¬Fit n F) (Appended n h s i chunks.flatten)
      (chunks.foldlM (fun s c => iappend s i c) s) := by
  induction chunks generalizing s with
  | nil =>
      refine .ok ⟨hB, rfl, fun j _ => by simp, ?_⟩
      rw [List.flatten_nil, List.append_nil, Function.update_eq_self]
  | cons c cs ih =>
      rw [List.foldlM_cons, List.flatten_cons]
      rw [List.flatten_cons, List.length_append] at hF
      have hfirst : Sat (fun _ => ¬Fit n F) (Appended n h s i c) (iappend s i c) :=
        iappend_fit hB h0 hi hn fun j hj => by
          have := hF j hj
          split <;> split at this <;> omega
      refine hfirst.bind fun s₁ ha => ?_
      refine (ih ha.built (ha.freeinode ▸ hi) fun j hj => ?_).mono (fun _ he => he) fun _ hb => ha.trans hb
      have := hF j hj
      rw [ha.files]
      by_cases hji : j = i
      · rw [if_pos hji] at this ⊢
        rw [hji, Function.update_self, List.length_append]
        rw [hji] at this
        omega
      · rw [if_neg hji] at this ⊢
        rwa [Function.update_of_ne hji]

/-- What a turn of the loop of `main` has done. -/
structure Added (n : Nat) (h : n ≤ CAPACITY) (s : State) (fs : List Input) (s' : State) : Prop where
  built : Built n h s'
  freeinode : s'.freeinode = s.freeinode + fs.length
  files : (s'.sys n h).files = filesAfter s.freeinode (s.sys n h).files fs

theorem addFile_fit (hB : Built n h s) (hroot : ROOTINO < s.freeinode) (hn : s.freeinode < n)
    (hF : ∀ j < n, (addTo s.freeinode (s.sys n h).files f j).length ≤ F j) :
    Sat (fun _ => ¬(f.Usable ∧ Fit n F)) (Added n h s [f]) (addFile ROOTINO s f) := by
  unfold addFile
  split
  · rename_i hslash
    exact .error fun hgood => hgood.1.2 hslash
  · cases hreads : f.reads with
    | none =>
        refine .error fun hgood => ?_
        have := hgood.1.1
        rw [hreads] at this
        cases this
    | some chunks =>
        obtain ⟨s₁, hialloc, hB₁, hino₁, hfiles₁, -⟩ := ialloc_built hB hn (show T_FILE ≠ 0 by decide)
        have hbytes : f.bytes = chunks.flatten := by rw [Input.bytes, hreads]; rfl
        have hne : ROOTINO ≠ s.freeinode := ne_of_lt hroot
        have hnew : (s.sys n h).files s.freeinode = [] := hB.files_nil le_rfl
        simp only [hialloc, ok_bind]
        have hdir : Sat (fun _ => ¬Fit n F) (Appended n h s₁ ROOTINO (Dirent.toBytes ⟨s.freeinode, f.entryName⟩))
            (iappend s₁ ROOTINO (Dirent.toBytes ⟨s.freeinode, f.entryName⟩)) := by
          refine iappend_fit hB₁ Nat.one_pos (by omega) (by omega) fun j hj => ?_
          refine le_trans ?_ (hF j hj)
          rw [hfiles₁, addTo]
          by_cases hjr : j = ROOTINO
          · rw [if_pos hjr, hjr, Function.update_of_ne hne, Function.update_self, List.length_append]
          · rw [if_neg hjr, Nat.add_zero]
            by_cases hjm : j = s.freeinode
            · rw [hjm, hnew]
              exact Nat.zero_le _
            · rw [Function.update_of_ne hjm, Function.update_of_ne hjr]
        refine (hdir.mono (fun _ he hgood => he hgood.2) fun _ ha => ha).bind fun s₂ ha => ?_
        have hino₂ := ha.freeinode
        have hdata : Sat (fun _ => ¬Fit n F) (Appended n h s₂ s.freeinode chunks.flatten)
            (chunks.foldlM (fun t c => iappend t s.freeinode c) s₂) := by
          refine appendAll_fit ha.built hB.pos (by omega) hn fun j hj => ?_
          refine le_trans ?_ (hF j hj)
          rw [ha.files, hfiles₁, addTo, hbytes]
          by_cases hjm : j = s.freeinode
          · rw [if_pos hjm, hjm, Function.update_of_ne hne.symm, hnew, Function.update_self]
            simp
          · rw [if_neg hjm, Nat.add_zero, Function.update_of_ne hjm]
        refine hdata.mono (fun _ he hgood => he hgood.2) fun s₃ hb => ⟨hb.built, ?_, ?_⟩
        · rw [hb.freeinode, ha.freeinode, hino₁]
          rfl
        · rw [hb.files, ha.files, hfiles₁, Function.update_of_ne hne.symm, hnew]
          simp only [filesAfter, addTo, hbytes, List.nil_append]

/-- **The loop of `main`.** -/
theorem addFiles_fit (fs : List Input) (hB : Built n h s) (hroot : ROOTINO < s.freeinode) (hn : s.freeinode + fs.length ≤ n)
    (hF : ∀ j < n, (filesAfter s.freeinode (s.sys n h).files fs j).length ≤ F j) :
    Sat (fun _ => ¬((∀ f ∈ fs, f.Usable) ∧ Fit n F)) (Added n h s fs) (fs.foldlM (addFile ROOTINO) s) := by
  induction fs generalizing s with
  | nil => exact .ok ⟨hB, rfl, rfl⟩
  | cons f fs ih =>
      rw [List.length_cons] at hn
      have hnil : ∀ j, s.freeinode + 1 ≤ j → addTo s.freeinode (s.sys n h).files f j = [] := by
        intro j hj
        rw [addTo, Function.update_of_ne (by omega), Function.update_of_ne (by omega), hB.files_nil (by omega)]
      have hfirst := addFile_fit (F := F) (f := f) hB hroot (by omega) fun j hj =>
        le_trans (lengths_le_filesAfter (by omega) hnil j) (hF j hj)
      rw [List.foldlM_cons]
      refine (hfirst.mono (fun _ he hgood => he ⟨hgood.1 f List.mem_cons_self, hgood.2⟩) fun _ ha => ha).bind
        fun s₁ ha => ?_
      have hino : s₁.freeinode = s.freeinode + 1 := ha.freeinode
      have hrest := ih (s := s₁) ha.built (by omega) (by omega) fun j hj => by
        rw [ha.files, hino]
        exact hF j hj
      refine hrest.mono (fun _ he hgood => he ⟨fun f' hf' => hgood.1 f' (List.mem_cons_of_mem _ hf'), hgood.2⟩)
        fun s₂ hb => ⟨hb.built, ?_, ?_⟩
      · rw [hb.freeinode, hino, List.length_cons]
        omega
      · rw [hb.files, hino, ha.files]
        rfl

/-! ## The end of `main` -/

/-- The root directory with its size rounded. -/
def rounded (d : Dinode) : Dinode := { d with size := UInt32.ofNat ((d.size.toNat / BSIZE + 1) * BSIZE) }

/-- The image of `files`: a file system with these files, but for the size of the root directory. -/
structure Finished (n : Nat) (h : n ≤ CAPACITY) (files : List Input) (s₁ s : State) : Prop where
  built : Built n h s₁
  freeinode : s₁.freeinode = files.length + 2
  files : (s₁.sys n h).files = imageFiles files
  blk : s.blk = Fs.iupdate (disk n h) s₁.view ROOTINO (rounded (dinode (disk n h) s₁.view ROOTINO))
  same : s.freeinode = s₁.freeinode ∧ s.freeblock = s₁.freeblock

theorem finish_ok (hB : Built n h s) (hn : ROOTINO < n) :
    ∃ s', (fixSize s ROOTINO >>= balloc) = .ok s' ∧
      s'.blk = Fs.iupdate (disk n h) s.view ROOTINO (rounded (dinode (disk n h) s.view ROOTINO)) ∧
      s'.freeinode = s.freeinode ∧ s'.freeblock = s.freeblock := by
  obtain ⟨s₁, hwi, hview, hw, hino, hfb⟩ :=
    winode_view (h := h) hB.whole hn (rounded (dinode (disk n h) s.view ROOTINO))
  have hfix : fixSize s ROOTINO = .ok s₁ := by
    rw [fixSize, rinode_view (h := h) hB.whole hn, ok_bind]
    exact hwi
  have hlt : s₁.freeblock < BSIZE * 8 := lt_of_le_of_lt hw.high (by decide)
  refine ⟨wsect s₁ sb.bmapstart (bits s₁.freeblock), ?_, ?_, hino, hfb⟩
  · rw [hfix, ok_bind, balloc, if_pos hlt]
  · rw [wsect_eq hw.len (by decide), ← hview]
    rfl

theorem blankImage_files : (blankImage.sys n h).files = fun _ => [] := by
  funext j
  by_cases hj : j < n
  · refine files_of_size ?_
    rw [blankImage_dinode hj]
    rfl
  · exact files_of_le (not_lt.mp hj)

/-- **`main`** leaves the image of its files, and stops early only if an input cannot be used or the files do not
    fit. -/
theorem main_sat (files : List Input) (h : n ≤ CAPACITY) (hn : files.length + 2 ≤ n) :
    Sat (fun _ => ¬((∀ f ∈ files, f.Usable) ∧ Fit n fun j => (imageFiles files j).length))
      (fun s => ∃ s₁, Finished n h files s₁ s) (main files) := by
  obtain ⟨F, hF⟩ : ∃ F : Nat → Nat, F = fun j => (imageFiles files j).length := ⟨_, rfl⟩
  have hrn : ROOTINO < n := Nat.lt_of_lt_of_le (by decide : ROOTINO < 2) (by omega)
  have hB₀ := blankImage_built h
  have hino₀ : blankImage.freeinode = ROOTINO := by rw [blankImage_eq]; rfl
  obtain ⟨s₁, hialloc, hB₁, hino₁, hfiles₁, -⟩ :=
    ialloc_built hB₀ (hino₀ ▸ hrn) (show T_DIR ≠ 0 by decide)
  rw [hino₀] at hialloc hino₁
  rw [blankImage_files] at hfiles₁
  have hle : ∀ j, (emptyRoot j).length ≤ F j := by
    intro j
    rw [hF]
    refine lengths_le_filesAfter (by decide) (fun j hj => ?_) j
    exact Function.update_of_ne (show j ≠ ROOTINO from ne_of_gt hj) _ _
  have hroot : (emptyRoot ROOTINO).length = 32 := by
    rw [emptyRoot, Function.update_self, List.length_append, length_toBytes, length_toBytes]
  unfold main
  rw [← hF]
  show Sat _ _ (ialloc blankImage T_DIR >>= _)
  simp only [hialloc, ok_bind, if_pos]
  have hdot : Sat (fun _ => ¬Fit n F) (Appended n h s₁ ROOTINO (Dirent.toBytes ⟨ROOTINO, dot⟩))
      (iappend s₁ ROOTINO (Dirent.toBytes ⟨ROOTINO, dot⟩)) := by
    refine iappend_fit hB₁ Nat.one_pos (by omega) hrn fun j _ => ?_
    refine le_trans ?_ (hle j)
    rw [hfiles₁, length_toBytes]
    split
    · rename_i hj
      rw [hj, hroot]
      decide
    · exact Nat.zero_le _
  refine (hdot.mono (fun _ he hgood => he hgood.2) fun _ ha => ha).bind fun s₂ ha => ?_
  have hdotdot : Sat (fun _ => ¬Fit n F) (Appended n h s₂ ROOTINO (Dirent.toBytes ⟨ROOTINO, dotdot⟩))
      (iappend s₂ ROOTINO (Dirent.toBytes ⟨ROOTINO, dotdot⟩)) := by
    refine iappend_fit ha.built Nat.one_pos (by rw [ha.freeinode, hino₁]; decide) hrn fun j _ => ?_
    refine le_trans ?_ (hle j)
    rw [ha.files, hfiles₁, length_toBytes]
    split
    · rename_i hj
      rw [hj, hroot, Function.update_self, List.nil_append, length_toBytes]
    · rename_i hj
      rw [Function.update_of_ne hj]
      exact Nat.zero_le _
  refine (hdotdot.mono (fun _ he hgood => he hgood.2) fun _ hb => hb).bind fun s₃ hb => ?_
  have hino₃ : s₃.freeinode = 2 := by rw [hb.freeinode, ha.freeinode, hino₁]; rfl
  have hfiles₃ : (s₃.sys n h).files = emptyRoot := by
    rw [hb.files, ha.files, hfiles₁, Function.update_self, Function.update_idem, List.nil_append]
    rfl
  have hloop := addFiles_fit (F := F) files hb.built (by rw [hino₃]; decide) (by omega) fun j _ => by
    rw [hino₃, hfiles₃, hF]
    exact le_rfl
  refine hloop.bind fun s₄ hc => ?_
  obtain ⟨s₅, hfin, hblk, hsame⟩ := finish_ok hc.built hrn
  rw [hfin]
  refine .ok ⟨s₄, hc.built, ?_, ?_, hblk, hsame⟩
  · rw [hc.freeinode, hino₃, Nat.add_comm]
  · rw [hc.files, hino₃, hfiles₃]
    rfl

/-- Rounding the size does not touch what the inodes refer to. -/
theorem Finished.refs {files : List Input} {s₁ : State} (hfin : Finished n h files s₁ s) (hn : ROOTINO < n) :
    Fs.refs (disk n h) (dinode (disk n h) s.blk) s.blk =
      Fs.refs (disk n h) (dinode (disk n h) s₁.view) s₁.view := by
  have hsame : Fs.refs (disk n h) (Function.update (dinode (disk n h) s₁.view) ROOTINO
      (rounded (dinode (disk n h) s₁.view ROOTINO))) s.blk =
      Fs.refs (disk n h) (dinode (disk n h) s₁.view) s.blk := Fs.refs_setInode rfl rfl
  rw [hfin.blk] at hsame ⊢
  rw [Fs.dinode_iupdate, hsame, Fs.refs_iupdate hfin.built.consistent hn]

theorem Finished.live {files : List Input} {s₁ : State} (hfin : Finished n h files s₁ s) (h0 : 0 < i)
    (hi : i < files.length + 2) (hn : i < n) : Fs.Live (disk n h) (dinode (disk n h) s.blk) i := by
  have hl := hfin.built.live h0 (hfin.freeinode ▸ hi) hn
  rw [hfin.blk, Fs.dinode_iupdate]
  refine ⟨hn, ?_⟩
  by_cases hroot : i = ROOTINO
  · rw [hroot, Function.update_self]
    exact hroot ▸ hl.2
  · rw [Function.update_of_ne hroot]
    exact hl.2

theorem Finished.bitmap {files : List Input} {s₁ : State} (hfin : Finished n h files s₁ s) (hn : ROOTINO < n) :
    s.blk sb.bmapstart = bits s.freeblock := by
  obtain ⟨-, hne, -⟩ := inode_block h hn
  rw [hfin.blk, hfin.same.2, Fs.iupdate_of_ne (show sb.bmapstart ≠ IBLOCK (disk n h) ROOTINO from hne.symm),
    State.view, Function.update_self]

/-! ## Inode numbers -/

theorem winode_freeinode {d : Dinode} (hok : winode s i d = .ok s') : s'.freeinode = s.freeinode := by
  obtain ⟨buf, -, hok⟩ := bind_eq_ok.mp hok
  cases hok
  rfl

theorem iappend_freeinode (hok : iappend s i p = .ok s') : s'.freeinode = s.freeinode := by
  obtain ⟨din, -, hok⟩ := bind_eq_ok.mp hok
  obtain ⟨⟨s₁, d₁, off⟩, hloop, hok⟩ := bind_eq_ok.mp hok
  obtain ⟨-, -, -, hino⟩ := iappendLoop_counts hloop
  exact (winode_freeinode hok).trans hino

theorem ialloc_freeinode {type : UInt16} {r : State × Nat} (hok : ialloc s type = .ok r) :
    r.1.freeinode = s.freeinode + 1 := by
  obtain ⟨s₁, hwi, hok⟩ := bind_eq_ok.mp hok
  cases hok
  exact winode_freeinode hwi

theorem appendAll_freeinode {chunks : List (List UInt8)}
    (hok : chunks.foldlM (fun s c => iappend s i c) s = .ok s') : s'.freeinode = s.freeinode := by
  induction chunks generalizing s with
  | nil =>
      cases hok
      rfl
  | cons c cs ih =>
      rw [List.foldlM_cons] at hok
      obtain ⟨s₁, h₁, hok⟩ := bind_eq_ok.mp hok
      exact (ih hok).trans (iappend_freeinode h₁)

theorem addFile_freeinode {root : Nat} (hok : addFile root s f = .ok s') : s'.freeinode = s.freeinode + 1 := by
  unfold addFile at hok
  split at hok
  · cases hok
  · split at hok
    · cases hok
    · obtain ⟨⟨s₁, inum⟩, h₁, hok⟩ := bind_eq_ok.mp hok
      obtain ⟨s₂, h₂, hok⟩ := bind_eq_ok.mp hok
      rw [appendAll_freeinode hok, iappend_freeinode h₂]
      exact ialloc_freeinode h₁

theorem addFiles_freeinode {root : Nat} (hok : fs.foldlM (addFile root) s = .ok s') :
    s'.freeinode = s.freeinode + fs.length := by
  induction fs generalizing s with
  | nil =>
      cases hok
      rfl
  | cons f fs ih =>
      rw [List.foldlM_cons] at hok
      obtain ⟨s₁, h₁, hok⟩ := bind_eq_ok.mp hok
      rw [ih hok, addFile_freeinode h₁, List.length_cons]
      omega

/-- Whatever the image looks like, there is one inode for each file, one for the root, and number 0. -/
theorem main_freeinode {files : List Input} (hok : main files = .ok s) : s.freeinode = files.length + 2 := by
  obtain ⟨⟨s₁, root⟩, h₁, hok⟩ := bind_eq_ok.mp hok
  simp only at hok
  split at hok
  · obtain ⟨s₂, h₂, hok⟩ := bind_eq_ok.mp hok
    obtain ⟨s₃, h₃, hok⟩ := bind_eq_ok.mp hok
    obtain ⟨s₄, h₄, hok⟩ := bind_eq_ok.mp hok
    obtain ⟨s₅, h₅, hok⟩ := bind_eq_ok.mp hok
    obtain ⟨din, -, h₅⟩ := bind_eq_ok.mp h₅
    have h₀ : s₁.freeinode = 2 := by
      have := ialloc_freeinode h₁
      rw [this, show wsect zeroed 1 superblock = blankImage from rfl, blankImage_eq]
    unfold balloc at hok
    split at hok
    · cases hok
      show s₅.freeinode = _
      rw [winode_freeinode h₅, addFiles_freeinode h₄, iappend_freeinode h₃, iappend_freeinode h₂, h₀, Nat.add_comm]
    · cases hok
  · cases hok

/-! ## Soundness of the image -/

/-- The inodes that `main` has used are numbers the file system admits and lie in the inode blocks, and every
    block that they refer to or that is marked in the bitmap is on the disk. -/
structure Sane (s : State) : Prop where
  inums : ∀ inum, 0 < inum → inum < s.freeinode → inum < sb.ninodes
  written : ∀ inum, 0 < inum → inum < s.freeinode →
    sb.inodestart ≤ IBLOCK sb inum ∧ IBLOCK sb inum < sb.bmapstart
  blocks : ∀ inum, 0 < inum → inum < s.freeinode →
    ∀ q b, Fs.refsOf s.blk (dinode sb s.blk inum) q = some b → b < sb.size
  bitmap : ∀ b < BPB, Bitmap.test (s.blk sb.bmapstart) b = true → b < sb.size

theorem Finished.sane {files : List Input} {s₁ : State} (hfin : Finished NINODES (by decide) files s₁ s)
    (hlt : files.length + 2 ≤ NINODES) : Sane s := by
  have hino : s.freeinode = files.length + 2 := hfin.same.1.trans hfin.freeinode
  have hroot : ROOTINO < NINODES := by decide
  refine ⟨fun inum _ hi => lt_of_lt_of_le hi (hino ▸ hlt), fun inum _ hi => ?_, fun inum h0 hi q b hb => ?_,
    fun b _ hb => ?_⟩
  · exact ⟨Nat.le_add_left _ _, sb.inodes_lt inum (lt_of_lt_of_le hi (hino ▸ hlt))⟩
  · have hl := hfin.live h0 (hino ▸ hi) (lt_of_lt_of_le hi (hino ▸ hlt))
    have href : Fs.refs sb (dinode sb s.blk) s.blk (inum, q) = some b := (Fs.refs_of_live hl q).trans hb
    rw [sb_eq_disk, hfin.refs hroot] at href
    exact (hfin.built.consistent.owned.used href).2.1
  · rw [hfin.bitmap hroot, test_bits, decide_eq_true_eq, hfin.same.2] at hb
    exact lt_of_lt_of_le hb hfin.built.whole.high

/-- **A run of `mkfs` that completes leaves a sound image exactly if there are inodes for all files.** -/
theorem image_sane_iff {files : List Input} (hok : main files = .ok s) :
    Sane s ↔ files.length < sb.ninodes - 1 := by
  have hino := main_freeinode hok
  have hn : sb.ninodes = NINODES := rfl
  constructor
  · intro hs
    have := hs.inums (files.length + 1) (Nat.succ_pos _) (by omega)
    omega
  · intro hlt
    have hle : files.length + 2 ≤ NINODES := by omega
    have hsat := main_sat (n := NINODES) files (by decide) hle
    rw [hok] at hsat
    obtain ⟨s₁, hfin⟩ := hsat.of_ok
    exact hfin.sane hle

/-- Empty inputs, all with the name `a`. -/
def emptyInput : Input where
  name := [97]
  reads := some []
  name_ne_zero := by simp
  reads_length cs hcs c hc := by
    cases hcs
    cases hc

/-- Empty files leave only the root directory to be stored. -/
theorem filesAfter_empty (k : Nat) {j : Nat} (hj : j ≠ ROOTINO) (hg : g j = []) :
    filesAfter m g (List.replicate k emptyInput) j = [] := by
  induction k generalizing m g with
  | zero => exact hg
  | succ k ih =>
      rw [List.replicate_succ, filesAfter]
      refine ih ?_
      rw [addTo]
      by_cases hjm : j = m
      · rw [hjm, Function.update_self]
        rfl
      · rw [Function.update_of_ne hjm, Function.update_of_ne hj, hg]

theorem empties_complete {k : Nat} (hk : k + 2 ≤ CAPACITY) : ∃ s, main (List.replicate k emptyInput) = .ok s := by
  have hlen : ∀ j, (imageFiles (List.replicate k emptyInput) j).length =
      if j = ROOTINO then 16 * (k + 2) else 0 := by
    intro j
    split
    · rename_i hj
      rw [hj, length_imageFiles_root, List.length_replicate]
    · rename_i hj
      rw [imageFiles, filesAfter_empty k hj (Function.update_of_ne hj _ _)]
      rfl
  have hsat := main_sat (n := CAPACITY) (List.replicate k emptyInput) le_rfl (by simpa using hk)
  have husable : ∀ f ∈ List.replicate k emptyInput, f.Usable := by
    intro f hf
    rw [List.eq_of_mem_replicate hf]
    exact ⟨rfl, by decide⟩
  cases hx : main (List.replicate k emptyInput) with
  | ok s => exact ⟨s, rfl⟩
  | error e =>
      rw [hx] at hsat
      have hcap : CAPACITY = 208 := by decide
      have hneed : need (16 * (k + 2)) ≤ need (16 * 208) := need_mono (by omega)
      have hmax : 16 * 208 ≤ MAXFILE * BSIZE := by decide
      simp only [hlen] at hsat
      refine absurd ⟨husable, fun j _ => ?_, ?_⟩ hsat.of_error
      · simp only
        split <;> omega
      · rw [Finset.sum_eq_single ROOTINO]
        · simp only [if_true]
          refine le_trans (Nat.add_le_add_left hneed _) ?_
          rw [need_eq hmax]
          decide
        · intro j _ hj
          simp only [if_neg hj, need_zero]
        · exact fun hout => absurd (Finset.mem_range.mpr (by decide)) hout

/-- Without any input the image is sound. -/
theorem empty_image_sane : ∃ s, main [] = .ok s ∧ (Sane s ↔ ([] : List Input).length < sb.ninodes - 1) := by
  obtain ⟨s, hs⟩ := empties_complete (k := 0) (by decide)
  exact ⟨s, hs, image_sane_iff hs⟩

/-- With 199 files `main` completes and has used inode 200. -/
theorem inode_numbers_run_out :
    ∃ s, main (List.replicate 199 emptyInput) = .ok s ∧ 200 < s.freeinode ∧ ¬Sane s := by
  obtain ⟨s, hs⟩ := empties_complete (k := 199) (by decide)
  have hino := main_freeinode hs
  rw [List.length_replicate] at hino
  refine ⟨s, hs, by omega, fun hsane => ?_⟩
  exact absurd (hsane.inums 200 (by decide) (by omega)) (by decide)

end Xv6.Mkfs
