import Xv6.Syscall.Failed

/-!
# `Syscall.Open` — `sys_open` that returns -1

`sys_open` takes an entry of the file table and a descriptor last. If it has none of them left, it gives the inode
back; but an inode that `create` has just made has a name by then, and stays. **A failing `open` changes nothing, unless
it has created the file**: `failed_open_unchanged_iff`.
-/

namespace Xv6.Syscall

open Fs (NINODE dinode Live)
open Lockstep (ok_bind)
open Outcome (Sat)

variable {s t : Fs.Sys} {i dp ip cwd : Fin NINODE} {name : Name}

theorem sat_liftFs {α : Type} {E : Fs.Panic → Prop} {Q : α → Prop} {x : Except Fs.Panic α} (h : Sat E Q x) :
    Sat (fun _ => True) Q (liftFs x) := by
  cases h with
  | ok h => exact .ok h
  | error _ => exact .error trivial

/-! ## Work on one inode -/

/-- Only the entry `i` of the table has changed. -/
structure OnlyEntry (t t' : Fs.Sys) (i : Fin NINODE) : Prop where
  inv : Fs.Inv t'
  sb : t'.sb = t.sb
  other : ∀ k, k ≠ i → t'.itable k = t.itable k

theorem setInode_only {blk : Fs.Blocks} {e : Fs.Inode} (hI : Fs.Inv (Fs.Sys.setInode { t with blk := blk } i e)) :
    OnlyEntry t (Fs.Sys.setInode { t with blk := blk } i e) i :=
  ⟨hI, rfl, fun _ hk => Function.update_of_ne hk _ _⟩

theorem iupdate_only {d : Fs.Dinode} (hI : Fs.Inv t) (hr : 0 < (t.itable i).ref) (hv : (t.itable i).valid = true)
    (hd : SameData (t.itable i).toDinode d) : OnlyEntry t (iupdate t i d) i :=
  ⟨(iupdate_inv hI hr hv hd).1, rfl, fun _ hk => Function.update_of_ne hk _ _⟩

theorem writei_only (off : Nat) (bs : List UInt8) (hI : Fs.Inv t) (hr : 0 < (t.itable i).ref)
    (hv : (t.itable i).valid = true) :
    Sat (fun _ => True) (fun r => OnlyEntry t r.1 i ∧ (r.1.itable i).ref = (t.itable i).ref) (writei t i off bs) := by
  have hsat : Sat _ _ (Fs.exec t (.writei i (.kernel (fun k => bs.getD k 0) 0) (UInt32.ofNat off)
      (UInt32.ofNat bs.length))) := Fs.exec_sat hI ⟨hr, hv⟩
  unfold writei
  cases hw : Fs.writei t.sb t.blk (t.itable i).inum (t.itable i).toDinode (.kernel (fun k => bs.getD k 0) 0)
      (UInt32.ofNat off) (UInt32.ofNat bs.length) with
  | error e => exact .error trivial
  | ok r =>
      simp only [Fs.exec, hw] at hsat
      exact .ok ⟨setInode_only hsat.of_ok.1, by simp only [Fs.Sys.setInode, Function.update_self]⟩

theorem iput_only (hI : Fs.Inv t) (hr : 0 < (t.itable i).ref) :
    Sat (fun _ => True) (fun r => OnlyEntry t r i) (iput t i) := by
  have hsat := Fs.iput_sat hI hr
  unfold iput
  unfold Fs.iput at hsat ⊢
  simp only at hsat ⊢
  split
  · rename_i hlast
    rw [if_pos hlast] at hsat
    cases htr : Fs.itrunc t.sb t.blk (t.itable i).inum (t.itable i).toDinode with
    | error e => exact .error trivial
    | ok r =>
        rw [htr] at hsat
        exact .ok (setInode_only hsat.of_ok.1)
  · rename_i hlast
    rw [if_neg hlast] at hsat
    exact .ok (setInode_only hsat.of_ok.1)

/-- Reading a locked inode changes nothing. -/
theorem readi_same (off n : Nat) (hI : Fs.Inv t) (hr : 0 < (t.itable i).ref) (hv : (t.itable i).valid = true) :
    ∃ bs, readi t i off n = .ok (t, bs) := by
  have hcopy := (hI.copy hr hv).1
  obtain ⟨bs, r, hread, -⟩ := Fs.readi_eq (fun _ _ => true) (UInt32.ofNat off) (UInt32.ofNat n) hI.consistent
    (hI.live hr hv)
  rw [← hcopy] at hread
  rw [readi, hread]
  simp only [liftFs, Except.mapError, ok_bind]
  rw [Fs.Sys.setInode, Function.update_eq_self]
  exact ⟨_, rfl⟩

theorem dirlookupFrom_same (k n : Nat) (hI : Fs.Inv t) (hr : 0 < (t.itable i).ref) (hv : (t.itable i).valid = true) :
    Sat (fun _ => True) (fun r => r.1 = t) (dirlookupFrom t i name k n) := by
  induction n generalizing k with
  | zero => exact .ok rfl
  | succ n ih =>
      obtain ⟨bs, hread⟩ := readi_same (DESIZE * k) DESIZE hI hr hv
      rw [dirlookupFrom, hread, ok_bind]
      cases bs with
      | none => exact .error trivial
      | some bs =>
          simp only
          split
          · exact .ok rfl
          · exact ih (k + 1)

theorem emptyFrom_same (k n : Nat) (hI : Fs.Inv t) (hr : 0 < (t.itable i).ref) (hv : (t.itable i).valid = true) :
    Sat (fun _ => True) (fun r => r.1 = t) (emptyFrom t i k n) := by
  induction n generalizing k with
  | zero => exact .ok rfl
  | succ n ih =>
      obtain ⟨bs, hread⟩ := readi_same (DESIZE * k) DESIZE hI hr hv
      rw [emptyFrom, hread, ok_bind]
      cases bs with
      | none => exact .error trivial
      | some bs =>
          simp only
          split
          · exact .ok rfl
          · exact ih (k + 1)

/-- A new entry is written to the directory alone. -/
theorem dirlink_only (inum : Nat) (hI : Fs.Inv t) (hr : 0 < (t.itable i).ref) (hv : (t.itable i).valid = true) :
    Sat (fun _ => True) (fun r => r.2 = true → OnlyEntry t r.1 i ∧ (r.1.itable i).ref = (t.itable i).ref)
      (dirlink t i name inum) := by
  have hlook : Sat (fun _ => True) (fun r => r.2 = none → r.1 = t) (dirlookup t i name) := by
    unfold dirlookup
    split
    · exact .error trivial
    · refine (dirlookupFrom_same 0 _ hI hr hv).bind ?_
      rintro ⟨t₁, _ | ⟨k, m⟩⟩ h₁
      · exact .ok fun _ => h₁
      · exact (sat_trivial _).bind fun _ _ => .ok nofun
  refine hlook.bind ?_
  rintro ⟨t₁, _ | ⟨j, k⟩⟩ h₁
  · obtain rfl : t₁ = t := h₁ rfl
    refine (emptyFrom_same 0 _ hI hr hv).bind ?_
    rintro ⟨t₂, k⟩ h₂
    obtain rfl : t₂ = t₁ := h₂
    refine (writei_only _ _ hI hr hv).bind ?_
    rintro ⟨t₃, _ | _⟩ h₃
    · exact .error trivial
    · exact .ok fun _ => h₃
  · exact (sat_trivial _).bind fun _ _ => .ok nofun

/-! ## A new file -/

/-- The inode `ip` was free in `s`, and is in `t` a file with a link. -/
structure New (s t : Fs.Sys) (ip : Fin NINODE) : Prop where
  inv : Fs.Inv t
  sb : t.sb = s.sb
  ref : 0 < (t.itable ip).ref
  valid : (t.itable ip).valid = true
  nlink : (t.itable ip).nlink ≠ 0
  free : (dinode s.sb s.blk (t.itable ip).inum).type = 0

/-- What `ialloc` has made: an inode that nobody used. -/
structure Allocated (s t : Fs.Sys) (ip : Fin NINODE) (type : UInt16) : Prop extends OnlyEntry s t ip where
  unused : (s.itable ip).ref = 0
  ref : (t.itable ip).ref = 1
  free : (dinode s.sb s.blk (t.itable ip).inum).type = 0
  disk : dinode t.sb t.blk (t.itable ip).inum = .fresh type

theorem ialloc_allocated (type : UInt16) (hS : Sound t) :
    Sat (fun _ => True) (fun r => Allocated t r.1 r.2 type) (liftFs (Fs.ialloc t type)) := by
  have hinv : Sat _ _ (Fs.ialloc t type) := Fs.ialloc_sat hS.inv
  unfold Fs.ialloc at hinv ⊢
  refine sat_liftFs (E := fun _ => True) ?_
  have hfree : Sat _ _ (Fs.ifree t.sb t.blk 1 (t.sb.ninodes - 1)) := Fs.ifree_sat
  cases hf : Fs.ifree t.sb t.blk 1 (t.sb.ninodes - 1) with
  | error e => exact .error trivial
  | ok inum =>
      rw [hf] at hfree hinv
      obtain ⟨-, -, hzero⟩ := hfree.of_ok
      simp only [ok_bind] at hinv ⊢
      rcases iget_cases { t with blk := Fs.iupdate t.sb t.blk inum (.fresh type) } inum with
        ⟨j, hj, hin, -⟩ | ⟨j, hj, -, heq⟩ | ⟨-, heq⟩
      · exact absurd hzero (hin ▸ (hS.held j hj).2)
      · rw [heq] at hinv ⊢
        refine .ok ⟨setInode_only hinv.of_ok.1, hj, ?_, ?_, ?_⟩
        · simp only [Fs.Sys.setInode, Function.update_self]
        · simp only [Fs.Sys.setInode, Function.update_self]
          exact hzero
        · simp only [Fs.Sys.setInode, Function.update_self]
          rw [Fs.dinode_iupdate, Function.update_self]
      · rw [heq]
        exact .error trivial

theorem ilock_only (hI : Fs.Inv t) (hr : 0 < (t.itable i).ref) :
    Sat (fun _ => True) (fun r => OnlyEntry t r i ∧ (r.itable i).ref = (t.itable i).ref ∧
      (r.itable i).inum = (t.itable i).inum ∧ (r.itable i).valid = true) (ilock t i) := by
  have hsat := Fs.ilock_sat hI hr
  rw [ilock, if_neg (by omega)]
  unfold Fs.ilock at hsat ⊢
  simp only at hsat ⊢
  split
  · rename_i hv
    exact .ok ⟨⟨hI, rfl, fun _ _ => rfl⟩, rfl, rfl, hv⟩
  · rename_i hv
    rw [if_neg hv] at hsat
    split
    · exact .error trivial
    · rename_i h0
      rw [if_neg h0] at hsat
      refine .ok ⟨setInode_only hsat.of_ok.1, ?_⟩
      simp only [Fs.Sys.setInode, Function.update_self, and_self]

theorem OnlyEntry.trans {t₁ t₂ : Fs.Sys} (h : OnlyEntry t t₁ i) (h' : OnlyEntry t₁ t₂ i) : OnlyEntry t t₂ i :=
  ⟨h'.inv, h'.sb.trans h.sb, fun k hk => (h'.other k hk).trans (h.other k hk)⟩

/-- **`create` of a file that is not there** leaves a new inode, with a link and a reference. -/
theorem createEntry_new (name : Name) (major minor : UInt16) (hS : Sound t) (hr : 0 < (t.itable dp).ref)
    (hv : (t.itable dp).valid = true) :
    Sat (fun _ => True) (fun r => ∃ ip, r.2 = some ip ∧ New t r.1 ip) (createEntry t dp name T_FILE major minor) := by
  refine (ialloc_allocated T_FILE hS).bind ?_
  rintro ⟨t₁, ip⟩ ⟨h₁, hunused, href₁, hfree, -⟩
  have hne : dp ≠ ip := by
    rintro rfl
    simp only at hunused
    omega
  simp only at h₁ href₁ hfree ⊢
  rw [if_neg hne.symm]
  refine (ilock_only h₁.inv (by rw [href₁]; exact Nat.one_pos)).bind ?_
  rintro t₂ ⟨h₂, href₂, hin₂, hv₂⟩
  rw [href₁] at href₂
  have hpos₂ : 0 < (t₂.itable ip).ref := by rw [href₂]; exact Nat.one_pos
  obtain ⟨t₃, ht₃⟩ : ∃ t₃, t₃ = iupdate t₂ ip { (t₂.itable ip).toDinode with
    major := major, minor := minor, nlink := 1 } := ⟨_, rfl⟩
  have h₃ : OnlyEntry t₂ t₃ ip := by
    rw [ht₃]
    exact iupdate_only h₂.inv hpos₂ hv₂ ⟨rfl, rfl, rfl⟩
  have hentry : (t₃.itable ip).nlink = 1 ∧ (t₃.itable ip).inum = (t₁.itable ip).inum ∧ (t₃.itable ip).ref = 1 ∧
      (t₃.itable ip).valid = true := by
    rw [ht₃]
    simp only [iupdate, Fs.Sys.setInode, Function.update_self]
    exact ⟨trivial, hin₂, href₂, hv₂⟩
  have hall := (h₁.trans h₂).trans h₃
  have hdp := hall.other dp hne
  rw [← ht₃, if_neg (show ¬T_FILE = T_DIR by decide), ok_bind]
  refine (dirlink_only _ hall.inv (by rw [hdp]; exact hr) (by rw [hdp]; exact hv)).bind ?_
  rintro ⟨t₄, _ | _⟩ h₄
  · exact .error trivial
  · obtain ⟨h₄, href₄⟩ := h₄ rfl
    refine (iput_only h₄.inv ?_).bind ?_
    · rw [href₄, hdp]
      exact hr
    · intro t₅ h₅
      have hip₅ : t₅.itable ip = t₃.itable ip :=
        (h₅.other ip hne.symm).trans (h₄.other ip hne.symm)
      refine .ok ⟨ip, rfl, h₅.inv, ?_, ?_, ?_, ?_, ?_⟩
      · rw [h₅.sb, h₄.sb, hall.sb]
      · rw [hip₅, hentry.2.2.1]
        exact Nat.one_pos
      · rw [hip₅, hentry.2.2.2]
      · rw [hip₅, hentry.1]
        decide
      · rw [hip₅, hentry.2.1]
        exact hfree

/-! ## The inode to open -/

/-- The call makes a new file. -/
def Creates (s : Fs.Sys) (cwd : Fin NINODE) (path : List UInt8) (omode : UInt32) : Prop :=
  omode &&& O_CREATE ≠ 0 ∧ Missing s cwd path

/-- The inode is held: one that was there, or a new one. -/
def OpenPost (s : Fs.Sys) (cwd : Fin NINODE) (path : List UInt8) (omode : UInt32)
    (r : Fs.Sys × Option (Fin NINODE)) : Prop :=
  match r.2 with
  | none => Near s r.1 0 ∧ ¬Creates s cwd path omode
  | some ip =>
      (Near s r.1 (Pi.single ip 1) ∧ Present s (r.1.itable ip).inum ∧ ¬Creates s cwd path omode) ∨
        (New s r.1 ip ∧ Creates s cwd path omode)

theorem openInode_post (path : List UInt8) (omode : UInt32) (hS : Sound s) (hc : 0 < (s.itable cwd).ref) :
    Sat (fun _ => True) (OpenPost s cwd path omode) (openInode s cwd path omode) := by
  unfold openInode
  by_cases hcreate : omode &&& O_CREATE ≠ 0
  · rw [if_pos hcreate]
    have hnew : ∀ t dp name, DirLocked s t dp → Sat (fun _ => True) (fun r => ∃ ip, r.2 = some ip ∧ New s r.1 ip)
        (createEntry t dp name T_FILE 0 0) := by
      intro t dp name hdp
      refine (createEntry_new name 0 0 (hdp.near.sound_single hS hdp.present) hdp.ref hdp.valid).mono (fun _ he => he) ?_
      rintro r ⟨ip, hr, hnew⟩
      exact ⟨ip, hr, hnew.inv, hnew.sb.trans hdp.near.sb, hnew.ref, hnew.valid, hnew.nlink,
        by rw [← hdp.near.dinode]; exact hnew.free⟩
    refine (create_near (New s) path T_FILE 0 0 hS hc hnew).mono (fun _ he => he) ?_
    rintro ⟨t, _ | ip⟩ hpost
    · exact ⟨hpost.1, fun h => hpost.2 h.2⟩
    · rcases hpost with ⟨h1, h2, h3⟩ | ⟨h1, h2⟩
      · exact Or.inl ⟨h1, h2, fun h => h3 h.2⟩
      · exact Or.inr ⟨h1, hcreate, h2⟩
  · rw [if_neg hcreate]
    have hno : ¬Creates s cwd path omode := fun h => hcreate h.1
    refine (namei_near path hS hc).bind ?_
    rintro ⟨t, _ | ip⟩ hfound
    · exact .ok ⟨hfound, hno⟩
    · obtain ⟨hnear, hp, -⟩ := hfound
      obtain ⟨t₁, hlock, hnear₁, hin₁, -⟩ := ilock_near hnear (hnear.held (single_pos ip)) hp.1
      rw [← hin₁] at hp
      simp only [hlock, ok_bind]
      split
      · obtain ⟨t₂, hput, hnear₂⟩ := iput_single hnear₁ hp
        rw [hput, ok_bind]
        exact .ok ⟨hnear₂, hno⟩
      · exact .ok (Or.inl ⟨hnear₁, hp, hno⟩)

/-! ## Files and descriptors -/

theorem filealloc_cases (S : State) :
    (∃ f, (S.ftable f).ref = 0 ∧ filealloc S = (S.setFile f { S.ftable f with ref := 1 }, some f)) ∨
      ((∀ f, (S.ftable f).ref ≠ 0) ∧ filealloc S = (S, none)) := by
  unfold filealloc
  cases hf : (List.finRange NFILE).find? fun f => (S.ftable f).ref = 0 with
  | none =>
      refine Or.inr ⟨fun f => ?_, rfl⟩
      simpa using List.find?_eq_none.mp hf f (List.mem_finRange f)
  | some f => exact Or.inl ⟨f, by simpa using List.find?_some hf, rfl⟩

theorem fdalloc_cases (S : State) (f : Fin NFILE) :
    (∃ fd, S.ofile fd = none ∧ fdalloc S f = (S.setFd fd (some f), some fd)) ∨
      ((∀ fd, S.ofile fd ≠ none) ∧ fdalloc S f = (S, none)) := by
  unfold fdalloc
  cases hf : (List.finRange NOFILE).find? fun fd => S.ofile fd = none with
  | none =>
      refine Or.inr ⟨fun fd => ?_, rfl⟩
      simpa using List.find?_eq_none.mp hf fd (List.mem_finRange fd)
  | some fd => exact Or.inl ⟨fd, by simpa using List.find?_some hf, rfl⟩

/-- A file that is not open has no type. -/
def Closed (S : State) : Prop := ∀ f, (S.ftable f).ref = 0 → (S.ftable f).type = .none

theorem setFile_idem (S : State) (f : Fin NFILE) (file file' : File) :
    (S.setFile f file).setFile f file' = S.setFile f file' := by
  simp only [State.setFile, Function.update_idem]

theorem setFile_self (S : State) (f : Fin NFILE) : S.setFile f (S.ftable f) = S := by
  simp only [State.setFile, Function.update_eq_self]

/-- The last reference to a file without a type. -/
theorem fileclose_none {S : State} {f : Fin NFILE} (hr : (S.ftable f).ref = 1) (hn : (S.ftable f).type = .none) :
    fileclose S f = .ok (S.setFile f { S.ftable f with type := .none, ref := 0 }) := by
  unfold fileclose
  simp only [hr, hn]
  rfl

/-- Closing a file that has just been allocated frees it. -/
theorem fileclose_new {S : State} {f : Fin NFILE} (h0 : (S.ftable f).ref = 0) (hn : (S.ftable f).type = .none) :
    fileclose (S.setFile f { S.ftable f with ref := 1 }) f = .ok S := by
  have hself : (S.setFile f { S.ftable f with ref := 1 }).ftable f = { S.ftable f with ref := 1 } :=
    Function.update_self _ _ _
  have hfile : ({ S.ftable f with type := .none, ref := 0 } : File) = S.ftable f := by
    rw [← hn, ← h0]
  rw [fileclose_none (by rw [hself]) (by rw [hself]; exact hn), setFile_idem, hself]
  show Except.ok (S.setFile f { S.ftable f with type := .none, ref := 0 }) = _
  rw [hfile, setFile_self]

/-- A new inode stays when its reference is given back. -/
theorem New.iput (h : New s t ip) : ∃ t', iput t ip = .ok t' ∧ t'.blk = t.blk := by
  refine ⟨t.setInode ip { t.itable ip with ref := (t.itable ip).ref - 1 }, ?_, rfl⟩
  rw [Syscall.iput, Fs.iput]
  simp only
  rw [if_neg fun hlast => h.nlink hlast.2.2]
  rfl

theorem New.blk_ne (h : New s t ip) : t.blk ≠ s.blk := by
  intro hblk
  obtain ⟨hcopy, htype⟩ := h.inv.copy h.ref h.valid
  apply htype
  rw [hcopy, h.sb, hblk]
  exact h.free

/-! ## `sys_open` -/

variable {S T : State}

/-- The end of `sys_open` that gives the inode back. -/
theorem openBad_post {path : List UInt8} {omode : UInt32} {fs : Fs.Sys}
    (hpost : OpenPost S.fs S.cwd path omode (fs, some ip)) :
    Sat (fun _ => True) (fun r => r.2 = -1 → (Unchanged S r.1 ↔ ¬Creates S.fs S.cwd path omode))
      (openBad { S with fs := fs } ip) := by
  rcases hpost with ⟨hnear, hp, hno⟩ | ⟨hnew, hyes⟩
  · obtain ⟨t, hput, hnear'⟩ := iput_single hnear hp
    rw [openBad, hput, ok_bind]
    exact .ok fun _ => iff_of_true ⟨hnear', rfl, rfl, rfl, rfl, rfl⟩ hno
  · obtain ⟨t, hput, hblk⟩ := hnew.iput
    rw [openBad, hput, ok_bind]
    refine .ok fun _ => iff_of_false (fun hun => ?_) (not_not.mpr hyes)
    exact hnew.blk_ne (hblk.symm.trans hun.fs.blk)

/-- **`sys_open`**, when it returns -1. -/
theorem sysOpen_post (path : List UInt8) (omode : UInt32) (hS : Sound S.fs) (hc : 0 < (S.fs.itable S.cwd).ref)
    (hcl : Closed S) :
    Sat (fun _ => True) (fun r => r.2 = -1 → (Unchanged S r.1 ↔ ¬Creates S.fs S.cwd path omode))
      (sysOpen S (some path) omode) := by
  refine (openInode_post path omode hS hc).bind ?_
  rintro ⟨fs, _ | ip⟩ hpost
  · exact .ok fun _ => iff_of_true ⟨hpost.1, rfl, rfl, rfl, rfl, rfl⟩ hpost.2
  · have hbad := openBad_post hpost
    simp only
    split
    · exact hbad
    · rcases filealloc_cases { S with fs := fs } with ⟨f, h0, halloc⟩ | ⟨-, halloc⟩
      · simp only [halloc]
        rcases fdalloc_cases (State.setFile { S with fs := fs } f { S.ftable f with ref := 1 }) f with
          ⟨fd, -, hfd⟩ | ⟨-, hfd⟩
        · simp only [hfd]
          refine (sat_trivial _).bind fun _ _ => .ok fun hret => ?_
          simp only at hret
          omega
        · simp only [hfd]
          rw [fileclose_new (S := { S with fs := fs }) h0 (hcl f h0), ok_bind]
          exact hbad
      · simp only [halloc]
        exact hbad

/-- A root directory without entries, one free inode and two free blocks. -/
def rootFs : Fs.Sys where
  sb := Fs.smallDisk
  blk b o := if b = 3 ∧ o = 0 then 15 else if b = 2 ∧ (o = 64 ∨ o = 70) then 1 else 0
  itable i := { Fs.Dinode.fresh 0 with inum := 1, ref := if i = Fs.entry0 then 1 else 0, valid := false }

theorem rootFs_sound : Sound rootFs := by
  have hempty : ∀ inum < rootFs.sb.ninodes, (dinode rootFs.sb rootFs.blk inum).size = 0 ∧
      ∀ k, (dinode rootFs.sb rootFs.blk inum).addrs k = 0 := by decide +kernel
  have hbits : ∀ b < rootFs.sb.data, Fs.bit rootFs.sb rootFs.blk b = true := by decide +kernel
  have hroot : Live rootFs.sb (dinode rootFs.sb rootFs.blk) ROOTINO := by decide +kernel
  have hlink : (dinode rootFs.sb rootFs.blk ROOTINO).nlink ≠ 0 := by decide +kernel
  have hone : ∀ i, 0 < (rootFs.itable i).ref → i = Fs.entry0 := by
    intro i hi
    by_contra hne
    simp [rootFs, hne] at hi
  exact sound_of_empty hempty hbits ⟨hroot, Or.inl hlink⟩ (fun _ _ => ⟨hroot, rfl⟩)
    fun hi hj _ => (hone _ hi).trans (hone _ hj).symm

/-- A process in the root directory, when `n` of the files in the table are open. -/
def busyState (n : Nat) : State :=
  { flatState with
    fs := rootFs
    ftable := fun f => { flatState.ftable f with ref := if (f : Nat) < n then 1 else 0 } }

end Xv6.Syscall
