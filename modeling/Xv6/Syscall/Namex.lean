import Xv6.Lib.Lines
import Xv6.Syscall.Lookup

/-!
# `Syscall.Namex` — resolution of paths

`components` are the names in a path and `resolve` follows them through the directories. On a file system without
dangling entries, **`namei` returns the inode that `resolve` names, and `nameiparent` the one that it names for all but
the last component**; the references that are taken on the way are given back, whatever happens. Only a full inode
table stops the loop.
-/

namespace Xv6.Syscall

open Fs (NINODE dinode Live)
open Lines (splitOn_of_notMem splitOn_first)
open Lockstep (ok_bind)
open Outcome (Sat)

/-! ## Components -/

/-- The nonempty parts of a path between slashes, each cut to its first `DIRSIZ` bytes. -/
def components (path : List UInt8) : List Name :=
  ((path.splitOn slash).filter (· ≠ [])).map (List.take DIRSIZ)

/-- What call number `k` of `skipelem` stores in `name`, each call on the path that the one before it returned;
    `none` if it returns 0. -/
def skips : Nat → List UInt8 → Option Name
  | 0, path => (skipelem path).map Prod.fst
  | k + 1, path => (skipelem path).bind fun r => skips k r.2

variable {path rest : List UInt8} {name : Name}

theorem components_slash (path : List UInt8) : components (slash :: path) = components path := by
  have h : (slash :: path).splitOn slash = [] :: path.splitOn slash := splitOn_first (l := []) (by simp) path
  rw [components, h, List.filter_cons_of_neg (by simp)]
  rfl

theorem components_dropWhile (path : List UInt8) : components (path.dropWhile (· = slash)) = components path := by
  induction path with
  | nil => rfl
  | cons c path ih =>
      rw [List.dropWhile_cons]
      by_cases hc : c = slash
      · rw [if_pos (by simpa using hc), ih, hc, components_slash]
      · rw [if_neg (by simpa using hc)]

theorem notMem_takeWhile (path : List UInt8) : slash ∉ path.takeWhile (· ≠ slash) := by
  intro h
  simpa using List.mem_takeWhile_imp h

/-- A path that does not start with a slash starts with a component. -/
theorem takeWhile_ne_nil (hpath : path ≠ []) (hhead : path.dropWhile (· = slash) = path) :
    path.takeWhile (· ≠ slash) ≠ [] := by
  cases path with
  | nil => exact absurd rfl hpath
  | cons c path =>
      have hc : c ≠ slash := by
        rintro rfl
        rw [List.dropWhile_cons, if_pos (by simp)] at hhead
        have := congrArg List.length hhead
        have hle := (List.dropWhile_sublist (fun x => decide (x = slash)) (l := path)).length_le
        rw [List.length_cons] at this
        omega
      rw [List.takeWhile_cons, if_pos (by simpa using hc)]
      exact List.cons_ne_nil _ _

theorem components_cons (hpath : path ≠ []) (hhead : path.dropWhile (· = slash) = path) :
    components path = (path.takeWhile (· ≠ slash)).take DIRSIZ :: components (path.dropWhile (· ≠ slash)) := by
  have hne := takeWhile_ne_nil hpath hhead
  have hsplit := List.takeWhile_append_dropWhile (p := fun c => decide (c ≠ slash)) (l := path)
  conv_lhs => rw [← hsplit]
  cases hd : path.dropWhile (· ≠ slash) with
  | nil =>
      rw [List.append_nil, components, splitOn_of_notMem (notMem_takeWhile path),
        List.filter_cons_of_pos (by simpa using hne)]
      rfl
  | cons c r =>
      have hc : c = slash := by
        have := List.head?_dropWhile_not (fun c => decide (c ≠ slash)) path
        rw [hd] at this
        simpa using this
      rw [hc, components_slash, components, splitOn_first (notMem_takeWhile path),
        List.filter_cons_of_pos (by simpa using hne), List.map_cons]
      rfl

/-- `skipelem` takes the first component off the path. -/
theorem skipelem_components (path : List UInt8) :
    (skipelem path = none ∧ components path = []) ∨
      ∃ name rest, skipelem path = some (name, rest) ∧ components path = name :: components rest ∧
        rest.length < path.length := by
  rw [skipelem]
  have hdrop := components_dropWhile path
  have hle : (path.dropWhile (· = slash)).length ≤ path.length := (List.dropWhile_sublist _).length_le
  by_cases hnil : path.dropWhile (· = slash) = []
  · rw [if_pos hnil]
    rw [hnil] at hdrop
    exact Or.inl ⟨rfl, hdrop.symm⟩
  · rw [if_neg hnil]
    have hidem := List.dropWhile_idempotent (p := fun c => decide (c = slash)) (l := path)
    refine Or.inr ⟨_, _, rfl, ?_, ?_⟩
    · rw [← hdrop, components_cons hnil hidem, components_dropWhile]
    · generalize path.dropWhile (· = slash) = p at hnil hidem hle ⊢
      have hpos := List.length_pos_iff.mpr (takeWhile_ne_nil hnil hidem)
      have hsum := congrArg List.length
        (List.takeWhile_append_dropWhile (p := fun c => decide (c ≠ slash)) (l := p))
      have hrest := (List.dropWhile_sublist (fun c => decide (c = slash)) (l := p.dropWhile (· ≠ slash))).length_le
      rw [List.length_append] at hsum
      omega

/-- **Repeated `skipelem`** yields the components, and then 0. -/
theorem skips_eq (k : Nat) (path : List UInt8) : skips k path = (components path)[k]? := by
  induction k generalizing path with
  | zero =>
      rcases skipelem_components path with ⟨h1, h2⟩ | ⟨name, rest, h1, h2, -⟩
      · rw [skips, h1, h2]
        rfl
      · rw [skips, h1, h2]
        rfl
  | succ k ih =>
      rcases skipelem_components path with ⟨h1, h2⟩ | ⟨name, rest, h1, h2, -⟩
      · rw [skips, h1, h2]
        rfl
      · rw [skips, h1, h2, List.getElem?_cons_succ]
        exact ih rest

/-- The turns of the loop of `namex`. -/
theorem elems_eq {n : Nat} (hn : path.length ≤ n) : elems n path = components path := by
  induction n generalizing path with
  | zero =>
      rw [List.length_eq_zero_iff.mp (Nat.le_zero.mp hn)]
      rfl
  | succ n ih =>
      rcases skipelem_components path with ⟨h1, h2⟩ | ⟨name, rest, h1, h2, h3⟩
      · rw [elems, h1, h2]
      · rw [elems, h1, h2]
        simp only
        rw [ih (by omega)]

/-! ## Resolution -/

/-- The inode number of a name in a directory. -/
def lookup (s : Fs.Sys) (d : Nat) (name : Name) : Option Nat := (findFrom name 0 (entries s d)).map Prod.snd

/-- The inode reached from `d`: directory lookup, folded over the names. -/
def resolve (s : Fs.Sys) : Nat → List Name → Option Nat
  | d, [] => some d
  | d, name :: names => if IsDir s d then (lookup s d name).bind fun d' => resolve s d' names else none

/-- The directory of the last component, and that component. -/
def resolveParent (s : Fs.Sys) (d : Nat) (names : List Name) : Option (Nat × Name) := do
  let last ← names.getLast?
  let dir ← resolve s d names.dropLast
  if IsDir s dir then some (dir, last) else none

/-- Where resolution starts. -/
def start (s : Fs.Sys) (cwd : Fin NINODE) (path : List UInt8) : Nat :=
  if path.head? = some slash then ROOTINO else (s.itable cwd).inum

/-- The inode is allocated, and linked or in use. -/
def Present (s : Fs.Sys) (inum : Nat) : Prop := Live s.sb (dinode s.sb s.blk) inum ∧ Kept s inum

/-- No dangling entries: the root, the inodes in the table and every inode that is named in a directory are there. -/
structure NoDangling (s : Fs.Sys) : Prop where
  root : Present s ROOTINO
  held : ∀ i, 0 < (s.itable i).ref → Live s.sb (dinode s.sb s.blk) (s.itable i).inum
  aligned : ∀ d, IsDir s d → Aligned s d
  linked : ∀ d, IsDir s d → ∀ e ∈ entries s d, e.inum ≠ 0 → Present s e.inum

/-- A consistent file system without dangling entries. -/
structure Sound (s : Fs.Sys) : Prop extends NoDangling s where
  inv : Fs.Inv s

variable {s t : Fs.Sys} {acq : Fin NINODE → Nat} {i : Fin NINODE} {d : Nat} {names : List Name}

theorem resolveParent_cons {names : List Name} (hnames : names ≠ []) :
    resolveParent s d (name :: names) =
      if IsDir s d then (lookup s d name).bind fun d' => resolveParent s d' names else none := by
  unfold resolveParent
  rw [List.getLast?_cons_of_ne_nil hnames, List.dropLast_cons_of_ne_nil hnames, resolve]
  by_cases hd : IsDir s d
  · rw [if_pos hd, if_pos hd]
    cases lookup s d name with
    | none => cases names.getLast? <;> rfl
    | some d' => rfl
  · rw [if_neg hd, if_neg hd]
    cases names.getLast? <;> rfl

theorem lookup_present (hS : Sound s) (hd : IsDir s d) {k m : Nat} (h : findFrom name 0 (entries s d) = some (k, m)) :
    Present s m := by
  obtain ⟨-, hget, h0⟩ := findFrom_eq_some h
  exact hS.linked d hd _ (List.mem_of_getElem? hget) h0

/-! ## Following a path -/

/-- What a lookup in the locked directory `i` returns, and what it changes: the inode found is referenced. -/
def LookedUp (s t : Fs.Sys) (acq : Fin NINODE → Nat) (i : Fin NINODE) (name : Name)
    (r : Fs.Sys × Option (Fin NINODE × Nat)) : Prop :=
  match r.2 with
  | none => r.1 = t ∧ findFrom name 0 (entries s (t.itable i).inum) = none
  | some (j, k) => Near s r.1 (acq + Pi.single j 1) ∧ Steady t r.1 ∧
      findFrom name 0 (entries s (t.itable i).inum) = some (k, (r.1.itable j).inum)

theorem Near.entries (h : Near s t acq) (d : Nat) : entries t d = Syscall.entries s d := by
  rw [Syscall.entries, Fs.Sys.files, h.sb, h.blk]
  rfl

/-- A locked directory is one on disk. -/
theorem Near.isDir (h : Near s t acq) (hr : 0 < (t.itable i).ref) (hv : (t.itable i).valid = true)
    (htype : (t.itable i).type = T_DIR) : IsDir s (t.itable i).inum := by
  refine ⟨(h.live _).mp (h.inv.live hr hv), ?_⟩
  rw [← h.dinode, ← (h.inv.copy hr hv).1, htype]

theorem Near.aligned (h : Near s t acq) (hS : Sound s) (hd : IsDir s d) : Aligned t d := by
  have := hS.aligned d hd
  unfold Aligned at this ⊢
  rwa [h.dinode]

theorem dirlookup_near (name : Name) (hS : Sound s) (h : Near s t acq) (hr : 0 < (t.itable i).ref)
    (hv : (t.itable i).valid = true) (htype : (t.itable i).type = T_DIR) :
    Sat (Crowded s (∑ k, acq k)) (LookedUp s t acq i name) (dirlookup t i name) := by
  have hdir := h.isDir hr hv htype
  rw [dirlookup_eq (loaded_of_locked h.inv hr hv) htype (h.aligned hS hdir), h.entries]
  cases hfind : findFrom name 0 (entries s (t.itable i).inum) with
  | none => exact .ok ⟨rfl, hfind⟩
  | some r =>
      obtain ⟨k, m⟩ := r
      have hm := lookup_present hS hdir hfind
      refine (iget_near h hm.1.1).bind fun r hr => .ok ?_
      obtain ⟨hnear, hin, hsteady⟩ := hr
      exact ⟨hnear, hsteady, by rw [hfind, hin]⟩

/-- What the loop of `namex` returns from directory `d`, and what it changes: the inode found is referenced. -/
def Found (s : Fs.Sys) (nameiparent : Bool) (d : Nat) (names : List Name)
    (r : Fs.Sys × Option (Fin NINODE × Name)) : Prop :=
  match r.2 with
  | none => Near s r.1 0 ∧
      if nameiparent then resolveParent s d names = none else resolve s d names = none
  | some (j, name) => Near s r.1 (Pi.single j 1) ∧ Present s (r.1.itable j).inum ∧
      if nameiparent then resolveParent s d names = some ((r.1.itable j).inum, name)
      else resolve s d names = some (r.1.itable j).inum

theorem resolveParent_singleton :
    resolveParent s d [name] = if IsDir s d then some (d, name) else none := rfl

theorem Found.cons {np : Bool} {d' : Nat} {r : Fs.Sys × Option (Fin NINODE × Name)}
    (hd : IsDir s d) (hl : lookup s d name = some d') (hlast : ¬(np = true ∧ names = []))
    (h : Found s np d' names r) : Found s np d (name :: names) r := by
  have hres : resolve s d (name :: names) = resolve s d' names := by
    rw [resolve, if_pos hd, hl]
    rfl
  have hpar : np = true → resolveParent s d (name :: names) = resolveParent s d' names := by
    intro hnp
    rw [resolveParent_cons (fun h0 => hlast ⟨hnp, h0⟩), if_pos hd, hl]
    rfl
  unfold Found at h ⊢
  rw [hres]
  cases np with
  | false => exact h
  | true =>
      rw [hpar rfl]
      exact h

/-- The loop has stopped at a missing name, or at an inode that is not a directory. -/
theorem Found.stop {np : Bool} (h : Near s t 0) (hd : IsDir s d → lookup s d name = none ∧ ¬(np = true ∧ names = [])) :
    Found s np d (name :: names) (t, none) := by
  have hres : resolve s d (name :: names) = none := by
    rw [resolve]
    split
    · rename_i hdir
      rw [(hd hdir).1]
      rfl
    · rfl
  have hpar : np = true → resolveParent s d (name :: names) = none := by
    intro hnp
    cases names with
    | nil =>
        rw [resolveParent_singleton, if_neg fun hdir => (hd hdir).2 ⟨hnp, rfl⟩]
    | cons n ns =>
        rw [resolveParent_cons (List.cons_ne_nil _ _)]
        split
        · rename_i hdir
          rw [(hd hdir).1]
          rfl
        · rfl
  refine ⟨h, ?_⟩
  split
  · rename_i hnp
    exact hpar hnp
  · exact hres

/-- **The loop of `namex`**, by induction on the names that are left: one turn moves the reference from the directory to
    the inode found in it. -/
theorem namexLoop_near (np : Bool) (names : List Name) (hS : Sound s) (h : Near s t (Pi.single i 1)) (hp : Present s (t.itable i).inum) :
    Sat (Crowded s 1) (Found s np (t.itable i).inum names) (namexLoop t np i names) := by
  induction names generalizing t i with
  | nil =>
      rw [namexLoop]
      cases np with
      | false => exact .ok ⟨h, hp, rfl⟩
      | true =>
          have h' : Near s t (0 + Pi.single i 1) := by rwa [zero_add]
          obtain ⟨t', hput, hnear, -⟩ := iput_near h' hp.2
          rw [if_pos rfl, hput]
          exact .ok ⟨hnear, rfl⟩
  | cons name names ih =>
      have hr := h.held (single_pos i)
      obtain ⟨t₁, hlock, h₁, hin₁, hv₁, hd₁, -⟩ := ilock_near h hr hp.1
      have hr₁ := h₁.held (single_pos i)
      have hdir : IsDir s (t.itable i).inum ↔ (t₁.itable i).type = T_DIR := by
        rw [hd₁]
        exact ⟨And.right, fun ht => ⟨hp.1, ht⟩⟩
      have hput : ∃ t', iput t₁ i = .ok t' ∧ Near s t' 0 ∧ Steady t₁ t' :=
        iput_near (by rwa [zero_add]) (by rw [hin₁]; exact hp.2)
      rw [namexLoop, hlock, ok_bind]
      by_cases htype : (t₁.itable i).type = T_DIR
      · rw [if_neg (not_not.mpr htype)]
        by_cases hlast : np = true ∧ names = []
        · rw [if_pos hlast]
          obtain ⟨rfl, rfl⟩ := hlast
          refine .ok ⟨h₁, by rwa [hin₁], ?_⟩
          rw [if_pos rfl, resolveParent_singleton, if_pos (hdir.mpr htype), hin₁]
        · rw [if_neg hlast]
          have hlook := dirlookup_near name hS h₁ hr₁ hv₁ htype
          rw [Finset.sum_pi_single' i 1 Finset.univ, if_pos (Finset.mem_univ i)] at hlook
          refine hlook.bind fun r hr => ?_
          obtain ⟨t₂, _ | ⟨j, k⟩⟩ := r
          · obtain ⟨rfl, hnone⟩ := hr
            obtain ⟨t', hput, hnear, -⟩ := hput
            rw [hin₁] at hnone
            simp only [hput, ok_bind]
            exact .ok (.stop hnear fun _ => ⟨by rw [lookup, hnone]; rfl, hlast⟩)
          · obtain ⟨h₂, hst, hfind⟩ := hr
            rw [hin₁] at hfind
            have hin₂ : (t₂.itable i).inum = (t.itable i).inum := by
              rw [(hst i hr₁ (h₂.held (Nat.lt_add_right _ (single_pos i)))).1, hin₁]
            rw [add_comm] at h₂
            obtain ⟨t₃, hput₃, h₃, hst₃⟩ := iput_near h₂ (by rw [hin₂]; exact hp.2)
            have hin₃ : (t₃.itable j).inum = (t₂.itable j).inum :=
              (hst₃ j (h₂.held (Nat.lt_add_right _ (single_pos j))) (h₃.held (single_pos j))).1
            simp only [hput₃, ok_bind]
            refine (ih h₃ ?_).mono (fun _ he => he) fun r hr => hr.cons (hdir.mpr htype) ?_ hlast
            · rw [hin₃]
              exact lookup_present hS (hdir.mpr htype) hfind
            · rw [lookup, hfind, hin₃]
              rfl
      · obtain ⟨t', hput, hnear, -⟩ := hput
        rw [if_pos htype, hput, ok_bind]
        exact .ok (.stop hnear fun hd => absurd (hdir.mp hd) htype)

theorem namex_near {cwd : Fin NINODE} (np : Bool) (path : List UInt8) (hS : Sound s) (hc : 0 < (s.itable cwd).ref) :
    Sat (Crowded s 1) (Found s np (start s cwd path) (components path)) (namex s cwd path np) := by
  have h0 := Near.refl hS.inv
  rw [namex, elems_eq le_rfl, start]
  split
  · refine ((iget_near h0 hS.root.1.1).mono (fun e he => he.mono ?_) fun r hr => hr).bind fun r hr => ?_
    · simp
    · obtain ⟨hnear, hin, -⟩ := hr
      rw [zero_add] at hnear
      have := namexLoop_near np (components path) hS hnear (by rw [hin]; exact hS.root)
      rwa [hin] at this
  · obtain ⟨hnear, hin⟩ := idup_near h0 hc
    rw [zero_add] at hnear
    have := namexLoop_near np (components path) hS hnear
      (by rw [hin]; exact ⟨hS.held cwd hc, Or.inr ⟨cwd, hc, rfl⟩⟩)
    rwa [hin] at this

/-- The references that are held are one to the inode returned, if there is one. -/
def OneMore (s t : Fs.Sys) (r : Option (Fin NINODE)) : Prop :=
  ∀ i, (t.itable i).ref = (s.itable i).ref + if r = some i then 1 else 0

theorem Near.oneMore (h : Near s t (Pi.single i 1)) : OneMore s t (some i) := by
  intro k
  rw [h.ref k, Pi.single_apply]
  simp only [Option.some.injEq, eq_comm]

/-- With two entries of the table to spare, nothing fails. -/
theorem exists_ok_of_free {α : Type} {Q : α → Prop} {x : Except Panic α} (h : Sat (Crowded s 1) Q x)
    (hfree : 2 ≤ freeEntries s) : ∃ a, x = .ok a ∧ Q a := by
  refine (h.mono (fun e he => ?_) fun a ha => ha).exists_ok
  have := he.2
  omega

/-! ## File systems without contents -/

/-- A file system whose inodes are all empty. -/
theorem sound_of_empty (hempty : ∀ inum < s.sb.ninodes,
      (dinode s.sb s.blk inum).size = 0 ∧ ∀ k, (dinode s.sb s.blk inum).addrs k = 0)
    (hreserved : ∀ b < s.sb.data, Fs.bit s.sb s.blk b = true) (hroot : Present s ROOTINO)
    (hheld : ∀ i, 0 < (s.itable i).ref → Live s.sb (dinode s.sb s.blk) (s.itable i).inum ∧ (s.itable i).valid = false)
    (hinj : ∀ {i j}, 0 < (s.itable i).ref → 0 < (s.itable j).ref → (s.itable i).inum = (s.itable j).inum → i = j) :
    Sound s := by
  have hrefs : ∀ k b, Fs.refs s.sb (dinode s.sb s.blk) s.blk k ≠ some b := by
    rintro ⟨inum, p⟩ b
    unfold Fs.refs
    split
    · rename_i hl
      have ha := (hempty inum hl.1).2
      cases p with
      | addr k => simp [Fs.refsOf, ha, Fs.target]
      | entry j => simp [Fs.refsOf, ha, Fs.target]
    · exact fun heq => by cases heq
  have hlen : ∀ d, IsDir s d → entries s d = [] := by
    intro d hd
    have hfile : (s.files d).length = 0 := by
      rw [Fs.files_of_live hd.1, Fs.length_content, (hempty d hd.1.1).1]
      rfl
    rw [entries, List.length_eq_zero_iff.mp hfile]
    rfl
  refine ⟨⟨hroot, fun i hi => (hheld i hi).1, fun d hd => ?_, fun d hd e he => ?_⟩,
    ⟨⟨⟨?_, ?_⟩, hreserved, ?_⟩, ?_, ?_, hinj⟩⟩
  · rw [Aligned, (hempty d hd.1.1).1]
    rfl
  · rw [hlen d hd] at he
    cases he
  · exact fun h => absurd h (hrefs _ _)
  · exact fun h => absurd h (hrefs _ _)
  · intro inum hl bn hbn
    rw [(hempty inum hl.1).1] at hbn
    exact absurd hbn (Nat.not_lt_zero _)
  · exact fun hr => (hheld _ hr).1.1
  · intro i hr hv
    rw [(hheld i hr).2] at hv
    cases hv

/-- A disk with 64 inodes and one data block. -/
def flatDisk : Fs.Superblock where
  size := 8
  nblocks := 1
  ninodes := 64
  inodestart := 2
  bmapstart := 6
  size_lt := by decide
  inodes_lt := by decide
  bitmap_lt := by decide

/-- An empty root directory and 62 empty files; the first `n` entries of the inode table are files in use. -/
def flatFs (n : Nat) : Fs.Sys where
  sb := flatDisk
  blk b o :=
    if b = 6 then (if o = 0 then 127 else 0)
    else if b = 2 ∧ o < 64 then 0
    else if o % 64 = 0 then (if b = 2 ∧ o = 64 then 1 else 2)
    else if o % 64 = 6 then 1 else 0
  itable i := { Fs.Dinode.fresh 0 with inum := i + 2, ref := if i < n then 1 else 0, valid := false }

theorem flatFs_sound (n : Nat) : Sound (flatFs n) := by
  have hempty : ∀ inum < flatDisk.ninodes, (dinode flatDisk (flatFs 0).blk inum).size = 0 ∧
      ∀ k, (dinode flatDisk (flatFs 0).blk inum).addrs k = 0 := by decide +kernel
  have hlive : ∀ inum < flatDisk.ninodes, 0 < inum → (dinode flatDisk (flatFs 0).blk inum).type ≠ 0 := by
    decide +kernel
  have hbits : ∀ b < flatDisk.data, Fs.bit flatDisk (flatFs 0).blk b = true := by decide +kernel
  have hlink : (dinode flatDisk (flatFs 0).blk ROOTINO).nlink ≠ 0 := by decide +kernel
  refine sound_of_empty hempty hbits ⟨⟨show 1 < 64 by decide, hlive 1 (by decide) (by decide)⟩, Or.inl hlink⟩ ?_ ?_
  · intro i _
    have hlt : (i : Nat) + 2 < flatDisk.ninodes := lt_trans (Nat.add_lt_add_right i.isLt 2) (by decide)
    exact ⟨⟨hlt, hlive _ hlt (Nat.succ_pos _)⟩, rfl⟩
  · intro i j _ _ hij
    exact Fin.ext (Nat.add_right_cancel hij)

/-- A root directory with a hole, on a disk without free blocks. -/
def holedFs : Fs.Sys where
  sb := Fs.smallDisk
  blk b o :=
    if b = 3 ∧ o = 0 then 63
    else if b = 2 ∧ (o = 64 ∨ o = 70) then 1
    else if b = 2 ∧ o = 72 then 16 else 0
  itable i := { Fs.Dinode.fresh 0 with inum := 1, ref := if i = Fs.entry0 then 1 else 0, valid := false }

theorem holedFs_noDangling : NoDangling holedFs := by
  have hroot : Live holedFs.sb (dinode holedFs.sb holedFs.blk) ROOTINO := by decide +kernel
  have hlink : (dinode holedFs.sb holedFs.blk ROOTINO).nlink ≠ 0 := by decide +kernel
  have hsize : ∀ d < holedFs.sb.ninodes, Aligned holedFs d := by
    unfold Aligned
    decide +kernel
  have hentries : ∀ d < holedFs.sb.ninodes, ∀ e ∈ entries holedFs d, e.inum = 0 := by decide +kernel
  exact ⟨⟨hroot, Or.inl hlink⟩, fun _ _ => hroot, fun d hd => hsize d hd.1.1,
    fun d hd e he h0 => absurd (hentries d hd.1.1 e he) h0⟩

/-! ## The result -/

end Xv6.Syscall
