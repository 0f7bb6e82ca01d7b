import Xv6.Fs.Takes
import Xv6.Syscall.Lookup

/-!
# `Syscall.DirMap` — a directory is a finite map

`Raw.dirlookup` and `Raw.dirlink` take a name as the source does: a pointer to bytes, of which `strncmp` and `strncpy`
use the first `DIRSIZ`, up to a NUL. They are `dirlookup` and `dirlink` of the name that these bytes spell (`nameAt`).

A directory changes by one entry at a time (`Put`), through `dirlink` or where `sys_unlink` clears an entry.
**`directory_is_map`**: names stay distinct, and each change is felt at its own name only.
-/

namespace Xv6.Syscall

open Logging (BSIZE)
open Fs (NINODE MAXFILE dinode Live Filled NoRoom Takes free missing touched)
open Lockstep (ok_bind)
open Outcome (Sat)

/-! ## Names in memory -/

/-- `kernel/string.c` -/
def strncmp (p q : Nat → UInt8) : Nat → Int
  | 0 => 0
  | n + 1 =>
      if p 0 ≠ 0 ∧ p 0 = q 0 then strncmp (fun k => p (k + 1)) (fun k => q (k + 1)) n
      else (p 0).toNat - (q 0).toNat

/-- The bytes that `strncpy(s, t, n)` stores at `s`. -/
def strncpy (t : Nat → UInt8) : Nat → List UInt8
  | 0 => []
  | n + 1 => if t 0 = 0 then List.replicate (n + 1) 0 else t 0 :: strncpy (fun k => t (k + 1)) n

def namecmp (s t : Nat → UInt8) : Int := strncmp s t DIRSIZ

/-- The characters at `p` up to a NUL, at most `n`. -/
def chars (p : Nat → UInt8) : Nat → Name
  | 0 => []
  | n + 1 => if p 0 = 0 then [] else p 0 :: chars (fun k => p (k + 1)) n

def nameAt (p : Nat → UInt8) : Name := chars p DIRSIZ

theorem strncmp_eq_zero (p q : Nat → UInt8) (n : Nat) : strncmp p q n = 0 ↔ chars p n = chars q n := by
  induction n generalizing p q with
  | zero => simp [strncmp, chars]
  | succ n ih =>
      rw [strncmp, chars, chars]
      by_cases hp : p 0 = 0
      · rw [if_neg fun h => h.1 hp, if_pos hp, hp]
        by_cases hq : q 0 = 0
        · simp [hq]
        · have : (q 0).toNat ≠ 0 := fun h => hq (UInt8.toNat_inj.mp h)
          simp [hq, this]
      · by_cases heq : p 0 = q 0
        · rw [if_pos ⟨hp, heq⟩, ih, if_neg hp, if_neg (heq ▸ hp), heq]
          simp
        · have : (p 0).toNat ≠ (q 0).toNat := fun h => heq (UInt8.toNat_inj.mp h)
          rw [if_neg fun h => heq h.2, if_neg hp]
          constructor
          · intro h
            omega
          · intro h
            split at h
            · cases h
            · exact absurd (List.cons.inj h).1 heq

theorem strncpy_eq (t : Nat → UInt8) (n : Nat) :
    strncpy t n = chars t n ++ List.replicate (n - (chars t n).length) 0 := by
  induction n generalizing t with
  | zero => rfl
  | succ n ih =>
      rw [strncpy, chars]
      by_cases h0 : t 0 = 0
      · rw [if_pos h0, if_pos h0]
        rfl
      · rw [if_neg h0, if_neg h0, ih, List.length_cons, Nat.succ_sub_succ]
        rfl

theorem length_chars_le (p : Nat → UInt8) (n : Nat) : (chars p n).length ≤ n := by
  induction n generalizing p with
  | zero => exact le_rfl
  | succ n ih =>
      rw [chars]
      split
      · exact Nat.zero_le _
      · exact Nat.succ_le_succ (ih _)

theorem chars_getD (bs : List UInt8) (n : Nat) : chars (fun k => bs.getD k 0) n = (bs.take n).takeWhile (· ≠ 0) := by
  induction n generalizing bs with
  | zero => simp [chars]
  | succ n ih =>
      cases bs with
      | nil => simp [chars]
      | cons b bs =>
          rw [chars, List.take_succ_cons, List.takeWhile_cons]
          by_cases hb : b = 0
          · simp [hb]
          · have hrest := ih bs
            simp only [List.getD_cons_succ, List.getD_cons_zero, hb, if_false, ne_eq, not_false_eq_true, decide_true,
              if_true, List.cons.injEq, true_and]
            exact hrest

/-! ## The functions of the source on names in memory -/

namespace Raw

/-- `de.name` -/
def deName (bs : List UInt8) (k : Nat) : UInt8 := bs.getD (2 + k) 0

/-- The loop of `dirlookup`, from entry `k` on with `n` turns left. -/
def dirlookupFrom (s : Fs.Sys) (i : Fin NINODE) (name : Nat → UInt8) :
    Nat → Nat → Except Panic (Fs.Sys × Option (Nat × Nat))
  | _, 0 => .ok (s, none)
  | k, n + 1 => do
      let (s, bs) ← readi s i (DESIZE * k) DESIZE
      match bs with
      | none => .error .dirlookupRead
      | some bs =>
          let inum := (Dirent.ofBytes bs).inum
          if inum ≠ 0 ∧ namecmp name (deName bs) = 0 then .ok (s, some (k, inum))
          else dirlookupFrom s i name (k + 1) n

/-- The number of the entry that `dirlookup` finds, and its `inum`. -/
def search (s : Fs.Sys) (i : Fin NINODE) (name : Nat → UInt8) : Except Panic (Fs.Sys × Option (Nat × Nat)) :=
  dirlookupFrom s i name 0 (slots (s.itable i).size)

def dirlookup (s : Fs.Sys) (i : Fin NINODE) (name : Nat → UInt8) :
    Except Panic (Fs.Sys × Option (Fin NINODE × Nat)) :=
  if (s.itable i).type ≠ T_DIR then .error .dirlookupNotDir
  else do
    let (s, found) ← search s i name
    match found with
    | none => .ok (s, none)
    | some (k, inum) =>
        let (s, j) ← liftFs (Fs.iget s inum)
        .ok (s, some (j, k))

def dirlink (s : Fs.Sys) (i : Fin NINODE) (name : Nat → UInt8) (inum : Nat) : Except Panic (Fs.Sys × Bool) := do
  let (s, found) ← dirlookup s i name
  match found with
  | some (j, _) =>
      let s ← iput s j
      .ok (s, false)
  | none =>
      let (s, k) ← emptyFrom s i 0 (slots (s.itable i).size)
      let (s, done) ← writei s i (DESIZE * k)
        ([UInt8.ofNat inum, UInt8.ofNat (inum / 256)] ++ strncpy name DIRSIZ)
      if done then .ok (s, true) else .error .dirlink

theorem namecmp_deName (p : Nat → UInt8) (bs : List UInt8) :
    namecmp p (deName bs) = 0 ↔ (Dirent.ofBytes bs).name = nameAt p := by
  have hname : chars (deName bs) DIRSIZ = (Dirent.ofBytes bs).name := by
    rw [Dirent.ofBytes, ← chars_getD]
    congr 1
    funext k
    rw [deName, List.getD_eq_getElem?_getD, List.getD_eq_getElem?_getD, List.getElem?_drop]
  rw [namecmp, strncmp_eq_zero, hname, nameAt, eq_comm]

theorem dirlookupFrom_eq (s : Fs.Sys) (i : Fin NINODE) (p : Nat → UInt8) (k n : Nat) :
    dirlookupFrom s i p k n = Syscall.dirlookupFrom s i (nameAt p) k n := by
  induction n generalizing s k with
  | zero => rfl
  | succ n ih =>
      rw [dirlookupFrom, Syscall.dirlookupFrom]
      cases readi s i (DESIZE * k) DESIZE with
      | error e => rfl
      | ok r =>
          obtain ⟨t, _ | bs⟩ := r
          · rfl
          · simp only [ok_bind, namecmp_deName, ih]

theorem dirlookup_eq (s : Fs.Sys) (i : Fin NINODE) (p : Nat → UInt8) :
    dirlookup s i p = Syscall.dirlookup s i (nameAt p) := by
  rewrite [dirlookup, Syscall.dirlookup, search, dirlookupFrom_eq]
  rfl

theorem dirlink_eq (s : Fs.Sys) (i : Fin NINODE) (p : Nat → UInt8) (inum : Nat) :
    dirlink s i p inum = Syscall.dirlink s i (nameAt p) inum := by
  have hbytes : [UInt8.ofNat inum, UInt8.ofNat (inum / 256)] ++ strncpy p DIRSIZ =
      Dirent.toBytes ⟨inum, nameAt p⟩ := by
    rw [strncpy_eq, Dirent.toBytes, nameAt, List.take_of_length_le (length_chars_le p DIRSIZ)]
  rewrite [dirlink, Syscall.dirlink, dirlookup_eq, hbytes]
  rfl

end Raw

/-! ## Entries -/

/-- No two entries in use have the same name. -/
def Distinct (es : List Dirent) : Prop :=
  ∀ (j k : Nat) (e e' : Dirent), es[j]? = some e → es[k]? = some e' → e.inum ≠ 0 → e'.inum ≠ 0 → e.name = e'.name → j = k

/-- Entry `k` has become `e`, or `e` has been added at the end. -/
def Put (es : List Dirent) (k : Nat) (e : Dirent) (es' : List Dirent) : Prop :=
  ∀ j, es'[j]? = if j = k then some e else es[j]?

variable {es es' : List Dirent} {e : Dirent} {name : Name} {k : Nat}

/-- With distinct names the search finds the one entry with the name. -/
theorem Distinct.find_iff (hd : Distinct es) {m : Nat} :
    findFrom name 0 es = some (k, m) ↔ es[k]? = some ⟨m, name⟩ ∧ m ≠ 0 := by
  constructor
  · intro h
    exact (findFrom_eq_some h).2
  · rintro ⟨hk, hm⟩
    cases hf : findFrom name 0 es with
    | none => exact absurd ⟨hm, rfl⟩ (findFrom_eq_none.mp hf _ (List.mem_of_getElem? hk))
    | some r =>
        obtain ⟨-, hr, hr0⟩ := findFrom_eq_some hf
        have hj := hd _ _ _ _ hr hk hr0 hm rfl
        rw [Nat.sub_zero] at hj hr
        rw [hj, hk] at hr
        cases hr
        rw [← hj]

theorem Put.self (h : Put es k e es') : es'[k]? = some e := by
  rw [h, if_pos rfl]

theorem Put.of_ne {j : Nat} (h : Put es k e es') (hj : j ≠ k) : es'[j]? = es[j]? := by
  rw [h, if_neg hj]

/-- An entry with a new name, or one that is not in use. -/
theorem Distinct.put (hd : Distinct es) (h : Put es k e es') (hnew : e.inum ≠ 0 → findFrom e.name 0 es = none) :
    Distinct es' := by
  have hfresh : ∀ j e', j ≠ k → es'[j]? = some e' → e.inum ≠ 0 → e'.inum ≠ 0 → e'.name ≠ e.name := by
    intro j e' hj he' h0 h0' hn
    rw [h.of_ne hj] at he'
    exact findFrom_eq_none.mp (hnew h0) _ (List.mem_of_getElem? he') ⟨h0', hn⟩
  intro j j' a b ha hb h0 h0' hn
  by_cases hj : j = k
  · subst hj
    cases h.self.symm.trans ha
    by_cases hj' : j' = j
    · exact hj'.symm
    · exact absurd hn.symm (hfresh _ _ hj' hb h0 h0')
  · by_cases hj' : j' = k
    · subst hj'
      cases h.self.symm.trans hb
      exact absurd hn (hfresh _ _ hj ha h0' h0)
    · rw [h.of_ne hj] at ha
      rw [h.of_ne hj'] at hb
      exact hd _ _ _ _ ha hb h0 h0' hn

/-- A name that neither the old nor the new entry has is found as before. -/
theorem Put.find_of_ne (h : Put es k e es') (hd : Distinct es) (hd' : Distinct es') (hne : e.inum ≠ 0 → e.name ≠ name)
    (hold : ∀ e', es[k]? = some e' → e'.inum ≠ 0 → e'.name ≠ name) : findFrom name 0 es' = findFrom name 0 es := by
  refine Option.ext fun ⟨j, m⟩ => ?_
  rw [hd'.find_iff, hd.find_iff]
  by_cases hj : j = k
  · subst hj
    rw [h.self]
    constructor
    · rintro ⟨heq, hm⟩
      cases heq
      exact absurd rfl (hne hm)
    · rintro ⟨heq, hm⟩
      exact absurd rfl (hold _ heq hm)
  · rw [h.of_ne hj]

/-- The first entry that is not in use, or the end. -/
theorem emptyFrom_eq {t : Fs.Sys} {i : Fin NINODE} (hR : Reads t i k es) :
    ∃ j, emptyFrom t i k es.length = .ok (t, k + j) ∧
      (j = es.length ∧ (∀ e ∈ es, e.inum ≠ 0) ∨ ∃ e, es[j]? = some e ∧ e.inum = 0) := by
  induction es generalizing k with
  | nil => exact ⟨0, rfl, .inl ⟨rfl, fun e he => absurd he List.not_mem_nil⟩⟩
  | cons e es ih =>
      obtain ⟨bs, hread, hbs⟩ := hR.head
      rw [List.length_cons, emptyFrom, hread, ok_bind]
      simp only [hbs]
      by_cases he : e.inum = 0
      · exact ⟨0, if_pos he, .inr ⟨e, rfl, he⟩⟩
      · obtain ⟨j, hj, hcase⟩ := ih hR.tail
        refine ⟨j + 1, ?_, ?_⟩
        · rw [if_neg he, hj]
          congr 2
          omega
        · rcases hcase with ⟨rfl, hall⟩ | hcase
          · exact .inl ⟨rfl, List.forall_mem_cons.mpr ⟨he, hall⟩⟩
          · exact .inr hcase

theorem getElem?_dirents (bs : List UInt8) (j : Nat) :
    (dirents bs)[j]? = if j < bs.length / DESIZE then some (direntAt bs j) else none := by
  rw [dirents, List.getElem?_map]
  by_cases hj : j < bs.length / DESIZE
  · rw [List.getElem?_range hj, if_pos hj]
    rfl
  · rw [List.getElem?_eq_none (by rw [List.length_range]; omega), if_neg hj]
    rfl

theorem direntAt_overwrite {old bs : List UInt8} (hk : DESIZE * k ≤ old.length) (hbs : bs.length = DESIZE) (j : Nat) :
    direntAt (Fs.overwrite old (DESIZE * k) bs) j = if j = k then Dirent.ofBytes bs else direntAt old j := by
  have hslice : ((Fs.overwrite old (DESIZE * k) bs).drop (DESIZE * j)).take DESIZE =
      if j = k then bs else (old.drop (DESIZE * j)).take DESIZE := by
    refine List.ext_getElem? fun x => ?_
    rw [List.getElem?_take, List.getElem?_drop, Fs.getElem?_overwrite hk, hbs]
    by_cases hj : j = k
    · subst hj
      rw [if_pos rfl]
      by_cases hx : x < DESIZE
      · rw [if_pos hx, if_neg (by omega), if_pos (by omega), Nat.add_sub_cancel_left]
      · rw [if_neg hx, List.getElem?_eq_none (by omega)]
    · rw [if_neg hj, List.getElem?_take, List.getElem?_drop]
      by_cases hx : x < DESIZE
      · rw [if_pos hx, if_pos hx]
        unfold DESIZE at *
        by_cases hlt : 16 * j + x < 16 * k
        · rw [if_pos hlt]
        · rw [if_neg hlt, if_neg (by omega)]
      · rw [if_neg hx, if_neg hx]
  rw [direntAt, hslice]
  split <;> rfl

/-- The bytes of one entry are overwritten. -/
theorem put_dirents {old bs : List UInt8} (hlen : old.length % DESIZE = 0) (hk : DESIZE * k ≤ old.length)
    (hbs : bs.length = DESIZE) :
    Put (dirents old) k (Dirent.ofBytes bs) (dirents (Fs.overwrite old (DESIZE * k) bs)) := by
  intro j
  have hlen' : (Fs.overwrite old (DESIZE * k) bs).length = max old.length (DESIZE * k + DESIZE) := by
    simp only [Fs.overwrite, List.length_append, List.length_take, List.length_drop, hbs]
    omega
  rw [getElem?_dirents, getElem?_dirents, hlen', direntAt_overwrite hk hbs]
  unfold DESIZE at *
  by_cases hj : j = k
  · rw [if_pos hj, if_pos hj, if_pos (by omega)]
  · rw [if_neg hj, if_neg hj]
    congr 1
    exact propext ⟨fun h => by omega, fun h => by omega⟩

/-! ## Writing an entry -/

/-- Entry `i` of the table is a directory that a caller has locked. -/
structure Directory (s : Fs.Sys) (i : Fin NINODE) : Prop extends Loaded s i where
  ref : 0 < (s.itable i).ref
  type : (s.itable i).type = T_DIR
  aligned : Aligned s (s.itable i).inum

/-- The entries of the directory. -/
def dir (s : Fs.Sys) (i : Fin NINODE) : List Dirent := entries s (s.itable i).inum

variable {s t : Fs.Sys} {i : Fin NINODE} {bs : List UInt8}

theorem Directory.length_files (h : Directory s i) : (s.files (s.itable i).inum).length = (s.itable i).size.toNat := by
  rw [Fs.files_of_live h.live, Fs.length_content, h.copy]

theorem Directory.length_dir (h : Directory s i) : DESIZE * (dir s i).length = (s.itable i).size.toNat := by
  have ha := h.aligned
  rw [Aligned, ← h.copy] at ha
  rw [dir, entries, dirents, List.length_map, List.length_range, h.length_files]
  unfold DESIZE at *
  omega

theorem Directory.slots (h : Directory s i) : slots (s.itable i).size = (dir s i).length := by
  have := h.length_dir
  unfold Syscall.slots DESIZE at *
  omega

theorem Directory.size_le (h : Directory s i) : (s.itable i).size.toNat ≤ MAXFILE * BSIZE := by
  rw [h.copy]
  exact h.consistent.size_le h.live

/-- The directory `i` of `s` has entry `k` replaced in `t`, and nothing else has changed. -/
structure Replaced (s t : Fs.Sys) (i : Fin NINODE) (k : Nat) (e : Dirent) : Prop extends Directory t i where
  sb : t.sb = s.sb
  inum : (t.itable i).inum = (s.itable i).inum
  other : ∀ j, j ≠ i → t.itable j = s.itable j
  put : Put (dir s i) k e (dir t i)
  takes : Takes s.sb (s.itable i).inum (touched (DESIZE * k) DESIZE) (dinode s.sb s.blk) s.blk (dinode s.sb t.blk) t.blk

theorem map_getD_range (bs : List UInt8) : (List.range bs.length).map (fun k => bs.getD k 0) = bs := by
  refine List.ext_getElem? fun x => ?_
  rw [List.getElem?_map]
  by_cases hx : x < bs.length
  · rw [List.getElem?_range hx, List.getElem?_eq_getElem hx]
    simp [List.getD_eq_getElem?_getD, hx]
  · simp [Nat.not_lt.mp hx]

theorem replaced_of_writePost {blk' : Fs.Blocks} {d : Fs.Dinode} {tot : Nat} (h : Directory s i)
    (hk : DESIZE * k ≤ (s.itable i).size.toNat) (hbs : bs.length = DESIZE)
    (hpost : Fs.WritePost s.sb s.blk (s.itable i).inum (.kernel (fun k => bs.getD k 0) 0) (UInt32.ofNat (DESIZE * k))
      (UInt32.ofNat bs.length) blk' d tot)
    (hok : Fs.writei s.sb s.blk (s.itable i).inum (s.itable i).toDinode (.kernel (fun k => bs.getD k 0) 0)
      (UInt32.ofNat (DESIZE * k)) (UInt32.ofNat bs.length) = .ok (blk', d, some tot)) :
    Replaced s (Fs.Sys.setInode { s with blk := blk' } i { s.itable i with toDinode := d }) i k (Dirent.ofBytes bs) := by
  have hsize := h.size_le
  have hbig : MAXFILE * BSIZE < 2 ^ 32 := by decide
  have hoff : (UInt32.ofNat (DESIZE * k)).toNat = DESIZE * k :=
    UInt32.toNat_ofNat_of_lt' (show DESIZE * k < 2 ^ 32 by omega)
  have hn : (UInt32.ofNat bs.length).toNat = DESIZE := by rw [hbs]; rfl
  have hread : (Fs.Src.kernel (fun k => bs.getD k 0) 0).Readable (UInt32.ofNat bs.length).toNat := trivial
  obtain ⟨-, hsz, -⟩ := hpost.done hread
  rw [hoff, hn, ← h.copy] at hsz
  have htakes := (Fs.writei_takes h.consistent h.live hread (h.copy ▸ hok)).1
  rw [hoff, hn] at htakes
  generalize ht : Fs.Sys.setInode { s with blk := blk' } i { s.itable i with toDinode := d } = t
  have hself : t.itable i = { s.itable i with toDinode := d } := by
    rw [← ht]
    exact Function.update_self _ _ _
  have hsb : t.sb = s.sb := by rw [← ht]; rfl
  have hblk : t.blk = blk' := by rw [← ht]; rfl
  have hinode : dinode t.sb t.blk (s.itable i).inum = d := by rw [hsb, hblk, hpost.inode]
  have htype : d.type = T_DIR := by rw [hpost.type, ← h.copy, h.type]
  have hfiles := Fs.WritePost.files h.consistent h.live hsb (by rw [hoff, ← h.copy]; exact hk)
    (by rw [hblk]; exact hpost) hread
  have hbytes : (List.range (UInt32.ofNat bs.length).toNat).map (Fs.Src.kernel (fun k => bs.getD k 0) 0).byte = bs := by
    rw [hn, ← hbs, ← List.map_congr_left (f := fun k => bs.getD k 0)]
    · exact map_getD_range bs
    · intro k _
      rw [Fs.Src.byte, Nat.zero_add]
  rw [hbytes, hoff] at hfiles
  refine ⟨⟨⟨?_, ?_, ?_⟩, ?_, ?_, ?_⟩, hsb, ?_, ?_, ?_, by rw [hblk]; exact htakes⟩
  · rw [hsb, hblk]
    exact hpost.consistent
  · rw [hself]
    exact ⟨by rw [hsb]; exact h.live.1, by rw [hinode, htype]; decide⟩
  · rw [hself, hinode]
  · rw [hself]
    exact h.ref
  · rw [hself]
    exact htype
  · have ha := h.aligned
    rw [Aligned, ← h.copy] at ha
    rw [Aligned, hself, hinode, hsz]
    unfold DESIZE at *
    omega
  · rw [hself]
  · intro j hj
    rw [← ht]
    exact Function.update_of_ne hj _ _
  · rw [dir, dir, hself, entries, entries, hfiles, Function.update_self]
    refine put_dirents ?_ ?_ hbs
    · rw [h.length_files, h.copy]
      exact h.aligned
    · rw [h.length_files]
      exact hk

/-- `off` and `n` of a write of one entry, as the `uint`s that they are. -/
theorem Directory.toNat_entry (h : Directory s i) (hk : k ≤ (dir s i).length) (hbs : bs.length = DESIZE) :
    (UInt32.ofNat (DESIZE * k)).toNat = DESIZE * k ∧ (UInt32.ofNat bs.length).toNat = DESIZE ∧
      (UInt32.ofNat (DESIZE * k) + UInt32.ofNat bs.length).toNat = DESIZE * k + DESIZE ∧
      DESIZE * k ≤ (s.itable i).size.toNat := by
  have hk' : DESIZE * k ≤ (s.itable i).size.toNat := h.length_dir ▸ Nat.mul_le_mul_left _ hk
  have hsize := h.size_le
  have hbig : MAXFILE * BSIZE + DESIZE < 2 ^ 32 := by decide
  have hoff : (UInt32.ofNat (DESIZE * k)).toNat = DESIZE * k :=
    UInt32.toNat_ofNat_of_lt' (show DESIZE * k < 2 ^ 32 by omega)
  have hn : (UInt32.ofNat bs.length).toNat = DESIZE := by rw [hbs]; rfl
  refine ⟨hoff, hn, ?_, hk'⟩
  rw [UInt32.toNat_add, hoff, hn, Nat.mod_eq_of_lt (by omega)]

/-- An entry beyond the largest file is not written. -/
theorem writei_beyond (h : Directory s i) (hk : k ≤ (dir s i).length) (hbs : bs.length = DESIZE)
    (hmax : MAXFILE * BSIZE < DESIZE * k + DESIZE) : writei s i (DESIZE * k) bs = .ok (s, false) := by
  obtain ⟨-, -, hadd, -⟩ := h.toNat_entry hk hbs
  have hnone : Fs.writei s.sb s.blk (s.itable i).inum (s.itable i).toDinode (.kernel (fun k => bs.getD k 0) 0)
      (UInt32.ofNat (DESIZE * k)) (UInt32.ofNat bs.length) = .ok (s.blk, (s.itable i).toDinode, none) := by
    unfold Fs.writei
    split
    · rfl
    · rw [if_pos (by rw [hadd]; exact hmax)]
  rw [writei, hnone]
  simp only [liftFs, Except.mapError, ok_bind, Fs.Sys.setInode, Function.update_eq_self]
  rfl

/-- **`writei` of one entry** fails for lack of blocks only. -/
theorem writei_entry (h : Directory s i) (hk : k ≤ (dir s i).length) (hbs : bs.length = DESIZE)
    (hmax : DESIZE * k + DESIZE ≤ MAXFILE * BSIZE) :
    Sat (fun e => ∃ e', e = .fs e' ∧
        NoRoom s.sb (dinode s.sb s.blk) s.blk (s.itable i).inum (touched (DESIZE * k) DESIZE) e')
      (fun r => r.2 = true ∧ Replaced s r.1 i k (Dirent.ofBytes bs)) (writei s i (DESIZE * k) bs) := by
  obtain ⟨hoff, hn, hadd, hk'⟩ := h.toNat_entry hk hbs
  have hwrite := Fs.writei_sat (.kernel (fun k => bs.getD k 0) 0) (UInt32.ofNat (DESIZE * k)) (UInt32.ofNat bs.length)
    h.consistent h.live
  rw [hoff, hn, ← h.copy] at hwrite
  rw [writei]
  generalize hx : Fs.writei s.sb s.blk (s.itable i).inum (s.itable i).toDinode (.kernel (fun k => bs.getD k 0) 0)
    (UInt32.ofNat (DESIZE * k)) (UInt32.ofNat bs.length) = x at hwrite ⊢
  cases hwrite with
  | error he => exact .error ⟨_, rfl, he⟩
  | ok hpost =>
      rename_i r
      obtain ⟨blk', d, tot⟩ := r
      cases tot with
      | none =>
          obtain ⟨-, -, hgt | hwrap | hmax'⟩ := hpost
          · rw [gt_iff_lt, UInt32.lt_iff_toNat_lt, hoff] at hgt
            omega
          · rw [UInt32.lt_iff_toNat_lt, hadd, hoff] at hwrap
            omega
          · omega
      | some tot =>
          have hpost : Fs.WritePost s.sb s.blk (s.itable i).inum _ _ _ blk' d tot := hpost
          have hread : (Fs.Src.kernel (fun k => bs.getD k 0) 0).Readable (UInt32.ofNat bs.length).toNat := trivial
          have hdone : some tot = some bs.length := by rw [(hpost.done hread).1, hn, hbs]
          exact .ok ⟨decide_eq_true hdone, replaced_of_writePost h hk' hbs hpost hx⟩

/-- The blocks of the entries that there are have been allocated. -/
theorem writei_present (h : Directory s i) (hk : k < (dir s i).length) (hbs : bs.length = DESIZE) :
    ∃ t, writei s i (DESIZE * k) bs = .ok (t, true) ∧ Replaced s t i k (Dirent.ofBytes bs) := by
  obtain ⟨hoff, hn, -, -⟩ := h.toNat_entry hk.le hbs
  have hsize := h.size_le
  have hend : DESIZE * k + DESIZE ≤ (s.itable i).size.toNat := by
    rw [← h.length_dir, ← Nat.mul_succ]
    exact Nat.mul_le_mul_left _ hk
  obtain ⟨p, hp, hne⟩ := h.consistent.sized _ h.live (DESIZE * k / BSIZE) (by
    rw [← h.copy]
    have := Nat.div_mul_le_self (DESIZE * k) BSIZE
    unfold DESIZE at *
    omega)
  obtain ⟨b, hb⟩ := Option.ne_none_iff_exists'.mp hne
  obtain ⟨addr, hmap, -⟩ := Fs.bmap_of_refs hp hb
  rw [← h.copy] at hmap
  -- an entry lies in one block
  have hchunk : Fs.chunk DESIZE 0 (DESIZE * k) = DESIZE := by
    unfold Fs.chunk DESIZE BSIZE
    omega
  have hloop : ∃ r, Fs.writei s.sb s.blk (s.itable i).inum (s.itable i).toDinode (.kernel (fun k => bs.getD k 0) 0)
      (UInt32.ofNat (DESIZE * k)) (UInt32.ofNat bs.length) = .ok r := by
    unfold Fs.writei
    split
    · exact ⟨_, rfl⟩
    · split
      · exact ⟨_, rfl⟩
      · rw [hoff, hn, Fs.writeiLoop, if_pos (by decide), hmap]
        simp only [ok_bind, hchunk]
        rw [if_pos (show ((Fs.Src.kernel (fun k => bs.getD k 0) 0).read 0 DESIZE).2 = true from rfl), Fs.writeiLoop,
          if_neg (by decide)]
        exact ⟨_, rfl⟩
  obtain ⟨⟨t, done⟩, hok⟩ : ∃ r, writei s i (DESIZE * k) bs = .ok r := by
    obtain ⟨r, hr⟩ := hloop
    rw [writei, hr]
    exact ⟨_, rfl⟩
  have hsat := writei_entry h hk.le hbs (le_trans hend hsize)
  rw [hok] at hsat
  obtain ⟨rfl, hrep⟩ := hsat.of_ok
  exact ⟨t, hok, hrep⟩

/-! ## The operations -/

/-- Nothing has changed, except perhaps entries of the table that are not in use. -/
structure Same (s t : Fs.Sys) : Prop where
  sb : t.sb = s.sb
  blk : t.blk = s.blk
  ref : ∀ j, (t.itable j).ref = (s.itable j).ref
  used : ∀ j, 0 < (s.itable j).ref → t.itable j = s.itable j

theorem Same.refl (s : Fs.Sys) : Same s s := ⟨rfl, rfl, fun _ => rfl, fun _ _ => rfl⟩

/-- A directory is its blocks and its inode. -/
theorem Directory.congr (h : Directory s i) (hsb : t.sb = s.sb) (hblk : t.blk = s.blk)
    (hinum : (t.itable i).inum = (s.itable i).inum) (hd : (t.itable i).toDinode = (s.itable i).toDinode)
    (href : 0 < (t.itable i).ref) : Directory t i ∧ dir t i = dir s i := by
  have hfiles : t.files = s.files := by
    unfold Fs.Sys.files
    rw [hsb, hblk]
  refine ⟨⟨⟨?_, ?_, ?_⟩, href, ?_, ?_⟩, ?_⟩
  · rw [hsb, hblk]
    exact h.consistent
  · rw [hsb, hblk, hinum]
    exact h.live
  · rw [hsb, hblk, hinum, hd]
    exact h.copy
  · rw [hd]
    exact h.type
  · rw [Aligned, hsb, hblk, hinum]
    exact h.aligned
  · rw [dir, dir, hinum, entries, entries, hfiles]

theorem Same.directory (hS : Same s t) (h : Directory s i) : Directory t i ∧ dir t i = dir s i := by
  have hi := hS.used i h.ref
  exact h.congr hS.sb hS.blk (by rw [hi]) (by rw [hi]) (by rw [hi]; exact h.ref)

/-- The caller of `dirlookup` has a reference more. -/
theorem iget_directory {inum : Nat} {j : Fin NINODE} (h : Directory s i) (hget : Fs.iget s inum = .ok (t, j)) :
    Directory t i ∧ dir t i = dir s i := by
  have hset : ∀ ip : Fs.Inode, t = s.setInode j ip → (i = j → ip.inum = (s.itable i).inum ∧
      ip.toDinode = (s.itable i).toDinode ∧ 0 < ip.ref) → Directory t i ∧ dir t i = dir s i := by
    rintro ip rfl hip
    by_cases hij : i = j
    · subst hij
      have hself : (s.setInode i ip).itable i = ip := Function.update_self _ _ _
      obtain ⟨hinum, hd, href⟩ := hip rfl
      exact h.congr rfl rfl (by rw [hself, hinum]) (by rw [hself, hd]) (by rw [hself]; exact href)
    · have hother : (s.setInode j ip).itable i = s.itable i := Function.update_of_ne hij _ _
      exact h.congr rfl rfl (by rw [hother]) (by rw [hother]) (by rw [hother]; exact h.ref)
  rcases iget_cases s inum with ⟨j', -, -, heq⟩ | ⟨j', h0, -, heq⟩ | ⟨-, heq⟩
  · rw [heq] at hget
    cases hget
    exact hset _ rfl fun hij => ⟨by rw [hij], by rw [hij], Nat.succ_pos _⟩
  · rw [heq] at hget
    cases hget
    refine hset _ rfl fun hij => ?_
    have := h.ref
    rw [hij] at this
    omega
  · rw [heq] at hget
    cases hget

/-- A reference that is taken and given back at once. -/
theorem iget_iput {inum : Nat} {j : Fin NINODE} (h : Fs.iget s inum = .ok (t, j)) :
    ∃ u, iput t j = .ok u ∧ Same s u := by
  have hput : ∀ ip : Fs.Inode, ¬(ip.ref = 1 ∧ ip.valid = true ∧ ip.nlink = 0) → t = s.setInode j ip →
      iput t j = .ok (s.setInode j { ip with ref := ip.ref - 1 }) := by
    rintro ip hip rfl
    have hj : (s.setInode j ip).itable j = ip := Function.update_self _ _ _
    rw [iput, Fs.iput]
    simp only [hj]
    rw [if_neg hip]
    simp only [Fs.Sys.setInode, Function.update_idem]
    rfl
  rcases iget_cases s inum with ⟨i, hr, -, heq⟩ | ⟨i, h0, -, heq⟩ | ⟨-, heq⟩
  · rw [heq] at h
    cases h
    refine ⟨_, hput _ (fun h => ?_) rfl, ?_⟩
    · have := h.1
      simp only at this
      omega
    · rw [Fs.Sys.setInode, Nat.add_sub_cancel, Function.update_eq_self]
      exact .refl s
  · rw [heq] at h
    cases h
    refine ⟨_, hput _ (fun h => Bool.false_ne_true h.2.1) rfl, rfl, rfl, fun k => ?_, fun k hk => ?_⟩
    · by_cases hk : k = j
      · subst hk
        simp [Fs.Sys.setInode, h0]
      · simp [Fs.Sys.setInode, Function.update_of_ne hk]
    · refine Function.update_of_ne ?_ _ _
      rintro rfl
      omega
  · rw [heq] at h
    cases h

theorem Directory.search_eq (h : Directory s i) (p : Nat → UInt8) :
    Raw.search s i p = .ok (s, findFrom (nameAt p) 0 (dir s i)) := by
  rw [Raw.search, Raw.dirlookupFrom_eq, dirlookupFrom_entries h.toLoaded h.aligned]
  rfl

theorem Directory.dirlookup_eq (h : Directory s i) (p : Nat → UInt8) :
    Raw.dirlookup s i p = match findFrom (nameAt p) 0 (dir s i) with
      | none => .ok (s, none)
      | some (k, m) => liftFs (Fs.iget s m) >>= fun r => .ok (r.1, some (r.2, k)) := by
  rw [Raw.dirlookup_eq, Syscall.dirlookup_eq h.toLoaded h.type h.aligned]
  rfl

/-- **`dirlink`** of a name that is there. -/
theorem Directory.dirlink_found {p : Nat → UInt8} {m : Nat} (inum : Nat) (h : Directory s i)
    (hf : findFrom (nameAt p) 0 (dir s i) = some (k, m)) :
    (∃ t u j, Raw.dirlink s i p inum = .ok (t, false) ∧ Same s t ∧ Raw.dirlookup s i p = .ok (u, some (j, k)) ∧
      Fs.iget s m = .ok (u, j)) ∨
    ∃ e, Raw.dirlink s i p inum = .error (.fs e) ∧ Raw.dirlookup s i p = .error (.fs e) ∧ Fs.iget s m = .error e := by
  have hlook := h.dirlookup_eq p
  rw [hf] at hlook
  cases hget : Fs.iget s m with
  | error e =>
      simp only [hget] at hlook
      exact .inr ⟨e, by rw [Raw.dirlink, hlook]; rfl, hlook, rfl⟩
  | ok r =>
      obtain ⟨u, j⟩ := r
      obtain ⟨t, hput, hsame⟩ := iget_iput hget
      simp only [hget] at hlook
      refine .inl ⟨t, u, j, ?_, hsame, hlook, rfl⟩
      rw [Raw.dirlink, hlook]
      simp only [liftFs, Except.mapError, ok_bind, hput]

theorem ne_zero_of_mem_chars {p : Nat → UInt8} {n : Nat} {c : UInt8} (hc : c ∈ chars p n) : c ≠ 0 := by
  induction n generalizing p with
  | zero => exact absurd hc List.not_mem_nil
  | succ n ih =>
      rw [chars] at hc
      split at hc
      · exact absurd hc List.not_mem_nil
      · rename_i h0
        rcases List.mem_cons.mp hc with rfl | hc
        · exact h0
        · exact ih hc

/-- An entry that has been written reads back, with its number as a `ushort`. -/
theorem ofBytes_toBytes (inum : Nat) (p : Nat → UInt8) :
    Dirent.ofBytes (Dirent.toBytes ⟨inum, nameAt p⟩) = ⟨inum % 65536, nameAt p⟩ := by
  have hlen := length_chars_le p DIRSIZ
  have htake : (nameAt p).take DIRSIZ = nameAt p := List.take_of_length_le hlen
  have hall : ((nameAt p ++ List.replicate (DIRSIZ - (nameAt p).length) 0).take DIRSIZ) =
      nameAt p ++ List.replicate (DIRSIZ - (nameAt p).length) 0 := by
    refine List.take_of_length_le ?_
    rw [List.length_append, List.length_replicate, nameAt]
    omega
  have hname : (nameAt p ++ List.replicate (DIRSIZ - (nameAt p).length) 0).takeWhile (· ≠ 0) = nameAt p := by
    have hne : ∀ c ∈ nameAt p, decide (c ≠ 0) = true := fun c hc => decide_eq_true (ne_zero_of_mem_chars hc)
    rw [List.takeWhile_append_of_pos hne, List.takeWhile_replicate]
    simp
  rw [Dirent.toBytes, htake, Dirent.ofBytes]
  simp only [List.cons_append, List.nil_append, List.drop_succ_cons, List.drop_zero, hall, hname,
    List.getD_cons_zero, List.getD_cons_succ, Dirent.mk.injEq, and_true, UInt8.toNat_ofNat']
  omega

theorem length_toBytes (e : Dirent) (h : e.name.length ≤ DIRSIZ) : e.toBytes.length = DESIZE := by
  rw [Dirent.toBytes, List.length_append, List.length_append, List.length_replicate, List.length_take]
  simp only [List.length_cons, List.length_nil, DIRSIZ, DESIZE] at *
  omega

/-- Every entry is in use. -/
def Full (s : Fs.Sys) (i : Fin NINODE) : Prop := ∀ e ∈ dir s i, e.inum ≠ 0

/-- How `dirlink` of a new name fails: the directory is full, and cannot grow. -/
def Stuck (s : Fs.Sys) (i : Fin NINODE) (e : Panic) : Prop :=
  Full s i ∧ (e = .dirlink ∧ (s.itable i).size.toNat = MAXFILE * BSIZE ∨
    ∃ e', e = .fs e' ∧ (s.itable i).size.toNat < MAXFILE * BSIZE ∧
      NoRoom s.sb (dinode s.sb s.blk) s.blk (s.itable i).inum (touched (s.itable i).size.toNat DESIZE) e')

/-- **`dirlink`** of a new name. -/
theorem Directory.dirlink_new {p : Nat → UInt8} (inum : Nat) (h : Directory s i)
    (hf : findFrom (nameAt p) 0 (dir s i) = none) :
    Sat (Stuck s i)
      (fun r => r.2 = true ∧ ∃ k, Replaced s r.1 i k ⟨inum % 65536, nameAt p⟩ ∧
        ∀ e, (dir s i)[k]? = some e → e.inum = 0)
      (Raw.dirlink s i p inum) := by
  have hlook : Raw.dirlookup s i p = .ok (s, none) := by
    rw [h.dirlookup_eq, hf]
  have hlen := h.length_dir
  have hbs := length_toBytes ⟨inum, nameAt p⟩ (length_chars_le p DIRSIZ)
  obtain ⟨k, hempty, hk⟩ := emptyFrom_eq (reads_entries h.toLoaded)
  rw [Raw.dirlink_eq, dirlink, ← Raw.dirlookup_eq, hlook]
  simp only [ok_bind]
  rw [h.slots]
  rw [show (dir s i).length = (entries s (s.itable i).inum).length from rfl, hempty, Nat.zero_add]
  simp only [ok_bind]
  rcases hk with ⟨rfl, hall⟩ | ⟨e, hke, he⟩
  · -- the entry is added at the end
    show Sat _ _ (writei s i (DESIZE * (dir s i).length) _ >>= _)
    by_cases hmax : DESIZE * (dir s i).length + DESIZE ≤ MAXFILE * BSIZE
    · refine Sat.bind ((writei_entry h le_rfl hbs hmax).mono ?_ fun _ h => h) ?_
      · rintro _ ⟨e', rfl, hroom⟩
        rw [hlen] at hroom hmax
        have : 0 < DESIZE := by decide
        exact ⟨hall, .inr ⟨e', rfl, by omega, hroom⟩⟩
      · rintro ⟨t, _⟩ ⟨rfl, hrep⟩
        rw [ofBytes_toBytes] at hrep
        refine .ok ⟨rfl, _, hrep, fun e he => ?_⟩
        rw [List.getElem?_eq_none le_rfl] at he
        cases he
    · rw [writei_beyond h le_rfl hbs (by omega)]
      refine .error ⟨hall, .inl ⟨rfl, ?_⟩⟩
      have := h.size_le
      have hdiv : MAXFILE * BSIZE % DESIZE = 0 := by decide
      unfold DESIZE at *
      omega
  · obtain ⟨t, hwrite, hrep⟩ := writei_present h (List.getElem?_eq_some_iff.mp hke).1 hbs
    rw [hwrite]
    refine .ok ⟨rfl, k, ?_, fun e' he' => ?_⟩
    · rwa [ofBytes_toBytes] at hrep
    · cases hke.symm.trans he'
      exact he

/-- `sys_unlink` clears entry `k`. -/
def clear (s : Fs.Sys) (i : Fin NINODE) (k : Nat) : Except Panic Fs.Sys := do
  let (s, done) ← writei s i (DESIZE * k) (List.replicate DESIZE 0)
  if !done then .error .unlinkWritei else .ok s

theorem Directory.clear (h : Directory s i) (hk : k < (dir s i).length) :
    ∃ t, Syscall.clear s i k = .ok t ∧ Replaced s t i k ⟨0, []⟩ := by
  obtain ⟨t, hwrite, hrep⟩ := writei_present h hk (List.length_replicate (n := DESIZE) (a := 0))
  refine ⟨t, ?_, hrep⟩
  rw [Syscall.clear, hwrite]
  rfl

/-! ## A directory over time -/

inductive DirOp
  | dirlink (name : Nat → UInt8) (inum : Nat)
  | clear (k : Nat)

/-- A call on the locked directory `i` that returns. -/
def dirStep (i : Fin NINODE) (s : Fs.Sys) : DirOp → Option Fs.Sys
  | .dirlink name inum => (Raw.dirlink s i name inum).toOption.map Prod.fst
  | .clear k => if k < slots (s.itable i).size then (clear s i k).toOption else none

/-- A directory with distinct names. -/
structure DirMap (s : Fs.Sys) (i : Fin NINODE) : Prop extends Directory s i where
  distinct : Distinct (dir s i)

theorem DirMap.replaced {e : Dirent} (h : DirMap s i) (hrep : Replaced s t i k e)
    (hnew : e.inum ≠ 0 → findFrom e.name 0 (dir s i) = none) : DirMap t i :=
  ⟨hrep.toDirectory, h.distinct.put hrep.put hnew⟩

theorem DirMap.clear (h : DirMap s i) (hk : k < (dir s i).length) :
    ∃ t, Syscall.clear s i k = .ok t ∧ DirMap t i ∧ Replaced s t i k ⟨0, []⟩ := by
  obtain ⟨t, hclear, hrep⟩ := h.toDirectory.clear hk
  exact ⟨t, hclear, h.replaced hrep fun h0 => absurd rfl h0, hrep⟩

/-- **One call** keeps the names distinct. -/
theorem DirMap.step {op : DirOp} (h : DirMap s i) (hst : dirStep i s op = some t) : DirMap t i := by
  cases op with
  | dirlink p inum =>
      rw [dirStep] at hst
      cases hf : findFrom (nameAt p) 0 (dir s i) with
      | some r =>
          rcases h.toDirectory.dirlink_found inum hf with ⟨u, -, -, hok, hsame, -⟩ | ⟨e, herr, -⟩
          · rw [hok] at hst
            cases hst
            obtain ⟨hdir, heq⟩ := hsame.directory h.toDirectory
            exact ⟨hdir, by rw [heq]; exact h.distinct⟩
          · rw [herr] at hst
            cases hst
      | none =>
          have hsat := h.toDirectory.dirlink_new inum hf
          cases hok : Raw.dirlink s i p inum with
          | error e =>
              rw [hok] at hst
              cases hst
          | ok r =>
              rw [hok] at hst hsat
              cases hst
              obtain ⟨-, k, hrep, -⟩ := hsat.of_ok
              exact h.replaced hrep fun _ => hf
  | clear k =>
      rw [dirStep] at hst
      split at hst
      · rename_i hk
        obtain ⟨u, hclear, hu, -⟩ := h.clear (by rwa [← h.toDirectory.slots])
        rw [hclear] at hst
        cases hst
        exact hu
      · cases hst

/-- There is an empty entry, or the directory can grow. -/
def CanLink (s : Fs.Sys) (i : Fin NINODE) : Prop :=
  ¬Full s i ∨ (s.itable i).size.toNat < MAXFILE * BSIZE ∧ s.sb.size ≤ 2 ^ 31 ∧
    missing s.sb (dinode s.sb s.blk) s.blk (s.itable i).inum (touched (s.itable i).size.toNat DESIZE) ≤ free s.sb s.blk

theorem CanLink.not_stuck {e : Panic} (h : CanLink s i) : ¬Stuck s i e := by
  rintro ⟨hfull, hcase⟩
  rcases h with h | ⟨hlt, hsize, hroom⟩
  · exact h hfull
  · rcases hcase with ⟨-, hmax⟩ | ⟨e', -, -, -, hno⟩
    · omega
    · have := hno hsize
      omega

/-- **A new name** is found afterwards, and every other name as before. -/
theorem DirMap.link {p : Nat → UInt8} {inum : Nat} (h : DirMap s i) (h0 : 0 < inum) (hlt : inum < 65536)
    (hf : findFrom (nameAt p) 0 (dir s i) = none) (hcan : CanLink s i) :
    ∃ t k, Raw.dirlink s i p inum = .ok (t, true) ∧ DirMap t i ∧
      findFrom (nameAt p) 0 (dir t i) = some (k, inum) ∧
      ∀ name, name ≠ nameAt p → findFrom name 0 (dir t i) = findFrom name 0 (dir s i) := by
  obtain ⟨⟨t, _⟩, hok, rfl, k, hrep, hempty⟩ :=
    ((h.toDirectory.dirlink_new inum hf).mono (fun _ he => hcan.not_stuck he) fun _ h => h).exists_ok
  have hmap : DirMap t i := h.replaced hrep fun _ => hf
  rw [Nat.mod_eq_of_lt hlt] at hrep
  refine ⟨t, k, hok, hmap, hmap.distinct.find_iff.mpr ⟨hrep.put.self, by omega⟩, fun name hname => ?_⟩
  exact hrep.put.find_of_ne h.distinct hmap.distinct (fun _ => hname.symm) fun e he hne => absurd (hempty e he) hne

/-- **A cleared entry** takes its name away, and no other. -/
theorem DirMap.unlink {name : Name} {m : Nat} (h : DirMap s i) (hf : findFrom name 0 (dir s i) = some (k, m)) :
    ∃ t, Syscall.clear s i k = .ok t ∧ DirMap t i ∧ findFrom name 0 (dir t i) = none ∧
      ∀ name', name' ≠ name → findFrom name' 0 (dir t i) = findFrom name' 0 (dir s i) := by
  obtain ⟨hk, hm⟩ := h.distinct.find_iff.mp hf
  obtain ⟨t, hclear, hmap, hrep⟩ := h.clear (List.getElem?_eq_some_iff.mp hk).1
  refine ⟨t, hclear, hmap, ?_, fun name' hname => ?_⟩
  · refine Option.eq_none_iff_forall_ne_some.mpr fun ⟨j, m'⟩ hj => ?_
    obtain ⟨hj, hm'⟩ := hmap.distinct.find_iff.mp hj
    by_cases hjk : j = k
    · subst hjk
      cases hrep.put.self.symm.trans hj
      exact hm' rfl
    · rw [hrep.put.of_ne hjk] at hj
      exact hjk (h.distinct _ _ _ _ hj hk hm' hm rfl)
  · refine hrep.put.find_of_ne h.distinct hmap.distinct (fun h0 => absurd rfl h0) fun e he _ heq => ?_
    cases hk.symm.trans he
    exact hname heq.symm

/-- **Directories are finite maps.** In every state that calls of `dirlink` and cleared entries lead to from a
    directory with distinct names: no two entries in use have the same name; `dirlink` returns -1 exactly if
    `dirlookup` finds the name, and changes nothing then; it makes a new name be found with its number, if there is an
    empty entry or the directory can grow, and every other name as before; and clearing the entry that `dirlookup`
    reports makes the name absent and leaves every other name as before. -/
theorem directory_is_map {s₀ : Fs.Sys} {ops : List DirOp} (h0 : DirMap s₀ i)
    (hrun : Trace.run (dirStep i) s₀ ops = some s) :
    Distinct (dir s i) ∧
      (∀ p inum, 0 < inum → inum < 65536 →
        ((∃ t, Raw.dirlink s i p inum = .ok (t, false)) ↔ ∃ t r, Raw.dirlookup s i p = .ok (t, some r)) ∧
        (∀ t, Raw.dirlink s i p inum = .ok (t, false) → Same s t) ∧
        (Raw.dirlookup s i p = .ok (s, none) → CanLink s i →
          ∃ t k, Raw.dirlink s i p inum = .ok (t, true) ∧ Raw.search t i p = .ok (t, some (k, inum)) ∧
            ∀ q, nameAt q ≠ nameAt p → ∃ r, Raw.search s i q = .ok (s, r) ∧ Raw.search t i q = .ok (t, r))) ∧
      ∀ p t j k, Raw.dirlookup s i p = .ok (t, some (j, k)) →
        ∃ u, clear t i k = .ok u ∧ Raw.search u i p = .ok (u, none) ∧
          ∀ q, nameAt q ≠ nameAt p → ∃ r, Raw.search s i q = .ok (s, r) ∧ Raw.search u i q = .ok (u, r) := by
  have h : DirMap s i := Trace.run_invariant (I := (DirMap · i)) h0 (fun _ _ _ h hst => h.step hst) hrun
  refine ⟨h.distinct, fun p inum hpos hlt => ?_, fun p t j k hlook => ?_⟩
  · cases hf : findFrom (nameAt p) 0 (dir s i) with
    | some r =>
        obtain ⟨k, m⟩ := r
        rcases h.toDirectory.dirlink_found inum hf with ⟨t, u, j, hok, hsame, hlook, -⟩ | ⟨e, herr, hlook, -⟩
        · refine ⟨⟨fun _ => ⟨_, _, hlook⟩, fun _ => ⟨t, hok⟩⟩, fun t' ht' => ?_, fun hnone => ?_⟩
          · cases hok.symm.trans ht'
            exact hsame
          · cases hlook.symm.trans hnone
        · rw [herr, hlook]
          refine ⟨⟨?_, ?_⟩, fun t ht => ?_, fun hnone => ?_⟩
          · rintro ⟨t, ht⟩
            cases ht
          · rintro ⟨t, r, ht⟩
            cases ht
          · cases ht
          · cases hnone
    | none =>
        have hlook : Raw.dirlookup s i p = .ok (s, none) := by rw [h.toDirectory.dirlookup_eq, hf]
        have hsat := h.toDirectory.dirlink_new inum hf
        have hnot : ∀ t, Raw.dirlink s i p inum ≠ .ok (t, false) := by
          intro t ht
          rw [ht] at hsat
          exact Bool.false_ne_true hsat.of_ok.1
        refine ⟨⟨fun ⟨t, ht⟩ => absurd ht (hnot t), ?_⟩, fun t ht => absurd ht (hnot t), fun _ hcan => ?_⟩
        · rintro ⟨t, r, ht⟩
          cases hlook.symm.trans ht
        · obtain ⟨t, k, hok, hmap, hfound, hother⟩ := h.link hpos hlt hf hcan
          refine ⟨t, k, hok, by rw [hmap.toDirectory.search_eq, hfound], fun q hq => ?_⟩
          exact ⟨_, h.toDirectory.search_eq q, by rw [hmap.toDirectory.search_eq, hother _ hq]⟩
  · -- the entry that the search has found
    rw [h.toDirectory.dirlookup_eq] at hlook
    cases hf : findFrom (nameAt p) 0 (dir s i) with
    | none =>
        rw [hf] at hlook
        cases hlook
    | some r =>
        obtain ⟨k', m⟩ := r
        simp only [hf] at hlook
        cases hget : Fs.iget s m with
        | error e =>
            rw [hget] at hlook
            cases hlook
        | ok r =>
            rw [hget] at hlook
            cases hlook
            obtain ⟨hdir, heq⟩ := iget_directory h.toDirectory hget
            have hmap : DirMap r.1 i := ⟨hdir, by rw [heq]; exact h.distinct⟩
            obtain ⟨u, hclear, hu, hgone, hother⟩ := hmap.unlink (by rw [heq]; exact hf)
            refine ⟨u, hclear, by rw [hu.toDirectory.search_eq, hgone], fun q hq => ?_⟩
            exact ⟨_, h.toDirectory.search_eq q, by rw [hu.toDirectory.search_eq, hother _ hq, heq]⟩

/-- A directory that has just been allocated. -/
theorem dirMap_of_empty (hI : Fs.Inv s) (hr : 0 < (s.itable i).ref) (hv : (s.itable i).valid = true)
    (htype : (s.itable i).type = T_DIR) (hsize : (s.itable i).size = 0) : DirMap s i := by
  have hL := loaded_of_locked hI hr hv
  have hdir : Directory s i := ⟨hL, hr, htype, by rw [Aligned, ← hL.copy, hsize]; rfl⟩
  refine ⟨hdir, fun j k e e' hj => ?_⟩
  have hlen := hdir.length_dir
  rw [hsize] at hlen
  have hlt := (List.getElem?_eq_some_iff.mp hj).1
  unfold DESIZE at hlen
  simp only [UInt32.toNat_zero] at hlen
  omega

/-- The name `f`. -/
def nameF (k : Nat) : UInt8 := if k = 0 then 102 else 0

theorem new_directory_is_map :
    ∃ s t, Trace.run Fs.step Fs.emptyFs [.ialloc T_DIR, .ilock Fs.entry0] = some s ∧ DirMap s Fs.entry0 ∧
      Trace.run (dirStep Fs.entry0) s [.dirlink nameF 1] = some t ∧ Distinct (dir t Fs.entry0) := by
  have hany : (Trace.run Fs.step Fs.emptyFs [.ialloc T_DIR, .ilock Fs.entry0]).any (fun s =>
      decide (0 < (s.itable Fs.entry0).ref ∧ (s.itable Fs.entry0).valid = true ∧
        (s.itable Fs.entry0).type = T_DIR ∧ (s.itable Fs.entry0).size = 0) &&
      (Trace.run (dirStep Fs.entry0) s [.dirlink nameF 1]).isSome) = true := by decide +kernel
  obtain ⟨s, hs, hcheck⟩ := (Option.any_eq_true _ _).mp hany
  rw [Bool.and_eq_true, decide_eq_true_iff] at hcheck
  obtain ⟨⟨hr, hv, htype, hsize⟩, hsome⟩ := hcheck
  obtain ⟨t, ht⟩ := Option.isSome_iff_exists.mp hsome
  have hmap := dirMap_of_empty (Fs.inv_run hs) hr hv htype hsize
  exact ⟨s, t, hs, hmap, ht, (directory_is_map hmap ht).1⟩

end Xv6.Syscall
