import Xv6.Lib.Agree
import Xv6.Syscall.Near

/-!
# `Syscall.Lookup` — directories as lists of entries

`entries s d` are the entries of directory `d`, decoded from its contents. `find` is the search for a name: the first
entry that is in use and has it. The loops of `dirlookup`, `dirlink` and `isdirempty` read one entry after the other;
on a directory whose size is a whole number of entries they compute what the list says and change nothing.
-/

namespace Xv6.Syscall

open Logging (BSIZE)
open Fs (NINODE MAXFILE dinode Live Filled fileByte)
open Lockstep (ok_bind)

def direntAt (bs : List UInt8) (k : Nat) : Dirent := Dirent.ofBytes ((bs.drop (DESIZE * k)).take DESIZE)

def dirents (bs : List UInt8) : List Dirent := (List.range (bs.length / DESIZE)).map (direntAt bs)

/-- The entries of an inode's contents. -/
def entries (s : Fs.Sys) (inum : Nat) : List Dirent := dirents (s.files inum)

/-- The first entry in use with the name, its number counted from `k`, and its inode number. -/
def findFrom (name : Name) : Nat → List Dirent → Option (Nat × Nat)
  | _, [] => none
  | k, e :: es => if e.inum ≠ 0 ∧ e.name = name then some (k, e.inum) else findFrom name (k + 1) es

/-- The inode is an allocated directory. -/
def IsDir (s : Fs.Sys) (inum : Nat) : Prop :=
  Live s.sb (dinode s.sb s.blk) inum ∧ (dinode s.sb s.blk inum).type = T_DIR

instance (s : Fs.Sys) (inum : Nat) : Decidable (IsDir s inum) := inferInstanceAs (Decidable (_ ∧ _))

variable {s t : Fs.Sys} {i : Fin NINODE} {inum k n off : Nat} {es : List Dirent} {name : Name}

/-! ## Reading -/

/-- A read below the size of a file without holes there. -/
theorem readi_of_filled {dn : Nat → Fs.Dinode} (hd : (t.itable i).toDinode = dn inum)
    (hf : Filled t.sb dn t.blk inum (off + n)) (hle : off + n ≤ (dn inum).size.toNat) :
    readi t i off n =
      .ok (t, some ((List.range n).map fun x => (fileByte t.sb dn t.blk inum (off + x)).getD 0)) := by
  have hsize : (dn inum).size.toNat < 2 ^ 32 := (dn inum).size.toNat_lt
  have hoff : (UInt32.ofNat off).toNat = off := UInt32.toNat_ofNat_of_lt' (show off < 2 ^ 32 by omega)
  have hn : (UInt32.ofNat n).toNat = n := UInt32.toNat_ofNat_of_lt' (show n < 2 ^ 32 by omega)
  have hadd : (UInt32.ofNat off + UInt32.ofNat n).toNat = off + n := by
    rw [UInt32.toNat_add, hoff, hn, Nat.mod_eq_of_lt (by omega)]
  have hguard : ¬(UInt32.ofNat off > (dn inum).size ∨ UInt32.ofNat off + UInt32.ofNat n < UInt32.ofNat off) := by
    rw [gt_iff_lt, UInt32.lt_iff_toNat_lt, UInt32.lt_iff_toNat_lt, hadd, hoff]
    omega
  have hcut : ¬UInt32.ofNat off + UInt32.ofNat n > (dn inum).size := by
    rw [gt_iff_lt, UInt32.lt_iff_toNat_lt, hadd]
    omega
  obtain ⟨bs, r, hloop, hgood⟩ : ∃ bs r,
      Fs.readiLoop t.sb (fun _ _ => true) n t.blk (dn inum) 0 off = .ok (t.blk, dn inum, bs, r) ∧ _ :=
    Fs.readiLoop_eq (Nat.zero_le n) hf
  obtain ⟨hr, hbs⟩ := hgood fun _ _ _ => rfl
  have hread : Fs.readi t.sb t.blk (t.itable i).toDinode (fun _ _ => true) (UInt32.ofNat off) (UInt32.ofNat n) =
      .ok (t.blk, (t.itable i).toDinode, bs, some n) := by
    rw [hd, Fs.readi, if_neg hguard]
    simp only [if_neg hcut]
    rw [hn, hoff, hloop, hr]
  rw [readi, hread, hbs]
  simp only [liftFs, Except.mapError, ok_bind, if_true, Nat.sub_zero]
  rw [Fs.Sys.setInode, Function.update_eq_self]

/-- Entry `i` of the table is a copy of an allocated inode. -/
structure Loaded (t : Fs.Sys) (i : Fin NINODE) : Prop where
  consistent : Fs.Consistent t.sb (dinode t.sb t.blk) t.blk
  live : Live t.sb (dinode t.sb t.blk) (t.itable i).inum
  copy : (t.itable i).toDinode = dinode t.sb t.blk (t.itable i).inum

theorem loaded_of_locked (hI : Fs.Inv t) (hr : 0 < (t.itable i).ref) (hv : (t.itable i).valid = true) : Loaded t i :=
  ⟨hI.consistent, hI.live hr hv, (hI.copy hr hv).1⟩

/-- A read below the size. -/
theorem readi_eq (hL : Loaded t i) (hle : off + n ≤ (t.itable i).size.toNat) :
    readi t i off n = .ok (t, some (((t.files (t.itable i).inum).drop off).take n)) := by
  rw [hL.copy] at hle
  rw [readi_of_filled hL.copy (fun bn hbn => hL.consistent.sized _ hL.live bn (lt_of_lt_of_le hbn hle)) hle]
  congr 3
  refine List.ext_getElem? fun x => ?_
  rw [Fs.files_of_live hL.live, List.getElem?_take, List.getElem?_drop, Fs.getElem?_content]
  by_cases hx : x < n
  · rw [if_pos hx, if_pos (by omega), List.getElem?_map, List.getElem?_range hx]
    rfl
  · rw [if_neg hx]
    simp [Nat.not_lt.mp hx]

/-- The entries `es` can be read from entry number `k` on. -/
def Reads (t : Fs.Sys) (i : Fin NINODE) (k : Nat) (es : List Dirent) : Prop :=
  ∀ j e, es[j]? = some e → ∃ bs, readi t i (DESIZE * (k + j)) DESIZE = .ok (t, some bs) ∧ Dirent.ofBytes bs = e

theorem Reads.head {e : Dirent} (h : Reads t i k (e :: es)) :
    ∃ bs, readi t i (DESIZE * k) DESIZE = .ok (t, some bs) ∧ Dirent.ofBytes bs = e := h 0 e rfl

theorem Reads.tail {e : Dirent} (h : Reads t i k (e :: es)) : Reads t i (k + 1) es := by
  intro j e' hj
  have := h (j + 1) e' (by rwa [List.getElem?_cons_succ])
  rwa [show k + (j + 1) = k + 1 + j by omega] at this

theorem reads_entries (hL : Loaded t i) : Reads t i 0 (entries t (t.itable i).inum) := by
  have hlen : (t.files (t.itable i).inum).length = (t.itable i).size.toNat := by
    rw [Fs.files_of_live hL.live, Fs.length_content, hL.copy]
  intro j e hj
  obtain ⟨hlt, rfl⟩ := List.getElem?_eq_some_iff.mp hj
  simp only [entries, dirents, List.length_map, List.length_range] at hlt
  have hle : DESIZE * (0 + j) + DESIZE ≤ (t.itable i).size.toNat := by
    rw [hlen, Nat.lt_iff_add_one_le, Nat.le_div_iff_mul_le (by decide)] at hlt
    rw [Nat.zero_add]
    calc DESIZE * j + DESIZE = (j + 1) * DESIZE := by ring
      _ ≤ _ := hlt
  refine ⟨_, readi_eq hL hle, ?_⟩
  simp only [entries, dirents, List.getElem_map, List.getElem_range, Nat.zero_add]
  rfl

/-- A directory has a whole number of entries. -/
def Aligned (s : Fs.Sys) (inum : Nat) : Prop := (dinode s.sb s.blk inum).size.toNat % DESIZE = 0

theorem length_entries (hl : Live s.sb (dinode s.sb s.blk) inum) (ha : Aligned s inum) :
    (entries s inum).length = slots (dinode s.sb s.blk inum).size := by
  have hlen : (s.files inum).length = (dinode s.sb s.blk inum).size.toNat := by
    rw [Fs.files_of_live hl, Fs.length_content]
  unfold Aligned at ha
  simp only [entries, dirents, List.length_map, List.length_range, hlen, slots, DESIZE] at *
  omega

/-! ## Searching -/

theorem findFrom_eq_none : findFrom name k es = none ↔ ∀ e ∈ es, ¬(e.inum ≠ 0 ∧ e.name = name) := by
  induction es generalizing k with
  | nil => simp [findFrom]
  | cons e es ih =>
      rw [findFrom]
      by_cases he : e.inum ≠ 0 ∧ e.name = name
      · rw [if_pos he]
        simp [he]
      · rw [if_neg he, ih, List.forall_mem_cons]
        exact ⟨fun h => ⟨he, h⟩, And.right⟩

theorem findFrom_eq_some {j m : Nat} (h : findFrom name k es = some (j, m)) :
    k ≤ j ∧ es[j - k]? = some ⟨m, name⟩ ∧ m ≠ 0 := by
  induction es generalizing k with
  | nil => cases h
  | cons e es ih =>
      rw [findFrom] at h
      split at h
      · rename_i he
        cases h
        refine ⟨le_rfl, ?_, he.1⟩
        rw [Nat.sub_self, List.getElem?_cons_zero, ← he.2]
      · obtain ⟨h1, h2, h3⟩ := ih h
        refine ⟨by omega, ?_, h3⟩
        rw [show j - k = (j - (k + 1)) + 1 by omega, List.getElem?_cons_succ]
        exact h2

/-- **The loop of `dirlookup`** over entries that can be read. -/
theorem dirlookupFrom_eq (hR : Reads t i k es) (hn : es.length ≤ n) :
    dirlookupFrom t i name k n =
      match findFrom name k es with
      | some r => .ok (t, some r)
      | none => dirlookupFrom t i name (k + es.length) (n - es.length) := by
  induction es generalizing k n with
  | nil => rfl
  | cons e es ih =>
      obtain ⟨n, rfl⟩ : ∃ m, n = m + 1 := ⟨n - 1, by rw [List.length_cons] at hn; omega⟩
      obtain ⟨bs, hread, rfl⟩ := hR.head
      rw [dirlookupFrom, hread, findFrom, ok_bind]
      simp only
      by_cases he : (Dirent.ofBytes bs).inum ≠ 0 ∧ (Dirent.ofBytes bs).name = name
      · rw [if_pos he, if_pos he]
      · rw [if_neg he, if_neg he, ih hR.tail (by rw [List.length_cons] at hn; omega), List.length_cons,
          show k + 1 + es.length = k + (es.length + 1) by omega, Nat.succ_sub_succ]

/-- The loop of `dirlookup` finds what the list says. -/
theorem dirlookupFrom_entries (hL : Loaded t i) (ha : Aligned t (t.itable i).inum) :
    dirlookupFrom t i name 0 (slots (t.itable i).size) = .ok (t, findFrom name 0 (entries t (t.itable i).inum)) := by
  have hlen := length_entries hL.live ha
  rw [← hL.copy] at hlen
  rw [dirlookupFrom_eq (reads_entries hL) (le_of_eq hlen), hlen, Nat.sub_self, Nat.zero_add]
  cases findFrom name 0 (entries t (t.itable i).inum) with
  | none => rfl
  | some r => rfl

/-- **`dirlookup`** of a directory. -/
theorem dirlookup_eq (hL : Loaded t i) (htype : (t.itable i).type = T_DIR) (ha : Aligned t (t.itable i).inum) :
    dirlookup t i name =
      match findFrom name 0 (entries t (t.itable i).inum) with
      | none => .ok (t, none)
      | some (k, m) => liftFs (Fs.iget t m) >>= fun r => .ok (r.1, some (r.2, k)) := by
  rewrite [dirlookup, if_neg (not_not.mpr htype), dirlookupFrom_entries hL ha, ok_bind]
  cases findFrom name 0 (entries t (t.itable i).inum) with
  | none => rfl
  | some r => rfl

end Xv6.Syscall
