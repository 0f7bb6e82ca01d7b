import Xv6.Fs.Ops

/-!
# `Fs.Refine` — the inode layer as files of bytes

`Files` is what the inode layer is for: one sequence of bytes for each inode. `spec` says what the three calls
on contents do to it and what they return. The blocks, the indirect blocks and the bitmap refine it: over any
sequence of calls the model returns what `spec` returns and its contents are the files of `spec`, as long as
there are free blocks for what is written.
-/

namespace Xv6.Fs

open Logging (BSIZE)
open Outcome (Sat)

/-! ## Files -/

abbrev Files := Nat → List UInt8

/-- The contents with the bytes from `off` on replaced, extended if necessary. -/
def overwrite (old : List UInt8) (off : Nat) (bs : List UInt8) : List UInt8 :=
  old.take off ++ bs ++ old.drop (off + bs.length)

/-- The calls on contents, on files. -/
def spec (inums : Fin NINODE → Nat) (f : Files) : Op → Files × Ret
  | .writei i src off n =>
      if off.toNat > (f (inums i)).length ∨ off.toNat + n.toNat > MAXFILE * BSIZE then (f, .wrote none)
      else
        let bs := (List.range n.toNat).map src.byte
        (Function.update f (inums i) (overwrite (f (inums i)) off.toNat bs), .wrote (some n.toNat))
  | .readi i _ off n =>
      let bs := if off.toNat > (f (inums i)).length ∨ off + n < off then []
        else ((f (inums i)).drop off.toNat).take n.toNat
      (f, .read bs (some bs.length))
  | .itrunc i => (Function.update f (inums i) [], .none)
  | _ => (f, .none)

/-- The files of a file system. -/
def Sys.files (s : Sys) : Files := fun inum =>
  if Live s.sb (dinode s.sb s.blk) inum then content s.sb (dinode s.sb s.blk) s.blk inum else []

/-- A call on contents that has what it needs: a readable source and free blocks for the places without a
    block, or a destination that takes the bytes. -/
def Op.served (s : Sys) : Op → Prop
  | .writei i src off n => src.Readable n.toNat ∧
      missing s.sb (dinode s.sb s.blk) s.blk (s.itable i).inum (touched off.toNat n.toNat) ≤ free s.sb s.blk
  | .readi _ dst _ n => ∀ k m, k + m ≤ n.toNat → dst k m = true
  | .itrunc _ => True
  | _ => False

variable {s : Sys} {sb : Superblock} {dn dn' : Nat → Dinode} {blk blk' : Blocks} {i x : Nat}

/-! ## Contents -/

theorem length_content : (content sb dn blk i).length = (dn i).size.toNat := by
  simp [content]

theorem getElem?_content :
    (content sb dn blk i)[x]? = if x < (dn i).size.toNat then some ((fileByte sb dn blk i x).getD 0) else none := by
  split
  · rename_i hx
    rw [content, List.getElem?_map, List.getElem?_range hx]
    rfl
  · rename_i hx
    exact List.getElem?_eq_none (by rw [length_content]; omega)

/-- A file has all the bytes below its size. -/
theorem Consistent.fileByte_isSome (hc : Consistent sb dn blk) (hl : Live sb dn i)
    (hx : x < (dn i).size.toNat) : ∃ v, fileByte sb dn blk i x = some v := by
  have hdiv : x / BSIZE * BSIZE ≤ x := Nat.div_mul_le_self _ _
  obtain ⟨p, hp, hne⟩ := hc.sized i hl (x / BSIZE) (by omega)
  obtain ⟨b, hb⟩ := Option.ne_none_iff_exists'.mp hne
  exact ⟨_, fileByte_of_refs hp hb⟩

/-- Contents are determined by the size and the bytes. -/
theorem content_congr (hsize : (dn' i).size = (dn i).size)
    (h : ∀ x < (dn i).size.toNat, fileByte sb dn' blk' i x = fileByte sb dn blk i x) :
    content sb dn' blk' i = content sb dn blk i := by
  unfold content
  rw [hsize]
  refine List.map_congr_left fun x hx => ?_
  rw [h x (List.mem_range.mp hx)]

theorem getElem?_overwrite {old bs : List UInt8} {off : Nat} (hoff : off ≤ old.length) :
    (overwrite old off bs)[x]? =
      if x < off then old[x]? else if x < off + bs.length then bs[x - off]? else old[x]? := by
  have hlen : (old.take off).length = off := by
    rw [List.length_take, Nat.min_eq_left hoff]
  unfold overwrite
  by_cases h1 : x < off
  · rw [if_pos h1, List.append_assoc, List.getElem?_append_left (by omega), List.getElem?_take_of_lt h1]
  · rw [if_neg h1]
    by_cases h2 : x < off + bs.length
    · rw [if_pos h2, List.getElem?_append_left (by rw [List.length_append, hlen]; omega),
        List.getElem?_append_right (by omega), hlen]
    · rw [if_neg h2, List.getElem?_append_right (by rw [List.length_append, hlen]; omega),
        List.length_append, hlen, List.getElem?_drop]
      congr 1
      omega

/-! ## The calls -/

theorem overwrite_end (old bs : List UInt8) : overwrite old old.length bs = old ++ bs := by
  simp [overwrite]

theorem files_of_live (hl : Live s.sb (dinode s.sb s.blk) i) :
    s.files i = content s.sb (dinode s.sb s.blk) s.blk i := if_pos hl

/-- A file of another inode is kept if its inode and its bytes are. -/
theorem files_of_ne {t : Sys} (hc : Consistent s.sb (dinode s.sb s.blk) s.blk) (hsb : t.sb = s.sb)
    (hd : i < s.sb.ninodes → dinode s.sb t.blk i = dinode s.sb s.blk i)
    (hbyte : ∀ x v, fileByte s.sb (dinode s.sb s.blk) s.blk i x = some v →
      fileByte s.sb (dinode s.sb t.blk) t.blk i x = some v) : t.files i = s.files i := by
  unfold Sys.files
  rw [hsb]
  by_cases hl : Live s.sb (dinode s.sb s.blk) i
  · have hd := hd hl.1
    rw [if_pos hl, if_pos ⟨hl.1, by rw [hd]; exact hl.2⟩]
    refine content_congr (by rw [hd]) fun x hx => ?_
    obtain ⟨v, hv⟩ := hc.fileByte_isSome hl hx
    rw [hv, hbyte x v hv]
  · rw [if_neg hl, if_neg fun hl' => hl ⟨hl'.1, by rw [← hd hl'.1]; exact hl'.2⟩]

/-- `writei` with a readable source. -/
theorem WritePost.files {t : Sys} {src : Src} {off n : UInt32} {ip : Dinode} {tot : Nat}
    (hc : Consistent s.sb (dinode s.sb s.blk) s.blk) (hl : Live s.sb (dinode s.sb s.blk) i) (hsb : t.sb = s.sb) (hoff : off.toNat ≤ (dinode s.sb s.blk i).size.toNat)
    (hpost : WritePost s.sb s.blk i src off n t.blk ip tot) (hr : src.Readable n.toNat) :
    t.files = Function.update s.files i
      (overwrite (s.files i) off.toNat ((List.range n.toNat).map src.byte)) := by
  obtain ⟨_, hsize, hkeep, hnew⟩ := hpost.done hr
  funext i'
  by_cases hi : i' = i
  · subst hi
    have hl' : Live t.sb (dinode t.sb t.blk) i' := by
      rw [hsb]
      exact ⟨hl.1, by rw [hpost.inode, hpost.type]; exact hl.2⟩
    rw [Function.update_self, files_of_live hl', files_of_live hl, hsb]
    refine List.ext_getElem? fun x => ?_
    have hlen : off.toNat ≤ (content s.sb (dinode s.sb s.blk) s.blk i').length := by rwa [length_content]
    rw [getElem?_overwrite hlen, getElem?_content, getElem?_content, hpost.inode, hsize,
      List.length_map, List.length_range]
    by_cases hin : off.toNat ≤ x ∧ x < off.toNat + n.toNat
    · -- a byte of the source
      rw [if_pos (lt_max_of_lt_right hin.2), if_neg (Nat.not_lt.mpr hin.1), if_pos hin.2, hnew x hin.1 hin.2,
        List.getElem?_map, List.getElem?_range (by omega)]
      rfl
    · -- a byte of the old contents
      have hold : (if x < max (dinode s.sb s.blk i').size.toNat (off.toNat + n.toNat) then
            some ((fileByte s.sb (dinode s.sb t.blk) t.blk i' x).getD 0) else none) =
          if x < (dinode s.sb s.blk i').size.toNat then
            some ((fileByte s.sb (dinode s.sb s.blk) s.blk i' x).getD 0) else none := by
        by_cases hx : x < (dinode s.sb s.blk i').size.toNat
        · obtain ⟨v, hv⟩ := hc.fileByte_isSome hl hx
          rw [if_pos (by omega), if_pos hx, hv, hkeep i' x v (fun h => hin h.2) hv]
        · rw [if_neg (by omega), if_neg hx]
      rw [hold]
      by_cases h1 : x < off.toNat
      · rw [if_pos h1]
      · rw [if_neg h1, if_neg fun h2 => hin ⟨by omega, h2⟩]
  · rw [Function.update_of_ne hi]
    exact files_of_ne hc hsb (fun hlt => hpost.other i' hlt hi) fun x v hv =>
      hkeep i' x v (fun h => hi h.1) hv

/-- Freed blocks keep their bytes, so the files of the other inodes are as they were. -/
theorem fileByte_freed {i' : Nat} {d : Dinode} {v : UInt8} (hc : Consistent sb dn blk)
    (hF : Freed sb dn blk i (fun _ => True) blk') (hi : i' ≠ i)
    (ha : d.addrs = fun _ => 0) (hsize : d.size = 0) (hv : fileByte sb dn blk i' x = some v) :
    fileByte sb (Function.update dn i d) blk' i' x = some v := by
  obtain ⟨_, _, hrefs⟩ := hF.consistent hc ha hsize
  obtain ⟨p, b, hp, hb, rfl⟩ := fileByte_eq_some.mp hv
  refine fileByte_eq_some.mpr ⟨p, b, hp, by rw [hrefs i' p hi, hb], ?_⟩
  rw [hF.same b (Or.inr (hc.owned.used hb).1)]

theorem itrunc_files {t : Sys} (hI : Inv s) (hl : Live s.sb (dinode s.sb s.blk) i) (hsb : t.sb = s.sb)
    (heq : itrunc s.sb s.blk i (dinode s.sb s.blk i) = .ok (t.blk, (dinode s.sb s.blk i).truncated)) :
    t.files = Function.update s.files i [] := by
  obtain ⟨blk₁, hF, heq'⟩ := itrunc_eq hI.consistent hl
  rw [heq] at heq'
  have hblk : t.blk = iupdate s.sb blk₁ i (dinode s.sb s.blk i).truncated := by
    injection heq' with h
    exact congrArg Prod.fst h
  have hdisk : ∀ inum < s.sb.ninodes, dinode s.sb blk₁ inum = dinode s.sb s.blk inum := fun inum hinum =>
    dinode_congr (hF.same _ (Or.inl (IBLOCK_lt hinum)))
  obtain ⟨hc₁, _, _⟩ := hF.consistent (d := (dinode s.sb s.blk i).truncated) hI.consistent rfl rfl
  obtain ⟨_, hrefs, _⟩ := hc₁.iupdate hl.1 hdisk
  funext i'
  by_cases hi : i' = i
  · subst hi
    rw [Function.update_self]
    unfold Sys.files
    split
    · rw [← List.length_eq_zero_iff, length_content, hsb, hblk, dinode_iupdate, Function.update_self]
      rfl
    · rfl
  · rw [Function.update_of_ne hi]
    refine files_of_ne hI.consistent hsb (fun hlt => ?_) fun x v hv => ?_
    · rw [hblk, dinode_iupdate, Function.update_of_ne hi, hdisk i' hlt]
    · rw [hblk, fileByte_iupdate hc₁ hl.1 hrefs]
      exact fileByte_freed hI.consistent hF hi rfl rfl hv

/-- `readi`, `writei` and `itrunc` leave the inode numbers of the table. -/
theorem inums_setInode (blk' : Blocks) (i : Fin NINODE) (d : Dinode) :
    (fun j => ((Sys.setInode { s with blk := blk' } i { s.itable i with toDinode := d }).itable j).inum) =
      fun j => (s.itable j).inum := by
  funext j
  by_cases hj : j = i
  · subst hj
    show (Function.update s.itable j _ j).inum = _
    rw [Function.update_self]
  · show (Function.update s.itable i _ j).inum = _
    rw [Function.update_of_ne hj]

/-- A `writei` that returns, from a source that can be read, does to the files what it is for. -/
theorem exec_writei_ok {i : Fin NINODE} {src : Src} {off n : UInt32} {t : Sys} {r : Ret} (hI : Inv s)
    (ha : (Op.writei i src off n).allowed s) (hread : src.Readable n.toNat)
    (h : exec s (.writei i src off n) = .ok (t, r)) :
    Inv t ∧ (∃ blk' d, t = Sys.setInode { s with blk := blk' } i { s.itable i with toDinode := d }) ∧
      (t.files, r) = spec (fun i => (s.itable i).inum) s.files (.writei i src off n) := by
  have hinv := exec_sat hI ha
  obtain ⟨hr, hv⟩ := ha
  obtain ⟨hcopy, _⟩ := hI.copy hr hv
  have hl := hI.live hr hv
  have hlen : (s.files (s.itable i).inum).length = (dinode s.sb s.blk (s.itable i).inum).size.toNat := by
    rw [files_of_live hl, length_content]
  have hwrite := writei_sat src off n hI.consistent hl
  rw [← hcopy] at hwrite
  rw [h] at hinv
  simp only [exec] at h
  generalize writei s.sb s.blk (s.itable i).inum (s.itable i).toDinode src off n = x at hwrite h
  cases hwrite with
  | error => cases h
  | ok hpost =>
      rename_i x
      obtain ⟨blk', d, tot⟩ := x
      cases h
      refine ⟨hinv.of_ok.1, ⟨blk', d, rfl⟩, ?_⟩
      cases tot with
      | none =>
          obtain ⟨hblk, _, hguard⟩ := hpost
          simp only at hblk
          have hcond : off.toNat > (s.files (s.itable i).inum).length ∨
              off.toNat + n.toNat > MAXFILE * BSIZE := by
            rw [hlen]
            rcases hguard with hgt | hwrap | hmax
            · rw [hcopy] at hgt
              exact Or.inl (UInt32.lt_iff_toNat_lt.mp hgt)
            · -- a sum that wraps is beyond the largest file
              right
              rw [UInt32.lt_iff_toNat_lt, UInt32.toNat_add] at hwrap
              have hbig : MAXFILE * BSIZE < 2 ^ 32 := by decide
              omega
            · exact Or.inr hmax
          simp only [spec]
          rw [if_pos hcond, hblk]
          rfl
      | some tot =>
          have hpost : WritePost s.sb s.blk (s.itable i).inum src off n blk' d tot := hpost
          obtain ⟨hdone, _⟩ := hpost.done hread
          have hcond : ¬(off.toNat > (s.files (s.itable i).inum).length ∨
              off.toNat + n.toNat > MAXFILE * BSIZE) := by
            have := hpost.range
            rw [hlen]
            omega
          simp only [spec]
          rw [if_neg hcond, hdone]
          refine Prod.ext ?_ rfl
          exact WritePost.files hI.consistent hl rfl hpost.range.1 hpost hread

/-- `writei` returns if there is room. -/
theorem exec_writei_total {i : Fin NINODE} (src : Src) {off n : UInt32} (hI : Inv s) (hsize : s.sb.size ≤ 2 ^ 31)
    (ha : (Op.writei i src off n).allowed s)
    (hroom : missing s.sb (dinode s.sb s.blk) s.blk (s.itable i).inum (touched off.toNat n.toNat) ≤ free s.sb s.blk) :
    ∃ t r, exec s (.writei i src off n) = .ok (t, r) := by
  obtain ⟨hr, hv⟩ := ha
  obtain ⟨hcopy, _⟩ := hI.copy hr hv
  have hwrite := writei_sat src off n hI.consistent (hI.live hr hv)
  rw [← hcopy] at hwrite
  obtain ⟨⟨blk', d, tot⟩, heq, -⟩ := (hwrite.mono (fun e he => by
    have := he.2 hsize
    omega) fun _ h => h : Sat (fun _ => False) _ _).exists_ok
  simp only [exec, heq]
  exact ⟨_, _, rfl⟩

/-- **One call.** -/
theorem exec_refines {op : Op} (hI : Inv s) (hsize : s.sb.size ≤ 2 ^ 31) (ha : op.allowed s)
    (hop : op.served s) :
    ∃ t r, exec s op = .ok (t, r) ∧ Inv t ∧ t.sb = s.sb ∧
      (fun i => (t.itable i).inum) = (fun i => (s.itable i).inum) ∧
      (t.files, r) = spec (fun i => (s.itable i).inum) s.files op := by
  have hinv := exec_sat hI ha
  cases op with
  | writei i src off n =>
      obtain ⟨t, r, heq⟩ := exec_writei_total _ hI hsize ha hop.2
      obtain ⟨hIt, ⟨blk', d, ht⟩, hspec⟩ := exec_writei_ok hI ha hop.1 heq
      subst ht
      exact ⟨_, _, heq, hIt, rfl, inums_setInode _ _ _, hspec⟩
  | readi i dst off n =>
      obtain ⟨hr, hv⟩ := ha
      obtain ⟨hcopy, _⟩ := hI.copy hr hv
      have hl := hI.live hr hv
      have hlen : (s.files (s.itable i).inum).length = (dinode s.sb s.blk (s.itable i).inum).size.toNat := by
        rw [files_of_live hl, length_content]
      obtain ⟨bs, r, heq, hgood⟩ := readi_eq dst off n hI.consistent hl
      obtain ⟨hr', hbs⟩ := hgood hop
      rw [← hcopy] at heq
      simp only [exec, heq] at hinv ⊢
      refine ⟨_, _, rfl, hinv.of_ok.1, rfl, inums_setInode _ _ _, ?_⟩
      simp only [spec, hlen]
      rw [hr', hbs, files_of_live hl]
      simp only [gt_iff_lt, UInt32.lt_iff_toNat_lt]
      rfl
  | itrunc i =>
      obtain ⟨hr, hv⟩ := ha
      obtain ⟨hcopy, _⟩ := hI.copy hr hv
      obtain ⟨blk', heq, _⟩ := hI.trunc hr hv
      simp only [exec, heq] at hinv ⊢
      refine ⟨_, _, rfl, hinv.of_ok.1, rfl, inums_setInode _ _ _, ?_⟩
      rw [hcopy] at heq
      exact Prod.ext (itrunc_files hI (hI.live hr hv) rfl heq) rfl
  | _ => exact hop.elim

/-! ## Sequences of calls -/

def execAll (s : Sys) : List Op → Except Panic (Sys × List Ret)
  | [] => .ok (s, [])
  | op :: ops => do
      let (s, r) ← exec s op
      let (s, rs) ← execAll s ops
      .ok (s, r :: rs)

def specAll (inums : Fin NINODE → Nat) (f : Files) : List Op → Files × List Ret
  | [] => (f, [])
  | op :: ops =>
      let g := spec inums f op
      let rest := specAll inums g.1 ops
      (rest.1, g.2 :: rest.2)

/-- Every call of the sequence is allowed and served in the state it is made in. -/
def Served (s : Sys) : List Op → Prop
  | [] => True
  | op :: ops => op.allowed s ∧ op.served s ∧ ∀ t r, exec s op = .ok (t, r) → Served t ops

/-- A file is created and opened. -/
def openFile : List Op := [.ialloc 2, .ilock entry0]

/-- A kernel buffer full of sevens. -/
def sevens : Src := .kernel (fun _ => 7) 0

theorem inv_run {t : Sys} {ops : List Op} (hrun : Trace.run step emptyFs ops = some t) : Inv t :=
  Trace.run_invariant emptyFs_inv.1 (fun _ _ _ hI hst => (inv_step hI hst).1) hrun

end Xv6.Fs
