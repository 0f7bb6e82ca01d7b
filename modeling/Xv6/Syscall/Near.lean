import Xv6.Fs.Refine
import Xv6.Syscall.Dir

/-!
# `Syscall.Near` — a file system that has only been looked at

A system call takes references to inodes, locks them, looks at them and gives the references back. `Near s t acq`
says that this is all that has happened between `s` and `t`: the blocks are the same, the inode table has `acq i` more
references to entry `i`, and an entry that was in use is what it was, or has been read from disk in the meantime.

Getting a reference fails only if the table is full. Giving one back keeps the relation unless it is the last one to
an inode without links, which `iput` would free.
-/

namespace Xv6.Syscall

open Fs (NINODE dinode Live)
open Outcome (Sat)

structure Near (s t : Fs.Sys) (acq : Fin NINODE → Nat) : Prop where
  inv : Fs.Inv t
  sb : t.sb = s.sb
  blk : t.blk = s.blk
  ref : ∀ i, (t.itable i).ref = (s.itable i).ref + acq i
  inum : ∀ i, 0 < (s.itable i).ref → (t.itable i).inum = (s.itable i).inum
  copy : ∀ i, 0 < (s.itable i).ref → (s.itable i).valid = true →
    (t.itable i).valid = true ∧ (t.itable i).toDinode = (s.itable i).toDinode

/-- The entries of the table that are not in use. -/
def freeEntries (s : Fs.Sys) : Nat := (Finset.univ.filter fun i => (s.itable i).ref = 0).card

/-- How taking a reference fails while `k` others are held. -/
def Crowded (s : Fs.Sys) (k : Nat) (e : Panic) : Prop := e = .fs .tableFull ∧ freeEntries s ≤ k

variable {s t t' : Fs.Sys} {acq : Fin NINODE → Nat} {i j : Fin NINODE} {inum : Nat}

theorem Crowded.mono {k m : Nat} {e : Panic} (h : Crowded s k e) (hkm : k ≤ m) : Crowded s m e :=
  ⟨h.1, le_trans h.2 hkm⟩

theorem Near.refl (hI : Fs.Inv s) : Near s s 0 :=
  ⟨hI, rfl, rfl, fun _ => rfl, fun _ _ => rfl, fun _ _ hv => ⟨hv, rfl⟩⟩

theorem Near.dinode (h : Near s t acq) (inum : Nat) : dinode t.sb t.blk inum = Fs.dinode s.sb s.blk inum := by
  rw [h.sb, h.blk]

theorem Near.live (h : Near s t acq) (inum : Nat) :
    Live t.sb (Fs.dinode t.sb t.blk) inum ↔ Live s.sb (Fs.dinode s.sb s.blk) inum := by
  rw [h.sb, h.blk]

theorem single_pos (i : Fin NINODE) : 0 < (Pi.single i 1 : Fin NINODE → Nat) i := by
  rw [Pi.single_eq_same]
  exact Nat.one_pos

/-- An entry that is held is in use. -/
theorem Near.held (h : Near s t acq) (ha : 0 < acq i) : 0 < (t.itable i).ref := by
  have := h.ref i
  omega

/-- One entry of the table has changed. -/
theorem Near.set {ip : Fs.Inode} {acq' : Fin NINODE → Nat} (h : Near s t acq) (hI : Fs.Inv (t.setInode i ip))
    (href : ip.ref = (s.itable i).ref + acq' i) (hacq : ∀ j, j ≠ i → acq' j = acq j)
    (hinum : 0 < (s.itable i).ref → ip.inum = (s.itable i).inum)
    (hcopy : 0 < (s.itable i).ref → (s.itable i).valid = true →
      ip.valid = true ∧ ip.toDinode = (s.itable i).toDinode) : Near s (t.setInode i ip) acq' := by
  have hself : (t.setInode i ip).itable i = ip := Function.update_self _ _ _
  have hother : ∀ j, j ≠ i → (t.setInode i ip).itable j = t.itable j := fun j hj => Function.update_of_ne hj _ _
  refine ⟨hI, h.sb, h.blk, fun j => ?_, fun j => ?_, fun j => ?_⟩
  all_goals by_cases hj : j = i
  · rw [hj, hself, href]
  · rw [hother j hj, h.ref, hacq j hj]
  · rw [hj, hself]
    exact hinum
  · rw [hother j hj]
    exact h.inum j
  · rw [hj, hself]
    exact hcopy
  · rw [hother j hj]
    exact h.copy j

/-- Entries that stay in use stay what they are. -/
def Steady (t t' : Fs.Sys) : Prop :=
  ∀ k, 0 < (t.itable k).ref → 0 < (t'.itable k).ref → (t'.itable k).inum = (t.itable k).inum ∧
    ((t.itable k).valid = true → (t'.itable k).valid = true ∧ (t'.itable k).toDinode = (t.itable k).toDinode)

theorem Steady.refl (t : Fs.Sys) : Steady t t := fun _ _ _ => ⟨rfl, fun hv => ⟨hv, rfl⟩⟩

theorem Steady.trans {u : Fs.Sys} (h₁ : Steady t t') (h₂ : Steady t' u)
    (hmid : ∀ k, 0 < (t.itable k).ref → 0 < (t'.itable k).ref) : Steady t u := by
  intro k hk hu
  obtain ⟨hin₁, hcopy₁⟩ := h₁ k hk (hmid k hk)
  obtain ⟨hin₂, hcopy₂⟩ := h₂ k (hmid k hk) hu
  refine ⟨hin₂.trans hin₁, fun hv => ?_⟩
  obtain ⟨hv₁, hd₁⟩ := hcopy₁ hv
  obtain ⟨hv₂, hd₂⟩ := hcopy₂ hv₁
  exact ⟨hv₂, hd₂.trans hd₁⟩

theorem steady_set {ip : Fs.Inode} (h : 0 < (t.itable i).ref → ip.inum = (t.itable i).inum ∧
    ((t.itable i).valid = true → ip.valid = true ∧ ip.toDinode = (t.itable i).toDinode)) :
    Steady t (t.setInode i ip) := by
  intro k hk _
  by_cases hki : k = i
  · subst hki
    rw [show (t.setInode k ip).itable k = ip from Function.update_self _ _ _]
    exact h hk
  · rw [show (t.setInode i ip).itable k = t.itable k from Function.update_of_ne hki _ _]
    exact ⟨rfl, fun hv => ⟨hv, rfl⟩⟩

/-! ## Taking references -/

/-- What `iget` does. -/
theorem iget_cases (t : Fs.Sys) (inum : Nat) :
    (∃ i, 0 < (t.itable i).ref ∧ (t.itable i).inum = inum ∧
      Fs.iget t inum = .ok (t.setInode i { t.itable i with ref := (t.itable i).ref + 1 }, i)) ∨
    (∃ i, (t.itable i).ref = 0 ∧ (∀ j, ¬(0 < (t.itable j).ref ∧ (t.itable j).inum = inum)) ∧
      Fs.iget t inum = .ok (t.setInode i { t.itable i with inum := inum, ref := 1, valid := false }, i)) ∨
    ((∀ i, 0 < (t.itable i).ref ∧ (t.itable i).inum ≠ inum) ∧ Fs.iget t inum = .error .tableFull) := by
  unfold Fs.iget
  split
  · rename_i i hi
    have hfound := List.find?_some hi
    simp only [decide_eq_true_eq] at hfound
    exact Or.inl ⟨i, hfound.1, hfound.2, rfl⟩
  · rename_i hnone
    have hnew : ∀ j, ¬(0 < (t.itable j).ref ∧ (t.itable j).inum = inum) := by
      intro j hj
      have := List.find?_eq_none.mp hnone j (List.mem_finRange j)
      simp only [decide_eq_true_eq] at this
      exact this hj
    split
    · rename_i i hi
      have hfound := List.find?_some hi
      simp only [decide_eq_true_eq] at hfound
      exact Or.inr (Or.inl ⟨i, hfound, hnew, rfl⟩)
    · rename_i hfull
      refine Or.inr (Or.inr ⟨fun i => ?_, rfl⟩)
      have := List.find?_eq_none.mp hfull i (List.mem_finRange i)
      simp only [decide_eq_true_eq] at this
      have hr : 0 < (t.itable i).ref := by omega
      exact ⟨hr, fun hin => hnew i ⟨hr, hin⟩⟩

/-- In a full table every entry that was free is held. -/
theorem Near.freeEntries_le (h : Near s t acq) (hfull : ∀ i, 0 < (t.itable i).ref) :
    freeEntries s ≤ ∑ i, acq i := by
  rw [freeEntries, Finset.card_eq_sum_ones, Finset.sum_filter]
  refine Finset.sum_le_sum fun i _ => ?_
  split
  · rename_i h0
    have := h.ref i
    have := hfull i
    omega
  · exact Nat.zero_le _

theorem iget_near (h : Near s t acq) (hi : inum < s.sb.ninodes) :
    Sat (Crowded s (∑ i, acq i))
      (fun r => Near s r.1 (acq + Pi.single r.2 1) ∧ (r.1.itable r.2).inum = inum ∧ Steady t r.1)
      (liftFs (Fs.iget t inum)) := by
  have hsat := Fs.iget_sat h.inv (h.sb ▸ hi)
  rcases iget_cases t inum with ⟨i, hr, hin, heq⟩ | ⟨i, h0, -, heq⟩ | ⟨hfull, heq⟩
  · rw [heq] at hsat ⊢
    have href := h.ref i
    refine .ok ⟨h.set hsat.of_ok.1 ?_ ?_ (fun hs => h.inum i hs) fun hs hv => h.copy i hs hv, ?_, ?_⟩
    · simp only [Pi.add_apply, Pi.single_eq_same]
      omega
    · intro j hj
      simp [Pi.single_eq_of_ne hj]
    · simp [Fs.Sys.setInode, hin]
    · exact steady_set fun _ => ⟨rfl, fun hv => ⟨hv, rfl⟩⟩
  · rw [heq] at hsat ⊢
    have href := h.ref i
    have hs0 : (s.itable i).ref = 0 := by omega
    refine .ok ⟨h.set hsat.of_ok.1 ?_ ?_ (fun hs => absurd hs (by omega)) fun hs => absurd hs (by omega), ?_, ?_⟩
    · simp only [Pi.add_apply, Pi.single_eq_same]
      omega
    · intro j hj
      simp [Pi.single_eq_of_ne hj]
    · simp [Fs.Sys.setInode]
    · exact steady_set fun hr => absurd hr (by omega)
  · rw [heq]
    exact .error ⟨rfl, h.freeEntries_le fun i => (hfull i).1⟩

theorem idup_near (h : Near s t acq) (hr : 0 < (t.itable i).ref) :
    Near s (idup t i) (acq + Pi.single i 1) ∧ ((idup t i).itable i).inum = (t.itable i).inum := by
  have href := h.ref i
  refine ⟨h.set (h.inv.setRef hr) ?_ ?_ (fun hs => h.inum i hs) fun hs hv => h.copy i hs hv, ?_⟩
  · simp only [Pi.add_apply, Pi.single_eq_same]
    omega
  · intro j hj
    simp [Pi.single_eq_of_ne hj]
  · simp [idup, Fs.Sys.setInode]

/-! ## Locking -/

/-- An allocated inode can be locked, and is then what the disk says. -/
theorem ilock_near (h : Near s t acq) (hr : 0 < (t.itable i).ref)
    (hl : Live s.sb (Fs.dinode s.sb s.blk) (t.itable i).inum) :
    ∃ t', ilock t i = .ok t' ∧ Near s t' acq ∧ (t'.itable i).inum = (t.itable i).inum ∧
      (t'.itable i).valid = true ∧ (t'.itable i).toDinode = Fs.dinode s.sb s.blk (t.itable i).inum ∧
      Steady t t' := by
  rw [ilock, if_neg (by omega), Fs.ilock]
  simp only
  by_cases hv : (t.itable i).valid = true
  · rw [if_pos hv]
    have hcopy := (h.inv.copy hr hv).1
    rw [h.dinode] at hcopy
    exact ⟨t, rfl, h, rfl, hv, hcopy, .refl t⟩
  · have h0 : (Fs.dinode t.sb t.blk (t.itable i).inum).type ≠ 0 := by
      rw [h.dinode]
      exact hl.2
    rw [if_neg hv, if_neg h0]
    have hself : (t.setInode i { t.itable i with
        toDinode := Fs.dinode t.sb t.blk (t.itable i).inum, valid := true }).itable i =
        { t.itable i with toDinode := Fs.dinode t.sb t.blk (t.itable i).inum, valid := true } :=
      Function.update_self _ _ _
    refine ⟨_, rfl, h.set ?_ (h.ref i) (fun _ _ => rfl) (fun hs => h.inum i hs) ?_, ?_, ?_, ?_, ?_⟩
    · exact h.inv.store t.blk hr h.inv.consistent (fun _ _ _ => rfl) rfl fun _ _ => ⟨rfl, h0⟩
    · exact fun hs hvs => absurd (h.copy i hs hvs).1 hv
    · rw [hself]
    · rw [hself]
    · rw [hself]
      exact h.dinode _
    · exact steady_set fun _ => ⟨rfl, fun hv' => absurd hv' hv⟩

/-! ## Giving references back -/

/-- The inode has a link, or is in use. -/
def Kept (s : Fs.Sys) (inum : Nat) : Prop :=
  (Fs.dinode s.sb s.blk inum).nlink ≠ 0 ∨ ∃ i, 0 < (s.itable i).ref ∧ (s.itable i).inum = inum

/-- An inode that is in use has had its entry from the start. -/
theorem Near.used_of_kept (h : Near s t acq) (hr : 0 < (t.itable i).ref)
    (hu : ∃ j, 0 < (s.itable j).ref ∧ (s.itable j).inum = (t.itable i).inum) : 0 < (s.itable i).ref := by
  obtain ⟨j, hj, hin⟩ := hu
  have hrj := h.ref j
  have heq := h.inv.distinct (show 0 < (t.itable j).ref by omega) hr ((h.inum j hj).trans hin)
  rwa [← heq]

theorem iput_near (h : Near s t (acq + Pi.single i 1)) (hk : Kept s (t.itable i).inum) :
    ∃ t', iput t i = .ok t' ∧ Near s t' acq ∧ Steady t t' := by
  have href := h.ref i
  simp only [Pi.add_apply, Pi.single_eq_same] at href
  have hr : 0 < (t.itable i).ref := by omega
  -- `iput` does not free the inode
  have hkeep : ¬((t.itable i).ref = 1 ∧ (t.itable i).valid = true ∧ (t.itable i).nlink = 0) := by
    rintro ⟨h1, hv, h0⟩
    rcases hk with hk | hk
    · rw [← h.dinode, ← (h.inv.copy hr hv).1] at hk
      exact hk h0
    · have := h.used_of_kept hr hk
      omega
  refine ⟨t.setInode i { t.itable i with ref := (t.itable i).ref - 1 }, ?_, ?_,
    steady_set fun _ => ⟨rfl, fun hv => ⟨hv, rfl⟩⟩⟩
  · rw [iput, Fs.iput]
    simp only
    rw [if_neg hkeep]
    rfl
  · refine h.set (h.inv.setRef hr) ?_ ?_ (fun hs => h.inum i hs) fun hs hv => h.copy i hs hv
    · simp only
      omega
    · intro j hj
      simp [Pi.single_eq_of_ne hj]

end Xv6.Syscall
