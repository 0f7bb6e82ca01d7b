import Xv6.File.Refs

/-!
# `File.Exact` — every system call keeps the books

**`open_files_safe`**: however the system calls of any number of processes overlap, none of them panics, and a descriptor
never names a file that is free or a pipe that was freed. **`open_files_exact`**: between calls, the reference counts and
the ends of pipes are exactly what the descriptors say, so nothing is closed early and nothing leaks.
-/

namespace Xv6.Ftable

open Syscall (File FileType NFILE NOFILE)

variable {P : Nat} {s : Sys P} {p np : Fin P} {f f0 f1 : Fin NFILE} {fd : Fin NOFILE} {o : Fds} {pi i : Nat}
  {x : Option (Nat × Bool)} {copied : Bool} {r : Except Panic (Sys P)}

/-! ## Calls -/

theorem openFile_spec (file : File) (ip : Fin Fs.NINODE) (major : Option UInt16) (omode : UInt32) :
    (openFile file ip major omode).ref = file.ref ∧ (openFile file ip major omode).type ≠ .pipe := by
  cases major <;> simp [openFile]

/-- A call does not panic. -/
def Kept (r : Except Panic (Sys P)) : Prop := ∃ t, r = .ok t ∧ Inv t

theorem dup_inv (hI : Inv s) (hpc : (s.procs p).pc = .user) : Kept (call s p (.dup fd)) := by
  cases hfd : (s.procs p).ofile fd with
  | none => exact ⟨s, by simp only [call, hfd], hI⟩
  | some f =>
      cases hal : fdalloc (s.procs p).ofile f with
      | none => exact ⟨s, by simp only [call, hfd, hal], hI⟩
      | some u =>
          obtain ⟨fd', u⟩ := u
          obtain ⟨hnone, rfl⟩ := fdalloc_eq_some hal
          have hone := Proc.holds_of_slot hfd
          have hle := hI.holds_le p f
          simp only [call, hfd, hal]
          rw [filedup_eq (by omega)]
          refine ⟨_, rfl, hI.count (.of hpc rfl rfl trivial rfl) (Nat.succ_ne_zero _) (.inr hone) (fun g => ?_) fun e => rfl⟩
          by_cases hg : g = f <;> simp [slots_update, hnone, Pc.inHand, hg, Ne.symm]

theorem close_inv (hI : Inv s) (hpc : (s.procs p).pc = .user) : Kept (call s p (.close fd)) := by
  cases hfd : (s.procs p).ofile fd with
  | none => exact ⟨s, by simp only [call, hfd], hI⟩
  | some f =>
      obtain ⟨u, hok, hI'⟩ := hI.fileclose (k := fun x => .closing x []) (o := Function.update (s.procs p).ofile fd none)
        (Proc.holds_of_slot hfd) (fun x t => .of hpc rfl rfl trivial rfl)
        (fun x g => by by_cases hg : g = f <;> simp [slots_update, hfd, Pc.inHand, hg, Ne.symm])
        (fun x e => by simp [Pc.ends])
      simp only [call, hfd, hok]
      exact ⟨_, rfl, hI'⟩

theorem open_inv {ip : Fin Fs.NINODE} {major : Option UInt16} {omode : UInt32} (hI : Inv s)
    (hpc : (s.procs p).pc = .user) : Kept (call s p (.open ip major omode)) := by
  cases hfa : filealloc s.ftable with
  | none => exact ⟨s, by simp only [call, hfa], hI⟩
  | some u =>
      obtain ⟨f, t⟩ := u
      cases hal : fdalloc (s.procs p).ofile f with
      | none =>
          simp only [call, hfa, hal]
          refine ⟨_, rfl, hI.filealloc hfa hpc rfl rfl trivial (fun g hg => absurd hg List.not_mem_nil) (fun g => ?_)
            fun e => rfl⟩
          by_cases hg : g = f <;> simp [Pc.inHand, hg, Ne.symm]
      | some u =>
          obtain ⟨fd', u⟩ := u
          obtain ⟨hzero, rfl⟩ := filealloc_eq_some hfa
          obtain ⟨hnone, rfl⟩ := fdalloc_eq_some hal
          obtain ⟨href, hpipe⟩ := openFile_spec { s.ftable f with ref := 1 } ip major omode
          simp only [call, hfa, hal]
          refine ⟨_, rfl, ?_⟩
          show Inv ⟨Function.update (Function.update s.ftable f _) f _, _, _⟩
          rw [Function.update_idem, Function.update_self]
          refine hI.put (.of hpc rfl rfl trivial rfl) ((Touch.refl hI).update (.inl hzero) fun h => ?_) (fun g => ?_)
            (fun e => ?_) hI.half
          · rw [href] at h
            cases h
          · rw [Function.update_apply]
            by_cases hg : g = f
            · subst hg
              simp [slots_update, hnone, Pc.inHand, href, hzero]
              omega
            · simp [slots_update, hnone, Pc.inHand, hg, Ne.symm hg]
          · rw [Ledger.sum_update (endOf e), endOf_eq_zero hpipe, endOf_eq_zero (hI.free f hzero ▸ by simp)]
            simp

theorem call_inv {c : Call} (hI : Inv s) (hpc : (s.procs p).pc = .user) : Kept (call s p c) := by
  cases c with
  | dup fd => exact dup_inv hI hpc
  | close fd => exact close_inv hI hpc
  | «open» ip major omode => exact open_inv hI hpc
  | pipe =>
      cases hfa : filealloc s.ftable with
      | none => exact ⟨s, by simp only [call, hfa], hI⟩
      | some u =>
          simp only [call, hfa]
          refine ⟨_, rfl, hI.filealloc hfa hpc rfl rfl trivial (fun g hg => .inl (List.mem_singleton.mp hg)) (fun g => ?_)
            fun e => rfl⟩
          simp [Pc.inHand, eq_comm]
  | exit =>
      exact ⟨_, rfl, hI.quiet (.of hpc rfl rfl (fun fd hfd => absurd hfd (Nat.not_lt_zero _)) rfl) (fun g => rfl)
        fun e => rfl⟩

/-! ## `fork` -/

/-- Places where a process holds exactly what its descriptors name. -/
def Pc.calm : Pc P → Bool
  | .dead | .embryo | .user | .fork _ _ => true
  | _ => false

theorem Pc.calm_spec {pc : Pc P} (h : pc.calm = true) :
    pc.fresh = [] ∧ (∀ e, pc.ends e = 0) ∧ ∀ f, pc.inHand f = 0 := by
  cases pc <;> simp_all [calm, fresh, ends, inHand]

/-- **A parent and its child move.** -/
theorem Inv.pair {t : Files} {pc : Pc P} {b : Proc P} (hI : Inv s) (hT : Touch s p t) (hne : p ≠ np)
    (hpc : (s.procs p).pc.calm = true) (hnp : (s.procs np).pc.calm = true) (hpc' : pc.calm = true) (hb : b.pc.calm = true)
    (hrefs : ∀ f, ((t f).ref : ℤ) + slots (s.procs np).ofile f = (s.ftable f).ref + slots b.ofile f)
    (htable : ∀ e, ∑ f, endOf e (t f) = ∑ f, endOf e (s.ftable f)) (hok : Proc.Ok ⟨pc, (s.procs p).ofile⟩) (hokb : b.Ok)
    (hparent : ∀ q i, (s.procs q).pc = .fork np i → q = p) (hemb : (s.procs p).pc ≠ .embryo)
    (hfork : ∀ m i, pc = .fork m i → m = np ∧ b.pc = .embryo ∧ ∀ fd : Fin NOFILE, i ≤ fd → b.ofile fd = none)
    (hforkb : ∀ m i, b.pc ≠ .fork m i) : Inv ({ s with ftable := t }.put np b |>.goto p pc) := by
  obtain ⟨-, hends, hhand⟩ := Pc.calm_spec hpc
  obtain ⟨-, hendsn, hhandn⟩ := Pc.calm_spec hnp
  obtain ⟨hfresh, hends', hhand'⟩ := Pc.calm_spec hpc'
  obtain ⟨hfreshb, hendsb, hhandb⟩ := Pc.calm_spec hb
  have hstate : ({ s with ftable := t }.put np b |>.goto p pc) =
      ⟨t, s.pipes, Function.update (Function.update s.procs np b) p ⟨pc, (s.procs p).ofile⟩⟩ := by
    simp [Sys.goto, Sys.put, Function.update_of_ne hne]
  rw [hstate]
  set procs := Function.update (Function.update s.procs np b) p ⟨pc, (s.procs p).ofile⟩ with hprocs
  have hp : procs p = ⟨pc, (s.procs p).ofile⟩ := Function.update_self _ _ _
  have hn : procs np = b := by rw [hprocs, Function.update_of_ne hne.symm, Function.update_self]
  have hsame : ∀ q, ¬(q = p ∨ q = np) → procs q = s.procs q := fun q hq => by
    rw [hprocs, Function.update_of_ne fun h => hq (.inl h), Function.update_of_ne fun h => hq (.inr h)]
  have hsum : ∀ m : Proc P → ℤ, ∑ q, m (procs q) =
      ∑ q, m (s.procs q) + m b - m (s.procs np) + m ⟨pc, (s.procs p).ofile⟩ - m (s.procs p) := fun m => by
    rw [hprocs, Ledger.sum_update m, Ledger.sum_update m, Function.update_of_ne hne]
  have hforks : ∀ {q m i}, (procs q).pc = .fork m i → q = p ∧ m = np ∨ m ≠ np ∧ (s.procs q).pc = .fork m i := by
    intro q m i h
    by_cases hq : q = p ∨ q = np
    · rcases hq with rfl | rfl
      · rw [hp] at h
        exact .inl ⟨rfl, (hfork m i h).1⟩
      · exact absurd (hn ▸ h) (hforkb m i)
    · rw [hsame q hq] at h
      exact .inr ⟨fun he => hq (.inl (hparent q i (he ▸ h))), h⟩
  refine hI.move (C := fun q => q = p ∨ q = np) hT (.inl rfl) hsame ?_ (fun q m i hq => ?_) (fun f => ?_) (fun e => ?_) hI.half
  · rintro q (rfl | rfl)
    · rw [hp]
      exact ⟨hok, fun f hf => absurd hf (hfresh ▸ List.not_mem_nil)⟩
    · rw [hn]
      exact ⟨hokb, fun f hf => absurd hf (hfreshb ▸ List.not_mem_nil)⟩
  · rcases hforks hq with ⟨rfl, rfl⟩ | ⟨hm, hold⟩
    · rw [hp] at hq
      obtain ⟨-, hchild, hnone⟩ := hfork m i hq
      refine ⟨hn ▸ hchild, hn ▸ hnone, fun q' j hq' => ?_⟩
      rcases hforks hq' with ⟨rfl, -⟩ | ⟨hm, -⟩
      · rfl
      · exact absurd rfl hm
    · obtain ⟨hchild, hnone, honly⟩ := hI.forks q m i hold
      rw [hsame m fun h => h.elim (fun he => hemb (he ▸ hchild)) hm]
      refine ⟨hchild, hnone, fun q' j hq' => ?_⟩
      rcases hforks hq' with ⟨-, hm'⟩ | ⟨-, hq'⟩
      · exact absurd hm' hm
      · exact honly q' j hq'
  · have := hrefs f
    rw [hsum, hI.refs f]
    simp only [Proc.holds, hhand, hhand', hhandn, hhandb]
    omega
  · have := hI.ends e
    rw [hsum fun b => b.pc.ends e, htable]
    simp only [hends, hends', hendsn, hendsb]
    omega

theorem fork_inv (hI : Inv s) (hpc : (s.procs p).pc = .user) (hdead : (s.procs np).pc = .dead) :
    Inv ((s.goto np .embryo).goto p (.fork np 0)) := by
  have hne : p ≠ np := by
    rintro rfl
    rw [hpc] at hdead
    cases hdead
  have hnone := hI.ok np
  rw [Proc.Ok, hdead] at hnone
  refine hI.pair (.refl hI) hne (by rw [hpc]; rfl) (by rw [hdead]; rfl) rfl rfl (fun f => rfl) (fun e => rfl) trivial trivial
    (fun q i hq => ?_) (by rw [hpc]; simp) (fun m i h => ?_) (fun m i h => by cases h)
  · rw [(hI.forks q np i hq).1] at hdead
    cases hdead
  · cases h
    exact ⟨rfl, rfl, fun fd _ => hnone fd⟩

/-- A process goes on in its call. -/
def Goes (s : Sys P) (p : Fin P) : Prop := ∃ t, go s p = some (.ok t) ∧ Inv t

/-- **The loop of `fork`.** -/
theorem go_fork (hI : Inv s) (hpc : (s.procs p).pc = .fork np i) : Goes s p := by
  obtain ⟨hemb, hnone, hparent⟩ := hI.forks p np i hpc
  have hne : p ≠ np := by
    rintro rfl
    rw [hpc] at hemb
    cases hemb
  have hcalm : (s.procs p).pc.calm = true := by rw [hpc]; rfl
  have hcalmn : (s.procs np).pc.calm = true := by rw [hemb]; rfl
  have hne_emb : (s.procs p).pc ≠ .embryo := by rw [hpc]; simp
  have hchild : ∀ m j, (s.procs np).pc ≠ .fork m j := by rw [hemb]; simp
  by_cases hi : i < NOFILE
  · cases hfd : (s.procs p).ofile ⟨i, hi⟩ with
    | none =>
        have hself : s.goto p (.fork np (i + 1)) = (s.put np (s.procs np)).goto p (.fork np (i + 1)) := by
          rw [Sys.put, Function.update_eq_self]
        simp only [Goes, go, hpc, dif_pos hi, hfd, hself]
        refine ⟨_, rfl, hI.pair (.refl hI) hne hcalm hcalmn rfl hcalmn (fun f => rfl) (fun e => rfl) trivial
          (hI.ok np) hparent hne_emb (fun m j h => ?_) hchild⟩
        cases h
        exact ⟨rfl, hemb, fun fd hfd => hnone fd (Nat.le_of_succ_le hfd)⟩
    | some f =>
        have hone := Proc.holds_of_slot hfd
        have href := hI.holds_le p f
        have hnp := hnone ⟨i, hi⟩ le_rfl
        simp only [Goes, go, hpc, dif_pos hi, hfd]
        rw [filedup_eq (by omega)]
        refine ⟨_, rfl, hI.pair (hI.touchRef (Nat.succ_ne_zero _) (.inr hone)) hne hcalm hcalmn rfl hcalmn
          (fun g => ?_) (fun e => sum_endOf_ref _ _ _ _) trivial ?_ hparent hne_emb (fun m j h => ?_) hchild⟩
        · rw [ref_update, slots_update, hnp]
          by_cases hg : g = f
          · simp [hg]
            omega
          · simp [hg, Ne.symm hg]
        · rw [Proc.Ok, hemb]
          trivial
        · cases h
          refine ⟨rfl, hemb, fun fd hfd => ?_⟩
          show Function.update (s.procs np).ofile ⟨i, hi⟩ (some f) fd = none
          rw [Function.update_of_ne (by rintro rfl; exact absurd hfd (Nat.not_succ_le_self i))]
          exact hnone fd (Nat.le_of_succ_le hfd)
  · simp only [Goes, go, hpc, dif_neg hi]
    exact ⟨_, rfl, hI.pair (.refl hI) hne hcalm hcalmn rfl rfl (fun f => rfl) (fun e => rfl) trivial trivial hparent hne_emb
      (fun m j h => by cases h) (fun m j h => by cases h)⟩

/-! ## `sys_pipe` -/

/-- **A new pipe.** Two files that nobody else knows become its ends. -/
theorem Inv.newPipe {k : Pc P} (hI : Inv s) (hpc : (s.procs p).pc = .kalloc f0 f1) (hpi : s.pipes pi = none)
    (halone : k.alone = true) (hok : Proc.Ok ⟨k, o⟩) (hfresh : k.fresh = []) (hends : ∀ e, k.ends e = 0)
    (hrefs : ∀ f, slots o f + k.inHand f = slots (s.procs p).ofile f + (Pc.kalloc f0 f1 : Pc P).inHand f) :
    Inv ((pipealloc s f0 f1 pi).put p ⟨k, o⟩) := by
  have hmem : ∀ f, f = f0 ∨ f = f1 → f ∈ (s.procs p).pc.fresh := fun f hf => by
    rw [hpc]
    exact List.mem_pair.mpr hf
  obtain ⟨href0, htype0⟩ := hI.fresh p f0 (hmem f0 (.inl rfl))
  obtain ⟨href1, htype1⟩ := hI.fresh p f1 (hmem f1 (.inr rfl))
  have hpos : ∀ f, f = f0 ∨ f = f1 → 0 < (s.procs p).holds f := fun f hf => Proc.holds_of_fresh (hmem f hf)
  have hne : f1 ≠ f0 := by
    rintro rfl
    have hle := hI.holds_le p f1
    have hslots := slots_nonneg (s.procs p).ofile f1
    simp [Proc.holds, hpc, Pc.inHand, href0] at hle
    omega
  rw [Sys.put, pipealloc, Function.update_of_ne hne]
  set t := Function.update (Function.update s.ftable f0 (pipeFile (s.ftable f0) pi false)) f1
    (pipeFile (s.ftable f1) pi true) with ht
  show Inv ⟨t, Function.update s.pipes pi (some ⟨true, true⟩), Function.update s.procs p ⟨k, o⟩⟩
  have href : ∀ f, (t f).ref = (s.ftable f).ref := by
    intro f
    by_cases h1 : f = f1
    · simp [ht, h1, pipeFile]
    · by_cases h0 : f = f0
      · subst h0
        simp [ht, h1, pipeFile]
      · simp [ht, h1, h0]
  have hT : Touch s p t :=
    ((Touch.refl hI).update (.inr (hpos f0 (.inl rfl))) fun h => by simp [pipeFile, href0] at h).update
      (.inr (hpos f1 (.inr rfl))) fun h => by simp [pipeFile, href1] at h
  refine hI.put (.of hpc rfl halone hok hfresh) hT (fun f => ?_) (fun e => ?_) (fun pi' => ?_)
  · rw [href, hrefs]
  · obtain ⟨pi', w⟩ := e
    have h0 : endOf (pi', w) (s.ftable f0) = 0 := endOf_eq_zero (by simp [htype0])
    have h1 : endOf (pi', w) (s.ftable f1) = 0 := endOf_eq_zero (by simp [htype1])
    rw [ht, Ledger.sum_update (endOf (pi', w)), Ledger.sum_update (endOf (pi', w)), Function.update_of_ne hne, h0, h1, hends]
    generalize ∑ f, endOf (pi', w) (s.ftable f) = n
    by_cases h : pi' = pi
    · subst h
      cases w <;> simp [endOf, pipeFile, isOpen, hpi, Pc.ends]
    · have hold : isOpen (Function.update s.pipes pi (some ⟨true, true⟩)) (pi', w) = isOpen s.pipes (pi', w) := by
        simp [isOpen, h]
      rw [hold]
      simp [endOf, pipeFile, Pc.ends, Ne.symm h]
  · rw [Function.update_apply]
    split
    · simp
    · exact hI.half pi'

theorem sysPipe_inv (hI : Inv s) (hpc : (s.procs p).pc = .kalloc f0 f1) (hpi : s.pipes pi = none) :
    Inv (sysPipe s p f0 f1 pi copied) := by
  have hprocs : (pipealloc s f0 f1 pi).procs p = s.procs p := rfl
  -- every way to fail leaves the descriptors as they were and has the two files to close
  have hbad : Inv ((pipealloc s f0 f1 pi).put p ⟨.closing none [f0, f1], (s.procs p).ofile⟩) := by
    refine hI.newPipe hpc hpi rfl trivial rfl (fun e => rfl) fun f => ?_
    simp [Pc.inHand, List.count_cons, add_comm]
  cases h0 : fdalloc (s.procs p).ofile f0 with
  | none =>
      simp only [sysPipe, hprocs, h0]
      exact hbad
  | some u =>
      obtain ⟨fd0, u⟩ := u
      obtain ⟨hnone, rfl⟩ := fdalloc_eq_some h0
      have hback : Function.update (Function.update (s.procs p).ofile fd0 (some f0)) fd0 none = (s.procs p).ofile := by
        rw [Function.update_idem, ← hnone, Function.update_eq_self]
      cases h1 : fdalloc (Function.update (s.procs p).ofile fd0 (some f0)) f1 with
      | none =>
          simp only [sysPipe, hprocs, h0, h1, hback]
          exact hbad
      | some u =>
          obtain ⟨fd1, u⟩ := u
          obtain ⟨hnone', rfl⟩ := fdalloc_eq_some h1
          have hne : fd1 ≠ fd0 := by
            rintro rfl
            rw [Function.update_self] at hnone'
            cases hnone'
          rw [Function.update_of_ne hne] at hnone'
          cases copied with
          | true =>
              simp only [sysPipe, hprocs, h0, h1, if_pos]
              refine hI.newPipe hpc hpi rfl trivial rfl (fun e => rfl) fun f => ?_
              simp only [slots_update, Function.update_of_ne hne, hnone, hnone', Pc.inHand, Option.some.injEq]
              simp
              omega
          | false =>
              have hback' : Function.update (Function.update (Function.update (Function.update (s.procs p).ofile fd0
                  (some f0)) fd1 (some f1)) fd0 none) fd1 none = (s.procs p).ofile := by
                rw [Function.update_comm hne, Function.update_idem, hback, ← hnone', Function.update_eq_self]
              simp only [sysPipe, hprocs, h0, h1, hback', Bool.false_eq_true, if_false]
              exact hbad

/-! ## Closing -/

theorem go_closing {fs : List (Fin NFILE)} (hI : Inv s) (hpc : (s.procs p).pc = .closing x fs) : Goes s p := by
  cases x with
  | some e =>
      obtain ⟨pipes, hok, hI'⟩ := hI.pipeclose (e := e) (k := .closing none fs) (.of hpc rfl rfl trivial rfl)
        (fun f => rfl) (fun e' => rfl) fun e => rfl
      exact ⟨_, by simp only [go, hpc, hok]; rfl, hI'⟩
  | none =>
      cases fs with
      | nil => exact ⟨_, by simp only [go, hpc], hI.quiet (k := .user) (.of hpc rfl rfl trivial rfl) (fun f => rfl) fun e => rfl⟩
      | cons f fs =>
          have hpos : 0 < (s.procs p).holds f := by
            have := slots_nonneg (s.procs p).ofile f
            simp [Proc.holds, hpc, Pc.inHand]
            omega
          obtain ⟨u, hok, hI'⟩ := hI.fileclose (k := fun x => .closing x fs) (o := (s.procs p).ofile) hpos
            (fun x t => .of hpc rfl rfl trivial rfl)
            (fun x g => by by_cases hg : g = f <;> simp [Pc.inHand, hg, Ne.symm]; omega) (fun x e => by simp [Pc.ends])
          exact ⟨_, by simp only [go, hpc, hok]; rfl, hI'⟩

/-- **The loop of `exit`.** -/
theorem go_exit (hI : Inv s) (hpc : (s.procs p).pc = .exit x i) : Goes s p := by
  have hnone := hI.ok p
  rw [Proc.Ok, hpc] at hnone
  cases x with
  | some e =>
      obtain ⟨pipes, hok, hI'⟩ := hI.pipeclose (e := e) (k := .exit none i) (.of hpc rfl rfl hnone rfl) (fun f => rfl)
        (fun e' => rfl) fun e => rfl
      exact ⟨_, by simp only [go, hpc, hok]; rfl, hI'⟩
  | none =>
      by_cases hi : i < NOFILE
      · have hnext : ∀ {o : Fds}, o ⟨i, hi⟩ = none → (∀ fd, fd ≠ ⟨i, hi⟩ → o fd = (s.procs p).ofile fd) →
            ∀ fd : Fin NOFILE, fd < i + 1 → o fd = none := by
          intro o hself hother fd hlt
          by_cases heq : fd = ⟨i, hi⟩
          · rw [heq, hself]
          · rw [hother fd heq]
            exact hnone fd (lt_of_le_of_ne (Nat.lt_succ_iff.mp hlt) fun h => heq (Fin.ext h))
        cases hfd : (s.procs p).ofile ⟨i, hi⟩ with
        | none =>
            exact ⟨_, by simp only [go, hpc, dif_pos hi, hfd],
              hI.quiet (k := .exit none (i + 1)) (.of hpc rfl rfl (hnext hfd fun fd _ => rfl) rfl) (fun f => rfl) fun e => rfl⟩
        | some f =>
            obtain ⟨u, hok, hI'⟩ := hI.fileclose (k := fun x => .exit x (i + 1))
              (o := Function.update (s.procs p).ofile ⟨i, hi⟩ none) (Proc.holds_of_slot hfd)
              (fun x t => .of hpc rfl rfl (hnext (Function.update_self _ _ _) fun fd h => Function.update_of_ne h _ _) rfl)
              (fun x g => by by_cases hg : g = f <;> simp [slots_update, hfd, Pc.inHand, hg, Ne.symm])
              (fun x e => by simp [Pc.ends])
            exact ⟨_, by simp only [go, hpc, dif_pos hi, hfd, hok]; rfl, hI'⟩
      · exact ⟨_, by simp only [go, hpc, dif_neg hi],
          hI.quiet (k := .dead) (.of hpc rfl rfl (fun fd => hnone fd (by omega)) rfl) (fun f => rfl) fun e => rfl⟩

/-! ## Runs -/

theorem go_inv (hI : Inv s) (h : go s p = some r) : Kept r := by
  have hgoes : Goes s p := by
    cases hpc : (s.procs p).pc with
    | pipealloc f0 =>
        cases hal : filealloc s.ftable with
        | none =>
            refine ⟨_, by simp only [go, hpc, hal], hI.quiet (k := .closing none [f0]) (.of hpc rfl rfl trivial rfl) (fun f => ?_) fun e => rfl⟩
            by_cases hf : f0 = f <;> simp [Pc.inHand, hf]
        | some u =>
            refine ⟨_, by simp only [go, hpc, hal], hI.filealloc (k := .kalloc f0 u.1) hal hpc rfl rfl trivial (fun f hf => ?_) (fun f => ?_)
              fun e => rfl⟩
            · exact (List.mem_pair.mp hf).symm.imp_right List.mem_singleton.mpr
            · simp [Pc.inHand, eq_comm]
    | closing x fs => exact go_closing hI hpc
    | fork np i => exact go_fork hI hpc
    | exit x i => exact go_exit hI hpc
    | dead | embryo | user | kalloc _ _ =>
        simp only [go, hpc] at h
        cases h
  obtain ⟨t, ht, hI'⟩ := hgoes
  rw [ht] at h
  cases h
  exact ⟨t, rfl, hI'⟩

/-- **No step panics**, and each keeps the invariant. -/
theorem step_inv {a : Act P} (hI : Inv s) (h : step s a = some r) : Kept r := by
  cases a with
  | call p c =>
      simp only [step] at h
      split at h
      · cases h
        exact call_inv hI (by assumption)
      · cases h
  | fork p np =>
      simp only [step] at h
      split at h
      · rename_i hpc
        cases h
        exact ⟨_, rfl, fork_inv hI hpc.1 hpc.2⟩
      · cases h
  | go p => exact go_inv hI h
  | kalloc p page copied =>
      simp only [step] at h
      split at h
      · rename_i f0 f1 hpc
        cases h
        refine ⟨_, rfl, hI.quiet (.of hpc rfl rfl trivial rfl) (fun f => ?_) fun e => rfl⟩
        simp [Pc.inHand, List.count_cons, add_comm]
      · rename_i f0 f1 pi hpc
        split at h
        · cases h
          exact ⟨_, rfl, sysPipe_inv hI hpc (by assumption)⟩
        · cases h
      · cases h

theorem init_inv (p0 : Fin P) : Inv (init p0) := by
  have hpc : ∀ p, ((init p0).procs p).pc = .user ∨ ((init p0).procs p).pc = .dead := fun p => by
    by_cases h : p = p0 <;> simp [init, h]
  have hcalm := fun p => Pc.calm_spec (show ((init p0).procs p).pc.calm = true by rcases hpc p with h | h <;> rw [h] <;> rfl)
  refine ⟨fun f _ => rfl, fun f => ?_, fun e => ?_, fun pi h => (by cases h), fun p => ?_, fun p f hf => ?_,
    fun p np i h => ?_⟩
  · refine Finset.sum_eq_zero fun p _ => ?_
    have hslots : slots ((init p0).procs p).ofile f = 0 := Finset.sum_eq_zero fun fd _ => rfl
    rw [Proc.holds, hslots, (hcalm p).2.2, add_zero]
  · have hfiles : ∑ f, endOf e ((init p0).ftable f) = 0 := Finset.sum_eq_zero fun f _ => endOf_eq_zero (by simp [init])
    rw [hfiles, Finset.sum_eq_zero fun p _ => (hcalm p).2.1 e]
    rfl
  · rcases hpc p with h | h <;> rw [Proc.Ok, h]
    · trivial
    · exact fun fd => rfl
  · exact absurd hf ((hcalm p).1 ▸ List.not_mem_nil)
  · rcases hpc p with h' | h' <;> rw [h'] at h <;> cases h

theorem inv_run {p0 : Fin P} {acts : List (Act P)} (h : Trace.run next (init p0) acts = some s) : Inv s := by
  refine Trace.run_invariant (init_inv p0) (fun s a t hI ht => ?_) h
  obtain ⟨r, hr, hrt⟩ := Option.bind_eq_some_iff.mp ht
  obtain ⟨u, rfl, hu⟩ := step_inv hI hr
  cases hrt
  exact hu

theorem Inv.isOpen_of_pipe (hI : Inv s) (h : (s.ftable f).type = .pipe) :
    isOpen s.pipes ((s.ftable f).pipe, (s.ftable f).writable) = true := by
  have hone : endOf ((s.ftable f).pipe, (s.ftable f).writable) (s.ftable f) = 1 := if_pos ⟨h, rfl⟩
  exact hI.isOpen_of_pos (.inl ⟨f, hone ▸ one_pos⟩)

/-- **Open files are safe.** Along every run, whatever system calls of whatever processes overlap, no step panics or uses
    a pipe that was freed; and a descriptor names a file that is in use and, if it is an end of a pipe, is an end that the
    pipe counts as open. -/
theorem open_files_safe {p0 : Fin P} {acts : List (Act P)} (hr : Trace.run next (init p0) acts = some s) :
    (∀ a e, step s a ≠ some (.error e)) ∧
      ∀ p fd f, (s.procs p).ofile fd = some f →
        0 < (s.ftable f).ref ∧
          ((s.ftable f).type = .pipe → isOpen s.pipes ((s.ftable f).pipe, (s.ftable f).writable) = true) := by
  have hI := inv_run hr
  refine ⟨fun a e h => ?_, fun p fd f hfd => ⟨?_, hI.isOpen_of_pipe⟩⟩
  · obtain ⟨t, ht, -⟩ := step_inv hI h
    cases ht
  · have hone := Proc.holds_of_slot hfd
    have hle := hI.holds_le p f
    omega

/-- A process makes a pipe and a child, and each of the two closes one end. -/
def sharedPipe (p np : Fin P) (rd wr : Fin NOFILE) : List (Act P) :=
  [.call p .pipe, .go p, .kalloc p (some 7) true, .fork p np] ++ List.replicate (NOFILE + 1) (.go p) ++
    [.call p (.close rd), .call np (.close wr), .go np, .go p]

theorem sharedPipe_run : ∃ p np : Fin 2, ∃ (rd wr : Fin NOFILE) (s : Sys 2) (f : Fin NFILE),
    Trace.run next (init p) (sharedPipe p np rd wr) = some s ∧ (s.procs p).ofile wr = some f ∧ s.pipes 7 ≠ none ∧
      ∀ q, (s.procs q).pc.calm = true := by
  obtain ⟨p, np, rd, wr, f, hrun⟩ : ∃ p np : Fin 2, ∃ (rd wr : Fin NOFILE) (f : Fin NFILE),
      (Trace.run next (init p) (sharedPipe p np rd wr)).any (fun s => (s.procs p).ofile wr = some f ∧ s.pipes 7 ≠ none ∧
        ∀ q, (s.procs q).pc.calm = true) = true :=
    ⟨⟨0, by decide⟩, ⟨1, by decide⟩, ⟨0, by decide⟩, ⟨1, by decide⟩, ⟨1, by decide⟩, by decide +kernel⟩
  obtain ⟨s, hs, hprop⟩ := (Option.any_eq_true _ _).mp hrun
  exact ⟨p, np, rd, wr, s, f, hs, of_decide_eq_true hprop⟩

theorem open_files_safe_shared : ∃ p np : Fin 2, ∃ (rd wr : Fin NOFILE) (s : Sys 2) (f : Fin NFILE),
    Trace.run next (init p) (sharedPipe p np rd wr) = some s ∧ (s.procs p).ofile wr = some f ∧ 0 < (s.ftable f).ref := by
  obtain ⟨p, np, rd, wr, s, f, hs, hfd, -⟩ := sharedPipe_run
  exact ⟨p, np, rd, wr, s, f, hs, hfd, ((open_files_safe hs).2 p wr f hfd).1⟩

/-- The descriptors of all processes that name the file. -/
def names (s : Sys P) (f : Fin NFILE) : Finset (Fin P × Fin NOFILE) :=
  Finset.univ.filter fun x => (s.procs x.1).ofile x.2 = some f

/-- Some descriptor names this end of a pipe. -/
def namesEnd (s : Sys P) (e : Nat × Bool) : Prop :=
  ∃ p fd f, (s.procs p).ofile fd = some f ∧ (s.ftable f).type = .pipe ∧ ((s.ftable f).pipe, (s.ftable f).writable) = e

/-- **Nothing is lost.** When no process is in the middle of a call, other than `fork`, the count of a file is the number of descriptors that
    name it, an end of a pipe is open exactly if some descriptor names it, and a page is a pipe exactly if some descriptor
    names one of its ends. -/
theorem open_files_exact {p0 : Fin P} {acts : List (Act P)} (hr : Trace.run next (init p0) acts = some s)
    (hquiet : ∀ p, (s.procs p).pc.calm = true) :
    (∀ f, (s.ftable f).ref = (names s f).card) ∧ (∀ e, isOpen s.pipes e = true ↔ namesEnd s e) ∧
      ∀ pi, s.pipes pi ≠ none ↔ ∃ w, namesEnd s (pi, w) := by
  have hI := inv_run hr
  have hcalm := fun p => Pc.calm_spec (hquiet p)
  have hrefs : ∀ f, (s.ftable f).ref = (names s f).card := by
    intro f
    have hsum := hI.refs f
    simp only [Proc.holds, hcalm, add_zero] at hsum
    rw [names, Finset.card_filter, Fintype.sum_prod_type]
    refine Nat.cast_injective (R := ℤ) ?_
    simp only [Nat.cast_sum, Nat.cast_ite, Nat.cast_one, Nat.cast_zero]
    exact hsum.symm
  have hends : ∀ e, isOpen s.pipes e = true ↔ namesEnd s e := by
    intro e
    refine ⟨fun hopen => ?_, ?_⟩
    · have hsum := hI.ends e
      rw [Finset.sum_eq_zero fun p _ => (hcalm p).2.1 e, if_pos hopen] at hsum
      obtain ⟨f, hf⟩ := Ledger.exists_pos (m := endOf e) (g := s.ftable) (by omega)
      have hend : (s.ftable f).type = .pipe ∧ ((s.ftable f).pipe, (s.ftable f).writable) = e := by
        by_contra hno
        rw [endOf, if_neg hno] at hf
        exact absurd hf (lt_irrefl 0)
      have hpos : 0 < (names s f).card := by
        rw [← hrefs f]
        refine Nat.pos_of_ne_zero fun hzero => ?_
        rw [hI.free f hzero] at hend
        cases hend.1
      obtain ⟨⟨p, fd⟩, hx⟩ := Finset.card_pos.mp hpos
      exact ⟨p, fd, f, (Finset.mem_filter.mp hx).2, hend⟩
    · rintro ⟨p, fd, f, -, htype, rfl⟩
      exact hI.isOpen_of_pipe htype
  refine ⟨hrefs, hends, fun pi => ?_⟩
  simp only [← hends]
  refine ⟨fun hpi => ?_, ?_⟩
  · obtain ⟨⟨r, w⟩, hx⟩ := Option.ne_none_iff_exists'.mp hpi
    have hhalf := hI.half pi
    cases w with
    | true => exact ⟨true, by simp [isOpen, hx]⟩
    | false =>
        cases r with
        | true => exact ⟨false, by simp [isOpen, hx]⟩
        | false => exact absurd hx hhalf
  · rintro ⟨w, hw⟩ hnone
    rw [isOpen, hnone] at hw
    cases hw

theorem open_files_exact_shared : ∃ p np : Fin 2, ∃ (rd wr : Fin NOFILE) (s : Sys 2),
    Trace.run next (init p) (sharedPipe p np rd wr) = some s ∧ (∀ f, (s.ftable f).ref = (names s f).card) ∧
      ∃ w, namesEnd s (7, w) := by
  obtain ⟨p, np, rd, wr, s, f, hs, -, hpipe, hquiet⟩ := sharedPipe_run
  obtain ⟨hrefs, -, hpages⟩ := open_files_exact hs hquiet
  exact ⟨p, np, rd, wr, s, hs, hrefs, (hpages 7).mp hpipe⟩

end Xv6.Ftable
