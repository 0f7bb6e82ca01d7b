import Xv6.File.Table
import Xv6.Lib.Ledger

/-!
# `File.Refs` — who holds a reference to a file, and who an end of a pipe

A process holds a reference for each descriptor and for each file it has in hand in the middle of a call. An end of a pipe
belongs to the one file that is this end, or to the process that took the last reference to that file away and has not
called `pipeclose` yet. `Inv` says that the counts of the table and the flags of the pipes are the totals of these.
-/

namespace Xv6.Ftable

open Syscall (File FileType NFILE NOFILE)

variable {P : Nat} {s : Sys P} {p q np : Fin P} {f g : Fin NFILE} {t : Files} {a : Proc P} {pc k : Pc P} {o : Fds}
  {fd : Fin NOFILE} {pipes : Pipes} {e : Nat × Bool}

/-! ## References -/

/-- How many descriptors name the file. -/
def slots (o : Fds) (f : Fin NFILE) : ℤ := ∑ fd, if o fd = some f then 1 else 0

theorem slots_update (o : Fds) (fd : Fin NOFILE) (v : Option (Fin NFILE)) (f : Fin NFILE) :
    slots (Function.update o fd v) f = slots o f + (if v = some f then 1 else 0) - (if o fd = some f then 1 else 0) :=
  Ledger.sum_update (fun v => if v = some f then 1 else 0) o fd v

theorem slot_nonneg (f : Fin NFILE) (v : Option (Fin NFILE)) : (0 : ℤ) ≤ if v = some f then 1 else 0 := by
  split <;> decide

theorem slots_nonneg (o : Fds) (f : Fin NFILE) : 0 ≤ slots o f := Finset.sum_nonneg fun fd _ => slot_nonneg f (o fd)

theorem one_le_slots (h : o fd = some f) : 1 ≤ slots o f := by
  have hle := Ledger.le_sum (m := fun v => if v = some f then 1 else 0) (g := o) (fun fd => slot_nonneg f (o fd)) fd
  rw [h, if_pos rfl] at hle
  exact hle

/-- The references that a process has in hand. -/
def Pc.inHand : Pc P → Fin NFILE → ℤ
  | .pipealloc g, f => if g = f then 1 else 0
  | .kalloc g h, f => (if g = f then 1 else 0) + (if h = f then 1 else 0)
  | .closing _ fs, f => (fs.count f : ℤ)
  | _, _ => 0

/-- The references of a process to the file. -/
def Proc.holds (f : Fin NFILE) (a : Proc P) : ℤ := slots a.ofile f + a.pc.inHand f

/-- The files that `pipealloc` has taken and nobody else knows. -/
def Pc.fresh : Pc P → List (Fin NFILE)
  | .pipealloc g => [g]
  | .kalloc g h => [g, h]
  | _ => []

theorem Pc.inHand_nonneg (pc : Pc P) (f : Fin NFILE) : 0 ≤ pc.inHand f := by
  cases pc with
  | pipealloc g => simp only [inHand]; split <;> decide
  | kalloc g h => simp only [inHand]; split <;> split <;> decide
  | closing e fs => exact Int.natCast_nonneg _
  | dead | embryo | user | fork _ _ | exit _ _ => exact le_rfl

theorem Proc.holds_nonneg (f : Fin NFILE) (a : Proc P) : 0 ≤ a.holds f :=
  add_nonneg (slots_nonneg _ _) (a.pc.inHand_nonneg f)

theorem Proc.holds_of_slot (h : a.ofile fd = some f) : 1 ≤ a.holds f :=
  le_add_of_le_of_nonneg (one_le_slots h) (a.pc.inHand_nonneg f)

theorem Proc.holds_of_fresh (h : f ∈ a.pc.fresh) : 1 ≤ a.holds f := by
  refine le_add_of_nonneg_of_le (slots_nonneg _ _) ?_
  cases hpc : a.pc with
  | pipealloc g =>
      rw [hpc] at h
      exact (if_pos (List.mem_singleton.mp h).symm).ge
  | kalloc g g' =>
      rw [hpc] at h
      simp only [Pc.inHand]
      rcases List.mem_pair.mp h with rfl | rfl <;> rw [if_pos rfl] <;> split <;> decide
  | dead | embryo | user | closing _ _ | fork _ _ | exit _ _ =>
      rw [hpc] at h
      cases h

/-! ## Ends of pipes -/

/-- The file is this end of a pipe. -/
def endOf (e : Nat × Bool) (file : File) : ℤ := if file.type = .pipe ∧ (file.pipe, file.writable) = e then 1 else 0

/-- The process is about to close this end of a pipe. -/
def Pc.ends (e : Nat × Bool) : Pc P → ℤ
  | .closing x _ => if x = some e then 1 else 0
  | .exit x _ => if x = some e then 1 else 0
  | _ => 0

/-- The flag of the pipe for this end. -/
def isOpen (pipes : Pipes) (e : Nat × Bool) : Bool := (pipes e.1).any fun x => if e.2 then x.writeopen else x.readopen

theorem endOf_nonneg (e : Nat × Bool) (file : File) : 0 ≤ endOf e file := by
  unfold endOf
  split <;> decide

theorem endOf_eq_zero {file : File} (h : file.type ≠ .pipe) : endOf e file = 0 := if_neg fun he => h he.1

theorem Pc.ends_nonneg (e : Nat × Bool) (pc : Pc P) : 0 ≤ pc.ends e := by
  cases pc with
  | closing x _ | exit x _ => simp only [ends]; split <;> decide
  | dead | embryo | user | pipealloc _ | kalloc _ _ | fork _ _ => exact le_rfl

/-! ## The invariant -/

/-- The descriptors that `exit` has closed. -/
def Proc.Ok (a : Proc P) : Prop :=
  match a.pc with
  | .exit _ i => ∀ fd : Fin NOFILE, fd < i → a.ofile fd = none
  | .dead => ∀ fd, a.ofile fd = none
  | _ => True

/-- A child has one parent, and the descriptors that the parent has not come to are empty. -/
def Forks (procs : Fin P → Proc P) : Prop :=
  ∀ p np i, (procs p).pc = .fork np i → (procs np).pc = .embryo ∧
    (∀ fd : Fin NOFILE, i ≤ fd → (procs np).ofile fd = none) ∧ ∀ q j, (procs q).pc = .fork np j → q = p

structure Inv (s : Sys P) : Prop where
  free : ∀ f, (s.ftable f).ref = 0 → (s.ftable f).type = .none
  refs : ∀ f, ∑ p, (s.procs p).holds f = (s.ftable f).ref
  ends : ∀ e, ∑ f, endOf e (s.ftable f) + ∑ p, (s.procs p).pc.ends e = if isOpen s.pipes e then 1 else 0
  half : ∀ pi, s.pipes pi ≠ some ⟨false, false⟩
  ok : ∀ p, (s.procs p).Ok
  fresh : ∀ p, ∀ f ∈ (s.procs p).pc.fresh, (s.ftable f).ref = 1 ∧ (s.ftable f).type = .none
  forks : Forks s.procs

theorem Inv.holds_le (hI : Inv s) (p : Fin P) (f : Fin NFILE) : (s.procs p).holds f ≤ (s.ftable f).ref := by
  rw [← hI.refs f]
  exact Ledger.le_sum (fun q => (s.procs q).holds_nonneg f) p

/-- A table in which `p` has changed only files that are free or its own. -/
structure Touch (s : Sys P) (p : Fin P) (t : Files) : Prop where
  free : ∀ f, (t f).ref = 0 → (t f).type = .none
  own : ∀ f, t f = s.ftable f ∨ (s.ftable f).ref = 0 ∨ 0 < (s.procs p).holds f

theorem Touch.refl (hI : Inv s) : Touch s p s.ftable := ⟨hI.free, fun _ => .inl rfl⟩

theorem Touch.update (hT : Touch s p t) {file : File} (hown : (s.ftable g).ref = 0 ∨ 0 < (s.procs p).holds g)
    (hfree : file.ref = 0 → file.type = .none) : Touch s p (Function.update t g file) := by
  have hcases : ∀ f, f = g ∧ Function.update t g file f = file ∨ Function.update t g file f = t f := by
    intro f
    by_cases hf : f = g
    · exact .inl ⟨hf, hf ▸ Function.update_self _ _ _⟩
    · exact .inr (Function.update_of_ne hf _ _)
  refine ⟨fun f => ?_, fun f => ?_⟩ <;> rcases hcases f with ⟨rfl, heq⟩ | heq <;> rw [heq]
  · exact hfree
  · exact hT.free f
  · exact .inr hown
  · exact hT.own f

/-- A file that `pipealloc` of another process has just taken is not touched. -/
theorem Touch.fresh (hT : Touch s p t) (hI : Inv s) (hne : q ≠ p) (hf : f ∈ (s.procs q).pc.fresh) :
    (t f).ref = 1 ∧ (t f).type = .none := by
  have hfresh := hI.fresh q f hf
  rcases hT.own f with heq | hzero | hpos
  · rwa [heq]
  · omega
  · have hsum := Ledger.add_le_sum (fun q => (s.procs q).holds_nonneg f) hne
    have hone := Proc.holds_of_fresh hf
    rw [hI.refs f, hfresh.1] at hsum
    omega

/-! ## Moves -/

/-- What a step has to show of a process that has moved. -/
structure Lands (t : Files) (a : Proc P) : Prop where
  ok : a.Ok
  fresh : ∀ f ∈ a.pc.fresh, (t f).ref = 1 ∧ (t f).type = .none

/-- The processes in `C` move, and nothing is to be shown about the others. -/
theorem Inv.move (hI : Inv s) (hT : Touch s p t) {procs : Fin P → Proc P} {C : Fin P → Prop} (hp : C p)
    (hsame : ∀ q, ¬C q → procs q = s.procs q) (hC : ∀ q, C q → Lands t (procs q)) (hforks : Forks procs)
    (hrefs : ∀ f, ∑ q, (procs q).holds f = (t f).ref)
    (hends : ∀ e, ∑ f, endOf e (t f) + ∑ q, (procs q).pc.ends e = if isOpen pipes e then 1 else 0)
    (hhalf : ∀ pi, pipes pi ≠ some ⟨false, false⟩) : Inv ⟨t, pipes, procs⟩ := by
  have hlands : ∀ q, Lands t (procs q) := by
    intro q
    by_cases hq : C q
    · exact hC q hq
    · rw [hsame q hq]
      have hne : q ≠ p := fun h => hq (h ▸ hp)
      exact ⟨hI.ok q, fun f hf => hT.fresh hI hne hf⟩
  exact ⟨hT.free, hrefs, hends, hhalf, fun q => (hlands q).ok, fun q => (hlands q).fresh, hforks⟩

/-- The process is not in `fork`, on either side. -/
def Pc.alone : Pc P → Bool
  | .embryo | .fork _ _ => false
  | _ => true

/-- The process `p` goes from `pc` to `k` and has the descriptors `o` then. -/
structure Moves (s : Sys P) (p : Fin P) (t : Files) (pc k : Pc P) (o : Fds) : Prop extends Lands t ⟨k, o⟩ where
  atPc : (s.procs p).pc = pc
  alone : pc.alone = true
  alone' : k.alone = true

/-- A move with no new file in hand. -/
theorem Moves.of (hpc : (s.procs p).pc = pc) (halone : pc.alone = true) (halone' : k.alone = true)
    (hok : Proc.Ok ⟨k, o⟩) (hfresh : k.fresh = []) : Moves s p t pc k o :=
  ⟨⟨hok, fun _ hf => absurd hf (hfresh ▸ List.not_mem_nil)⟩, hpc, halone, halone'⟩

/-- **One process moves.** -/
theorem Inv.put (hI : Inv s) (hM : Moves s p t pc k o) (hT : Touch s p t)
    (hrefs : ∀ f, ((t f).ref : ℤ) + (slots (s.procs p).ofile f + pc.inHand f) =
      (s.ftable f).ref + (slots o f + k.inHand f))
    (hends : ∀ e, ∑ f, endOf e (t f) + k.ends e + (if isOpen s.pipes e then 1 else 0) =
      ∑ f, endOf e (s.ftable f) + pc.ends e + if isOpen pipes e then 1 else 0)
    (hhalf : ∀ pi, pipes pi ≠ some ⟨false, false⟩) : Inv ⟨t, pipes, Function.update s.procs p ⟨k, o⟩⟩ := by
  obtain ⟨hlands, rfl, halone, halone'⟩ := hM
  have hfork : ∀ q np i, (Function.update s.procs p ⟨k, o⟩ q).pc = .fork np i → (s.procs q).pc = .fork np i := by
    intro q np i hq
    rw [Function.update_apply] at hq
    split at hq
    · cases hq
      cases halone'
    · exact hq
  refine hI.move (C := (· = p)) hT rfl (fun q hq => Function.update_of_ne hq _ _) (fun q hq => ?_) (fun q np i hq => ?_)
    (fun f => ?_) (fun e => ?_) hhalf
  · rw [hq, Function.update_self]
    exact hlands
  · obtain ⟨hnp, hnone, honly⟩ := hI.forks q np i (hfork q np i hq)
    have hne : np ≠ p := by
      rintro rfl
      rw [hnp] at halone
      cases halone
    rw [Function.update_of_ne hne]
    exact ⟨hnp, hnone, fun q' j hq' => honly q' j (hfork q' np j hq')⟩
  · have := hrefs f
    rw [Ledger.sum_update (Proc.holds f), hI.refs f]
    simp only [Proc.holds]
    omega
  · have hold := hI.ends e
    have hnew := hends e
    rw [Ledger.sum_update (fun b : Proc P => b.pc.ends e)]
    show _ + (_ + k.ends e - _) = _
    omega

/-- **A process moves** and no file and no pipe changes. -/
theorem Inv.quiet (hI : Inv s) (hM : Moves s p s.ftable pc k (s.procs p).ofile) (hrefs : ∀ f, k.inHand f = pc.inHand f)
    (hends : ∀ e, k.ends e = pc.ends e) : Inv (s.goto p k) :=
  hI.put hM (.refl hI) (fun f => by rw [hrefs f]) (fun e => by rw [hends e]) hI.half

/-! ## Files -/

theorem filealloc_eq_some {u : Files} (h : filealloc t = some (g, u)) :
    (t g).ref = 0 ∧ u = Function.update t g { t g with ref := 1 } := by
  obtain ⟨g', hg, heq⟩ := Option.map_eq_some_iff.mp h
  cases heq
  have hzero := List.find?_some hg
  exact ⟨of_decide_eq_true hzero, rfl⟩

theorem fdalloc_eq_some {u : Fds} (h : fdalloc o f = some (fd, u)) : o fd = none ∧ u = Function.update o fd (some f) := by
  obtain ⟨fd', hfd, heq⟩ := Option.map_eq_some_iff.mp h
  cases heq
  have hnone := List.find?_some hfd
  exact ⟨of_decide_eq_true hnone, rfl⟩

theorem filedup_eq (h : (t f).ref ≠ 0) :
    filedup t f = .ok (Function.update t f { t f with ref := (t f).ref + 1 }) := by
  rw [filedup, if_neg (by omega)]

theorem ref_update (t : Files) (g : Fin NFILE) (n : Nat) (f : Fin NFILE) :
    (Function.update t g { t g with ref := n } f).ref = if f = g then n else (t f).ref := by
  rw [Function.update_apply]
  split <;> rfl

theorem sum_endOf_ref (t : Files) (g : Fin NFILE) (n : Nat) (e : Nat × Bool) :
    ∑ f, endOf e (Function.update t g { t g with ref := n } f) = ∑ f, endOf e (t f) := by
  rw [Ledger.sum_update (endOf e)]
  exact add_sub_cancel_right _ _

/-- Only the count of a file has changed, and the file is in use. -/
theorem Inv.touchRef (hI : Inv s) {n : Nat} (hn : n ≠ 0) (hown : (s.ftable g).ref = 0 ∨ 0 < (s.procs p).holds g) :
    Touch s p (Function.update s.ftable g { s.ftable g with ref := n }) :=
  (Touch.refl hI).update hown fun h => absurd h hn

/-- The count of one file changes, and with it what one process holds. -/
theorem Inv.count (hI : Inv s) {n : Nat}
    (hM : Moves s p (Function.update s.ftable g { s.ftable g with ref := n }) pc k o) (hn : n ≠ 0)
    (hown : (s.ftable g).ref = 0 ∨ 0 < (s.procs p).holds g)
    (hrefs : ∀ f, slots o f + k.inHand f =
      slots (s.procs p).ofile f + pc.inHand f + if f = g then (n : ℤ) - (s.ftable g).ref else 0)
    (hends : ∀ e, k.ends e = pc.ends e) :
    Inv ({ s with ftable := Function.update s.ftable g { s.ftable g with ref := n } }.put p ⟨k, o⟩) := by
  show Inv ⟨_, s.pipes, Function.update s.procs p ⟨k, o⟩⟩
  refine hI.put hM (hI.touchRef hn hown) (fun f => ?_) (fun e => by rw [sum_endOf_ref, hends e]) hI.half
  rw [ref_update, hrefs f]
  split
  · subst f
    omega
  · omega

theorem Inv.filealloc (hI : Inv s) (ht : Ftable.filealloc s.ftable = some (g, t)) (hpc : (s.procs p).pc = pc)
    (halone : pc.alone = true) (halone' : k.alone = true) (hok : Proc.Ok ⟨k, (s.procs p).ofile⟩)
    (hfresh : ∀ f ∈ k.fresh, f = g ∨ f ∈ pc.fresh)
    (hrefs : ∀ f, k.inHand f = pc.inHand f + if f = g then 1 else 0) (hends : ∀ e, k.ends e = pc.ends e) :
    Inv ({ s with ftable := t }.goto p k) := by
  obtain ⟨hzero, rfl⟩ := filealloc_eq_some ht
  refine hI.count ⟨⟨hok, fun f hf => ?_⟩, hpc, halone, halone'⟩ one_ne_zero (.inl hzero) (fun f => ?_) hends
  · by_cases hfg : f = g
    · subst hfg
      rw [Function.update_self]
      exact ⟨rfl, hI.free f hzero⟩
    · rw [Function.update_of_ne hfg]
      exact hI.fresh p f (hpc ▸ (hfresh f hf).resolve_left hfg)
  · rw [hrefs f, hzero, add_assoc]
    rfl

/-- **The part of `fileclose` under the lock.** The process gives one reference back; if it was the last, the end of a
    pipe that the file was is now the process's to close. -/
theorem Inv.fileclose (hI : Inv s) {k : Option (Nat × Bool) → Pc P} (hpos : 0 < (s.procs p).holds g)
    (hM : ∀ x t, Moves s p t pc (k x) o)
    (hrefs : ∀ x f, slots o f + (k x).inHand f = slots (s.procs p).ofile f + pc.inHand f - if f = g then 1 else 0)
    (hends : ∀ x e, (k x).ends e = pc.ends e + if x = some e then 1 else 0) :
    ∃ r, Ftable.fileclose s.ftable g = .ok r ∧ Inv ({ s with ftable := r.1 }.put p ⟨k r.2, o⟩) := by
  have href := hI.holds_le p g
  have hlive : ¬(s.ftable g).ref < 1 := by omega
  rw [Ftable.fileclose, if_neg hlive]
  split
  · refine ⟨_, rfl, hI.count (hM _ _) (by omega) (.inr hpos) (fun f => ?_) fun e => ?_⟩
    · rw [hrefs]
      split <;> omega
    · rw [hends]
      simp
  · -- the last reference: the file stops being an end of a pipe and the process starts to close it
    have hone : (s.ftable g).ref = 1 := by omega
    refine ⟨_, rfl, ?_⟩
    show Inv ⟨Function.update s.ftable g _, s.pipes, Function.update s.procs p ⟨k _, o⟩⟩
    refine hI.put (hM _ _) ((Touch.refl hI).update (.inr hpos) fun _ => rfl) (fun f => ?_)
      (fun e => ?_) hI.half
    · rw [hrefs, Function.update_apply]
      split
      · subst f
        simp only [hone]
        omega
      · omega
    · have hgone : endOf e { s.ftable g with ref := 0, type := .none } = 0 := if_neg fun h => by cases h.1
      rw [Ledger.sum_update (endOf e), hends, hgone, endOf]
      by_cases hp : (s.ftable g).type = .pipe <;> simp [hp]

/-! ## Pipes -/

theorem pipeclose_eq (h : isOpen pipes e = true) :
    ∃ u, pipeclose pipes e.1 e.2 = .ok u ∧ (∀ e', isOpen u e' = (isOpen pipes e' && decide (e' ≠ e))) ∧
      ((∀ pi, pipes pi ≠ some ⟨false, false⟩) → ∀ pi, u pi ≠ some ⟨false, false⟩) := by
  obtain ⟨pi, w⟩ := e
  obtain ⟨⟨r, wr⟩, hx, ho⟩ := (Option.any_eq_true _ _).mp h
  simp only [pipeclose, hx]
  refine ⟨_, rfl, fun e' => ?_, fun hhalf pi' => ?_⟩
  · obtain ⟨pi', w'⟩ := e'
    by_cases hpi : pi' = pi
    · subst hpi
      cases w <;> cases w' <;> cases r <;> cases wr <;> simp_all [isOpen]
    · simp [isOpen, hpi]
  · by_cases hpi : pi' = pi
    · subst hpi
      cases w <;> cases r <;> cases wr <;> simp_all
    · rw [Function.update_of_ne hpi]
      exact hhalf pi'

/-- Whoever has an end, the pipe counts it as open. -/
theorem Inv.isOpen_of_pos (hI : Inv s) (h : (∃ f, 0 < endOf e (s.ftable f)) ∨ ∃ p, 0 < (s.procs p).pc.ends e) :
    isOpen s.pipes e = true := by
  have hfiles := Finset.sum_nonneg fun f (_ : f ∈ Finset.univ) => endOf_nonneg e (s.ftable f)
  have hprocs := Finset.sum_nonneg fun p (_ : p ∈ Finset.univ) => Pc.ends_nonneg e (s.procs p).pc
  have hsum := hI.ends e
  by_contra hclosed
  rw [if_neg hclosed] at hsum
  rcases h with ⟨f, hf⟩ | ⟨p, hp⟩
  · have hle := Ledger.le_sum (fun f => endOf_nonneg e (s.ftable f)) f
    omega
  · have hle := Ledger.le_sum (m := fun b : Proc P => b.pc.ends e) (g := s.procs) (fun q => Pc.ends_nonneg e _) p
    beta_reduce at hle
    omega

/-- **`pipeclose`**, by the process that has the end. -/
theorem Inv.pipeclose (hI : Inv s) (hM : Moves s p s.ftable pc k (s.procs p).ofile)
    (hrefs : ∀ f, k.inHand f = pc.inHand f) (hends : ∀ e', pc.ends e' = if some e = some e' then 1 else 0)
    (hends' : ∀ e, k.ends e = 0) :
    ∃ pipes, Ftable.pipeclose s.pipes e.1 e.2 = .ok pipes ∧ Inv ({ s with pipes := pipes }.goto p k) := by
  have hopen : isOpen s.pipes e = true := hI.isOpen_of_pos (.inr ⟨p, by rw [hM.atPc, hends, if_pos rfl]; exact one_pos⟩)
  obtain ⟨u, hu, hisOpen, hhalf⟩ := pipeclose_eq hopen
  refine ⟨u, hu, hI.put hM (.refl hI) (fun f => by rw [hrefs f]) (fun e' => ?_) (hhalf hI.half)⟩
  rw [hends, hends', hisOpen]
  by_cases he : e' = e
  · subst he
    simp [hopen]
  · simp [he, Ne.symm he]

end Xv6.Ftable
