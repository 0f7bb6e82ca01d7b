import Xv6.Lib.Trace
import Xv6.Log.Basic

/-!
# `Log.Admission` — when `log_write` runs out of log

`begin_op` admits an operation if the blocks logged so far and `MAXOPBLOCKS` for every operation in
progress fit in `LOGSIZE`, but `log_write` panics as soon as `log.size - 1` blocks are logged, and the
on-disk log of `log.size = nlog = LOGSIZE` blocks has room for one block less than `LOGSIZE` because its
first block is the header. `Sys` runs any number of operations, each on at most `MAXOPBLOCKS` distinct
blocks, through the functions of `Log.Basic`. The group of a run (`groupBlocks`) is what its labels say has
been logged since the last commit; `log_write_panics_iff` gives the exact number of blocks at which the
panic is reached.
-/

namespace Xv6.Logging.Admission

/-- `ops p` is the operation process `p` is in, with the distinct blocks it has logged. -/
structure Sys where
  log : Log
  ops : Nat → Option (List Nat)
  committer : Option Nat
  panicked : Option Panic

inductive Act
  | beginOp (p : Nat)
  | logWrite (p b : Nat)
  | endOp (p : Nat)
  | commit (p : Nat)
deriving DecidableEq

/-- One critical section. `commit p` stands for the whole of `commit()`, which empties the log, and the
    second critical section of `end_op`. A panicked kernel takes no step. -/
def step (s : Sys) (a : Act) : Option Sys :=
  if s.panicked.isSome then none
  else match a with
    | .beginOp p =>
        if s.ops p = none ∧ s.committer ≠ some p then
          (beginOp s.log).map fun l => { s with log := l, ops := Function.update s.ops p (some []) }
        else none
    | .logWrite p b =>
        match s.ops p with
        | none => none
        | some bs =>
            if (bs.insert b).length ≤ MAXOPBLOCKS then
              match logWrite s.log b with
              | .error e => some { s with panicked := some e }
              | .ok (l, _) =>
                  some { s with log := l, ops := Function.update s.ops p (some (bs.insert b)) }
            else none
    | .endOp p =>
        match s.ops p with
        | none => none
        | some _ =>
            match endOp s.log with
            | .error e => some { s with panicked := some e }
            | .ok (l, doCommit) =>
                some { s with log := l, ops := Function.update s.ops p none,
                              committer := if doCommit then some p else s.committer }
    | .commit p =>
        if s.committer = some p then
          some { s with log := endCommit { s.log with lh := [] }, committer := none }
        else none

def init (start : Nat) : Sys :=
  { log := initlog start nlog, ops := fun _ => none, committer := none, panicked := none }

/-- The effect of one label on the group. -/
def groupStep (g : List Nat) : Act → List Nat
  | .logWrite _ b => if b ∈ g then g else g ++ [b]
  | .commit _ => []
  | _ => g

/-- The distinct blocks the labels log after the last commit among them. -/
def groupBlocks (acts : List Act) : List Nat := acts.foldl groupStep []

@[simp] theorem groupBlocks_snoc (acts : List Act) (a : Act) :
    groupBlocks (acts ++ [a]) = groupStep (groupBlocks acts) a := by
  simp [groupBlocks]

/-- The labels contain a `log_write` call made when `nlog - 1` distinct blocks or more had been logged in its
    group. -/
def Overruns (acts : List Act) : Prop :=
  ∃ pre p b post, acts = pre ++ Act.logWrite p b :: post ∧ nlog - 1 ≤ (groupBlocks pre).length

theorem overruns_snoc {acts : List Act} {a : Act} :
    Overruns (acts ++ [a]) ↔
      Overruns acts ∨ ∃ p b, a = .logWrite p b ∧ nlog - 1 ≤ (groupBlocks acts).length := by
  constructor
  · rintro ⟨pre, p, b, post, heq, hle⟩
    rcases List.eq_nil_or_concat post with rfl | ⟨post', c, rfl⟩
    · obtain ⟨h1, h2⟩ := List.append_inj' heq rfl
      cases h2
      exact Or.inr ⟨p, b, rfl, h1 ▸ hle⟩
    · rw [List.concat_eq_append, ← List.cons_append, ← List.append_assoc] at heq
      obtain ⟨h1, _⟩ := List.append_inj' heq rfl
      exact Or.inl ⟨pre, p, b, post', h1, hle⟩
  · rintro (⟨pre, p, b, post, rfl, hle⟩ | ⟨p, b, rfl, hle⟩)
    · exact ⟨pre, p, b, post ++ [a], by simp, hle⟩
    · exact ⟨acts, p, b, [], rfl, hle⟩

/-- The in-memory log is the group of the labels until the kernel panics, and it panics over a transaction
    that is too big at the first call that overruns. -/
structure GroupInv (acts : List Act) (s : Sys) : Prop where
  size_eq : s.log.size = nlog
  lh_eq : s.panicked = none → s.log.lh = groupBlocks acts
  iff : s.panicked = some .tooBigTransaction ↔ Overruns acts

theorem groupInv_init (start : Nat) : GroupInv [] (init start) := by
  refine ⟨rfl, fun _ => rfl, ?_⟩
  constructor
  · intro h; cases h
  · rintro ⟨pre, p, b, post, heq, _⟩
    simp at heq

theorem groupInv_step {acts : List Act} {s t : Sys} {a : Act} (h : GroupInv acts s)
    (hst : step s a = some t) : GroupInv (acts ++ [a]) t := by
  unfold step at hst
  split at hst
  · cases hst
  rename_i hpan
  have hnone : s.panicked = none := by simpa using hpan
  have hlh := h.lh_eq hnone
  have hno : ¬Overruns acts := by
    rw [← h.iff, hnone]
    simp
  -- a step other than `log_write` neither panics over the size nor overruns
  have hquiet : (∀ p b, a ≠ .logWrite p b) → t.panicked ≠ some .tooBigTransaction →
      (t.panicked = some .tooBigTransaction ↔ Overruns (acts ++ [a])) := by
    intro ha ht
    rw [overruns_snoc]
    constructor
    · intro hc; exact absurd hc ht
    · rintro (hc | ⟨p, b, hab, _⟩)
      · exact absurd hc hno
      · exact absurd hab (ha p b)
  cases a with
  | beginOp p =>
      simp only at hst
      split at hst
      · obtain ⟨l, hl, rfl⟩ := Option.map_eq_some_iff.mp hst
        obtain ⟨_, _, rfl⟩ := beginOp_eq_some hl
        exact ⟨h.size_eq, fun _ => by simpa [groupStep] using hlh, hquiet (by simp) (by simp [hnone])⟩
      · cases hst
  | logWrite p b =>
      simp only at hst
      split at hst
      · cases hst
      · split at hst
        · split at hst
          · -- the call panics
            rename_i e he
            cases hst
            refine ⟨h.size_eq, fun hc => by simp at hc, ?_⟩
            rw [overruns_snoc]
            have htoo := logWrite_eq_tooBig (l := s.log) (b := b)
            rw [he, hlh, h.size_eq] at htoo
            constructor
            · intro hc
              have heq : e = .tooBigTransaction := by simpa using hc
              refine Or.inr ⟨p, b, rfl, ?_⟩
              rcases htoo.mp (by rw [heq]) with hbig | hbig
              · have : nlog - 1 ≤ LOGSIZE := by decide
                omega
              · exact hbig
            · rintro (hc | ⟨_, _, _, hle⟩)
              · exact absurd hc hno
              · have heq := htoo.mpr (Or.inr hle)
                simpa using heq
          · -- the call succeeds
            rename_i l new he
            cases hst
            obtain ⟨_, hlt, _, hcase⟩ := logWrite_eq_ok he
            rw [hlh, h.size_eq] at hlt
            refine ⟨?_, fun _ => ?_, ?_⟩
            · rcases hcase with ⟨_, _, rfl⟩ | ⟨_, _, rfl⟩ <;> exact h.size_eq
            · rw [groupBlocks_snoc, ← hlh]
              rcases hcase with ⟨_, hb, rfl⟩ | ⟨_, hb, rfl⟩ <;> simp [groupStep, hb]
            · rw [overruns_snoc]
              simp only [hnone]
              constructor
              · intro hc; cases hc
              · rintro (hc | ⟨_, _, _, hle⟩)
                · exact absurd hc hno
                · omega
        · cases hst
  | endOp p =>
      simp only at hst
      split at hst
      · cases hst
      · split at hst
        · rename_i e he
          cases hst
          refine ⟨h.size_eq, fun hc => by simp at hc, hquiet (by simp) ?_⟩
          -- `end_op` has a panic of its own
          unfold endOp at he
          split at he
          · cases he; simp
          · split at he <;> cases he
        · rename_i l doCommit he
          cases hst
          obtain ⟨_, hcase⟩ := endOp_eq_ok he
          refine ⟨?_, fun _ => ?_, hquiet (by simp) (by simp [hnone])⟩
          · rcases hcase with ⟨_, _, rfl⟩ | ⟨_, _, rfl⟩ <;> exact h.size_eq
          · rw [groupBlocks_snoc]
            rcases hcase with ⟨_, _, rfl⟩ | ⟨_, _, rfl⟩ <;> exact hlh
  | commit p =>
      simp only at hst
      split at hst
      · cases hst
        exact ⟨h.size_eq, fun _ => by simp [endCommit, groupStep], hquiet (by simp) (by simp [hnone])⟩
      · cases hst

/-- **The exact capacity of the log.** In every interleaving of operations that each log at most
    `MAXOPBLOCKS` distinct blocks, `log_write` reaches `panic("too big a transaction")` if and only if it is
    called when its commit group already has `nlog - 1` distinct blocks. -/
theorem log_write_panics_iff {start : Nat} {acts : List Act} {s : Sys}
    (h : Trace.run step (init start) acts = some s) :
    s.panicked = some .tooBigTransaction ↔
      ∃ pre p b post, acts = pre ++ Act.logWrite p b :: post ∧ nlog - 1 ≤ (groupBlocks pre).length :=
  (Trace.run_history (groupInv_init start) (fun _ _ _ _ _ hI hst => groupInv_step hI hst) h).iff

/-- Three concurrent operations, ten blocks each. -/
def threeFullOps : List Act :=
  [.beginOp 0, .beginOp 1, .beginOp 2] ++ (List.range 10).map (.logWrite 0) ++
    ((List.range 10).map fun i => .logWrite 1 (10 + i)) ++ (List.range 10).map fun i => .logWrite 2 (20 + i)

/-- All three are admitted, none logs more than `MAXOPBLOCKS` blocks, and the last call panics. -/
theorem three_full_ops_panic :
    ∃ s, Trace.run step (init 2) threeFullOps = some s ∧ s.panicked = some .tooBigTransaction ∧
      (s.ops 0).map List.length = some 10 ∧ (s.ops 1).map List.length = some 10 ∧
      (s.ops 2).map List.length = some 9 :=
  ⟨_, rfl, rfl, rfl, rfl, rfl⟩

/-- The same run without its last call. -/
theorem log_write_ok_before_limit :
    ∃ s, Trace.run step (init 2) (threeFullOps.take 32) = some s ∧
      s.panicked ≠ some .tooBigTransaction := by
  obtain ⟨s, hs, hp⟩ : ∃ s, Trace.run step (init 2) (threeFullOps.take 32) = some s ∧ s.panicked = none :=
    ⟨_, rfl, rfl⟩
  refine ⟨s, hs, fun hc => ?_⟩
  obtain ⟨pre, p, b, post, heq, hle⟩ := (log_write_panics_iff hs).mp hc
  rw [hp] at hc
  cases hc

end Xv6.Logging.Admission
