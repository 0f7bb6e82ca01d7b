import Mathlib

/-!
# `Log.Basic` — the in-memory log of `kernel/log.c`

`struct log` and the critical sections of `begin_op`, `log_write` and `end_op` under `log.lock`, as pure
functions. `log.lh` is the list of logged block numbers, so `log.lh.n` is its length; the entries of
`lh.block` past `n` are never read.
-/

namespace Xv6.Logging

def MAXOPBLOCKS : Nat := 10
def LOGSIZE : Nat := MAXOPBLOCKS * 3

/-- `sb.nlog` as `mkfs` writes it (`int nlog = LOGSIZE`). -/
def nlog : Nat := LOGSIZE

structure Log where
  start : Nat
  size : Nat
  outstanding : Nat
  committing : Bool
  lh : List Nat
deriving DecidableEq

inductive Panic
  | tooBigTransaction
  | outsideOfTrans
  | logCommitting
deriving DecidableEq

/-- The log after `initlog`. -/
def initlog (start size : Nat) : Log :=
  { start := start, size := size, outstanding := 0, committing := false, lh := [] }

/-- One turn of `begin_op`'s loop; `none` is `sleep(&log, &log.lock)`. -/
def beginOp (l : Log) : Option Log :=
  if l.committing then none
  else if LOGSIZE < l.lh.length + (l.outstanding + 1) * MAXOPBLOCKS then none
  else some { l with outstanding := l.outstanding + 1 }

/-- `log_write(b)`. The flag says that `b` is new to the log, so that its buffer is pinned. -/
def logWrite (l : Log) (b : Nat) : Except Panic (Log × Bool) :=
  if LOGSIZE ≤ l.lh.length ∨ l.size - 1 ≤ l.lh.length then .error .tooBigTransaction
  else if l.outstanding < 1 then .error .outsideOfTrans
  else if b ∈ l.lh then .ok (l, false)
  else .ok ({ l with lh := l.lh ++ [b] }, true)

/-- The first critical section of `end_op`. The flag is `do_commit`. -/
def endOp (l : Log) : Except Panic (Log × Bool) :=
  if l.committing then .error .logCommitting
  else if l.outstanding - 1 = 0 then .ok ({ l with outstanding := 0, committing := true }, true)
  else .ok ({ l with outstanding := l.outstanding - 1 }, false)

/-- The second critical section of `end_op`, after `commit()`. -/
def endCommit (l : Log) : Log := { l with committing := false }

/-! ## Inversion -/

theorem beginOp_eq_some {l l' : Log} (h : beginOp l = some l') :
    l.committing = false ∧ l.lh.length + (l.outstanding + 1) * MAXOPBLOCKS ≤ LOGSIZE ∧
      l' = { l with outstanding := l.outstanding + 1 } := by
  unfold beginOp at h
  split at h
  · cases h
  · rename_i hc
    split at h
    · cases h
    · rename_i hn
      cases h
      exact ⟨by simpa using hc, by omega, rfl⟩

theorem logWrite_eq_ok {l l' : Log} {b : Nat} {new : Bool} (h : logWrite l b = .ok (l', new)) :
    l.lh.length < LOGSIZE ∧ l.lh.length < l.size - 1 ∧ 1 ≤ l.outstanding ∧
      ((new = false ∧ b ∈ l.lh ∧ l' = l) ∨
        (new = true ∧ b ∉ l.lh ∧ l' = { l with lh := l.lh ++ [b] })) := by
  unfold logWrite at h
  split at h
  · cases h
  · rename_i hbig
    split at h
    · cases h
    · refine ⟨by omega, by omega, by omega, ?_⟩
      split at h
      · rename_i hb
        cases h
        exact Or.inl ⟨rfl, hb, rfl⟩
      · rename_i hb
        cases h
        exact Or.inr ⟨rfl, hb, rfl⟩

theorem logWrite_eq_tooBig {l : Log} {b : Nat} :
    logWrite l b = .error .tooBigTransaction ↔ LOGSIZE ≤ l.lh.length ∨ l.size - 1 ≤ l.lh.length := by
  unfold logWrite
  split
  · rename_i hbig
    exact ⟨fun _ => hbig, fun _ => rfl⟩
  · rename_i hbig
    refine ⟨fun h => ?_, fun h => absurd h hbig⟩
    split at h
    · cases h
    · split at h <;> cases h

theorem endOp_eq_ok {l l' : Log} {commit : Bool} (h : endOp l = .ok (l', commit)) :
    l.committing = false ∧
      ((commit = true ∧ l.outstanding ≤ 1 ∧ l' = { l with outstanding := 0, committing := true }) ∨
        (commit = false ∧ 2 ≤ l.outstanding ∧ l' = { l with outstanding := l.outstanding - 1 })) := by
  unfold endOp at h
  split at h
  · cases h
  · rename_i hc
    refine ⟨by simpa using hc, ?_⟩
    split at h
    · cases h
      exact Or.inl ⟨rfl, by omega, rfl⟩
    · cases h
      exact Or.inr ⟨rfl, by omega, rfl⟩

end Xv6.Logging
