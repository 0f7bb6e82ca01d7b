import Xv6.Bio.Rep

/-!
# `Bio.Step` — the steps of the buffer cache, case by case

`Step s a t` lists what a step from `s` can be, with its guards (`step_cases`). A call of the log's process
is the same step as a call of any other process; `Starts` says who makes it.
-/

namespace Xv6.Bcache

open Logging (Block Log NBUF)

variable {s t : Sys} {a : Act} {p : Fin NPROC} {i : Fin NBUF}

theorem idle_iff : s.idle p = true ↔
    s.call p = none ∧ ∀ l, s.logger = some l → l.recovering = false ∧ l.proc ≠ p := by
  unfold Sys.idle
  rw [Bool.and_eq_true, Option.isNone_iff_eq_none]
  refine and_congr_right fun _ => ?_
  cases s.logger with
  | none => simp
  | some l => simp

/-- Process `p` starts a call, by itself or because its next statement in the log code is `x`. -/
def Starts (s : Sys) (a : Act) (p : Fin NPROC) (b : Act) (x : Instr → Prop) : Prop :=
  (a = b ∧ s.idle p = true) ∨
    (a = .log ∧ ∃ l y k, s.logger = some l ∧ l.proc = p ∧ s.call p = none ∧ l.code = y :: k ∧ x y)

theorem Starts.call_none {b : Act} {x : Instr → Prop} (h : Starts s a p b x) : s.call p = none := by
  rcases h with ⟨_, h⟩ | ⟨_, l, y, k, _, _, h, _⟩
  · exact (idle_iff.mp h).1
  · exact h

inductive Step (s : Sys) : Act → Sys → Prop
  | beginOp {p : Fin NPROC} {l : Log} (hp : s.idle p = true) (hl : Logging.beginOp s.log = some l) :
      Step s (.beginOp p) { s with log := l, ops := p :: s.ops }
  | endOp {p : Fin NPROC} {l : Log} (hp : s.idle p = true) (hm : p ∈ s.ops)
      (hl : Logging.endOp s.log = .ok (l, false)) :
      Step s (.endOp p) { s with log := l, ops := s.ops.erase p }
  | lastOp {p : Fin NPROC} {l : Log} (hp : s.idle p = true) (hm : p ∈ s.ops)
      (hl : Logging.endOp s.log = .ok (l, true)) :
      Step s (.endOp p)
        { s with
          log := l
          ops := s.ops.erase p
          logger := some
            { proc := p, recovering := false, code := commit l.start l.lh, regs := fun _ => none } }
  | bread {a : Act} {p : Fin NPROC} {dev b : Nat} {c : Cache} {i : Fin NBUF}
      (hby : Starts s a p (.bget p dev b) fun x => dev = ROOTDEV ∧ ∃ r, x = .bread r b)
      (hb : bget s.cache dev b = some (c, i)) :
      Step s a { s with cache := c, call := Function.update s.call p (some (.acquiresleep i dev b)) }
  | acquiresleep {p : Fin NPROC} {i : Fin NBUF} {dev b : Nat} (hp : s.call p = some (.acquiresleep i dev b))
      (hl : (s.cache.buf i).lock = none) :
      Step s (.acquiresleep p)
        { s with
          cache := setLock s.cache i (some p)
          call := Function.update s.call p (some (.fill i dev b)) }
  | fill {p : Fin NPROC} {i : Fin NBUF} {dev b : Nat} (hp : s.call p = some (.fill i dev b)) :
      Step s (.fill p) ({ s with cache := Bcache.fill s.disk s.cache i }.ret p i)
  | store {p : Fin NPROC} {i : Fin NBUF} {d : Block} (hm : p ∈ s.ops) (hl : (s.cache.buf i).lock = some p) :
      Step s (.store p i d) { s with cache := setData s.cache i d }
  | absorbed {p : Fin NPROC} {i : Fin NBUF} {l : Log}
      (hl : Logging.logWrite s.log (s.cache.buf i).blockno = .ok (l, false)) :
      Step s (.logWrite p i) { s with log := l }
  | logged {p : Fin NPROC} {i : Fin NBUF} {l : Log} (hp : s.idle p = true) (hm : p ∈ s.ops)
      (hlock : (s.cache.buf i).lock = some p) (hdev : (s.cache.buf i).dev = ROOTDEV)
      (hfs : s.log.fsBlock (s.cache.buf i).blockno)
      (hl : Logging.logWrite s.log (s.cache.buf i).blockno = .ok (l, true)) :
      Step s (.logWrite p i)
        { s with log := l, cache := bpin s.cache i, pins := Function.update s.pins i (s.pins i + 1) }
  | bwrite {p : Fin NPROC} {i : Fin NBUF} (hp : s.idle p = true) (hdev : (s.cache.buf i).dev = ROOTDEV)
      (hlock : (s.cache.buf i).lock = some p) :
      Step s (.bwrite p i)
        { s with disk := Function.update s.disk (s.cache.buf i).blockno (s.cache.buf i).data }
  | brelse {a : Act} {p : Fin NPROC} {i : Fin NBUF}
      (hby : Starts s a p (.brelse p i) fun x =>
        ∃ r l, x = .brelse r ∧ s.logger = some l ∧ l.regs r = some i)
      (hlock : (s.cache.buf i).lock = some p) :
      Step s a
        { s with cache := setLock s.cache i none, call := Function.update s.call p (some (.brelse i)) }
  | unref {p : Fin NPROC} {i : Fin NBUF} (hp : s.call p = some (.brelse i)) :
      Step s (.unref p) ({ s with cache := Bcache.unref s.cache i }.ret p i)
  | done {l : Logger} (hl : s.logger = some l) (hp : s.call l.proc = none) (hcode : l.code = []) :
      Step s .log { s with log := Logging.endCommit s.log, logger := none }
  | memmove {l : Logger} {dst src : Reg} {k : List Instr} {i j : Fin NBUF} (hl : s.logger = some l)
      (hp : s.call l.proc = none) (hcode : l.code = .memmove dst src :: k) (hi : l.regs dst = some i)
      (hj : l.regs src = some j) :
      Step s .log { s.goto l k with cache := setData s.cache i (s.cache.buf j).data }
  | readHead {l : Logger} {r : Reg} {k : List Instr} {i : Fin NBUF} (hl : s.logger = some l)
      (hp : s.call l.proc = none) (hcode : l.code = .readHead r :: k) (hi : l.regs r = some i) :
      Step s .log
        { s.goto l (k ++ installTrans true s.log.start (Logging.readHead (s.cache.buf i).data)) with
          log := { s.log with lh := Logging.readHead (s.cache.buf i).data } }
  | writeHead {l : Logger} {r : Reg} {k : List Instr} {i : Fin NBUF} (hl : s.logger = some l)
      (hp : s.call l.proc = none) (hcode : l.code = .writeHead r :: k) (hi : l.regs r = some i) :
      Step s .log
        { s.goto l k with cache := setData s.cache i (Logging.writeHead (s.cache.buf i).data s.log.lh) }
  | logBwrite {l : Logger} {r : Reg} {k : List Instr} {i : Fin NBUF} (hl : s.logger = some l)
      (hp : s.call l.proc = none) (hcode : l.code = .bwrite r :: k) (hi : l.regs r = some i)
      (hlock : (s.cache.buf i).lock = some l.proc) :
      Step s .log
        { s.goto l k with disk := Function.update s.disk (s.cache.buf i).blockno (s.cache.buf i).data }
  | bunpin {l : Logger} {r : Reg} {k : List Instr} {i : Fin NBUF} (hl : s.logger = some l)
      (hp : s.call l.proc = none) (hcode : l.code = .bunpin r :: k) (hi : l.regs r = some i) :
      Step s .log
        { s.goto l k with cache := Bcache.bunpin s.cache i, pins := Function.update s.pins i (s.pins i - 1) }
  | clear {l : Logger} {k : List Instr} (hl : s.logger = some l) (hp : s.call l.proc = none)
      (hcode : l.code = .clear :: k) :
      Step s .log { s.goto l k with log := { s.log with lh := [] } }

theorem startBread_cases {dev b : Nat}
    (hby : Starts s a p (.bget p dev b) fun x => dev = ROOTDEV ∧ ∃ r, x = .bread r b)
    (hst : startBread s p dev b = some t) : Step s a t := by
  obtain ⟨⟨c, i⟩, hb, rfl⟩ := Option.map_eq_some_iff.mp hst
  exact .bread hby hb

theorem startBrelse_cases
    (hby : Starts s a p (.brelse p i) fun x => ∃ r l, x = .brelse r ∧ s.logger = some l ∧ l.regs r = some i)
    (hst : startBrelse s p i = some t) : Step s a t := by
  unfold startBrelse at hst
  split at hst
  · rename_i hlock
    cases hst
    exact .brelse hby hlock
  · cases hst

theorem exec_cases {l : Logger} (hl : s.logger = some l) (hp : s.call l.proc = none)
    (hst : exec s l = some t) : Step s .log t := by
  unfold exec at hst
  split at hst
  · rename_i hcode
    cases hst
    exact .done hl hp hcode
  · rename_i r b k hcode
    exact startBread_cases (Or.inr ⟨rfl, l, _, k, hl, rfl, hp, hcode, rfl, r, rfl⟩) hst
  · rename_i dst src k hcode
    obtain ⟨i, hi, hst⟩ := Option.bind_eq_some_iff.mp hst
    obtain ⟨j, hj, rfl⟩ := Option.map_eq_some_iff.mp hst
    exact .memmove hl hp hcode hi hj
  · rename_i r k hcode
    obtain ⟨i, hi, rfl⟩ := Option.map_eq_some_iff.mp hst
    exact .readHead hl hp hcode hi
  · rename_i r k hcode
    obtain ⟨i, hi, rfl⟩ := Option.map_eq_some_iff.mp hst
    exact .writeHead hl hp hcode hi
  · rename_i r k hcode
    obtain ⟨i, hi, hst⟩ := Option.bind_eq_some_iff.mp hst
    obtain ⟨t', ht, rfl⟩ := Option.map_eq_some_iff.mp hst
    unfold bwrite at ht
    split at ht
    · rename_i hlock
      cases ht
      exact .logBwrite hl hp hcode hi hlock
    · cases ht
  · rename_i r k hcode
    obtain ⟨i, hi, rfl⟩ := Option.map_eq_some_iff.mp hst
    exact .bunpin hl hp hcode hi
  · rename_i r k hcode
    obtain ⟨i, hi, hst⟩ := Option.bind_eq_some_iff.mp hst
    exact startBrelse_cases (Or.inr ⟨rfl, l, _, k, hl, rfl, hp, hcode, r, l, rfl, hl, hi⟩) hst
  · rename_i k hcode
    cases hst
    exact .clear hl hp hcode

theorem step_cases (hst : step s a = some t) : Step s a t := by
  cases a with
  | beginOp p =>
      simp only [step] at hst
      split at hst
      · rename_i hg
        obtain ⟨l, hl, rfl⟩ := Option.map_eq_some_iff.mp hst
        exact .beginOp hg.1 hl
      · cases hst
  | endOp p =>
      simp only [step] at hst
      split at hst
      · rename_i hg
        unfold endOp at hst
        split at hst
        · cases hst
        · rename_i l hl
          cases hst
          exact .lastOp hg.1 hg.2 hl
        · rename_i l hl
          cases hst
          exact .endOp hg.1 hg.2 hl
      · cases hst
  | bget p dev b =>
      simp only [step] at hst
      split at hst
      · rename_i hp
        exact startBread_cases (Or.inl ⟨rfl, hp⟩) hst
      · cases hst
  | acquiresleep p =>
      simp only [step] at hst
      split at hst
      · rename_i i dev b hp
        split at hst
        · rename_i hl
          cases hst
          exact .acquiresleep hp hl
        · cases hst
      · cases hst
  | fill p =>
      simp only [step] at hst
      split at hst
      · rename_i i dev b hp
        cases hst
        exact .fill hp
      · cases hst
  | store p i d =>
      simp only [step] at hst
      split at hst
      · rename_i hg
        cases hst
        exact .store hg.2.1 hg.2.2
      · cases hst
  | logWrite p i =>
      simp only [step] at hst
      split at hst
      · rename_i hg
        unfold logWrite at hst
        split at hst
        · cases hst
        · rename_i l hl
          cases hst
          exact .logged hg.1 hg.2.1 hg.2.2.1 hg.2.2.2.1 hg.2.2.2.2 hl
        · rename_i l hl
          cases hst
          exact .absorbed hl
      · cases hst
  | bwrite p i =>
      simp only [step] at hst
      split at hst
      · rename_i hg
        unfold bwrite at hst
        split at hst
        · rename_i hlock
          cases hst
          exact .bwrite hg.1 hg.2 hlock
        · cases hst
      · cases hst
  | brelse p i =>
      simp only [step] at hst
      split at hst
      · rename_i hp
        exact startBrelse_cases (Or.inl ⟨rfl, hp⟩) hst
      · cases hst
  | unref p =>
      simp only [step] at hst
      split at hst
      · rename_i i hp
        cases hst
        exact .unref hp
      · cases hst
  | log =>
      simp only [step] at hst
      split at hst
      · rename_i l hl
        split at hst
        · rename_i hp
          exact exec_cases hl hp hst
        · cases hst
      · cases hst

end Xv6.Bcache
