import Xv6.Bio.Model

/-!
# `Bio.Logger` — the code of the log, checked over block numbers

`Runs lh σ k` is a judgement about the statements `k` that the process in `commit()` or `recover_from_log`
has still to run. `σ` says which blocks its variables hold, which blocks of `lh` are still pinned, and which
log blocks are copies of pinned blocks. The judgement admits `install_trans` copying a log block over its
home block only when that log block is known to be a copy of it. **`commit_runs`** and `readHead_runs` check
the code that `log.c` runs, for every `lh`.
-/

namespace Xv6.Bcache

/-- `recovering` is the argument of `install_trans`, `regs` are the blocks of the buffers in the variables, `pinned` the blocks of `lh` not yet unpinned,
    `copies` the pairs of a log block and the home block it is a copy of, `moved` such a pair before the log
    block is written to disk. -/
structure Sym where
  recovering : Bool
  regs : Reg → Option Nat
  pinned : List Nat
  copies : List (Nat × Nat)
  moved : Option (Nat × Nat)

/-- `fs` are the blocks outside the log, `start` is the first block of the log. -/
inductive Runs (fs : Nat → Prop) (start : Nat) : List Nat → Sym → List Instr → Prop
  | nil {lh : List Nat} {σ : Sym} (hlh : lh = []) (hp : σ.pinned = []) : Runs fs start lh σ []
  | bread {lh : List Nat} {σ : Sym} {r : Reg} {b : Nat} {k : List Instr} (hm : σ.moved = none)
      (h : Runs fs start lh { σ with regs := Function.update σ.regs r (some b) } k) :
      Runs fs start lh σ (.bread r b :: k)
  | copy {lh : List Nat} {σ : Sym} {tail b : Nat} {k : List Instr} (hm : σ.moved = none)
      (hl : σ.regs .lbuf = some (start + tail + 1)) (hd : σ.regs .dbuf = some b)
      (htail : lh[tail]? = some b) (hb : b ∈ σ.pinned) (hlog : ¬fs (start + tail + 1))
      (hnew : ∀ b', (start + tail + 1, b') ∉ σ.copies)
      (h : Runs fs start lh { σ with moved := some (start + tail + 1, b) } k) :
      Runs fs start lh σ (.memmove .lbuf .dbuf :: k)
  | bwriteCopy {lh : List Nat} {σ : Sym} {lb b : Nat} {k : List Instr} (hl : σ.regs .lbuf = some lb)
      (hm : σ.moved = some (lb, b))
      (h : Runs fs start lh { σ with copies := (lb, b) :: σ.copies, moved := none } k) :
      Runs fs start lh σ (.bwrite .lbuf :: k)
  | install {lh : List Nat} {σ : Sym} {tail b : Nat} {k : List Instr} (hm : σ.moved = none)
      (hl : σ.regs .lbuf = some (start + tail + 1)) (hd : σ.regs .dbuf = some b)
      (htail : lh[tail]? = some b) (hb : b ∈ σ.pinned) (hc : (start + tail + 1, b) ∈ σ.copies)
      (h : Runs fs start lh σ k) : Runs fs start lh σ (.memmove .dbuf .lbuf :: k)
  | reinstall {lh : List Nat} {σ : Sym} {lb b : Nat} {k : List Instr} (hm : σ.moved = none)
      (hrec : σ.recovering = true) (hl : σ.regs .lbuf = some lb) (hd : σ.regs .dbuf = some b)
      (hp : σ.pinned = [])
      (h : Runs fs start lh σ k) : Runs fs start lh σ (.memmove .dbuf .lbuf :: k)
  | bwrite {lh : List Nat} {σ : Sym} {r : Reg} {b : Nat} {k : List Instr} (hm : σ.moved = none)
      (hr : σ.regs r = some b) (hc : ∀ b', (b, b') ∉ σ.copies) (h : Runs fs start lh σ k) :
      Runs fs start lh σ (.bwrite r :: k)
  | writeHead {lh : List Nat} {σ : Sym} {r : Reg} {b : Nat} {k : List Instr} (hm : σ.moved = none)
      (hr : σ.regs r = some b) (hp : b ∉ σ.pinned) (hc : ∀ b', (b, b') ∉ σ.copies)
      (h : Runs fs start lh σ k) : Runs fs start lh σ (.writeHead r :: k)
  | readHead {lh : List Nat} {σ : Sym} {r : Reg} {k : List Instr} (hm : σ.moved = none) (hp : σ.pinned = [])
      (h : ∀ lh', Runs fs start lh' σ (k ++ installTrans true start lh')) :
      Runs fs start lh σ (.readHead r :: k)
  | bunpin {lh : List Nat} {σ : Sym} {r : Reg} {b : Nat} {bs : List Nat} {k : List Instr}
      (hm : σ.moved = none) (hr : σ.regs r = some b) (hp : σ.pinned = b :: bs)
      (h : Runs fs start lh { σ with pinned := bs } k) : Runs fs start lh σ (.bunpin r :: k)
  | brelse {lh : List Nat} {σ : Sym} {r : Reg} {b : Nat} {k : List Instr} (hm : σ.moved = none)
      (hr : σ.regs r = some b) (h : Runs fs start lh { σ with regs := Function.update σ.regs r none } k) :
      Runs fs start lh σ (.brelse r :: k)
  | clear {lh : List Nat} {σ : Sym} {k : List Instr} (hm : σ.moved = none) (hp : σ.pinned = [])
      (h : Runs fs start [] σ k) : Runs fs start lh σ (.clear :: k)

/-! ## Counting `bunpin` -/

def Instr.isBunpin : Instr → Bool
  | .bunpin _ => true
  | _ => false

/-- The calls of `bunpin` that are still to come. -/
def bunpins (k : List Instr) : Nat := k.countP Instr.isBunpin

variable {fs : Nat → Prop} {start : Nat} {lh : List Nat} {σ : Sym} {k : List Instr}

theorem bunpins_append (k k' : List Instr) : bunpins (k ++ k') = bunpins k + bunpins k' :=
  List.countP_append

theorem Runs.bunpins_eq (h : Runs fs start lh σ k) : bunpins k = σ.pinned.length := by
  induction h with
  | nil _ hp => simp [bunpins, hp]
  | readHead _ hp _ ih =>
      have hnil := ih []
      rw [bunpins_append] at hnil
      simpa [bunpins, installTrans, turns, Bcache.writeHead, Instr.isBunpin] using hnil
  | bunpin _ _ hp _ ih =>
      rw [hp, List.length_cons, ← ih]
      exact List.countP_cons_of_pos rfl
  | _ =>
      rename_i ih
      rw [← ih]
      exact List.countP_cons_of_neg Bool.false_ne_true

/-! ## The code of `log.c` -/

/-- Between two turns of a loop no buffer is held. -/
def Sym.free (recovering : Bool) (pinned : List Nat) (copies : List (Nat × Nat)) : Sym :=
  ⟨recovering, fun _ => none, pinned, copies, none⟩

theorem Runs.of_free (hregs : ∀ r, σ.regs r = none) (hm : σ.moved = none)
    (h : Runs fs start lh (.free σ.recovering σ.pinned σ.copies) k) : Runs fs start lh σ k := by
  obtain ⟨recovering, regs, pinned, copies, moved⟩ := σ
  obtain rfl : moved = none := hm
  obtain rfl : regs = fun _ => none := funext hregs
  exact h

theorem writeHead_runs {recovering : Bool} {pinned : List Nat} {copies : List (Nat × Nat)} (hp : start ∉ pinned)
    (hc : ∀ b, (start, b) ∉ copies) (h : Runs fs start lh (.free recovering pinned copies) k) :
    Runs fs start lh (.free recovering pinned copies) (writeHead start ++ k) := by
  refine .bread rfl (.writeHead rfl rfl hp hc (.bwrite rfl rfl hc (.brelse rfl rfl ?_)))
  exact .of_free (fun r => by cases r <;> rfl) rfl h

/-- The copies that `write_log` has made before turn `tail`. -/
def Copies (start : Nat) (lh : List Nat) (tail : Nat) (copies : List (Nat × Nat)) : Prop :=
  ∀ lb b, (lb, b) ∈ copies ↔ ∃ j, j < tail ∧ lb = start + j + 1 ∧ lh[j]? = some b

theorem writeLog_runs (hlog : ∀ j, j < lh.length → ¬fs (start + j + 1))
    (hk : ∀ copies, Copies start lh lh.length copies → Runs fs start lh (.free false lh copies) k) :
    ∀ (rest : List Nat) (tail : Nat) (copies : List (Nat × Nat)), lh.drop tail = rest →
      tail ≤ lh.length → Copies start lh tail copies →
      Runs fs start lh (.free false lh copies) (turns (writeLogTurn start) tail rest ++ k) := by
  intro rest
  induction rest with
  | nil =>
      intro tail copies hdrop htail hc
      have hlen : tail = lh.length := Nat.le_antisymm htail (List.drop_eq_nil_iff.mp hdrop)
      exact hk copies (hlen ▸ hc)
  | cons b rest ih =>
      intro tail copies hdrop htail hc
      have hget : lh[tail]? = some b := by
        rw [← List.head?_drop, hdrop]
        rfl
      obtain ⟨hlt, _⟩ := List.getElem?_eq_some_iff.mp hget
      have hnew : ∀ b', (start + tail + 1, b') ∉ copies := by
        intro b' hm
        obtain ⟨j, hj, he, _⟩ := (hc _ _).mp hm
        omega
      have hnext : Copies start lh (tail + 1) ((start + tail + 1, b) :: copies) := by
        intro lb b'
        rw [List.mem_cons, hc]
        constructor
        · rintro (he | ⟨j, hj, hlb, hb⟩)
          · cases he
            exact ⟨tail, Nat.lt_succ_self tail, rfl, hget⟩
          · exact ⟨j, Nat.lt_succ_of_lt hj, hlb, hb⟩
        · rintro ⟨j, hj, hlb, hb⟩
          rcases Nat.lt_succ_iff_lt_or_eq.mp hj with hj | rfl
          · exact Or.inr ⟨j, hj, hlb, hb⟩
          · rw [hget] at hb
            cases hb
            exact Or.inl (by rw [hlb])
      have hrest : lh.drop (tail + 1) = rest := by
        rw [← List.tail_drop, hdrop]
        rfl
      refine .bread rfl (.bread rfl (.copy rfl rfl rfl hget (List.mem_of_getElem? hget) (hlog tail hlt) hnew
        (.bwriteCopy rfl rfl (.brelse rfl rfl (.brelse rfl rfl ?_)))))
      exact .of_free (fun r => by cases r <;> rfl) rfl (ih (tail + 1) _ hrest hlt hnext)

theorem installTrans_runs {copies : List (Nat × Nat)} (hfs : ∀ b ∈ lh, fs b)
    (hlog : ∀ lb b, (lb, b) ∈ copies → ¬fs lb) (hc : ∀ j b, lh[j]? = some b → (start + j + 1, b) ∈ copies)
    (hk : Runs fs start lh (.free false [] copies) k) :
    ∀ (rest : List Nat) (tail : Nat), lh.drop tail = rest →
      Runs fs start lh (.free false rest copies) (turns (installTurn false start) tail rest ++ k) := by
  intro rest
  induction rest with
  | nil => exact fun _ _ => hk
  | cons b rest ih =>
      intro tail hdrop
      have hget : lh[tail]? = some b := by
        rw [← List.head?_drop, hdrop]
        rfl
      have hrest : lh.drop (tail + 1) = rest := by
        rw [← List.tail_drop, hdrop]
        rfl
      have hhome : ∀ b', (b, b') ∉ copies := fun b' hm => hlog b b' hm (hfs b (List.mem_of_getElem? hget))
      refine .bread rfl (.bread rfl (.install rfl rfl rfl hget List.mem_cons_self (hc tail b hget)
        (.bwrite rfl rfl hhome (.bunpin rfl rfl rfl (.brelse rfl rfl (.brelse rfl rfl ?_))))))
      exact .of_free (fun r => by cases r <;> rfl) rfl (ih (tail + 1) hrest)

/-- **The code of `commit()`.** -/
theorem commit_runs (hfs : ∀ b ∈ lh, fs b) (hstart : lh ≠ [] → ¬fs start)
    (hlog : ∀ j, j < lh.length → ¬fs (start + j + 1)) :
    Runs fs start lh (.free false lh []) (commit start lh) := by
  unfold commit
  split
  · rename_i hnil
    exact .nil hnil hnil
  · rename_i hne
    refine writeLog_runs hlog ?_ lh 0 [] rfl (Nat.zero_le _) ?_
    · intro copies hc
      have hstartc : ∀ b, (start, b) ∉ copies := by
        intro b hm
        obtain ⟨j, _, he, _⟩ := (hc _ _).mp hm
        omega
      have hlogc : ∀ lb b, (lb, b) ∈ copies → ¬fs lb := by
        intro lb b hm
        obtain ⟨j, hj, rfl, _⟩ := (hc _ _).mp hm
        exact hlog j hj
      refine writeHead_runs (fun hm => hstart hne (hfs start hm)) hstartc ?_
      refine installTrans_runs hfs hlogc ?_ ?_ lh 0 rfl
      · intro j b hj
        exact (hc _ _).mpr ⟨j, (List.getElem?_eq_some_iff.mp hj).1, rfl, hj⟩
      · have h : Runs fs start [] (.free false [] copies) (writeHead start ++ []) :=
          writeHead_runs List.not_mem_nil hstartc (.nil rfl rfl)
        rw [List.append_nil] at h
        exact .clear rfl rfl h
    · intro lb b
      simp

theorem reinstall_runs (hk : Runs fs start lh (.free true [] []) k) :
    ∀ (rest : List Nat) (tail : Nat),
      Runs fs start lh (.free true [] []) (turns (installTurn true start) tail rest ++ k) := by
  intro rest
  induction rest with
  | nil => exact fun _ => hk
  | cons b rest ih =>
      intro tail
      refine .bread rfl (.bread rfl (
        .reinstall rfl rfl rfl rfl rfl (.bwrite rfl rfl (fun _ => List.not_mem_nil)
        (.brelse rfl rfl (.brelse rfl rfl ?_)))))
      exact .of_free (fun r => by cases r <;> rfl) rfl (ih (tail + 1))

/-- **The code of `recover_from_log`.** -/
theorem readHead_runs : Runs fs start lh (.free true [] []) (readHead start) := by
  refine .bread rfl (.readHead rfl rfl fun lh' => .brelse rfl rfl ?_)
  have h : Runs fs start [] (.free true [] []) (writeHead start ++ []) :=
    writeHead_runs List.not_mem_nil (fun _ => List.not_mem_nil) (.nil rfl rfl)
  rw [List.append_nil] at h
  exact .of_free (fun r => by cases r <;> rfl) rfl (reinstall_runs (.clear rfl rfl h) lh' 0)

end Xv6.Bcache
