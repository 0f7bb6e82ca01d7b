import Xv6.Console.Model
import Xv6.Lib.Ring

/-!
# `Console.Refine` — the ring is a queue and a line

`Holds c l` relates the ring to the two-part model: the queue is what lies between `r` and `w`, the line what
lies between `w` and `e`. Every operation of the ring is the operation of the model, whatever the indices have
wrapped to, so the machine on the ring runs as the machine on lines does (**`console_line_discipline`**).
-/

namespace Xv6.Console

variable {c : Cons} {l : Lines} {ch : UInt8}

/-! ## Indices -/

theorem inputBuf_dvd : INPUT_BUF ∣ 2 ^ 32 := by decide

theorem toNat_ofNat_of_le {k : Nat} (h : k ≤ INPUT_BUF) : (UInt32.ofNat k).toNat = k :=
  UInt32.toNat_ofNat_of_lt' (Nat.lt_of_le_of_lt h (by decide))

theorem ofNat_inj_of_le {j k : Nat} (hj : j ≤ INPUT_BUF) (hk : k ≤ INPUT_BUF) :
    UInt32.ofNat j = UInt32.ofNat k ↔ j = k := by
  refine ⟨fun h => ?_, fun h => by rw [h]⟩
  rw [← toNat_ofNat_of_le hj, ← toNat_ofNat_of_le hk, h]

theorem add_succ (r : UInt32) (k : Nat) : r + UInt32.ofNat k + 1 = r + UInt32.ofNat (k + 1) := by
  rw [UInt32.ofNat_add, UInt32.add_assoc]
  rfl

theorem add_succ_sub_one (r : UInt32) (k : Nat) : r + UInt32.ofNat (k + 1) - 1 = r + UInt32.ofNat k := by
  rw [← add_succ]
  exact UInt32.add_sub_cancel _ _

theorem succ_add (r : UInt32) (k : Nat) : r + 1 + UInt32.ofNat k = r + UInt32.ofNat (k + 1) := by
  rw [← add_succ, UInt32.add_assoc, UInt32.add_assoc, UInt32.add_comm 1]

theorem slot_add (r : UInt32) (k : Nat) : (r + UInt32.ofNat k).toNat % INPUT_BUF = (r.toNat + k) % INPUT_BUF := by
  rw [UInt32.toNat_add, UInt32.toNat_ofNat', INPUT_BUF]
  omega

/-! ## The relation -/

structure Holds (c : Cons) (l : Lines) : Prop where
  w : c.w = c.r + UInt32.ofNat l.queue.length
  e : c.e = c.r + UInt32.ofNat l.held
  held_le : l.held ≤ INPUT_BUF
  full : l.held = INPUT_BUF → l.line = []
  bytes : Ring.slots INPUT_BUF c.buf c.r.toNat l.held = l.queue ++ l.line
  plain : newline ∉ l.line

theorem Holds.queue_le (h : Holds c l) : l.queue.length ≤ INPUT_BUF := by
  have := h.held_le
  unfold Lines.held at this
  omega

/-- Bytes held. -/
theorem Holds.sub (h : Holds c l) : (c.e - c.r).toNat = l.held := by
  rw [h.e, add_sub_cancel_left, toNat_ofNat_of_le h.held_le]

/-- The line is empty exactly if the edit index is at the write index. -/
theorem Holds.line_nil (h : Holds c l) : c.e = c.w ↔ l.line = [] := by
  rw [h.e, h.w, UInt32.add_right_inj, ofNat_inj_of_le h.held_le h.queue_le, Lines.held]
  constructor
  · intro heq
    exact List.length_eq_zero_iff.mp (by omega)
  · intro hnil
    rw [hnil, List.length_nil, Nat.add_zero]

theorem Holds.queue_nil (h : Holds c l) : c.r = c.w ↔ l.queue = [] := by
  have hr : c.r = c.r + UInt32.ofNat 0 := (UInt32.add_zero _).symm
  rw [h.w]
  nth_rewrite 1 [hr]
  rw [UInt32.add_right_inj, ofNat_inj_of_le (Nat.zero_le _) h.queue_le, eq_comm, List.length_eq_zero_iff]

/-- The byte at index `r + k`. -/
theorem Holds.get {k : Nat} (h : Holds c l) (hk : k < l.held) :
    (l.queue ++ l.line)[k]? = some (c.get (c.r + UInt32.ofNat k)) := by
  rw [← h.bytes, Ring.slots, List.getElem?_map, List.getElem?_range hk, Cons.get, slot_add]
  rfl

/-! ## Typing -/

/-- A byte is stored at the edit index. -/
theorem Holds.put (h : Holds c l) (hlt : l.held < INPUT_BUF) (ch : UInt8) :
    Ring.slots INPUT_BUF (c.put c.e ch).buf c.r.toNat (l.held + 1) = l.queue ++ l.line ++ [ch] := by
  rw [Ring.slots_succ, Cons.put, h.e, slot_add]
  simp only [Function.update_self]
  rw [Ring.slots_update _ _ hlt, h.bytes]

theorem Holds.dropLast (h : Holds c l) (hne : l.line ≠ []) : Holds { c with e := c.e - 1 } ⟨l.queue, l.line.dropLast⟩ := by
  obtain ⟨line, x, hx⟩ := List.eq_nil_or_concat l.line |>.resolve_left hne
  rw [List.concat_eq_append] at hx
  have hheld : l.held = l.queue.length + line.length + 1 := by
    rw [Lines.held, hx, List.length_append, List.length_singleton]
    omega
  have hdrop : l.line.dropLast = line := by rw [hx, List.dropLast_concat]
  rw [hdrop]
  refine ⟨h.w, ?_, ?_, fun hfull => ?_, ?_, fun hmem => h.plain ?_⟩
  · show c.e - 1 = c.r + UInt32.ofNat (l.queue.length + line.length)
    rw [h.e, hheld, add_succ_sub_one]
  · have := h.held_le
    show l.queue.length + line.length ≤ INPUT_BUF
    omega
  · have := h.held_le
    have hfull : l.queue.length + line.length = INPUT_BUF := hfull
    omega
  · have hbytes := h.bytes
    rw [hheld, Ring.slots_succ, hx, ← List.append_assoc] at hbytes
    exact (List.append_inj' hbytes rfl).1
  · rw [hx]
    exact List.mem_append_left _ hmem

/-- `^U` removes the line. -/
theorem killLine_holds {k : Nat} (h : Holds c l) (hk : l.line.length = k) : Holds (killLine k c) ⟨l.queue, []⟩ := by
  induction k generalizing c l with
  | zero =>
      rw [killLine, ← List.length_eq_zero_iff.mp hk]
      exact h
  | succ k ih =>
      have hne : l.line ≠ [] := fun hnil => by
        rw [hnil] at hk
        cases hk
      have hlt : l.held - 1 < l.held := by
        unfold Lines.held
        omega
      -- there is no newline in the line, so the loop goes on
      have hget : c.get (c.e - 1) ≠ newline := by
        have hlast := h.get hlt
        have he : c.e - 1 = c.r + UInt32.ofNat (l.held - 1) := by
          rw [h.e, ← add_succ_sub_one c.r (l.held - 1), Nat.sub_add_cancel (by omega)]
        rw [List.getElem?_append_right (by unfold Lines.held; omega)] at hlast
        rw [he]
        exact fun heq => h.plain (heq ▸ List.mem_of_getElem? hlast)
      rw [killLine, if_pos ⟨fun heq => hne (h.line_nil.mp heq), hget⟩]
      exact ih (l := ⟨l.queue, l.line.dropLast⟩) (h.dropLast hne) (by simp [hk])

theorem Holds.backspace (h : Holds c l) :
    Holds (if c.e ≠ c.w then { c with e := c.e - 1 } else c) ⟨l.queue, l.line.dropLast⟩ := by
  by_cases hnil : l.line = []
  · rw [if_neg (not_not.mpr (h.line_nil.mpr hnil))]
    obtain ⟨queue, line⟩ := l
    cases hnil
    exact h
  · rw [if_pos fun heq => hnil (h.line_nil.mp heq)]
    exact h.dropLast hnil

theorem Holds.line_length (h : Holds c l) : (c.e - c.w).toNat = l.line.length := by
  have hsub : c.r + (UInt32.ofNat l.queue.length + UInt32.ofNat l.line.length) -
      (c.r + UInt32.ofNat l.queue.length) = UInt32.ofNat l.line.length := by
    rw [← UInt32.add_assoc, add_sub_cancel_left]
  rw [h.e, h.w, Lines.held, UInt32.ofNat_add, hsub, toNat_ofNat_of_le]
  have := h.held_le
  unfold Lines.held at this
  omega

/-- A character that is not a command. -/
theorem Holds.type (h : Holds c l) (ch : UInt8) :
    Holds (if (c.e - c.r).toNat < INPUT_BUF then
        if ch = newline ∨ ch = ctrlD ∨ c.e + 1 = c.r + UInt32.ofNat INPUT_BUF then
          { c.put c.e ch with e := c.e + 1, w := c.e + 1 }
        else { c.put c.e ch with e := c.e + 1 }
      else c) (l.type ch) := by
  unfold Lines.type
  rw [h.sub]
  split
  · rename_i hlt
    have he : c.e + 1 = c.r + UInt32.ofNat (l.held + 1) := by rw [h.e, add_succ]
    have hfull : c.e + 1 = c.r + UInt32.ofNat INPUT_BUF ↔ l.held + 1 = INPUT_BUF := by
      rw [he, UInt32.add_right_inj, ofNat_inj_of_le (by omega) le_rfl]
    have hput := h.put hlt ch
    simp only [hfull]
    split
    · -- the line with the new character is committed
      have hlen : (l.queue ++ l.line ++ [ch]).length = l.held + 1 := by simp [Lines.held, Nat.add_assoc]
      have hheld : Lines.held ⟨l.queue ++ l.line ++ [ch], []⟩ = l.held + 1 := hlen
      refine ⟨?_, ?_, by omega, fun _ => rfl, ?_, List.not_mem_nil⟩
      · show c.e + 1 = _
        rw [he, hlen]
        rfl
      · show c.e + 1 = _
        rw [he, hheld]
        rfl
      · rw [hheld, List.append_nil]
        exact hput
    · rename_i hopen
      have hheld : Lines.held ⟨l.queue, l.line ++ [ch]⟩ = l.held + 1 := by simp [Lines.held, Nat.add_assoc]
      refine ⟨h.w, ?_, by omega, fun hfull => absurd (hheld.symm.trans hfull) fun h' => hopen (.inr (.inr h')), ?_, ?_⟩
      · show c.e + 1 = _
        rw [he, hheld]
        rfl
      · rw [hheld, ← List.append_assoc]
        exact hput
      · intro hmem
        rcases List.mem_append.mp hmem with hmem | hmem
        · exact h.plain hmem
        · exact hopen (.inl (List.mem_singleton.mp hmem).symm)
  · exact h

/-- **The interrupt handler.** -/
theorem consoleintr_holds (h : Holds c l) (ch : UInt8) : Holds (consoleintr c ch) (l.intr ch) := by
  by_cases hP : ch = ctrlP
  · subst hP
    exact h
  by_cases hU : ch = ctrlU
  · subst hU
    show Holds (killLine (c.e - c.w).toNat c) ⟨l.queue, []⟩
    rw [h.line_length]
    exact killLine_holds h rfl
  by_cases hH : ch = ctrlH ∨ ch = delete
  · rcases hH with rfl | rfl
    · exact h.backspace
    · exact h.backspace
  by_cases h0 : ch = 0
  · subst h0
    exact h
  have hl : l.intr ch = l.type (if ch = carriageReturn then newline else ch) := by
    rw [Lines.intr, if_neg (by tauto), if_neg hU, if_neg hH]
  have htype := h.type (if ch = carriageReturn then newline else ch)
  rw [hl]
  unfold consoleintr
  rw [if_neg hP, if_neg hU, if_neg hH]
  simp only [ne_eq, h0, not_false_eq_true, true_and]
  exact htype

/-! ## Reading -/

/-- The reader takes a byte. -/
theorem Holds.take {q : List UInt8} (h : Holds c l) (hq : l.queue = ch :: q) :
    c.get c.r = ch ∧ Holds { c with r := c.r + 1 } ⟨q, l.line⟩ := by
  have hheld : l.held = q.length + l.line.length + 1 := by
    rw [Lines.held, hq, List.length_cons]
    omega
  have hheld' : Lines.held ⟨q, l.line⟩ + 1 = l.held := hheld.symm
  have hbytes := h.bytes
  rw [← hheld', Ring.slots_cons, hq, List.cons_append] at hbytes
  obtain ⟨hch, hrest⟩ := List.cons.inj hbytes
  have hle := h.held_le
  refine ⟨hch, ?_, ?_, by omega, fun hfull => by omega, ?_, h.plain⟩
  · show c.w = _
    rw [h.w, hq, List.length_cons, ← succ_add]
  · show c.e = _
    rw [h.e, ← hheld', ← succ_add]
  · rw [← hrest]
    show Ring.slots INPUT_BUF c.buf (c.r + 1).toNat _ = _
    rw [UInt32.toNat_add, ← Ring.slots_mod inputBuf_dvd c.buf (c.r.toNat + 1)]
    rfl

/-- **A critical section of `consoleread`.** -/
theorem consoleread_holds (h : Holds c l) (target : Nat) (killed : Bool) (n : Nat) :
    Holds (consoleread target killed n c).1 (l.read target killed n).1 ∧
      (consoleread target killed n c).2 = (l.read target killed n).2 := by
  induction n generalizing c l with
  | zero => exact ⟨h, rfl⟩
  | succ n ih =>
      obtain ⟨queue, line⟩ := l
      rw [consoleread, Lines.read]
      cases queue with
      | nil =>
          rw [if_pos (h.queue_nil.mpr rfl)]
          exact ⟨h, rfl⟩
      | cons ch q =>
          obtain ⟨hget, htake⟩ := h.take rfl
          rw [if_neg fun heq => List.cons_ne_nil _ _ (h.queue_nil.mp heq)]
          simp only [hget, takeLine]
          by_cases hD : ch = ctrlD
          · rw [if_pos hD, if_pos hD]
            by_cases hlt : n + 1 < target
            · rw [if_pos hlt, if_pos hlt]
              refine ⟨?_, rfl⟩
              rw [UInt32.add_sub_cancel]
              exact h
            · rw [if_neg hlt, if_neg hlt]
              exact ⟨htake, rfl⟩
          · rw [if_neg hD, if_neg hD]
            by_cases hN : ch = newline
            · rw [if_pos hN, if_pos hN]
              exact ⟨htake, rfl⟩
            · rw [if_neg hN, if_neg hN]
              obtain ⟨hrest, heq⟩ := ih htake
              exact ⟨hrest, by rw [heq]; rfl⟩

/-! ## What a reader gets -/

/-- Why a critical section of `consoleread` ends that takes `out` from the queue `q`, leaves `q'` there and has
    `n'` of `target` bytes left. -/
inductive Stops (target : Nat) (q q' : List UInt8) (n' : Nat) (out : List UInt8) : Exit → Prop
  | full : n' = 0 → newline ∉ out → q = out ++ q' → Stops target q q' n' out .done
  | line (text : List UInt8) : newline ∉ text → out = text ++ [newline] → q = out ++ q' →
      Stops target q q' n' out .done
  /-- A `^D` stays in the queue unless the read has delivered nothing. -/
  | eof (rest : List UInt8) : 0 < n' → newline ∉ out → q = out ++ ctrlD :: rest →
      q' = (if n' < target then ctrlD :: rest else rest) → Stops target q q' n' out .done
  | empty (exit : Exit) : 0 < n' → newline ∉ out → q = out → q' = [] → exit ≠ .done → Stops target q q' n' out exit

structure Delivers (target n : Nat) (q q' : List UInt8) (n' : Nat) (out : List UInt8) (exit : Exit) : Prop where
  count : out.length + n' = n
  noEof : ctrlD ∉ out
  stops : Stops target q q' n' out exit

theorem Stops.cons {target n' : Nat} {q q' out : List UInt8} {exit : Exit} (hN : ch ≠ newline)
    (h : Stops target q q' n' out exit) : Stops target (ch :: q) q' n' (ch :: out) exit := by
  have hmem : ∀ {text : List UInt8}, newline ∉ text → newline ∉ ch :: text := fun ht hin =>
    (List.mem_cons.mp hin).elim (fun heq => hN heq.symm) ht
  cases h with
  | full h0 hout hq => exact .full h0 (hmem hout) (by rw [hq, List.cons_append])
  | line text htext hout hq => exact .line (ch :: text) (hmem htext) (by rw [hout]; rfl) (by rw [hq]; rfl)
  | eof rest hpos hout hq hq' => exact .eof rest hpos (hmem hout) (by rw [hq]; rfl) hq'
  | empty exit hpos hout hq hq' hexit => exact .empty exit hpos (hmem hout) (by rw [hq]) hq' hexit

theorem takeLine_delivers (target : Nat) (killed : Bool) (n : Nat) (q : List UInt8) :
    Delivers target n q (takeLine target killed n q).1 (takeLine target killed n q).2.1
      (takeLine target killed n q).2.2.1 (takeLine target killed n q).2.2.2 := by
  induction n generalizing q with
  | zero => exact ⟨rfl, List.not_mem_nil, .full rfl List.not_mem_nil rfl⟩
  | succ n ih =>
      cases q with
      | nil =>
          refine ⟨Nat.zero_add _, List.not_mem_nil, .empty _ n.succ_pos List.not_mem_nil rfl rfl ?_⟩
          show (if killed then Exit.killed else Exit.asleep) ≠ _
          cases killed <;> decide
      | cons ch q =>
          rw [takeLine]
          by_cases hD : ch = ctrlD
          · rw [if_pos hD, hD]
            exact ⟨Nat.zero_add _, List.not_mem_nil, .eof q n.succ_pos List.not_mem_nil rfl rfl⟩
          · rw [if_neg hD]
            by_cases hN : ch = newline
            · rw [if_pos hN]
              refine ⟨Nat.add_comm 1 n, fun hin => hD (List.mem_singleton.mp hin).symm, ?_⟩
              exact .line [] List.not_mem_nil (by rw [hN]; rfl) rfl
            · rw [if_neg hN]
              obtain ⟨hcount, heof, hstops⟩ := ih q
              refine ⟨?_, fun hin => ?_, hstops.cons hN⟩
              · show (takeLine target killed n q).2.2.1.length + 1 + (takeLine target killed n q).2.1 = n + 1
                omega
              · exact (List.mem_cons.mp hin).elim (fun heq => hD heq.symm) heof

/-! ## Runs -/

/-- The two parts of the ring. -/
def Cons.lines (c : Cons) : Lines :=
  ⟨Ring.slots INPUT_BUF c.buf c.r.toNat (c.w - c.r).toNat, Ring.slots INPUT_BUF c.buf c.w.toNat (c.e - c.w).toNat⟩

def Sys.lines {N : Nat} (s : Sys Cons N) : Sys Lines N := ⟨s.dev.lines, s.readers, s.returned⟩

theorem Holds.lines_eq (h : Holds c l) : c.lines = l := by
  have hw : (c.w - c.r).toNat = l.queue.length := by
    rw [h.w, add_sub_cancel_left, toNat_ofNat_of_le h.queue_le]
  have hbytes := h.bytes
  rw [Lines.held, Ring.slots_add] at hbytes
  obtain ⟨hqueue, hline⟩ := List.append_inj hbytes (Ring.length_slots _ _ _)
  have hslot : c.w.toNat = (c.r.toNat + l.queue.length) % 2 ^ 32 := by
    rw [h.w, UInt32.toNat_add, UInt32.toNat_ofNat', Nat.add_mod_mod]
  rw [Cons.lines, hw, h.line_length, hqueue, hslot, Ring.slots_mod inputBuf_dvd, hline]

theorem consoleinit_holds : Holds consoleinit ⟨[], []⟩ :=
  ⟨rfl, rfl, by decide, fun _ => rfl, rfl, List.not_mem_nil⟩

variable {N : Nat} {s : Sys Cons N}

theorem read_lines (h : Holds s.dev s.dev.lines) (p : Fin N) (rd : Reader) (killed : Bool) :
    Holds (s.read ring p rd killed).dev (s.read ring p rd killed).dev.lines ∧
      (s.read ring p rd killed).lines = s.lines.read lines p rd killed := by
  obtain ⟨hdev, heq⟩ := consoleread_holds h rd.target killed rd.n
  have hl := hdev.lines_eq
  rcases hx : consoleread rd.target killed rd.n s.dev with ⟨c', n', out, exit⟩
  rcases hy : s.dev.lines.read rd.target killed rd.n with ⟨l', n'', out', exit'⟩
  rw [hx, hy] at heq hdev hl
  cases heq
  cases hl
  have hring : ring.read rd.target killed rd.n s.dev = (c', n', out, exit) := hx
  have hlines : lines.read rd.target killed rd.n s.lines.dev = (c'.lines, n', out, exit) := hy
  unfold Sys.read
  rw [hring, hlines]
  cases exit <;> exact ⟨hdev, rfl⟩

/-- **A step of the machine on the ring is the step of the machine on lines.** -/
theorem step_lines (h : Holds s.dev s.dev.lines) (a : Act N) :
    (∀ t, step ring s a = some t → Holds t.dev t.dev.lines) ∧
      step lines s.lines a = (step ring s a).map Sys.lines := by
  cases a with
  | intr ch =>
      have hdev := consoleintr_holds h ch
      have hl := hdev.lines_eq
      refine ⟨fun t ht => ?_, ?_⟩
      · cases ht
        show Holds (consoleintr s.dev ch) (consoleintr s.dev ch).lines
        rw [hl]
        exact hdev
      · show some _ = some (Sys.mk (consoleintr s.dev ch).lines s.readers s.returned)
        rw [hl]
        rfl
  | read p n killed =>
      obtain ⟨hdev, heq⟩ := read_lines h p ⟨n.toNat, n.toNat, []⟩ killed
      by_cases hp : s.readers p = none
      · have hp' : s.lines.readers p = none := hp
        rw [step, step, if_pos hp, if_pos hp']
        refine ⟨fun t ht => ?_, congrArg some heq.symm⟩
        cases ht
        exact hdev
      · have hp' : s.lines.readers p ≠ none := hp
        rw [step, step, if_neg hp, if_neg hp']
        refine ⟨fun t ht => ?_, rfl⟩
        cases ht
  | wake p killed =>
      rw [step, step]
      show _ ∧ (s.readers p).map _ = _
      cases hp : s.readers p with
      | none =>
          refine ⟨fun t ht => ?_, rfl⟩
          cases ht
      | some rd =>
          obtain ⟨hdev, heq⟩ := read_lines h p rd killed
          refine ⟨fun t ht => ?_, congrArg some heq.symm⟩
          cases ht
          exact hdev

theorem holds_of_run {acts : List (Act N)} (hrun : Trace.run (step ring) (boot consoleinit) acts = some s) :
    Holds s.dev s.dev.lines :=
  Trace.run_invariant (I := fun s : Sys Cons N => Holds s.dev s.dev.lines)
    (consoleinit_holds.lines_eq.symm ▸ consoleinit_holds)
    (fun _ a t h ht => (step_lines h a).1 t ht) hrun

theorem run_lines {acts : List (Act N)} : ∀ {s : Sys Cons N}, Holds s.dev s.dev.lines →
    Trace.run (step lines) s.lines acts = (Trace.run (step ring) s acts).map Sys.lines := by
  induction acts with
  | nil => exact fun _ => rfl
  | cons a acts ih =>
      intro s h
      obtain ⟨hdev, heq⟩ := step_lines h a
      rw [Trace.run_cons, Trace.run_cons, heq]
      cases hst : step ring s a with
      | none => rfl
      | some t => exact ih (hdev t hst)

/-! ## Delivery -/

/-- The bytes an action copies out to a reader. -/
def Sys.delivers {D : Type} (d : Device D) (s : Sys D N) : Act N → List UInt8
  | .intr _ => []
  | .read _ n killed => (d.read n.toNat killed n.toNat s.dev).2.2.1
  | .wake p killed =>
      match s.readers p with
      | some rd => (d.read rd.target killed rd.n s.dev).2.2.1
      | none => []

/-- The bytes an action adds to the queue. -/
def Sys.commits (s : Sys Lines N) : Act N → List UInt8
  | .intr ch => (s.dev.intr ch).queue.drop s.dev.queue.length
  | .read _ _ _ => []
  | .wake _ _ => []

/-- A line without its `^D`s. -/
def text (q : List UInt8) : List UInt8 := q.filter (· ≠ ctrlD)

theorem text_append (q q' : List UInt8) : text (q ++ q') = text q ++ text q' := List.filter_append _ _

theorem text_eq_self {q : List UInt8} (h : ctrlD ∉ q) : text q = q := by
  refine List.filter_eq_self.mpr fun ch hch => ?_
  exact decide_eq_true fun heq => h (heq ▸ hch)

/-- What is delivered, and then what is left, is the queue, but for a `^D` that was consumed. -/
theorem Delivers.text_eq {target n n' : Nat} {q q' out : List UInt8} {exit : Exit}
    (h : Delivers target n q q' n' out exit) : text q = out ++ text q' := by
  have hout : text out = out := text_eq_self h.noEof
  have heof : ∀ rest, text (ctrlD :: rest) = text rest := fun rest => rfl
  cases h.stops with
  | full _ _ hq => rw [hq, text_append, hout]
  | line _ _ _ hq => rw [hq, text_append, hout]
  | eof rest _ _ hq hq' =>
      rw [hq, hq', text_append, hout, heof]
      split
      · rw [heof]
      · rfl
  | empty _ _ _ hq hq' => rw [hq, hq', hout]; exact (List.append_nil _).symm

theorem Lines.intr_queue (l : Lines) (ch : UInt8) : ∃ more, (l.intr ch).queue = l.queue ++ more := by
  unfold Lines.intr Lines.type
  split_ifs <;> first | exact ⟨[], (List.append_nil _).symm⟩ | exact ⟨_, List.append_assoc _ _ _⟩

theorem Sys.read_dev {D : Type} (d : Device D) (s : Sys D N) (p : Fin N) (rd : Reader) (killed : Bool) :
    (s.read d p rd killed).dev = (d.read rd.target killed rd.n s.dev).1 := by
  unfold Sys.read
  dsimp only
  split <;> rfl

/-- **A step** puts what it commits behind the queue and delivers from its front. -/
theorem step_flow {s t : Sys Lines N} {a : Act N} (hst : step lines s a = some t) :
    text s.dev.queue ++ text (s.commits a) = s.delivers lines a ++ text t.dev.queue := by
  have hread : ∀ p rd killed, text s.dev.queue =
      (lines.read rd.target killed rd.n s.dev).2.2.1 ++ text (s.read lines p rd killed).dev.queue := by
    intro p rd killed
    rw [Sys.read_dev]
    exact (takeLine_delivers rd.target killed rd.n s.dev.queue).text_eq
  cases a with
  | intr ch =>
      cases hst
      obtain ⟨more, hmore⟩ := s.dev.intr_queue ch
      rw [Sys.commits, hmore, List.drop_left, ← text_append, ← hmore]
      rfl
  | read p n killed =>
      simp only [step] at hst
      split at hst
      · cases hst
        rw [Sys.commits, Sys.delivers]
        exact (List.append_nil _).trans (hread p ⟨n.toNat, n.toNat, []⟩ killed)
      · cases hst
  | wake p killed =>
      cases hp : s.readers p with
      | none => rw [step, hp] at hst; cases hst
      | some rd =>
          rw [step, hp] at hst
          cases hst
          rw [Sys.commits, Sys.delivers, hp]
          exact (List.append_nil _).trans (hread p rd killed)

/-- The ring delivers what the lines deliver. -/
theorem delivers_lines (h : Holds s.dev s.dev.lines) (a : Act N) : s.lines.delivers lines a = s.delivers ring a := by
  have hread : ∀ target killed n,
      (lines.read target killed n s.lines.dev).2.2.1 = (ring.read target killed n s.dev).2.2.1 := fun target killed n =>
    congrArg (fun x => x.2.1) (consoleread_holds h target killed n).2.symm
  cases a with
  | intr ch => rfl
  | read p n killed => exact hread _ _ _
  | wake p killed =>
      rw [Sys.delivers, Sys.delivers]
      show (match s.readers p with | some rd => _ | none => _) = _
      cases s.readers p with
      | none => rfl
      | some rd => exact hread _ _ _

theorem output_lines {acts : List (Act N)} : ∀ {s : Sys Cons N}, Holds s.dev s.dev.lines →
    Trace.output (step lines) (Sys.delivers lines) s.lines acts =
      Trace.output (step ring) (Sys.delivers ring) s acts := by
  induction acts with
  | nil => exact fun _ => rfl
  | cons a acts ih =>
      intro s h
      obtain ⟨hdev, heq⟩ := step_lines h a
      rw [Trace.output, Trace.output, heq, delivers_lines h]
      cases hst : step ring s a with
      | none => rfl
      | some t => exact congrArg _ (ih (hdev t hst))

/-! ## Return values -/

/-- The count of a call of `consoleread` is right, and so is what the calls have returned. -/
structure Counted {D : Type} (s : Sys D N) : Prop where
  waiting : ∀ p rd, s.readers p = some rd → rd.out.length + rd.n = rd.target
  returned : ∀ x ∈ s.returned, x.2.2 = x.2.1.length ∨ x.2.2 = -1

theorem boot_counted : Counted (boot consoleinit : Sys Cons N) := by
  refine ⟨fun p rd hrd => ?_, fun x hx => ?_⟩
  · cases hrd
  · cases hx

theorem Counted.read (h : Counted s) (hs : Holds s.dev s.dev.lines) (p : Fin N) {rd : Reader}
    (hrd : rd.out.length + rd.n = rd.target) (killed : Bool) : Counted (s.read ring p rd killed) := by
  have hcount : (consoleread rd.target killed rd.n s.dev).2.2.1.length +
      (consoleread rd.target killed rd.n s.dev).2.1 = rd.n := by
    rw [(consoleread_holds hs rd.target killed rd.n).2]
    exact (takeLine_delivers rd.target killed rd.n s.dev.lines.queue).count
  rcases hx : consoleread rd.target killed rd.n s.dev with ⟨c', n', out, exit⟩
  rw [hx] at hcount
  have hring : ring.read rd.target killed rd.n s.dev = (c', n', out, exit) := hx
  have hlen : (rd.out ++ out).length + n' = rd.target := by
    have hcount : out.length + n' = rd.n := hcount
    rw [List.length_append]
    omega
  have hother : ∀ {r : Option Reader} {q rq}, (∀ rr, r = some rr → rr.out.length + rr.n = rr.target) →
      Function.update s.readers p r q = some rq → rq.out.length + rq.n = rq.target := by
    intro r q rq hr hq
    by_cases hqp : q = p
    · subst hqp
      rw [Function.update_self] at hq
      exact hr rq hq
    · rw [Function.update_of_ne hqp] at hq
      exact h.waiting q rq hq
  have hret : ∀ {v : Int}, (v = (rd.out ++ out).length ∨ v = -1) →
      ∀ x ∈ s.returned ++ [(p, rd.out ++ out, v)], x.2.2 = x.2.1.length ∨ x.2.2 = -1 := by
    intro v hv x hx
    rcases List.mem_append.mp hx with hx | hx
    · exact h.returned x hx
    · rw [List.mem_singleton.mp hx]
      exact hv
  unfold Sys.read
  rw [hring]
  cases exit with
  | asleep => exact ⟨fun q rq => hother fun rr hrr => by cases hrr; exact hlen, h.returned⟩
  | killed => exact ⟨fun q rq => hother fun rr hrr => (by cases hrr), hret (.inr rfl)⟩
  | done =>
      refine ⟨fun q rq => hother fun rr hrr => (by cases hrr), hret (.inl ?_)⟩
      show (rd.target : Int) - n' = _
      omega

theorem Counted.step {t : Sys Cons N} {a : Act N} (h : Counted s) (hs : Holds s.dev s.dev.lines)
    (hst : Console.step ring s a = some t) : Counted t := by
  cases a with
  | intr ch =>
      cases hst
      exact ⟨h.waiting, h.returned⟩
  | read p n killed =>
      simp only [Console.step] at hst
      split at hst
      · cases hst
        exact h.read hs p (Nat.zero_add _) killed
      · cases hst
  | wake p killed =>
      cases hp : s.readers p with
      | none => rw [Console.step, hp] at hst; cases hst
      | some rd =>
          rw [Console.step, hp] at hst
          cases hst
          exact h.read hs p (h.waiting p rd hp) killed

/-! ## The line discipline -/

/-- Everything the two-part model says of a ring: the bounds, what a character does, and what a reader gets. -/
structure Disciplined (c : Cons) : Prop where
  queue_le : (c.w - c.r).toNat ≤ (c.e - c.r).toNat
  held_le : (c.e - c.r).toNat ≤ INPUT_BUF
  full : (c.e - c.r).toNat = INPUT_BUF → c.w = c.e
  types : ∀ ch, (consoleintr c ch).lines = c.lines.intr ch
  reads : ∀ target killed n, ∃ q' n' out exit,
    (consoleread target killed n c).1.lines = ⟨q', c.lines.line⟩ ∧
      (consoleread target killed n c).2 = (n', out, exit) ∧ Delivers target n c.lines.queue q' n' out exit

theorem Holds.disciplined (h : Holds c c.lines) : Disciplined c := by
  have hw : (c.w - c.r).toNat = c.lines.queue.length := by
    rw [h.w, add_sub_cancel_left, toNat_ofNat_of_le h.queue_le]
  refine ⟨?_, ?_, fun hfull => ?_, fun ch => (consoleintr_holds h ch).lines_eq, fun target killed n => ?_⟩
  · rw [hw, h.sub, Lines.held]
    exact Nat.le_add_right _ _
  · rw [h.sub]
    exact h.held_le
  · exact (h.line_nil.mpr (h.full (h.sub.symm.trans hfull))).symm
  · obtain ⟨hdev, heq⟩ := consoleread_holds h target killed n
    exact ⟨_, _, _, _, hdev.lines_eq, heq, takeLine_delivers target killed n c.lines.queue⟩

/-- **Console line discipline.** For every interleaving of characters and readers, the machine on the ring
    runs as the machine on lines does; the ring stays within its bounds; and the bytes delivered, and then those
    in the queue, are the bytes committed, in order and without the `^D`s. -/
theorem console_line_discipline (acts : List (Act N)) :
    Trace.run (step lines) (boot ⟨[], []⟩) acts = (Trace.run (step ring) (boot consoleinit) acts).map Sys.lines ∧
      ∀ s, Trace.run (step ring) (boot consoleinit) acts = some s →
        Disciplined s.dev ∧ Counted s ∧
          text (Trace.output (step lines) Sys.commits (boot ⟨[], []⟩) acts) =
            Trace.output (step ring) (Sys.delivers ring) (boot consoleinit) acts ++ text s.dev.lines.queue := by
  have hboot : (boot consoleinit : Sys Cons N).lines = boot ⟨[], []⟩ := by
    show Sys.mk consoleinit.lines _ _ = _
    rw [consoleinit_holds.lines_eq]
    rfl
  have h0 : Holds (boot consoleinit : Sys Cons N).dev (boot consoleinit : Sys Cons N).dev.lines :=
    consoleinit_holds.lines_eq.symm ▸ consoleinit_holds
  have hrefine : Trace.run (step lines) (boot consoleinit).lines acts = _ := run_lines h0
  rw [hboot] at hrefine
  refine ⟨hrefine, fun s hrun => ⟨(holds_of_run hrun).disciplined, ?_, ?_⟩⟩
  · have hinv := Trace.run_invariant (I := fun s : Sys Cons N => Holds s.dev s.dev.lines ∧ Counted s)
      ⟨h0, boot_counted⟩
      (fun _ a t h ht => ⟨(step_lines h.1 a).1 t ht, h.2.step h.1 ht⟩) hrun
    exact hinv.2
  · rw [hrun] at hrefine
    rw [text, Trace.output_filter, ← output_lines h0, hboot]
    exact Trace.run_flow (I := fun _ => True) (fun _ _ _ _ _ => trivial) (fun _ _ _ _ ht => step_flow ht) trivial
      hrefine

/-- A reader that asks for 9 bytes sleeps until the line `a` comes, and the rest of the input waits. -/
theorem reader_gets_a_line :
    ∃ s, Trace.run (step ring) (boot consoleinit)
        [.read (0 : Fin 1) 9 false, .intr 97, .intr 13, .intr 98, .intr 4, .wake 0 false] = some s ∧
      s.returned = [(0, [97, 10], 2)] ∧ s.dev.lines.queue = [98, 4] ∧ Disciplined s.dev := by
  have hany : (Trace.run (step ring) (boot consoleinit)
      [.read (0 : Fin 1) 9 false, .intr 97, .intr 13, .intr 98, .intr 4, .wake 0 false]).any
        (fun s => decide (s.returned = [(0, [97, 10], 2)] ∧ s.dev.lines.queue = [98, 4])) = true := by
    decide +kernel
  obtain ⟨s, hrun, hs⟩ := (Option.any_eq_true _ _).mp hany
  obtain ⟨hreturned, hqueue⟩ := of_decide_eq_true hs
  exact ⟨s, hrun, hreturned, hqueue, ((console_line_discipline _).2 s hrun).1⟩

end Xv6.Console
