import Mathlib
import Xv6.Lib.Lines
import Xv6.Lib.Wildcard

/-!
# `Grep` — `user/grep.c`

A C string is the list of its bytes before the NUL. `matchRe`, `matchhere` and `matchstar` are the matcher (`match` is
a keyword here): the recursion is on the pattern, with the loop of `matchstar` as an inner recursion on the text, so
both end. `parse` reads a pattern as a list of items, and **`match_exact`** says that the matcher decides the language
of the items.

`grep` is the reader with its buffer of 1024 bytes. The reads may cut the input in any way; **`grep_eq`** says what is
written: the matching lines among those before the first line that does not fit in the buffer.
-/

namespace Xv6.User

/-! ## The matcher -/

/-- `'\n'` -/
def newline : UInt8 := 10
/-- `'$'` -/
def dollar : UInt8 := 36
/-- `'*'` -/
def star : UInt8 := 42
/-- `'.'` -/
def dot : UInt8 := 46
/-- `'^'` -/
def caret : UInt8 := 94

/-- The loop of `matchstar(c, re, text)`; `here` is `matchhere` at the rest of the pattern. -/
def matchstar (here : List UInt8 → Bool) (c : UInt8) : List UInt8 → Bool
  | [] => here []
  | t :: text => here (t :: text) || ((t == c || c == dot) && matchstar here c text)

/-- The last test of `matchhere`: one character, and then the rest of the pattern. -/
def matchchar (here : List UInt8 → Bool) (c : UInt8) : List UInt8 → Bool
  | [] => false
  | t :: text => (c == dot || c == t) && here text

/-- `matchhere(re, text)` -/
def matchhere : List UInt8 → List UInt8 → Bool
  | [] => fun _ => true
  | [c] => fun text => if c = dollar then text.isEmpty else matchchar (matchhere []) c text
  | c :: r :: re => fun text =>
      if r = star then matchstar (matchhere re) c text else matchchar (matchhere (r :: re)) c text

/-- The loop of `match`: look for `re` at every position of the text, its end included. -/
def matchAnywhere (re : List UInt8) : List UInt8 → Bool
  | [] => matchhere re []
  | t :: text => matchhere re (t :: text) || matchAnywhere re text

/-- `match(re, text)` -/
def matchRe (re text : List UInt8) : Bool :=
  match re with
  | [] => matchAnywhere [] text
  | c :: re => if c = caret then matchhere re text else matchAnywhere (c :: re) text

/-! ## What a pattern means -/

/-- A pattern: anchored at the beginning, its items, anchored at the end. -/
structure Pattern where
  anchored : Bool
  items : List (Wildcard.Item UInt8)
  atEnd : Bool

/-- `'.'` stands for any character, every other character for itself. -/
def cls (c : UInt8) : UInt8 → Bool := fun t => c == dot || c == t

/-- The items of a pattern, left to right, and whether an unstarred `'$'` ends it. -/
def parseItems : List UInt8 → List (Wildcard.Item UInt8) × Bool
  | [] => ([], false)
  | [c] => if c = dollar then ([], true) else ([⟨cls c, false⟩], false)
  | c :: r :: re =>
      if r = star then (⟨cls c, true⟩ :: (parseItems re).1, (parseItems re).2)
      else (⟨cls c, false⟩ :: (parseItems (r :: re)).1, (parseItems (r :: re)).2)

/-- The optional leading `'^'`, then the items. -/
def parse : List UInt8 → Pattern
  | [] => ⟨false, [], false⟩
  | c :: re =>
      if c = caret then ⟨true, (parseItems re).1, (parseItems re).2⟩
      else ⟨false, (parseItems (c :: re)).1, (parseItems (c :: re)).2⟩

/-- The text has a substring in the language of the items: a prefix if the pattern is anchored at the beginning, one
    that reaches the end if it is anchored at the end. -/
def Pattern.Matches (p : Pattern) (text : List UInt8) : Prop :=
  ∃ before word after, text = before ++ word ++ after ∧ word ∈ Wildcard.lang p.items ∧
    (p.anchored = true → before = []) ∧ (p.atEnd = true → after = [])

open Wildcard (Here)

variable {re text : List UInt8} {c : UInt8}

theorem matchstar_iff {here : List UInt8 → Bool} :
    matchstar here c text = true ↔ ∃ u v, text = u ++ v ∧ (∀ t ∈ u, cls c t = true) ∧ here v = true := by
  induction text with
  | nil =>
      refine ⟨fun h => ⟨[], [], rfl, nofun, h⟩, ?_⟩
      rintro ⟨u, v, huv, -, hv⟩
      obtain ⟨rfl, rfl⟩ := List.append_eq_nil_iff.mp huv.symm
      exact hv
  | cons t text ih =>
      have hcls : (t == c || c == dot) = cls c t := by
        rw [cls, Bool.or_comm, BEq.comm (a := t)]
      rw [matchstar, Bool.or_eq_true, Bool.and_eq_true, hcls, ih]
      constructor
      · rintro (h | ⟨ht, u, v, rfl, hu, hv⟩)
        · exact ⟨[], t :: text, rfl, nofun, h⟩
        · exact ⟨t :: u, v, rfl, List.forall_mem_cons.mpr ⟨ht, hu⟩, hv⟩
      · rintro ⟨u, v, huv, hu, hv⟩
        -- no repetition is the test before the first step of the loop, and one more is a step of it
        cases u with
        | nil => exact .inl (huv ▸ hv)
        | cons s u =>
            obtain ⟨rfl, rfl⟩ := List.cons.inj huv
            obtain ⟨ht, hu⟩ := List.forall_mem_cons.mp hu
            exact .inr ⟨ht, u, v, rfl, hu, hv⟩

theorem matchchar_iff {here : List UInt8 → Bool} {items : List (Wildcard.Item UInt8)} {atEnd : Bool}
    (hhere : ∀ text, here text = true ↔ Here items atEnd text) :
    matchchar here c text = true ↔ Here (⟨cls c, false⟩ :: items) atEnd text := by
  cases text with
  | nil => exact ⟨nofun, fun h => absurd h Wildcard.here_plain_nil⟩
  | cons t text => rw [Wildcard.here_plain_cons, matchchar, Bool.and_eq_true, hhere, cls]

/-- `matchhere` looks for a word of the items at the beginning of the text. -/
theorem matchhere_iff (re text : List UInt8) :
    matchhere re text = true ↔ Here (parseItems re).1 (parseItems re).2 text := by
  induction re using matchhere.induct generalizing text with
  | case1 => exact ⟨fun _ => Wildcard.here_nil, fun _ => rfl⟩
  | case2 c ih =>
      rw [matchhere, parseItems]
      by_cases hc : c = dollar
      · simp only [if_pos hc, List.isEmpty_iff]
        exact Wildcard.here_nil_atEnd.symm
      · simp only [if_neg hc]
        exact matchchar_iff ih
  | case3 c r re ihstar ih =>
      rw [matchhere, parseItems]
      by_cases hr : r = star
      · simp only [if_pos hr, matchstar_iff, Wildcard.here_starred, ihstar]
      · simp only [if_neg hr]
        exact matchchar_iff ih

theorem matchAnywhere_iff (re text : List UInt8) :
    matchAnywhere re text = true ↔ ∃ before rest, text = before ++ rest ∧ matchhere re rest = true := by
  induction text with
  | nil =>
      refine ⟨fun h => ⟨[], [], rfl, h⟩, ?_⟩
      rintro ⟨before, rest, heq, h⟩
      obtain ⟨-, rfl⟩ := List.append_eq_nil_iff.mp heq.symm
      exact h
  | cons t text ih =>
      rw [matchAnywhere, Bool.or_eq_true, ih]
      constructor
      · rintro (h | ⟨before, rest, rfl, h⟩)
        · exact ⟨[], t :: text, rfl, h⟩
        · exact ⟨t :: before, rest, rfl, h⟩
      · rintro ⟨before, rest, heq, h⟩
        cases before with
        | nil => exact .inl (heq ▸ h)
        | cons s before =>
            obtain ⟨rfl, rfl⟩ := List.cons.inj heq
            exact .inr ⟨before, rest, rfl, h⟩

theorem matches_anchored {items : List (Wildcard.Item UInt8)} {atEnd : Bool} :
    Pattern.Matches ⟨true, items, atEnd⟩ text ↔ Here items atEnd text := by
  constructor
  · rintro ⟨before, word, after, rfl, hword, hbefore, hafter⟩
    rw [hbefore rfl, List.nil_append]
    exact ⟨word, after, rfl, hword, hafter⟩
  · rintro ⟨word, after, rfl, hword, hafter⟩
    exact ⟨[], word, after, rfl, hword, fun _ => rfl, hafter⟩

theorem matches_anywhere {items : List (Wildcard.Item UInt8)} {atEnd : Bool} :
    Pattern.Matches ⟨false, items, atEnd⟩ text ↔ ∃ before rest, text = before ++ rest ∧ Here items atEnd rest := by
  constructor
  · rintro ⟨before, word, after, rfl, hword, -, hafter⟩
    exact ⟨before, word ++ after, List.append_assoc _ _ _, word, after, rfl, hword, hafter⟩
  · rintro ⟨before, rest, rfl, word, after, rfl, hword, hafter⟩
    exact ⟨before, word, after, (List.append_assoc _ _ _).symm, hword, nofun, hafter⟩

/-- **The matcher is exact.** -/
theorem match_exact (re text : List UInt8) : matchRe re text = true ↔ (parse re).Matches text := by
  cases re with
  | nil =>
      rw [matchRe, parse, matches_anywhere, matchAnywhere_iff]
      simp only [matchhere_iff]
      rfl
  | cons c re =>
      rw [matchRe, parse]
      by_cases hc : c = caret
      · rw [if_pos hc, if_pos hc, matches_anchored, matchhere_iff]
      · rw [if_neg hc, if_neg hc, matches_anywhere, matchAnywhere_iff]
        simp only [matchhere_iff]

/-! ## The reader -/

/-- The string at a pointer: the bytes before the NUL. -/
def cstr (s : List UInt8) : List UInt8 := s.takeWhile (· ≠ 0)

/-- `strchr(s, c)`: how far the first `c` before the NUL is away. -/
def strchr (c : UInt8) : List UInt8 → Option Nat
  | [] => none
  | b :: s => if b = 0 then none else if b = c then some 0 else (strchr c s).map (· + 1)

/-- `memmove` of the bytes `bs` to position `o` of the buffer. -/
def overwrite (buf : List UInt8) (o : Nat) (bs : List UInt8) : List UInt8 :=
  buf.take o ++ bs ++ buf.drop (o + bs.length)

theorem strchr_lt {c : UInt8} {s : List UInt8} {k : Nat} (h : strchr c s = some k) : k < s.length := by
  induction s generalizing k with
  | nil => exact absurd h nofun
  | cons b s ih =>
      rw [strchr] at h
      split_ifs at h with h0 hc
      · obtain rfl := Option.some.inj h
        exact Nat.succ_pos _
      · obtain ⟨j, hj, rfl⟩ := Option.map_eq_some_iff.mp h
        exact Nat.succ_lt_succ (ih hj)

/-- The inner loop of `grep`, from `p` on: the buffer, the position and what has been written when it ends. -/
def printLines (re buf : List UInt8) (p : Nat) (out : List UInt8) : List UInt8 × Nat × List UInt8 :=
  match hk : strchr newline (buf.drop p) with
  | none => (buf, p, out)
  | some k =>
      let q := p + k
      -- `*q = 0` cuts the line off, and a line that is written gets its newline back
      let cut := buf.set q 0
      if matchRe re (cstr (cut.drop p)) then
        let line := cut.set q newline
        printLines re line (q + 1) (out ++ (line.drop p).take (q + 1 - p))
      else printLines re cut (q + 1) out
termination_by buf.length - p
decreasing_by
  all_goals
    have := strchr_lt hk
    simp only [List.length_drop, List.length_set] at this ⊢
    omega

theorem printLines_end {re buf out : List UInt8} {p : Nat} (h : strchr newline (buf.drop p) = none) :
    printLines re buf p out = (buf, p, out) := by
  rw [printLines]
  split
  next => rfl
  next k hk => exact absurd (h.symm.trans hk) nofun

theorem printLines_line {re buf out : List UInt8} {p k : Nat} (h : strchr newline (buf.drop p) = some k) :
    printLines re buf p out =
      if matchRe re (cstr ((buf.set (p + k) 0).drop p)) then
        printLines re ((buf.set (p + k) 0).set (p + k) newline) (p + k + 1)
          (out ++ (((buf.set (p + k) 0).set (p + k) newline).drop p).take (p + k + 1 - p))
      else printLines re (buf.set (p + k) 0) (p + k + 1) out := by
  rw [printLines]
  split
  next hk => exact absurd (h.symm.trans hk) nofun
  next j hj =>
    obtain rfl := Option.some.inj (h.symm.trans hj)
    rfl

/-- `read(fd, _, k)` at the rest of the input: at most `k` bytes, and at least one if there is one and `k` is not 0.
    `want` is how many the call would like to give. -/
def read (want k : Nat) (rest : List UInt8) : List UInt8 := rest.take (min k (max 1 want))

theorem read_eq_nil {want k : Nat} {rest : List UInt8} : read want k rest = [] ↔ k = 0 ∨ rest = [] := by
  have hmin : min k (max 1 want) = 0 ↔ k = 0 := by omega
  rw [read, List.take_eq_nil_iff, hmin]

/-- `sizeof(buf)` -/
def BUFSIZE : Nat := 1024

/-- The outer loop of `grep`: `m` bytes of the buffer are in use, `rest` has not been read, `out` has been written.
    Read number `t` asks for what `want t` says. -/
def grepLoop (re : List UInt8) (want : Nat → Nat) (t : Nat) (buf : List UInt8) (m : Nat) (rest out : List UInt8) :
    List UInt8 :=
  let chunk := read (want t) (BUFSIZE - m - 1) rest
  if _hchunk : chunk = [] then out
  else
    let m₁ := m + chunk.length
    let (buf₁, p, out) := printLines re ((overwrite buf m chunk).set m₁ 0) 0 out
    if 0 < m₁ then
      grepLoop re want (t + 1) (overwrite buf₁ 0 ((buf₁.drop p).take (m₁ - p))) (m₁ - p) (rest.drop chunk.length) out
    else grepLoop re want (t + 1) buf₁ m₁ (rest.drop chunk.length) out
termination_by rest.length
decreasing_by
  all_goals
    have hlen : 0 < (read (want t) (BUFSIZE - m - 1) rest).length := List.length_pos_of_ne_nil _hchunk
    have hrest : rest ≠ [] := fun h => _hchunk (read_eq_nil.mpr (.inr h))
    have := List.length_pos_of_ne_nil hrest
    rw [List.length_drop]
    omega

/-- `grep(pattern, fd)`; `buf` is what the static buffer holds when it is called. -/
def grep (re : List UInt8) (want : Nat → Nat) (buf : List UInt8) (input : List UInt8) : List UInt8 :=
  grepLoop re want 0 buf 0 input []

/-! ## What is written -/

/-- The lines for which `match` returns 1, each with its newline. -/
def shown (re : List UInt8) (lines : List (List UInt8)) : List UInt8 :=
  (lines.filter (matchRe re)).flatMap (· ++ [newline])

/-- The line and its newline fit in the buffer. -/
def fits (line : List UInt8) : Bool := line.length + 1 < BUFSIZE

open Lines (terminated rest)

theorem shown_append (re : List UInt8) (ls ms : List (List UInt8)) : shown re (ls ++ ms) = shown re ls ++ shown re ms := by
  rw [shown, List.filter_append, List.flatMap_append, shown, shown]

theorem shown_eq_nil {ls : List (List UInt8)} : shown re ls = [] ↔ ∀ l ∈ ls, matchRe re l = false := by
  rw [shown, List.flatMap_eq_nil_iff]
  simp only [List.mem_filter, List.append_eq_nil_iff, List.cons_ne_nil, and_false, imp_false, not_and, Bool.not_eq_true]

theorem strchr_none {c : UInt8} {s : List UInt8} (junk : List UInt8) (hc : c ∉ s) : strchr c (s ++ 0 :: junk) = none := by
  induction s with
  | nil => exact if_pos rfl
  | cons b s ih =>
      rw [List.mem_cons, not_or] at hc
      rw [List.cons_append, strchr, ih hc.2, if_neg (Ne.symm hc.1)]
      exact ite_self none

theorem strchr_some {c : UInt8} {s : List UInt8} (t : List UInt8) (h0 : (0 : UInt8) ∉ s ++ [c]) (hc : c ∉ s) :
    strchr c (s ++ c :: t) = some s.length := by
  induction s with
  | nil =>
      have hc0 : c ≠ 0 := fun heq => h0 (heq ▸ List.mem_singleton_self c)
      rw [List.nil_append, strchr, if_neg hc0, if_pos rfl, List.length_nil]
  | cons b s ih =>
      rw [List.mem_cons, not_or] at hc
      rw [List.cons_append, List.mem_cons, not_or] at h0
      rw [List.cons_append, strchr, if_neg (Ne.symm h0.1), if_neg (Ne.symm hc.1), ih h0.2 hc.2]
      rfl

theorem cstr_append {s : List UInt8} (junk : List UInt8) (h0 : (0 : UInt8) ∉ s) : cstr (s ++ 0 :: junk) = s := by
  have hs : ∀ b ∈ s, decide (b ≠ 0) = true := by
    intro b hb
    refine decide_eq_true fun heq => h0 ?_
    rwa [← heq]
  rw [cstr, List.takeWhile_append_of_pos hs, List.takeWhile_cons_of_neg (by simp), List.append_nil]

/-- Overwriting the byte behind `l`, seen from the beginning of `l` and from behind that byte. -/
theorem drop_set_behind {buf l t : List UInt8} {p : Nat} {b : UInt8} (c : UInt8) (hbuf : buf.drop p = l ++ b :: t) :
    (buf.set (p + l.length) c).drop p = l ++ c :: t ∧ (buf.set (p + l.length) c).drop (p + l.length + 1) = t := by
  constructor
  · rw [List.drop_set, if_neg (by omega), hbuf, Nat.add_sub_cancel_left, List.set_append_right _ _ le_rfl, Nat.sub_self,
      List.set_cons_zero]
  · rw [List.drop_set, if_pos (by omega), show p + l.length + 1 = p + (l.length + 1) by omega, ← List.drop_drop, hbuf,
      ← List.drop_drop, List.drop_left, List.drop_one, List.tail_cons]

/-- The inner loop writes the matching lines of the bytes before the NUL and stops behind the last of them. -/
theorem printLines_eq (re data junk : List UInt8) (h0 : (0 : UInt8) ∉ data) :
    ∀ (buf : List UInt8) (p : Nat) (out : List UInt8), buf.drop p = data ++ 0 :: junk →
      ∃ buf' p', printLines re buf p out = (buf', p', out ++ shown re (terminated newline data)) ∧
        buf'.length = buf.length ∧ p' + (rest newline data).length = p + data.length ∧
          buf'.drop p' = rest newline data ++ 0 :: junk := by
  induction data using Lines.induction_lines newline with
  | hnone data hno =>
      intro buf p out hbuf
      refine ⟨buf, p, ?_, rfl, ?_, ?_⟩
      · rw [printLines_end (hbuf ▸ strchr_none junk hno), Lines.terminated_of_notMem hno]
        simp [shown]
      · rw [Lines.rest_of_notMem hno]
      · rw [Lines.rest_of_notMem hno, hbuf]
  | hline l data hl ih =>
      intro buf p out hbuf
      rw [List.append_assoc, List.cons_append] at hbuf
      have hmem : (0 : UInt8) ∉ l ∧ (0 : UInt8) ≠ newline ∧ (0 : UInt8) ∉ data := by
        rw [List.mem_append, List.mem_cons, not_or, not_or] at h0
        exact h0
      have hl0 : (0 : UInt8) ∉ l ++ [newline] := by
        rw [List.mem_append, List.mem_singleton, not_or]
        exact ⟨hmem.1, hmem.2.1⟩
      obtain ⟨hcut, hcut'⟩ := drop_set_behind 0 hbuf
      obtain ⟨hline, hline'⟩ := drop_set_behind newline hcut
      have hlen : p + l.length + 1 + data.length = p + (l ++ newline :: data).length := by
        rw [List.length_append, List.length_cons]
        omega
      rw [printLines_line (hbuf ▸ strchr_some _ hl0 hl), Lines.terminated_first hl, Lines.rest_first hl, hcut,
        cstr_append _ hmem.1]
      by_cases hm : matchRe re l = true
      · rw [if_pos hm]
        obtain ⟨buf', p', hrun, hsize, hp', hdrop⟩ := ih hmem.2.2 _ _
            (out ++ (((buf.set (p + l.length) 0).set (p + l.length) newline).drop p).take (p + l.length + 1 - p)) hline'
        refine ⟨buf', p', ?_, by rw [hsize, List.length_set, List.length_set], by rw [hp', hlen], hdrop⟩
        have htake : (l ++ newline :: (data ++ 0 :: junk)).take (p + l.length + 1 - p) = l ++ [newline] := by
          rw [show p + l.length + 1 - p = l.length + 1 by omega, List.take_length_add_append, List.take_succ_cons,
            List.take_zero]
        rw [hrun, hline, htake, shown, shown, List.filter_cons_of_pos hm, List.flatMap_cons, List.append_assoc]
      · rw [if_neg hm]
        obtain ⟨buf', p', hrun, hsize, hp', hdrop⟩ := ih hmem.2.2 _ _ out hcut'
        refine ⟨buf', p', ?_, by rw [hsize, List.length_set], by rw [hp', hlen], hdrop⟩
        rw [hrun, shown, shown, List.filter_cons_of_neg hm]

/-- What a read gives and what it leaves. -/
theorem read_append (want k : Nat) (input : List UInt8) :
    read want k input ++ input.drop (read want k input).length = input :=
  List.prefix_iff_eq_append.mp (List.take_prefix _ _)

theorem length_read_le (want k : Nat) (input : List UInt8) : (read want k input).length ≤ k := by
  rw [read, List.length_take]
  omega

/-- The buffer after a read: the bytes carried over, the chunk and the NUL. -/
theorem overwrite_set_nul {buf carry chunk : List UInt8} {m : Nat} (hbuf : buf.length = BUFSIZE)
    (hcarry : buf.take m = carry) (hm : carry.length = m) (hlt : m + chunk.length < BUFSIZE) :
    ∃ junk, (overwrite buf m chunk).set (m + chunk.length) 0 = carry ++ chunk ++ 0 :: junk ∧
      (carry ++ chunk ++ 0 :: junk).length = BUFSIZE := by
  obtain ⟨b, junk, hdrop⟩ : ∃ b junk, buf.drop (m + chunk.length) = b :: junk := by
    refine List.exists_cons_of_length_pos ?_
    rw [List.length_drop, hbuf]
    omega
  have hlen : m + chunk.length = (carry ++ chunk).length := by rw [List.length_append, hm]
  refine ⟨junk, ?_, ?_⟩
  · rw [overwrite, hcarry, hdrop, hlen, List.set_append_right _ _ le_rfl, Nat.sub_self, List.set_cons_zero]
  · have hsize := congrArg List.length hdrop
    rw [List.length_drop, hbuf, List.length_cons] at hsize
    rw [List.length_append, ← hlen, List.length_cons, ← hsize]
    omega

/-- A line that fills the buffer is not seen to its end, so nothing is written from it on. -/
theorem takeWhile_fits_of_full {carry : List UInt8} (input : List UInt8) (hcarry : newline ∉ carry)
    (hfull : BUFSIZE - carry.length - 1 = 0) : (terminated newline (carry ++ input)).takeWhile fits = [] := by
  rcases Lines.first_or_notMem newline input with hno | ⟨l, t, rfl, hl⟩
  · have : newline ∉ carry ++ input := by
      rw [List.mem_append, not_or]
      exact ⟨hcarry, hno⟩
    rw [Lines.terminated_of_notMem this, List.takeWhile_nil]
  · have : newline ∉ carry ++ l := by
      rw [List.mem_append, not_or]
      exact ⟨hcarry, hl⟩
    rw [← List.append_assoc, Lines.terminated_first this, List.takeWhile_cons_of_neg]
    rw [fits, decide_eq_true_iff, List.length_append]
    omega

/-- The lines of what is in the buffer all fit. -/
theorem takeWhile_fits_append {data : List UInt8} (ls : List (List UInt8)) (hdata : data.length < BUFSIZE) :
    (terminated newline data ++ ls).takeWhile fits = terminated newline data ++ ls.takeWhile fits := by
  refine List.takeWhile_append_of_pos fun l hl => decide_eq_true ?_
  have := Lines.length_lt_of_mem_terminated hl
  omega

theorem grepLoop_turn {buf buf' chunk input out out' : List UInt8} {want : Nat → Nat} {t m p : Nat}
    (hchunk : read (want t) (BUFSIZE - m - 1) input = chunk) (hnil : chunk ≠ [])
    (hrun : printLines re ((overwrite buf m chunk).set (m + chunk.length) 0) 0 out = (buf', p, out')) :
    grepLoop re want t buf m input out =
      grepLoop re want (t + 1) (overwrite buf' 0 ((buf'.drop p).take (m + chunk.length - p))) (m + chunk.length - p)
        (input.drop chunk.length) out' := by
  have hpos : 0 < m + chunk.length := Nat.add_pos_right m (List.length_pos_of_ne_nil hnil)
  rw [grepLoop, hchunk, dif_neg hnil]
  simp only [hrun, if_pos hpos]

/-- The outer loop: from a buffer that holds an open line `carry`, the matching lines of `carry ++ input` up to the
    first one that does not fit are written, however the reads cut the input. -/
theorem grepLoop_eq (re : List UInt8) (want : Nat → Nat) (input : List UInt8) :
    ∀ (t : Nat) (buf : List UInt8) (m : Nat) (out carry : List UInt8), buf.length = BUFSIZE → buf.take m = carry →
      carry.length = m → m < BUFSIZE → newline ∉ carry → (0 : UInt8) ∉ carry ++ input →
        grepLoop re want t buf m input out = out ++ shown re ((terminated newline (carry ++ input)).takeWhile fits) := by
  induction hn : input.length using Nat.strong_induction_on generalizing input with
  | _ n ih =>
      intro t buf m out carry hbuf hcarry hm hlt hnl h0
      obtain ⟨chunk, hchunk⟩ : ∃ chunk, chunk = read (want t) (BUFSIZE - m - 1) input := ⟨_, rfl⟩
      have hinput : chunk ++ input.drop chunk.length = input := hchunk ▸ read_append _ _ _
      by_cases hnil : chunk = []
      · -- the input has ended, or the buffer is full
        rw [grepLoop, ← hchunk, dif_pos hnil]
        have hnone : (terminated newline (carry ++ input)).takeWhile fits = [] := by
          rcases read_eq_nil.mp (hchunk.symm.trans hnil) with hfull | rfl
          · exact takeWhile_fits_of_full input hnl (hm ▸ hfull)
          · rw [List.append_nil, Lines.terminated_of_notMem hnl, List.takeWhile_nil]
        rw [hnone, shown]
        simp
      · have hpos : 0 < chunk.length := List.length_pos_of_ne_nil hnil
        have hlt₁ : m + chunk.length < BUFSIZE := by
          have := length_read_le (want t) (BUFSIZE - m - 1) input
          rw [← hchunk] at this
          omega
        obtain ⟨junk, hset, hsize⟩ := overwrite_set_nul hbuf hcarry hm hlt₁
        have h0' : (0 : UInt8) ∉ carry ++ chunk := by
          rw [← hinput, ← List.append_assoc, List.mem_append, not_or] at h0
          exact h0.1
        obtain ⟨buf', p', hrun, hbuf', hp', hdrop⟩ := printLines_eq re (carry ++ chunk) junk h0' _ 0 out (List.drop_zero)
        rw [List.length_append, hm, Nat.zero_add] at hp'
        have hopen : m + chunk.length - p' = (rest newline (carry ++ chunk)).length := by omega
        have hmove : (buf'.drop p').take (m + chunk.length - p') = rest newline (carry ++ chunk) := by
          rw [hdrop, hopen, List.take_left]
        rw [grepLoop_turn hchunk.symm hnil (hset ▸ hrun), hmove, hopen,
          ih _ ?_ _ rfl _ _ _ _ (rest newline (carry ++ chunk)) ?_ ?_ rfl ?_ (Lines.sep_notMem_rest _ _) ?_]
        · rw [List.append_assoc, ← shown_append, ← takeWhile_fits_append, ← Lines.terminated_append, List.append_assoc, hinput]
          rw [List.length_append, hm]
          exact hlt₁
        · have := congrArg List.length hinput
          rw [List.length_append] at this
          omega
        · rw [overwrite, List.take_zero, List.nil_append, List.length_append, List.length_drop, hbuf', hsize]
          omega
        · rw [overwrite, List.take_zero, List.nil_append, List.take_left]
        · omega
        · rw [← hinput, ← List.append_assoc, List.mem_append, not_or] at h0
          rw [List.mem_append, not_or]
          exact ⟨fun hmem => h0.1 ((Lines.rest_suffix _ _).subset hmem), h0.2⟩

/-- **What `grep` writes**: the matching lines among those before the first line that does not fit. -/
theorem grep_eq (re : List UInt8) (want : Nat → Nat) {buf input : List UInt8} (hbuf : buf.length = BUFSIZE)
    (h0 : (0 : UInt8) ∉ input) :
    grep re want buf input = shown re ((terminated newline input).takeWhile fits) :=
  grepLoop_eq re want input 0 buf 0 [] [] hbuf rfl rfl (by decide) List.not_mem_nil h0

/-- **`grep` writes exactly the matching lines** if and only if no line from the first one that does not fit on
    matches; what it writes never depends on how the reads cut the input. -/
theorem grep_writes_matching_lines (re : List UInt8) (want : Nat → Nat) {buf input : List UInt8}
    (hbuf : buf.length = BUFSIZE) (h0 : (0 : UInt8) ∉ input) :
    (grep re want buf input = shown re (terminated newline input) ↔
      ∀ l ∈ (terminated newline input).dropWhile fits, matchRe re l = false) ∧
      ∀ want', grep re want' buf input = grep re want buf input := by
  refine ⟨?_, fun want' => by rw [grep_eq re want' hbuf h0, grep_eq re want hbuf h0]⟩
  rw [grep_eq re want hbuf h0, ← shown_eq_nil]
  conv_lhs => rhs; rw [← List.takeWhile_append_dropWhile (p := fits) (l := terminated newline input), shown_append]
  exact ⟨fun h => List.append_cancel_left (h.symm.trans (List.append_nil _).symm), fun h => by rw [h, List.append_nil]⟩

/-- A line that fits is written. -/
theorem grep_writes_a_line :
    grep [97] (fun _ => 2) (List.replicate 1024 0) [97, 10] = shown [97] (terminated newline [97, 10]) :=
  ((grep_writes_matching_lines [97] (fun _ => 2) (List.length_replicate) (by decide)).1).mpr (by decide)

/-- A line of 1023 characters is not written, though it matches. -/
theorem grep_drops_a_long_line :
    grep [97] (fun _ => 1024) (List.replicate 1024 0) (List.replicate 1023 97 ++ [10]) = [] ∧
      shown [97] (terminated newline (List.replicate 1023 97 ++ [10])) = List.replicate 1023 97 ++ [10] := by
  have hline : terminated newline (List.replicate 1023 97 ++ [10]) = [List.replicate 1023 97] :=
    Lines.terminated_first (fun hmem => absurd (List.eq_of_mem_replicate hmem) (by decide)) []
  have hmatch : matchRe [97] (List.replicate 1023 97) = true := rfl
  constructor
  · have h0 : (0 : UInt8) ∉ List.replicate 1023 97 ++ [10] := by
      rw [List.mem_append, List.mem_replicate, List.mem_singleton]
      decide
    have hbuf : (List.replicate 1024 (0 : UInt8)).length = BUFSIZE := List.length_replicate
    rw [grep_eq _ _ hbuf h0, hline, List.takeWhile_cons_of_neg]
    · rfl
    · rw [fits, List.length_replicate]
      decide
  · rw [hline, shown, List.filter_cons_of_pos hmatch, List.filter_nil, List.flatMap_cons, List.flatMap_nil, List.append_nil]
    rfl

end Xv6.User
