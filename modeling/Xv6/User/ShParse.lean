import Xv6.User.ShGrammar

/-!
# `User.ShParse` — the parser of `sh.c` reads the grammar

`tokens` cuts a line into words, symbols and `>>`. `At text ps ts` says that `ts` are the tokens of the line from the
position `ps` on; `peek` and `gettoken` act on them as one expects, and so the parser on characters and the parser on
tokens do the same, with a word of the one for a span of the other.

A span ends where no word goes on, so that `nulterminate`, which writes only at ends of spans, cannot write into one.

**`parsecmd_exact`**: `parsecmd` returns a tree exactly for the lines of the grammar, and it is the tree of the
derivation, its words read as C strings; every other line ends in a panic.
-/

namespace Xv6.Sh

open Lockstep Outcome

/-! ## The tokens of a line -/

/-- The symbol of one character. -/
def symbol (c : UInt8) : Option Token :=
  if c = '<'.toUInt8 then some .less
  else if c = '|'.toUInt8 then some .bar
  else if c = '>'.toUInt8 then some .greater
  else if c = '&'.toUInt8 then some .amp
  else if c = ';'.toUInt8 then some .semi
  else if c = '('.toUInt8 then some .lparen
  else if c = ')'.toUInt8 then some .rparen
  else none

theorem length_dropWhile_le (p : UInt8 → Bool) (cs : List UInt8) : (cs.dropWhile p).length ≤ cs.length :=
  (List.dropWhile_suffix p).length_le

/-- Maximal words, the symbols, and `>>`. -/
def tokens : List UInt8 → List Token
  | [] => []
  | c :: cs =>
      if isSpace c then tokens cs
      else
        match symbol c with
        | some tok =>
            if c = '>'.toUInt8 ∧ cs.head? = some '>'.toUInt8 then .append :: tokens cs.tail
            else tok :: tokens cs
        | none => .word (c :: cs.takeWhile isWord) :: tokens (cs.dropWhile isWord)
termination_by cs => cs.length
decreasing_by
  all_goals simp only [List.length_cons, List.length_tail]
  · omega
  · omega
  · omega
  · have := length_dropWhile_le isWord cs
    omega

theorem tokens_nil : tokens [] = [] := by rw [tokens]

theorem tokens_space {c : UInt8} {cs : List UInt8} (h : isSpace c = true) : tokens (c :: cs) = tokens cs := by
  rw [tokens, if_pos h]

theorem tokens_dropWhile_space (cs : List UInt8) : tokens (cs.dropWhile isSpace) = tokens cs := by
  induction cs with
  | nil => rfl
  | cons c cs ih =>
      rw [List.dropWhile_cons]
      split
      · rename_i hc
        rw [ih, tokens_space hc]
      · rfl

/-- What `gettoken` returns for a token. -/
def Token.code : Token → UInt8
  | .word _ => 'a'.toUInt8
  | .less => '<'.toUInt8
  | .greater => '>'.toUInt8
  | .append => '+'.toUInt8
  | .bar => '|'.toUInt8
  | .amp => '&'.toUInt8
  | .semi => ';'.toUInt8
  | .lparen => '('.toUInt8
  | .rparen => ')'.toUInt8

/-- The first character of a symbol. -/
def Token.char : Token → Option UInt8
  | .word _ => none
  | .append => some '>'.toUInt8
  | tok => some tok.code

theorem symbol_eq_none {c : UInt8} : symbol c = none ↔ strchr symbols c = false := by
  unfold symbol strchr symbols chars
  simp only [List.map_cons, List.map_nil, List.contains_eq_mem, List.mem_cons, List.not_mem_nil, or_false,
    decide_eq_false_iff_not, not_or]
  constructor
  · intro h
    split_ifs at h with h1 h2 h3 h4 h5 h6 h7
    exact ⟨h1, h2, h3, h4, h5, h6, h7⟩
  · rintro ⟨h1, h2, h3, h4, h5, h6, h7⟩
    rw [if_neg h1, if_neg h2, if_neg h3, if_neg h4, if_neg h5, if_neg h6, if_neg h7]

theorem symbol_char {c : UInt8} {tok : Token} (h : symbol c = some tok) : tok.char = some c := by
  unfold symbol at h
  split_ifs at h with h1 h2 h3 h4 h5 h6 h7 <;> cases h <;> subst c <;> rfl

/-- The symbols of one character only, as `gettoken` knows them. -/
theorem symbol_code {c : UInt8} {tok : Token} (h : symbol c = some tok) :
    tok.code = c ∧ strchr (chars ['|', '(', ')', ';', '&', '<']) c = decide (c ≠ '>'.toUInt8) := by
  unfold symbol at h
  split_ifs at h with h1 h2 h3 h4 h5 h6 h7 <;> cases h <;> subst c <;> decide

theorem not_symbol {c : UInt8} (h : symbol c = none) :
    strchr (chars ['|', '(', ')', ';', '&', '<']) c = false ∧ c ≠ '>'.toUInt8 := by
  unfold symbol at h
  split_ifs at h with h1 h2 h3 h4 h5 h6 h7
  unfold strchr chars
  simp only [List.map_cons, List.map_nil, List.contains_eq_mem, List.mem_cons, List.not_mem_nil, or_false,
    decide_eq_false_iff_not, not_or]
  exact ⟨⟨h2, h6, h7, h5, h4, h1⟩, h3⟩

theorem isWord_of_not {c : UInt8} (hspace : ¬isSpace c = true) (hsym : symbol c = none) : isWord c = true := by
  rw [Bool.not_eq_true] at hspace
  rw [isWord, symbol_eq_none.mp hsym, show strchr whitespace c = false from hspace]
  rfl

theorem tokens_append {cs : List UInt8} : tokens ('>'.toUInt8 :: '>'.toUInt8 :: cs) = .append :: tokens cs := by
  rw [tokens]
  rfl

theorem tokens_symbol {c : UInt8} {cs : List UInt8} {tok : Token} (hspace : ¬isSpace c = true) (h : symbol c = some tok)
    (hnot : ¬(c = '>'.toUInt8 ∧ cs.head? = some '>'.toUInt8)) : tokens (c :: cs) = tok :: tokens cs := by
  rw [tokens, if_neg hspace, h]
  exact if_neg hnot

theorem tokens_word {c : UInt8} {cs : List UInt8} (hspace : ¬isSpace c = true) (h : symbol c = none) :
    tokens (c :: cs) = .word ((c :: cs).takeWhile isWord) :: tokens ((c :: cs).dropWhile isWord) := by
  have hword := isWord_of_not hspace h
  rw [tokens, if_neg hspace, h, List.takeWhile_cons, if_pos hword, List.dropWhile_cons, if_pos hword]

/-! ## Reading characters -/

variable {mem : Nat → UInt8} {text : List UInt8} {ps s : Nat} {ts us : List Token} {tok : Token}

/-- The line is the C string at position 0. -/
structure Holds (mem : Nat → UInt8) (text : List UInt8) : Prop where
  char : ∀ i, (h : i < text.length) → mem i = text[i]
  nul : mem text.length = 0
  noNul : (0 : UInt8) ∉ text

theorem Holds.drop_cons {c : UInt8} {cs : List UInt8} (h : Holds mem text) (hs : text.drop s = c :: cs) :
    s < text.length ∧ mem s = c ∧ c ≠ 0 ∧ text.drop (s + 1) = cs := by
  have hlt : s < text.length := by
    by_contra hge
    rw [List.drop_eq_nil_of_le (by omega)] at hs
    cases hs
  rw [List.drop_eq_getElem_cons hlt] at hs
  injection hs with hc hcs
  refine ⟨hlt, (h.char s hlt).trans hc, fun h0 => ?_, hcs⟩
  exact h.noNul (h0 ▸ hc ▸ List.getElem_mem hlt)

theorem skipLoop_eq (h : Holds mem text) (p : UInt8 → Bool) (n : Nat) (hn : s + n = text.length) :
    skipLoop mem text.length p n s = s + ((text.drop s).takeWhile p).length := by
  induction n generalizing s with
  | zero =>
      rw [List.drop_eq_nil_of_le (by omega)]
      rfl
  | succ n ih =>
      have hlt : s < text.length := by omega
      have hdrop := List.drop_eq_getElem_cons hlt
      rw [skipLoop, h.char s hlt, hdrop, List.takeWhile_cons]
      by_cases hp : p text[s] = true
      · rw [if_pos ⟨hlt, hp⟩, if_pos hp, ih (by omega), List.length_cons]
        omega
      · rw [if_neg fun hc => hp hc.2, if_neg hp]
        rfl

/-- **A loop over characters** stops behind the longest run of them. -/
theorem skip_spec (h : Holds mem text) (p : UInt8 → Bool) (hs : s ≤ text.length) :
    skip mem text.length p s = s + ((text.drop s).takeWhile p).length ∧ skip mem text.length p s ≤ text.length ∧
      text.drop (skip mem text.length p s) = (text.drop s).dropWhile p := by
  have heq : skip mem text.length p s = s + ((text.drop s).takeWhile p).length := skipLoop_eq h p _ (by omega)
  have hlen : ((text.drop s).takeWhile p).length ≤ (text.drop s).length := (List.takeWhile_prefix p).length_le
  rw [List.length_drop] at hlen
  refine ⟨heq, by omega, ?_⟩
  have hcut : (text.drop s).takeWhile p ++ (text.drop s).dropWhile p = text.drop s := List.takeWhile_append_dropWhile
  rw [heq, ← List.drop_drop]
  calc (text.drop s).drop ((text.drop s).takeWhile p).length
      = ((text.drop s).takeWhile p ++ (text.drop s).dropWhile p).drop ((text.drop s).takeWhile p).length := by rw [hcut]
    _ = (text.drop s).dropWhile p := List.drop_left

/-- The tokens of the line from the position `ps` on. -/
structure At (text : List UInt8) (ps : Nat) (ts : List Token) : Prop where
  le : ps ≤ text.length
  tokens : tokens (text.drop ps) = ts

/-- The word `w` stands from `q` to `eq`, and does not go on there. -/
structure Span (text : List UInt8) (q eq : Nat) (w : Text) : Prop where
  le : eq ≤ text.length
  len : eq = q + w.length
  split : text.drop q = w ++ text.drop eq
  word : ∀ c ∈ w, isWord c = true
  stop : ∀ c ∈ (text.drop eq).head?, isWord c = false

/-- Spaces before a token do not matter. -/
theorem At.skip (h : Holds mem text) (hat : At text ps ts) :
    At text (skip mem text.length isSpace ps) ts ∧ ∀ c ∈ (text.drop (skip mem text.length isSpace ps)).head?, isSpace c = false := by
  obtain ⟨-, hle, hdrop⟩ := skip_spec h isSpace hat.le
  refine ⟨⟨hle, ?_⟩, ?_⟩
  · rw [hdrop, tokens_dropWhile_space]
    exact hat.tokens
  · rw [hdrop]
    intro c hc
    have hnot := List.head?_dropWhile_not isSpace (text.drop ps)
    rw [Option.mem_def.mp hc] at hnot
    exact hnot

/-- At a position that is not a space, the characters are those of the first token. -/
inductive First (text : List UInt8) (s : Nat) : List Token → Prop
  | nil (hs : s = text.length) : First text s []
  | append {cs : List UInt8} (hs : text.drop s = '>'.toUInt8 :: '>'.toUInt8 :: cs) : First text s (.append :: tokens cs)
  | symbol {c : UInt8} {cs : List UInt8} {tok : Token} (hs : text.drop s = c :: cs) (hsym : symbol c = some tok)
      (hnot : ¬(c = '>'.toUInt8 ∧ cs.head? = some '>'.toUInt8)) : First text s (tok :: tokens cs)
  | word {c : UInt8} {cs : List UInt8} (hs : text.drop s = c :: cs) (hspace : isSpace c = false) (hsym : symbol c = none) :
      First text s (.word ((c :: cs).takeWhile isWord) :: tokens ((c :: cs).dropWhile isWord))

theorem At.first (hat : At text s ts) (hhead : ∀ c ∈ (text.drop s).head?, isSpace c = false) : First text s ts := by
  rw [← hat.tokens]
  cases hs : text.drop s with
  | nil =>
      rw [tokens_nil]
      have hge := List.drop_eq_nil_iff.mp hs
      exact .nil (by have := hat.le; omega)
  | cons c cs =>
      rw [hs] at hhead
      have hspace : isSpace c = false := hhead c rfl
      have hspace' : ¬isSpace c = true := by rw [hspace]; exact Bool.false_ne_true
      cases hsym : Sh.symbol c with
      | none =>
          rw [tokens_word hspace' hsym]
          exact .word hs hspace hsym
      | some tok =>
          by_cases happ : c = '>'.toUInt8 ∧ cs.head? = some '>'.toUInt8
          · obtain ⟨rfl, hcs⟩ := happ
            cases cs with
            | nil => cases hcs
            | cons d cs =>
                cases hcs
                rw [tokens_append]
                exact .append hs
          · rw [tokens_symbol hspace' hsym happ]
            exact .symbol hs hsym happ

/-- Whether the first token is a symbol that starts with one of the characters. -/
def starts (toks : List Char) : List Token → Bool
  | [] => false
  | tok :: _ =>
      match tok.char with
      | some c => strchr (chars toks) c
      | none => false

/-- **`peek`** looks at the first token. -/
theorem peek_spec (h : Holds mem text) (hat : At text ps ts) (toks : List Char)
    (hsym : (chars toks).all (strchr symbols) = true) :
    ∃ ps', peek mem text.length toks ps = (starts toks ts, ps') ∧ At text ps' ts := by
  obtain ⟨hat', hhead⟩ := hat.skip h
  refine ⟨_, Prod.ext ?_ rfl, hat'⟩
  show (mem (skip mem text.length isSpace ps) != 0 && strchr (chars toks) (mem (skip mem text.length isSpace ps))) = _
  cases hat'.first hhead with
  | nil hs =>
      rw [hs, h.nul]
      rfl
  | append hs =>
      obtain ⟨-, hc, hne, -⟩ := h.drop_cons hs
      rw [hc]
      rfl
  | symbol hs htok hnot =>
      obtain ⟨-, hc, hne, -⟩ := h.drop_cons hs
      rw [hc, starts, symbol_char htok, bne_iff_ne.mpr hne, Bool.true_and]
  | word hs hspace htok =>
      obtain ⟨-, hc, hne, -⟩ := h.drop_cons hs
      rw [hc, starts]
      show (_ && _) = false
      rw [Bool.and_eq_false_iff]
      right
      by_contra hin
      rw [Bool.not_eq_false] at hin
      have hin' := List.all_eq_true.mp hsym _ (List.contains_iff_mem.mp hin)
      rw [symbol_eq_none, hin'] at htok
      cases htok

/-- What `gettoken` finds for a token. -/
structure GotToken (text : List UInt8) (g : Got) (tok : Token) (ts : List Token) : Prop where
  ret : g.ret = tok.code
  at' : At text g.ps ts
  span : ∀ w, tok = .word w → Span text g.q g.eq w

theorem gettoken_eq {q : Nat} (mem : Nat → UInt8) (es : Nat) (hq : skip mem es isSpace ps = q) :
    gettoken mem es ps =
      ⟨(tokenAt mem es q).1, q, (tokenAt mem es q).2, skip mem es isSpace (tokenAt mem es q).2⟩ := by
  rw [gettoken, hq]

/-- The character after a `>` that is not followed by another one. -/
theorem Holds.next_ne {c : UInt8} {cs : List UInt8} (h : Holds mem text) (hs : text.drop s = c :: cs)
    (hcs : cs.head? ≠ some '>'.toUInt8) : mem (s + 1) ≠ '>'.toUInt8 := by
  obtain ⟨hlt, -, -, hs'⟩ := h.drop_cons hs
  cases cs with
  | nil =>
      have hend : s + 1 = text.length := by
        have := List.drop_eq_nil_iff.mp hs'
        omega
      rw [hend, h.nul]
      decide
  | cons d cs =>
      rw [(h.drop_cons hs').2.1]
      exact fun heq => hcs (congrArg some heq)

theorem tokenAt_symbol {c : UInt8} {cs : List UInt8} (h : Holds mem text) (hs : text.drop s = c :: cs)
    (hsym : symbol c = some tok) (hnot : ¬(c = '>'.toUInt8 ∧ cs.head? = some '>'.toUInt8)) :
    tokenAt mem text.length s = (tok.code, s + 1) := by
  obtain ⟨-, hc, hne, -⟩ := h.drop_cons hs
  obtain ⟨hcode, hchr⟩ := symbol_code hsym
  rw [tokenAt, hc, hcode, hchr]
  simp only [if_neg hne]
  by_cases hgt : c = '>'.toUInt8
  · have hnext : mem (s + 1) ≠ '>'.toUInt8 := h.next_ne hs fun hcs => hnot ⟨hgt, hcs⟩
    rw [decide_eq_false (not_not.mpr hgt), if_neg Bool.false_ne_true, if_pos hgt, if_neg hnext]
  · rw [decide_eq_true hgt, if_pos rfl]

theorem tokenAt_word {c : UInt8} {cs : List UInt8} (h : Holds mem text) (hs : text.drop s = c :: cs)
    (hsym : symbol c = none) : tokenAt mem text.length s = ('a'.toUInt8, skip mem text.length isWord s) := by
  obtain ⟨-, hc, hne, -⟩ := h.drop_cons hs
  obtain ⟨hchr, hgt⟩ := not_symbol hsym
  rw [tokenAt, hc, hchr]
  simp only [if_neg hne, if_neg Bool.false_ne_true, if_neg hgt]

/-- The loop over the characters of a word finds a span. -/
theorem span_of_skip (h : Holds mem text) (hs : s ≤ text.length) :
    Span text s (skip mem text.length isWord s) ((text.drop s).takeWhile isWord) := by
  obtain ⟨heq, hle, hdrop⟩ := skip_spec h isWord hs
  refine ⟨hle, heq, ?_, fun c hc => List.mem_takeWhile_imp hc, ?_⟩
  · rw [hdrop, List.takeWhile_append_dropWhile]
  · rw [hdrop]
    intro c hc
    have hnot := List.head?_dropWhile_not isWord (text.drop s)
    rw [Option.mem_def.mp hc] at hnot
    exact hnot

/-- **`gettoken`** takes the first token. -/
theorem gettoken_cons (h : Holds mem text) (hat : At text ps (tok :: ts)) :
    GotToken text (gettoken mem text.length ps) tok ts := by
  obtain ⟨hat', hhead⟩ := hat.skip h
  obtain ⟨q, hq⟩ : ∃ q, skip mem text.length isSpace ps = q := ⟨_, rfl⟩
  rw [hq] at hat' hhead
  rw [gettoken_eq mem text.length hq]
  cases hat'.first hhead with
  | append hs =>
      obtain ⟨-, hc, -, hs'⟩ := h.drop_cons hs
      obtain ⟨hlt, hc', -, hs''⟩ := h.drop_cons hs'
      have htok : tokenAt mem text.length q = ('+'.toUInt8, q + 2) := by
        rw [tokenAt, hc, hc']
        rfl
      rw [htok]
      refine ⟨rfl, (At.skip h ⟨by omega, ?_⟩).1, fun w hw => by cases hw⟩
      rw [hs'']
  | symbol hs hsym hnot =>
      obtain ⟨hlt, -, -, hs'⟩ := h.drop_cons hs
      rw [tokenAt_symbol h hs hsym hnot]
      refine ⟨rfl, (At.skip h ⟨hlt, by rw [hs']⟩).1, fun w hw => ?_⟩
      have hchar := symbol_char hsym
      rw [hw] at hchar
      cases hchar
  | word hs hspace hsym =>
      rw [tokenAt_word h hs hsym]
      obtain ⟨-, hle, hdrop⟩ := skip_spec h isWord hat'.le
      refine ⟨rfl, (At.skip h ⟨hle, ?_⟩).1, fun w hw => ?_⟩
      · rw [hdrop, hs]
      · cases hw
        have hspan := span_of_skip h hat'.le
        rw [hs] at hspan
        exact hspan

theorem gettoken_nil (h : Holds mem text) (hat : At text ps []) :
    (gettoken mem text.length ps).ret = 0 ∧ At text (gettoken mem text.length ps).ps [] := by
  obtain ⟨hat', hhead⟩ := hat.skip h
  obtain ⟨q, hq⟩ : ∃ q, skip mem text.length isSpace ps = q := ⟨_, rfl⟩
  rw [hq] at hat' hhead
  rw [gettoken_eq mem text.length hq]
  cases hat'.first hhead with
  | nil hs =>
      have htok : tokenAt mem text.length q = (0, q) := by
        rw [tokenAt, hs, h.nul]
        rfl
      rw [htok]
      exact ⟨rfl, (hat'.skip h).1⟩

/-! ## The two parsers -/

/-- A tree with pointers and one with texts, of the same shape; `P q eq w` relates their words. -/
inductive Shape (P : Nat → Nat → Text → Prop) : Cmd → Tree → Prop
  | exec {argv : List (Nat × Nat)} {as : List Text} (h : List.Forall₂ (fun a w => P a.1 a.2 w) argv as) :
      Shape P (.exec argv) (.exec as)
  | redir {cmd : Cmd} {t : Tree} {q eq : Nat} {w : Text} (mode fd : Nat) (h : Shape P cmd t) (hw : P q eq w) :
      Shape P (.redir cmd q eq mode fd) (.redir t w mode fd)
  | pipe {c d : Cmd} {t u : Tree} (h : Shape P c t) (h' : Shape P d u) : Shape P (.pipe c d) (.pipe t u)
  | list {c d : Cmd} {t u : Tree} (h : Shape P c t) (h' : Shape P d u) : Shape P (.list c d) (.list t u)
  | back {cmd : Cmd} {t : Tree} (h : Shape P cmd t) : Shape P (.back cmd) (.back t)

/-- What the two parsers return: the words of the tree are spans of the line, and the same tokens are left. -/
def Same (text : List UInt8) (r : Cmd × Nat) (r' : Tree × List Token) : Prop := Shape (Span text) r.1 r'.1 ∧ At text r.2 r'.2

variable {cmd : Cmd} {t : Tree} {n argc : Nat} {P : Nat → Nat → Text → Prop}

theorem Shape.addArg {q eq : Nat} {w : Text} (h : Shape P cmd t) (hw : P q eq w) : Shape P (cmd.addArg q eq) (t.addArg w) := by
  induction h with
  | exec h => exact .exec (List.rel_append h (.cons hw .nil))
  | redir mode fd h hw' ih => exact .redir mode fd ih hw'
  | pipe h h' => exact .pipe h h'
  | list h h' => exact .list h h'
  | back h => exact .back h

theorem Shape.redircmd {q eq mode fd : Nat} {w : Text} (htok : tok.redirection = some (mode, fd)) (h : Shape P cmd t)
    (hw : P q eq w) : Shape P (redircmd tok.code cmd q eq) (.redir t w mode fd) := by
  cases tok with
  | less | greater | append =>
      cases htok
      exact .redir _ _ h hw
  | _ => cases htok

theorem code_word (w : Text) : (Token.word w).code ≠ 0 ∧ ¬(Token.word w).code ≠ 'a'.toUInt8 :=
  ⟨show 'a'.toUInt8 ≠ 0 by decide, not_not.mpr rfl⟩

theorem starts_redir (tok : Token) (ts : List Token) : starts ['<', '>'] (tok :: ts) = tok.redirection.isSome := by
  cases tok with
  | _ => rfl

theorem redirs_same (h : Holds mem text) (hshape : Shape (Span text) cmd t) (hat : At text ps ts) :
    Mirror (Same text) (parseredirs mem text.length n cmd ps) (redirs n t ts) := by
  induction n generalizing cmd t ps ts with
  | zero => exact .error _
  | succ n ih =>
      obtain ⟨ps', hpeek, hat'⟩ := peek_spec h hat ['<', '>'] rfl
      rw [parseredirs, hpeek]
      cases ts with
      | nil => exact .ok ⟨hshape, hat'⟩
      | cons tok ts =>
          simp only [starts_redir]
          cases htok : tok.redirection with
          | none =>
              rw [redirs_stop htok]
              exact .ok ⟨hshape, hat'⟩
          | some m =>
              obtain ⟨mode, fd⟩ := m
              obtain ⟨hret, hat₁, -⟩ := gettoken_cons h hat'
              simp only [Option.isSome_some, if_true]
              cases ts with
              | nil =>
                  rw [(gettoken_nil h hat₁).1, redirs_missing htok fun _ _ heq => by cases heq]
                  exact .error _
              | cons tok' ts =>
                  obtain ⟨hret', hat₂, hspan⟩ := gettoken_cons h hat₁
                  rw [hret', hret]
                  cases tok' with
                  | word w =>
                      rw [redirs_word htok, if_neg (code_word w).2]
                      exact ih (hshape.redircmd htok (hspan w rfl)) hat₂
                  | _ =>
                      rw [redirs_missing htok fun _ _ heq => by cases heq]
                      exact .error _

theorem args_same (h : Holds mem text) (hshape : Shape (Span text) cmd t) (hat : At text ps ts) :
    Mirror (Same text) (parseargs mem text.length n cmd argc ps) (args n t argc ts) := by
  induction n generalizing cmd t ps ts argc with
  | zero => exact .error _
  | succ n ih =>
      obtain ⟨ps', hpeek, hat'⟩ := peek_spec h hat ['|', ')', '&', ';'] rfl
      rw [parseargs, hpeek]
      cases ts with
      | nil =>
          obtain ⟨hret, hat₁⟩ := gettoken_nil h hat'
          show Mirror _ (if (gettoken mem text.length ps').ret = 0 then _ else _) _
          rw [if_pos hret]
          exact .ok ⟨hshape, hat₁⟩
      | cons tok ts =>
          obtain ⟨hret, hat₁, hspan⟩ := gettoken_cons h hat'
          cases tok with
          | word w =>
              show Mirror _ (if (gettoken mem text.length ps').ret = 0 then _ else _) _
              rw [hret, if_neg (code_word w).1, if_neg (code_word w).2, args]
              split
              · exact .error _
              · exact (redirs_same h (hshape.addArg (hspan w rfl)) hat₁).bind fun r r' hr => ih hr.1 hr.2
          | bar | amp | semi | rparen => exact .ok ⟨hshape, hat'⟩
          | less | greater | append | lparen =>
              show Mirror _ (if (gettoken mem text.length ps').ret = 0 then _ else _) _
              rw [hret]
              exact .error _

theorem ampersands_same (h : Holds mem text) (hshape : Shape (Span text) cmd t) (hat : At text ps ts) :
    Mirror (Same text) (parsebacks mem text.length n cmd ps) (ampersands n t ts) := by
  induction n generalizing cmd t ps ts with
  | zero => exact .error _
  | succ n ih =>
      obtain ⟨ps', hpeek, hat'⟩ := peek_spec h hat ['&'] rfl
      rw [parsebacks, hpeek]
      cases ts with
      | nil => exact .ok ⟨hshape, hat'⟩
      | cons tok ts =>
          cases tok with
          | amp => exact ih (.back hshape) (gettoken_cons h hat').at'
          | _ => exact .ok ⟨hshape, hat'⟩

/-- **The parser on characters and the parser on tokens** do the same. -/
theorem parser_same (h : Holds mem text) (n : Nat) :
    (∀ {ps ts}, At text ps ts → Mirror (Same text) (parseline mem text.length n ps) (line n ts)) ∧
    (∀ {ps ts}, At text ps ts → Mirror (Same text) (parsepipe mem text.length n ps) (pipe n ts)) ∧
    (∀ {ps ts}, At text ps ts → Mirror (Same text) (parseexec mem text.length n ps) (exec n ts)) ∧
    ∀ {ps ts}, At text ps ts → Mirror (Same text) (parseblock mem text.length n ps) (block n ts) := by
  induction n with
  | zero =>
      refine ⟨fun _ => ?_, fun _ => ?_, fun _ => ?_, fun _ => ?_⟩
      · rw [parseline, line]
        exact .error _
      · rw [parsepipe, pipe]
        exact .error _
      · rw [parseexec, exec]
        exact .error _
      · rw [parseblock, block]
        exact .error _
  | succ n ih =>
      obtain ⟨ihline, ihpipe, ihexec, ihblock⟩ := ih
      refine ⟨fun {ps ts} hat => ?_, fun {ps ts} hat => ?_, fun {ps ts} hat => ?_, fun {ps ts} hat => ?_⟩
      · rw [parseline, line]
        refine (ihpipe hat).bind fun r r' hr => ?_
        refine (ampersands_same h hr.1 hr.2).bind fun r r' hr => ?_
        obtain ⟨cmd, ps⟩ := r
        obtain ⟨t, ts⟩ := r'
        obtain ⟨hshape, hat⟩ := hr
        obtain ⟨ps', hpeek, hat'⟩ := peek_spec h hat [';'] rfl
        simp only [hpeek]
        cases ts with
        | nil => exact .ok ⟨hshape, hat'⟩
        | cons tok ts =>
            cases tok with
            | semi =>
                refine (ihline (gettoken_cons h hat').at').bind fun u u' hu => ?_
                exact .ok ⟨.list hshape hu.1, hu.2⟩
            | _ => exact .ok ⟨hshape, hat'⟩
      · rw [parsepipe, pipe]
        refine (ihexec hat).bind fun r r' hr => ?_
        obtain ⟨cmd, ps⟩ := r
        obtain ⟨t, ts⟩ := r'
        obtain ⟨hshape, hat⟩ := hr
        obtain ⟨ps', hpeek, hat'⟩ := peek_spec h hat ['|'] rfl
        simp only [hpeek]
        cases ts with
        | nil => exact .ok ⟨hshape, hat'⟩
        | cons tok ts =>
            cases tok with
            | bar =>
                refine (ihpipe (gettoken_cons h hat').at').bind fun u u' hu => ?_
                exact .ok ⟨.pipe hshape hu.1, hu.2⟩
            | _ => exact .ok ⟨hshape, hat'⟩
      · obtain ⟨ps', hpeek, hat'⟩ := peek_spec h hat ['('] rfl
        rw [parseexec, hpeek]
        have hsimple : Mirror (Same text) (parseredirs mem text.length n (.exec []) ps' >>= fun r => parseargs mem text.length n r.1 0 r.2)
            (redirs n (.exec []) ts >>= fun r => args n r.1 0 r.2) :=
          (redirs_same h (.exec .nil) hat').bind fun r r' hr => args_same h hr.1 hr.2
        cases ts with
        | nil => exact hsimple
        | cons tok ts =>
            cases tok with
            | lparen => exact ihblock hat'
            | _ => exact hsimple
      · obtain ⟨ps', hpeek, hat'⟩ := peek_spec h hat ['('] rfl
        rw [parseblock, hpeek]
        cases ts with
        | nil => exact .error _
        | cons tok ts =>
            cases tok with
            | lparen =>
                refine (ihline (gettoken_cons h hat').at').bind fun r r' hr => ?_
                obtain ⟨cmd, ps⟩ := r
                obtain ⟨t, ts⟩ := r'
                obtain ⟨hshape, hat⟩ := hr
                obtain ⟨ps', hpeek, hat'⟩ := peek_spec h hat [')'] rfl
                simp only [hpeek]
                cases ts with
                | nil => exact .error _
                | cons tok ts =>
                    cases tok with
                    | rparen => exact redirs_same h hshape (gettoken_cons h hat').at'
                    | _ => exact .error _
            | _ => exact .error _

/-! ## Terminating the words -/

/-- The positions where the words of a tree end. -/
def Cmd.ends : Cmd → List Nat
  | .exec argv => argv.map Prod.snd
  | .redir cmd _ efile _ _ => efile :: cmd.ends
  | .pipe left right => left.ends ++ right.ends
  | .list left right => left.ends ++ right.ends
  | .back cmd => cmd.ends

theorem foldl_update (argv : List (Nat × Nat)) (mem : Nat → UInt8) (i : Nat) :
    argv.foldl (fun mem arg => Function.update mem arg.2 0) mem i = if i ∈ argv.map Prod.snd then 0 else mem i := by
  induction argv generalizing mem with
  | nil => rfl
  | cons a argv ih =>
      rw [List.foldl_cons, ih, List.map_cons]
      by_cases hi : i ∈ argv.map Prod.snd
      · rw [if_pos hi, if_pos (List.mem_cons_of_mem _ hi)]
      · rw [if_neg hi, Function.update_apply]
        simp only [List.mem_cons, hi, or_false]

/-- **`nulterminate`** writes a NUL at the end of every word, and nowhere else. -/
theorem nulterminate_eq (cmd : Cmd) (mem : Nat → UInt8) (i : Nat) :
    nulterminate cmd mem i = if i ∈ cmd.ends then 0 else mem i := by
  induction cmd generalizing mem with
  | exec argv => exact foldl_update argv mem i
  | redir cmd file efile mode fd ih =>
      rw [nulterminate, Function.update_apply, ih, Cmd.ends]
      by_cases hi : i = efile
      · rw [if_pos hi, if_pos (List.mem_cons.mpr (.inl hi))]
      · simp only [hi, if_false, List.mem_cons, false_or]
  | pipe left right ihl ihr | list left right ihl ihr =>
      rw [nulterminate, ihr, ihl, Cmd.ends]
      by_cases hi : i ∈ right.ends
      · rw [if_pos hi, if_pos (List.mem_append_right _ hi)]
      · simp only [hi, if_false, List.mem_append, or_false]
  | back cmd ih => exact ih mem

/-- The C string at `p`. -/
structure CString (mem : Nat → UInt8) (p : Nat) (w : Text) : Prop where
  char : ∀ i, (h : i < w.length) → mem (p + i) = w[i] ∧ w[i] ≠ 0
  nul : mem (p + w.length) = 0

/-- The words of a tree may be looked at one by one, with the end of each. -/
theorem Shape.imp {Q : Nat → Nat → Text → Prop} (h : Shape P cmd t) (himp : ∀ q eq w, eq ∈ cmd.ends → P q eq w → Q q eq w) :
    Shape Q cmd t := by
  induction h with
  | exec h =>
      refine .exec ?_
      induction h with
      | nil => exact .nil
      | cons hw h ih =>
          refine .cons (himp _ _ _ List.mem_cons_self hw) (ih fun q eq w hmem => himp q eq w (List.mem_cons_of_mem _ hmem))
  | redir mode fd h hw ih =>
      refine .redir mode fd (ih fun q eq w hmem => himp q eq w (List.mem_cons_of_mem _ hmem)) ?_
      exact himp _ _ _ List.mem_cons_self hw
  | pipe h h' ih ih' =>
      exact .pipe (ih fun q eq w hmem => himp q eq w (List.mem_append_left _ hmem))
        (ih' fun q eq w hmem => himp q eq w (List.mem_append_right _ hmem))
  | list h h' ih ih' =>
      exact .list (ih fun q eq w hmem => himp q eq w (List.mem_append_left _ hmem))
        (ih' fun q eq w hmem => himp q eq w (List.mem_append_right _ hmem))
  | back h ih => exact .back (ih himp)

/-- Every end belongs to a word. -/
theorem Shape.exists_word (h : Shape P cmd t) : ∀ e ∈ cmd.ends, ∃ q w, P q e w := by
  induction h with
  | exec h =>
      induction h with
      | nil =>
          intro e he
          exact absurd he List.not_mem_nil
      | cons hw h ih =>
          intro e he
          rcases List.mem_cons.mp he with rfl | he
          · exact ⟨_, _, hw⟩
          · exact ih e he
  | redir mode fd h hw ih =>
      intro e he
      rcases List.mem_cons.mp he with rfl | he
      · exact ⟨_, _, hw⟩
      · exact ih e he
  | pipe h h' ih ih' | list h h' ih ih' =>
      intro e he
      rcases List.mem_append.mp he with he | he
      · exact ih e he
      · exact ih' e he
  | back h ih => exact ih

/-- A span does not end inside another one. -/
theorem Span.not_inside {q q' e e' i : Nat} {w w' : Text} (h : Span text q e w) (h' : Span text q' e' w') (hi : i < w.length) :
    q + i ≠ e' := by
  intro heq
  have hhead : (text.drop e').head? = some w[i] := by
    rw [← heq, ← List.drop_drop, h.split, List.drop_append_of_le_length hi.le, List.drop_eq_getElem_cons hi]
    rfl
  have hstop := h'.stop _ hhead
  rw [h.word _ (List.getElem_mem hi)] at hstop
  cases hstop

/-- **After `nulterminate`** the words of the tree are C strings, with the texts they had in the line. -/
theorem Shape.terminated (h : Holds mem text) (hshape : Shape (Span text) cmd t) :
    Shape (fun q _ w => CString (nulterminate cmd mem) q w) cmd t := by
  refine hshape.imp fun q eq w hmem hspan => ⟨fun i hi => ?_, ?_⟩
  · have hout : q + i ∉ cmd.ends := fun hin => by
      obtain ⟨q', w', hspan'⟩ := hshape.exists_word _ hin
      exact hspan.not_inside hspan' hi rfl
    have hdrop : text.drop (q + i) = w[i] :: (w.drop (i + 1) ++ text.drop eq) := by
      rw [← List.drop_drop, hspan.split, List.drop_append_of_le_length hi.le, List.drop_eq_getElem_cons hi]
      rfl
    obtain ⟨-, hc, hne, -⟩ := h.drop_cons hdrop
    rw [nulterminate_eq, if_neg hout]
    exact ⟨hc, hne⟩
  · rw [nulterminate_eq, ← hspan.len, if_pos hmem]

/-! ## `parsecmd` -/

theorem length_tokens_le (cs : List UInt8) : (tokens cs).length ≤ cs.length := by
  fun_induction tokens cs with
  | case1 => exact le_rfl
  | case2 c cs hspace ih => exact ih.trans (Nat.le_succ _)
  | case3 c cs hspace tok hsym happ ih =>
      rw [List.length_cons, List.length_cons]
      rw [List.length_tail] at ih
      omega
  | case4 c cs hspace tok hsym happ ih => exact Nat.succ_le_succ ih
  | case5 c cs hspace hsym ih =>
      have := length_dropWhile_le isWord cs
      rw [List.length_cons, List.length_cons]
      omega

/-- The line has been read to its end exactly if no tokens are left. -/
theorem peek_end (h : Holds mem text) (hat : At text ps ts) :
    (peek mem text.length [] ps).2 = text.length ↔ ts = [] := by
  obtain ⟨hat', hhead⟩ := hat.skip h
  show skip mem text.length isSpace ps = text.length ↔ _
  cases hat'.first hhead with
  | nil hs => exact ⟨fun _ => rfl, fun _ => hs⟩
  | append hs | symbol hs hsym hnot | word hs hspace hsym =>
      have hlt := (h.drop_cons hs).1
      exact ⟨fun heq => by omega, fun heq => by cases heq⟩

/-- The line has been read and its tree terminated, if the parser on tokens has read it to its end. -/
theorem parsecmd_ok (h : Holds mem text) (hline : line n (tokens text) = .ok (t, [])) :
    ∃ cmd, parsecmd n mem text.length = .ok (cmd, nulterminate cmd mem) ∧ Shape (Span text) cmd t := by
  have hat : At text 0 (tokens text) := ⟨Nat.zero_le _, rfl⟩
  have hmirror := (parser_same h n).1 hat
  rw [hline] at hmirror
  cases hparse : parseline mem text.length n 0 with
  | error e =>
      rw [hparse] at hmirror
      cases hmirror
  | ok r =>
      obtain ⟨cmd, ps⟩ := r
      rw [hparse] at hmirror
      cases hmirror with
      | ok hsame =>
          have hend := (peek_end h hsame.2).mpr rfl
          refine ⟨cmd, ?_, hsame.1⟩
          rw [parsecmd, hparse, ok_bind]
          show (if (peek mem text.length [] ps).2 ≠ text.length then _ else _) = _
          rw [if_neg (not_not.mpr hend)]

/-- Otherwise it ends as the parser on tokens does, or with tokens left over. -/
theorem parsecmd_error (h : Holds mem text) (hline : Sat Reported (fun r => r.2 ≠ []) (line n (tokens text))) :
    ∃ e, parsecmd n mem text.length = .error (.panic e) := by
  have hat : At text 0 (tokens text) := ⟨Nat.zero_le _, rfl⟩
  have hmirror := (parser_same h n).1 hat
  cases hparse : parseline mem text.length n 0 with
  | error e =>
      rw [hparse] at hmirror
      cases hrun : line n (tokens text) with
      | ok r =>
          rw [hrun] at hmirror
          cases hmirror
      | error e' =>
          rw [hrun] at hmirror hline
          cases hmirror
          obtain ⟨e, rfl⟩ := hline.of_error
          exact ⟨e, by rw [parsecmd, hparse]; rfl⟩
  | ok r =>
      obtain ⟨cmd, ps⟩ := r
      rw [hparse] at hmirror
      cases hrun : line n (tokens text) with
      | error e =>
          rw [hrun] at hmirror
          cases hmirror
      | ok r' =>
          rw [hrun] at hmirror hline
          cases hmirror with
          | ok hsame =>
              have hend : (peek mem text.length [] ps).2 ≠ text.length := fun heq =>
                hline.of_ok ((peek_end h hsame.2).mp heq)
              refine ⟨.leftovers, ?_⟩
              rw [parsecmd, hparse, ok_bind]
              show (if (peek mem text.length [] ps).2 ≠ text.length then _ else _) = _
              rw [if_pos hend]

/-- **`parsecmd` accepts exactly the grammar.** For every command line without a NUL, and `n` large enough for its
    length: if the tokens of the line have a derivation then `parsecmd` returns, with the tree of the derivation,
    whose words are the C strings its pointers lead to; if it returns, they have one; and if they have none it ends in
    one of its panics. A line has at most one tree. -/
theorem parsecmd_exact {mem : Nat → UInt8} {text : List UInt8} {n : Nat} (h : Holds mem text) (hn : 4 * text.length + 4 ≤ n) :
    (∀ t, Derives .line (tokens text) t → ∃ cmd mem', parsecmd n mem text.length = .ok (cmd, mem') ∧
      Shape (fun q _ w => CString mem' q w) cmd t) ∧
    (∀ cmd mem', parsecmd n mem text.length = .ok (cmd, mem') → ∃ t, Derives .line (tokens text) t) ∧
    ((¬∃ t, Derives .line (tokens text) t) → ∃ e, parsecmd n mem text.length = .error (.panic e)) ∧
    ∀ t t', Derives .line (tokens text) t → Derives .line (tokens text) t' → t = t' := by
  have hlen := length_tokens_le text
  have hsat := (parser_sat n).1 (tokens text) (by omega)
  have hend : Follow .line [] := fun _ htok => by cases htok
  have hcomplete : ∀ t, Derives .line (tokens text) t → line n (tokens text) = .ok (t, []) := fun t hd => by
    have hrun := derives_complete hd hend (n := n) (by show 4 * _ + 4 ≤ _; omega)
    rw [List.append_nil] at hrun
    exact hrun
  have herror : (¬∃ t, Derives .line (tokens text) t) → ∃ e, parsecmd n mem text.length = .error (.panic e) := fun hnone => by
    refine parsecmd_error h (hsat.mono (fun _ he => he) fun r hr hnil => hnone ?_)
    obtain ⟨used, hts, hd⟩ := hr
    rw [hnil, List.append_nil] at hts
    exact ⟨r.1, hts ▸ hd⟩
  refine ⟨fun t hd => ?_, fun cmd mem' hrun => ?_, herror, fun t t' => derives_unique⟩
  · obtain ⟨cmd, hrun, hshape⟩ := parsecmd_ok h (hcomplete t hd)
    exact ⟨cmd, _, hrun, hshape.terminated h⟩
  · by_contra hnone
    obtain ⟨e, he⟩ := herror hnone
    cases hrun.symm.trans he

/-- `ls` is a command of one word. -/
theorem parsecmd_ls :
    Holds (fun i => (chars ['l', 's']).getD i 0) (chars ['l', 's']) ∧
      ∃ cmd mem', parsecmd 12 (fun i => (chars ['l', 's']).getD i 0) 2 = .ok (cmd, mem') ∧
        Shape (fun q _ w => CString mem' q w) cmd (.exec [chars ['l', 's']]) := by
  have hholds : Holds (fun i => (chars ['l', 's']).getD i 0) (chars ['l', 's']) := by
    refine ⟨fun i hi => ?_, rfl, by decide⟩
    exact (List.getElem_eq_getD 0).symm
  have htokens : tokens (chars ['l', 's']) = [.word (chars ['l', 's'])] := by
    show tokens ('l'.toUInt8 :: ['s'.toUInt8]) = _
    rw [tokens_word (by decide) (by decide)]
    show Token.word (chars ['l', 's']) :: tokens [] = _
    rw [tokens_nil]
  have hderives : Derives .line (tokens (chars ['l', 's'])) (.exec [chars ['l', 's']]) := by
    rw [htokens]
    exact .line 0 (.exec (.simple .nil (.cons .nil .nil) (by decide)))
  exact ⟨hholds, (parsecmd_exact hholds (by decide)).1 _ hderives⟩

end Xv6.Sh
