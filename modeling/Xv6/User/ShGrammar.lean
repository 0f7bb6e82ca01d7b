import Xv6.Lib.Outcome
import Xv6.User.Sh

/-!
# `User.ShGrammar` — the shell's grammar and a parser on tokens

A command line is a sequence of tokens, a token a word or a symbol; `Derives` is the grammar, with the tree each
derivation stands for. The functions `line`, `pipe`, `exec` and `block` are the parser of `sh.c` as it looks when it
reads tokens instead of characters; `n` counts its turns as there.

* `parser_sat`: with enough turns it is not cut off, and what it accepts is derivable;
* **`derives_complete`**: what is derivable it accepts, with the tree of the derivation, which is therefore unique.
-/

namespace Xv6.Sh

open Lockstep Outcome

abbrev Text := List UInt8

inductive Token
  | word (w : Text)
  /-- `<` -/
  | less
  /-- `>` -/
  | greater
  /-- `>>` -/
  | append
  /-- `|` -/
  | bar
  /-- `&` -/
  | amp
  /-- `;` -/
  | semi
  /-- `(` -/
  | lparen
  /-- `)` -/
  | rparen

/-- A command, with the texts of its words. -/
inductive Tree
  | exec (args : List Text)
  | redir (cmd : Tree) (file : Text) (mode fd : Nat)
  | pipe (left right : Tree)
  | list (left right : Tree)
  | back (cmd : Tree)

/-! ## The grammar -/

/-- A redirection: the file, the mode it is opened with and the descriptor it is opened as. -/
structure Redir where
  file : Text
  mode : Nat
  fd : Nat

/-- The mode and the descriptor of `<`, `>` and `>>`. -/
def Token.redirection : Token → Option (Nat × Nat)
  | .less => some (O_RDONLY, 0)
  | .greater => some (O_WRONLY ||| O_CREATE ||| O_TRUNC, 1)
  | .append => some (O_WRONLY ||| O_CREATE, 1)
  | _ => none

/-- Redirections around a command, the first one innermost. -/
def wrap (rs : List Redir) (t : Tree) : Tree := rs.foldl (fun t r => .redir t r.file r.mode r.fd) t

/-- A command in the background, once for each `&`. -/
def backs : Nat → Tree → Tree
  | 0, t => t
  | k + 1, t => backs k (.back t)

/-- `redir*` -/
inductive Redirs : List Token → List Redir → Prop
  | nil : Redirs [] []
  | cons {tok : Token} {mode fd : Nat} {w : Text} {ts : List Token} {rs : List Redir}
      (htok : tok.redirection = some (mode, fd)) (h : Redirs ts rs) : Redirs (tok :: .word w :: ts) (⟨w, mode, fd⟩ :: rs)

/-- `(word redir*)*` -/
inductive Words : List Token → List Text → List Redir → Prop
  | nil : Words [] [] []
  | cons {w : Text} {ts us : List Token} {rs rs' : List Redir} {args : List Text} (hr : Redirs ts rs) (h : Words us args rs') :
      Words (.word w :: (ts ++ us)) (w :: args) (rs ++ rs')

inductive Nonterminal
  | line
  | pipe
  | exec

/-- The grammar of commands, with at most `MAXARGS - 1` words in a simple command. -/
inductive Derives : Nonterminal → List Token → Tree → Prop
  /-- `line -> pipe '&'*` -/
  | line {ts : List Token} {t : Tree} (k : Nat) (h : Derives .pipe ts t) :
      Derives .line (ts ++ List.replicate k .amp) (backs k t)
  /-- `line -> pipe '&'* ';' line` -/
  | list {ts us : List Token} {t u : Tree} (k : Nat) (h : Derives .pipe ts t) (hr : Derives .line us u) :
      Derives .line (ts ++ (List.replicate k .amp ++ .semi :: us)) (.list (backs k t) u)
  /-- `pipe -> exec` -/
  | exec {ts : List Token} {t : Tree} (h : Derives .exec ts t) : Derives .pipe ts t
  /-- `pipe -> exec '|' pipe` -/
  | pipe {ts us : List Token} {t u : Tree} (h : Derives .exec ts t) (hr : Derives .pipe us u) :
      Derives .pipe (ts ++ .bar :: us) (.pipe t u)
  /-- `exec -> '(' line ')' redir*` -/
  | block {ts us : List Token} {t : Tree} {rs : List Redir} (h : Derives .line ts t) (hr : Redirs us rs) :
      Derives .exec (.lparen :: (ts ++ .rparen :: us)) (wrap rs t)
  /-- `exec -> redir* (word redir*)*` -/
  | simple {ts us : List Token} {args : List Text} {rs rs' : List Redir} (hr : Redirs ts rs) (h : Words us args rs')
      (hmax : args.length ≤ MAXARGS - 1) : Derives .exec (ts ++ us) (wrap (rs ++ rs') (.exec args))

/-! ## The parser on tokens -/

def Tree.addArg : Tree → Text → Tree
  | .exec args, w => .exec (args ++ [w])
  | .redir cmd file mode fd, w => .redir (cmd.addArg w) file mode fd
  | t, _ => t

/-- The symbols that end a simple command. -/
def Token.ends : Token → Bool
  | .bar | .rparen | .amp | .semi => true
  | _ => false

def redirs : Nat → Tree → List Token → Except Stop (Tree × List Token)
  | 0, _, _ => .error .turns
  | _ + 1, t, [] => .ok (t, [])
  | n + 1, t, tok :: ts =>
      match tok.redirection, ts with
      | some (mode, fd), .word w :: ts => redirs n (.redir t w mode fd) ts
      | some _, _ => .error (.panic .missingFile)
      | none, _ => .ok (t, tok :: ts)

def args : Nat → Tree → Nat → List Token → Except Stop (Tree × List Token)
  | 0, _, _, _ => .error .turns
  | _ + 1, t, _, [] => .ok (t, [])
  | n + 1, t, argc, .word w :: ts =>
      if argc + 1 ≥ MAXARGS then .error (.panic .tooManyArgs)
      else redirs n (t.addArg w) ts >>= fun r => args n r.1 (argc + 1) r.2
  | _ + 1, t, _, tok :: ts => if tok.ends then .ok (t, tok :: ts) else .error (.panic .badWord)

def ampersands : Nat → Tree → List Token → Except Stop (Tree × List Token)
  | 0, _, _ => .error .turns
  | n + 1, t, .amp :: ts => ampersands n (.back t) ts
  | _ + 1, t, ts => .ok (t, ts)

mutual

def line : Nat → List Token → Except Stop (Tree × List Token)
  | 0, _ => .error .turns
  | n + 1, ts =>
      pipe n ts >>= fun r => ampersands n r.1 r.2 >>= fun r =>
        match r.2 with
        | .semi :: ts => line n ts >>= fun u => .ok (.list r.1 u.1, u.2)
        | _ => .ok r

def pipe : Nat → List Token → Except Stop (Tree × List Token)
  | 0, _ => .error .turns
  | n + 1, ts =>
      exec n ts >>= fun r =>
        match r.2 with
        | .bar :: ts => pipe n ts >>= fun u => .ok (.pipe r.1 u.1, u.2)
        | _ => .ok r

def exec : Nat → List Token → Except Stop (Tree × List Token)
  | 0, _ => .error .turns
  | n + 1, .lparen :: ts => block n (.lparen :: ts)
  | n + 1, ts => redirs n (.exec []) ts >>= fun r => args n r.1 0 r.2

def block : Nat → List Token → Except Stop (Tree × List Token)
  | 0, _ => .error .turns
  | n + 1, .lparen :: ts =>
      line n ts >>= fun r =>
        match r.2 with
        | .rparen :: ts => redirs n r.1 ts
        | _ => .error (.panic .missingParen)
  | _ + 1, _ => .error (.panic .parseblock)

end

/-! ## What is accepted is derivable -/

variable {n argc : Nat} {ts us rest : List Token} {t : Tree} {rs rs' : List Redir} {as : List Text}

/-- The parser has not been cut off. -/
def Reported (e : Stop) : Prop := ∃ p, e = .panic p

theorem wrap_append (rs rs' : List Redir) (t : Tree) : wrap (rs ++ rs') t = wrap rs' (wrap rs t) := List.foldl_append

theorem addArg_wrap (rs : List Redir) (as : List Text) (w : Text) :
    (wrap rs (.exec as)).addArg w = wrap rs (.exec (as ++ [w])) := by
  induction rs using List.reverseRecOn with
  | nil => rfl
  | append_singleton rs r ih =>
      rw [wrap_append, wrap_append]
      show Tree.redir ((wrap rs (.exec as)).addArg w) r.file r.mode r.fd = _
      rw [ih]
      rfl

theorem redirs_stop {tok : Token} (htok : tok.redirection = none) : redirs (n + 1) t (tok :: ts) = .ok (t, tok :: ts) := by
  unfold redirs
  simp only [htok]

theorem redirs_word {tok : Token} {mode fd : Nat} {w : Text} (htok : tok.redirection = some (mode, fd)) :
    redirs (n + 1) t (tok :: .word w :: ts) = redirs n (.redir t w mode fd) ts := by
  rw [redirs]
  simp only [htok]

theorem redirs_missing {tok : Token} {m : Nat × Nat} (htok : tok.redirection = some m) (hts : ∀ w us, ts ≠ .word w :: us) :
    redirs (n + 1) t (tok :: ts) = .error (.panic .missingFile) := by
  unfold redirs
  simp only [htok]
  split
  · exact absurd rfl (hts _ _)
  · rfl
  · rename_i heq
    cases heq

theorem redirs_sat (hn : ts.length < n) :
    Sat Reported (fun r => ∃ used rs, ts = used ++ r.2 ∧ Redirs used rs ∧ r.1 = wrap rs t) (redirs n t ts) := by
  induction n generalizing t ts with
  | zero => exact absurd hn (Nat.not_lt_zero _)
  | succ n ih =>
      cases ts with
      | nil => exact .ok ⟨[], [], rfl, .nil, rfl⟩
      | cons tok ts =>
          cases htok : tok.redirection with
          | none =>
              rw [redirs_stop htok]
              exact .ok ⟨[], [], rfl, .nil, rfl⟩
          | some m =>
              obtain ⟨mode, fd⟩ := m
              cases ts with
              | nil =>
                  rw [redirs_missing htok fun _ _ heq => by cases heq]
                  exact .error ⟨_, rfl⟩
              | cons tok' ts =>
                  cases tok' with
                  | word w =>
                      rw [redirs_word htok]
                      rw [List.length_cons, List.length_cons] at hn
                      refine (ih (t := .redir t w mode fd) (by omega)).mono (fun _ he => he) fun r hr => ?_
                      obtain ⟨used, rs, hts, hrs, ht⟩ := hr
                      exact ⟨tok :: .word w :: used, ⟨w, mode, fd⟩ :: rs, by rw [hts]; rfl, .cons htok hrs, ht⟩
                  | _ =>
                      rw [redirs_missing htok fun _ _ heq => by cases heq]
                      exact .error ⟨_, rfl⟩

theorem args_sat (hn : ts.length < n) (hargc : as.length = argc) (hmax : argc ≤ MAXARGS - 1) :
    Sat Reported (fun r => ∃ used as' rs', ts = used ++ r.2 ∧ Words used as' rs' ∧
      r.1 = wrap (rs ++ rs') (.exec (as ++ as')) ∧ (as ++ as').length ≤ MAXARGS - 1) (args n (wrap rs (.exec as)) argc ts) := by
  induction n generalizing as argc rs ts with
  | zero => exact absurd hn (Nat.not_lt_zero _)
  | succ n ih =>
      have hstop : ∃ used as' rs', ts = used ++ ts ∧ Words used as' rs' ∧
          wrap rs (.exec as) = wrap (rs ++ rs') (.exec (as ++ as')) ∧ (as ++ as').length ≤ MAXARGS - 1 :=
        ⟨[], [], [], rfl, .nil, by rw [List.append_nil, List.append_nil], by rw [List.append_nil, hargc]; exact hmax⟩
      cases ts with
      | nil => exact .ok hstop
      | cons tok ts =>
          cases tok with
          | word w =>
              rw [args]
              split
              · exact .error ⟨_, rfl⟩
              · rename_i hlt
                rw [List.length_cons] at hn
                rw [addArg_wrap]
                refine (redirs_sat (by omega)).bind fun r hr => ?_
                obtain ⟨used, rs₁, hts, hrs₁, hr₁⟩ := hr
                rw [hr₁, ← wrap_append]
                have hlen : r.2.length < n := by
                  have := congrArg List.length hts
                  rw [List.length_append] at this
                  omega
                have hmax' : argc + 1 ≤ MAXARGS - 1 := by omega
                refine (ih hlen (by rw [List.length_append, hargc]; rfl) hmax').mono (fun _ he => he) fun r' hr' => ?_
                obtain ⟨used', as', rs', hts', hwords, hr₂, hlen'⟩ := hr'
                refine ⟨.word w :: (used ++ used'), w :: as', rs₁ ++ rs', ?_, .cons hrs₁ hwords, ?_, ?_⟩
                · rw [hts, hts', List.cons_append, List.append_assoc]
                · rw [hr₂, List.append_assoc, List.append_assoc]
                  rfl
                · rw [List.append_assoc] at hlen'
                  exact hlen'
          | bar | amp | semi | rparen => exact .ok hstop
          | less | greater | append | lparen => exact .error ⟨_, rfl⟩

theorem ampersands_sat (hn : ts.length < n) :
    Sat Reported (fun r => ∃ k, ts = List.replicate k .amp ++ r.2 ∧ r.1 = backs k t) (ampersands n t ts) := by
  induction n generalizing t ts with
  | zero => exact absurd hn (Nat.not_lt_zero _)
  | succ n ih =>
      cases ts with
      | nil => exact .ok ⟨0, rfl, rfl⟩
      | cons tok ts =>
          cases tok with
          | amp =>
              rw [ampersands]
              rw [List.length_cons] at hn
              refine (ih (t := .back t) (by omega)).mono (fun _ he => he) fun r hr => ?_
              obtain ⟨k, hts, hr⟩ := hr
              exact ⟨k + 1, by rw [hts]; rfl, hr⟩
          | _ => exact .ok ⟨0, rfl, rfl⟩

/-- What a parser of the nonterminal `N` has read, it has derived. -/
def Reads (N : Nonterminal) (ts : List Token) (r : Tree × List Token) : Prop :=
  ∃ used, ts = used ++ r.2 ∧ Derives N used r.1

theorem Reads.length_le {N : Nonterminal} {r : Tree × List Token} (h : Reads N ts r) : r.2.length ≤ ts.length := by
  obtain ⟨used, hts, -⟩ := h
  rw [hts, List.length_append]
  omega

/-- **Totality and soundness** of the four functions together, by induction on the turns. -/
theorem parser_sat (n : Nat) :
    (∀ ts, 4 * ts.length + 4 ≤ n → Sat Reported (Reads .line ts) (line n ts)) ∧
    (∀ ts, 4 * ts.length + 3 ≤ n → Sat Reported (Reads .pipe ts) (pipe n ts)) ∧
    (∀ ts, 4 * ts.length + 2 ≤ n → Sat Reported (Reads .exec ts) (exec n ts)) ∧
    ∀ ts, 4 * ts.length + 1 ≤ n → Sat Reported (Reads .exec ts) (block n ts) := by
  induction n with
  | zero => exact ⟨fun _ h => by omega, fun _ h => by omega, fun _ h => by omega, fun _ h => by omega⟩
  | succ n ih =>
      obtain ⟨ihline, ihpipe, ihexec, ihblock⟩ := ih
      refine ⟨fun ts hn => ?_, fun ts hn => ?_, fun ts hn => ?_, fun ts hn => ?_⟩
      · rw [line]
        refine (ihpipe ts (by omega)).bind fun r hr => ?_
        have hlen := hr.length_le
        obtain ⟨used, hts, hd⟩ := hr
        refine (ampersands_sat (by omega)).bind fun r' hr' => ?_
        obtain ⟨k, hts', hr'⟩ := hr'
        have hstop : Reads .line ts r' := by
          refine ⟨used ++ List.replicate k .amp, ?_, ?_⟩
          · rw [hts, hts', List.append_assoc]
          · rw [hr']
            exact .line k hd
        have hlen' : r'.2.length ≤ r.2.length := by
          rw [hts', List.length_append]
          omega
        split
        · rename_i rest hsemi
          rw [hsemi, List.length_cons] at hlen'
          refine (ihline rest (by omega)).bind fun u hu => ?_
          obtain ⟨used', hrest, hd'⟩ := hu
          refine .ok ⟨used ++ (List.replicate k .amp ++ .semi :: used'), ?_, ?_⟩
          · rw [hts, hts', hsemi, hrest]
            simp only [List.append_assoc, List.cons_append]
          · rw [hr']
            exact .list k hd hd'
        · exact .ok hstop
      · rw [pipe]
        refine (ihexec ts (by omega)).bind fun r hr => ?_
        have hlen := hr.length_le
        obtain ⟨used, hts, hd⟩ := hr
        split
        · rename_i rest hbar
          rw [hbar, List.length_cons] at hlen
          refine (ihpipe rest (by omega)).bind fun u hu => ?_
          obtain ⟨used', hrest, hd'⟩ := hu
          refine .ok ⟨used ++ .bar :: used', ?_, .pipe hd hd'⟩
          rw [hts, hbar, hrest, List.append_assoc, List.cons_append]
        · exact .ok ⟨used, hts, .exec hd⟩
      · have hsimple : Sat Reported (Reads .exec ts) (redirs n (.exec []) ts >>= fun r => args n r.1 0 r.2) := by
          refine (redirs_sat (by omega)).bind fun r hr => ?_
          obtain ⟨used, rs, hts, hrs, hr⟩ := hr
          have hlen : r.2.length < n := by
            have := congrArg List.length hts
            rw [List.length_append] at this
            omega
          rw [hr]
          refine (args_sat hlen rfl (Nat.zero_le _)).mono (fun _ he => he) fun r' hr' => ?_
          obtain ⟨used', as', rs', hts', hwords, hr', hmax⟩ := hr'
          refine ⟨used ++ used', ?_, ?_⟩
          · rw [hts, hts', List.append_assoc]
          · rw [hr']
            exact .simple hrs hwords hmax
        cases ts with
        | nil => exact hsimple
        | cons tok ts =>
            cases tok with
            | lparen =>
                rw [exec]
                exact ihblock _ (by omega)
            | _ => exact hsimple
      · cases ts with
        | nil => exact .error ⟨_, rfl⟩
        | cons tok ts =>
            cases tok with
            | lparen =>
                rw [block]
                rw [List.length_cons] at hn
                refine (ihline ts (by omega)).bind fun r hr => ?_
                have hlen := hr.length_le
                obtain ⟨used, hts, hd⟩ := hr
                split
                · rename_i rest hparen
                  rw [hparen, List.length_cons] at hlen
                  refine (redirs_sat (by omega)).mono (fun _ he => he) fun r' hr' => ?_
                  obtain ⟨used', rs, hrest, hrs, hr'⟩ := hr'
                  refine ⟨.lparen :: (used ++ .rparen :: used'), ?_, ?_⟩
                  · rw [hts, hparen, hrest]
                    simp only [List.append_assoc, List.cons_append]
                  · rw [hr']
                    exact .block hd hrs
                · exact .error ⟨_, rfl⟩
            | _ => exact .error ⟨_, rfl⟩

/-! ## What is derivable is accepted -/

/-- The tokens that can come after a nonterminal, besides the end of the line. -/
def Nonterminal.follow : Nonterminal → Token → Bool
  | .exec, tok => tok.ends
  | .pipe, .amp | .pipe, .semi | .pipe, .rparen => true
  | .line, .rparen => true
  | _, _ => false

def Follow (N : Nonterminal) (rest : List Token) : Prop := ∀ tok ∈ rest.head?, N.follow tok = true

theorem Follow.cons {N : Nonterminal} {tok : Token} (h : N.follow tok = true) (rest : List Token) : Follow N (tok :: rest) := by
  intro tok' htok'
  cases htok'
  exact h

/-- No redirection comes next. -/
def Quiet (rest : List Token) : Prop := ∀ tok ∈ rest.head?, tok.redirection = none

theorem redirection_of_ends {tok : Token} (h : tok.ends = true) : tok.redirection = none := by
  cases tok with
  | bar | amp | semi | rparen => rfl
  | _ => cases h

theorem Follow.quiet (h : Follow .exec rest) : Quiet rest := fun tok htok => redirection_of_ends (h tok htok)

theorem Words.quiet {as : List Text} (h : Words us as rs) (hrest : Quiet rest) : Quiet (us ++ rest) := by
  cases h with
  | nil => exact hrest
  | cons hr h =>
      intro tok htok
      cases htok
      rfl

theorem redirs_complete (h : Redirs us rs) (hrest : Quiet rest) (hn : us.length < n) :
    redirs n t (us ++ rest) = .ok (wrap rs t, rest) := by
  induction h generalizing n t with
  | nil =>
      obtain ⟨n, rfl⟩ : ∃ k, n = k + 1 := ⟨n - 1, by omega⟩
      cases rest with
      | nil => rfl
      | cons tok rest =>
          rw [List.nil_append, redirs_stop (hrest tok rfl)]
          rfl
  | cons htok h ih =>
      obtain ⟨n, rfl⟩ : ∃ k, n = k + 1 := ⟨n - 1, by omega⟩
      rw [List.length_cons, List.length_cons] at hn
      rw [List.cons_append, List.cons_append, redirs_word htok, ih (by omega)]
      rfl

theorem args_complete {as as' : List Text} (h : Words us as' rs') (hrest : Follow .exec rest) (hn : us.length < n)
    (hmax : argc + as'.length ≤ MAXARGS - 1) :
    args n (wrap rs (.exec as)) argc (us ++ rest) = .ok (wrap (rs ++ rs') (.exec (as ++ as')), rest) := by
  induction h generalizing n argc as rs with
  | nil =>
      obtain ⟨n, rfl⟩ : ∃ k, n = k + 1 := ⟨n - 1, by omega⟩
      rw [List.append_nil, List.append_nil, List.nil_append]
      cases rest with
      | nil => rfl
      | cons tok rest =>
          have hends : tok.ends = true := hrest tok rfl
          cases tok with
          | bar | amp | semi | rparen => rfl
          | _ => cases hends
  | @cons w vs us rs₁ rs₂ as' hr h ih =>
      obtain ⟨n, rfl⟩ : ∃ k, n = k + 1 := ⟨n - 1, by omega⟩
      rw [List.length_cons, List.length_append] at hn
      rw [List.length_cons] at hmax
      have hroom : ¬argc + 1 ≥ MAXARGS := by
        have : MAXARGS = 10 := rfl
        omega
      rw [List.cons_append, args, if_neg hroom, addArg_wrap, List.append_assoc,
        redirs_complete hr (h.quiet hrest.quiet) (by omega), ok_bind]
      show args n (wrap rs₁ (wrap rs (.exec (as ++ [w])))) (argc + 1) (us ++ rest) = _
      rw [← wrap_append, ih (by omega) (by omega), List.append_assoc, List.append_assoc]
      rfl

theorem ampersands_complete (k : Nat) (hrest : rest.head? ≠ some .amp) (hn : k < n) :
    ampersands n t (List.replicate k .amp ++ rest) = .ok (backs k t, rest) := by
  induction k generalizing n t with
  | zero =>
      obtain ⟨n, rfl⟩ : ∃ k, n = k + 1 := ⟨n - 1, by omega⟩
      rw [List.replicate_zero, List.nil_append]
      cases rest with
      | nil => rfl
      | cons tok rest =>
          cases tok with
          | amp => exact absurd rfl hrest
          | _ => rfl
  | succ k ih =>
      obtain ⟨n, rfl⟩ : ∃ k, n = k + 1 := ⟨n - 1, by omega⟩
      rw [List.replicate_succ, List.cons_append, ampersands, ih (by omega)]
      rfl

/-- The function of the parser for a nonterminal. -/
def parser : Nonterminal → Nat → List Token → Except Stop (Tree × List Token)
  | .line => line
  | .pipe => pipe
  | .exec => exec

/-- The turns the function needs for tokens it reads. -/
def turns (N : Nonterminal) (k : Nat) : Nat :=
  4 * k + match N with
    | .line => 4
    | .pipe => 3
    | .exec => 2

theorem turns_pos (N : Nonterminal) (k : Nat) : 0 < turns N k := by
  cases N with
  | line | pipe | exec => exact Nat.succ_pos _

/-- A simple command does not start with a parenthesis. -/
theorem exec_simple (hr : Redirs us rs) {vs : List Token} {as : List Text} (h : Words vs as rs') (hrest : Follow .exec rest) :
    exec (n + 1) (us ++ (vs ++ rest)) = redirs n (.exec []) (us ++ (vs ++ rest)) >>= fun r => args n r.1 0 r.2 := by
  have hhead : (us ++ (vs ++ rest)).head? ≠ some .lparen := by
    cases hr with
    | nil =>
        cases h with
        | nil =>
            intro heq
            have hends := hrest .lparen heq
            cases hends
        | cons hr' h' => nofun
    | cons htok hr' =>
        intro heq
        cases heq
        cases htok
  cases htoks : us ++ (vs ++ rest) with
  | nil => rfl
  | cons tok toks =>
      rw [htoks] at hhead
      cases tok with
      | lparen => exact absurd rfl hhead
      | _ => rfl

/-- **Completeness**: the parser reads a derivation, up to a token that can follow it, and returns its tree. -/
theorem derives_complete {N : Nonterminal} (h : Derives N us t) (hrest : Follow N rest) (hn : turns N us.length ≤ n) :
    parser N n (us ++ rest) = .ok (t, rest) := by
  have hpos := turns_pos N us.length
  obtain ⟨n, rfl⟩ : ∃ m, n = m + 1 := ⟨n - 1, by omega⟩
  clear hpos
  induction h generalizing rest n with
  | @line ts t k h ih =>
      have hn : 4 * (ts ++ List.replicate k Token.amp).length + 4 ≤ n + 1 := hn
      rw [List.length_append, List.length_replicate] at hn
      obtain ⟨n, rfl⟩ : ∃ m, n = m + 1 := ⟨n - 1, by omega⟩
      have hfollow : Follow .pipe (List.replicate k .amp ++ rest) := by
        cases k with
        | zero =>
            intro tok htok
            have hline := hrest tok htok
            cases tok with
            | rparen => rfl
            | _ => cases hline
        | succ k => exact .cons rfl _
      have hpipe : pipe (n + 1) (ts ++ (List.replicate k .amp ++ rest)) = .ok (t, List.replicate k .amp ++ rest) :=
        ih hfollow n (by show 4 * _ + 3 ≤ _; omega)
      have hamp : rest.head? ≠ some .amp := fun heq => by
        have hline := hrest .amp heq
        cases hline
      show line (n + 1 + 1) (ts ++ List.replicate k .amp ++ rest) = _
      rw [line, List.append_assoc, hpipe, ok_bind, ampersands_complete k hamp (by omega), ok_bind]
      cases rest with
      | nil => rfl
      | cons tok rest =>
          have hline := hrest tok rfl
          cases tok with
          | rparen => rfl
          | _ => cases hline
  | @list ts us t u k h hr ih ihr =>
      have hn : 4 * (ts ++ (List.replicate k Token.amp ++ .semi :: us)).length + 4 ≤ n + 1 := hn
      rw [List.length_append, List.length_append, List.length_replicate, List.length_cons] at hn
      obtain ⟨n, rfl⟩ : ∃ m, n = m + 1 := ⟨n - 1, by omega⟩
      have hfollow : Follow .pipe (List.replicate k .amp ++ .semi :: (us ++ rest)) := by
        cases k with
        | zero => exact .cons rfl _
        | succ k => exact .cons rfl _
      have hpipe : pipe (n + 1) (ts ++ (List.replicate k .amp ++ .semi :: (us ++ rest))) =
          .ok (t, List.replicate k .amp ++ .semi :: (us ++ rest)) := ih hfollow n (by show 4 * _ + 3 ≤ _; omega)
      have hline : line (n + 1) (us ++ rest) = .ok (u, rest) := ihr hrest n (by show 4 * _ + 4 ≤ _; omega)
      show line (n + 1 + 1) (ts ++ (List.replicate k .amp ++ .semi :: us) ++ rest) = _
      rw [line, List.append_assoc, List.append_assoc, List.cons_append, hpipe, ok_bind,
        ampersands_complete k (fun heq => by cases heq) (by omega), ok_bind]
      show (line (n + 1) (us ++ rest) >>= fun v => .ok (Tree.list (backs k t) v.1, v.2)) = _
      rw [hline]
      rfl
  | @exec ts t h ih =>
      have hn : 4 * ts.length + 3 ≤ n + 1 := hn
      obtain ⟨n, rfl⟩ : ∃ m, n = m + 1 := ⟨n - 1, by omega⟩
      have hfollow : Follow .exec rest := by
        intro tok htok
        have hpipe := hrest tok htok
        cases tok with
        | amp | semi | rparen => rfl
        | _ => cases hpipe
      have hexec : exec (n + 1) (ts ++ rest) = .ok (t, rest) := ih hfollow n (by show 4 * _ + 2 ≤ _; omega)
      show pipe (n + 1 + 1) (ts ++ rest) = _
      rw [pipe, hexec, ok_bind]
      cases rest with
      | nil => rfl
      | cons tok rest =>
          have hpipe := hrest tok rfl
          cases tok with
          | amp | semi | rparen => rfl
          | _ => cases hpipe
  | @pipe ts us t u h hr ih ihr =>
      have hn : 4 * (ts ++ Token.bar :: us).length + 3 ≤ n + 1 := hn
      rw [List.length_append, List.length_cons] at hn
      obtain ⟨n, rfl⟩ : ∃ m, n = m + 1 := ⟨n - 1, by omega⟩
      have hexec : exec (n + 1) (ts ++ .bar :: (us ++ rest)) = .ok (t, .bar :: (us ++ rest)) :=
        ih (.cons rfl _) n (by show 4 * _ + 2 ≤ _; omega)
      have hpipe : pipe (n + 1) (us ++ rest) = .ok (u, rest) := ihr hrest n (by show 4 * _ + 3 ≤ _; omega)
      show pipe (n + 1 + 1) (ts ++ .bar :: us ++ rest) = _
      rw [pipe, List.append_assoc, List.cons_append, hexec, ok_bind]
      show (pipe (n + 1) (us ++ rest) >>= fun v => .ok (Tree.pipe t v.1, v.2)) = _
      rw [hpipe]
      rfl
  | @block ts us t rs h hr ih =>
      have hn : 4 * (Token.lparen :: (ts ++ .rparen :: us)).length + 2 ≤ n + 1 := hn
      rw [List.length_cons, List.length_append, List.length_cons] at hn
      obtain ⟨n, rfl⟩ : ∃ m, n = m + 2 := ⟨n - 2, by omega⟩
      have hline : line (n + 1) (ts ++ .rparen :: (us ++ rest)) = .ok (t, .rparen :: (us ++ rest)) :=
        ih (.cons rfl _) n (by show 4 * _ + 4 ≤ _; omega)
      show exec (n + 2 + 1) (.lparen :: (ts ++ .rparen :: us ++ rest)) = _
      rw [exec, block, List.append_assoc, List.cons_append, hline, ok_bind]
      exact redirs_complete hr (Follow.quiet hrest) (by omega)
  | @simple ts us as rs rs' hr h hmax =>
      have hn : 4 * (ts ++ us).length + 2 ≤ n + 1 := hn
      rw [List.length_append] at hn
      show exec (n + 1) (ts ++ us ++ rest) = _
      rw [List.append_assoc, exec_simple hr h hrest, redirs_complete hr (h.quiet (Follow.quiet hrest)) (by omega), ok_bind]
      exact args_complete h hrest (by omega) (by omega)

/-- **The grammar is unambiguous.** -/
theorem derives_unique {N : Nonterminal} {t' : Tree} (h : Derives N us t) (h' : Derives N us t') : t = t' := by
  have hend : Follow N [] := fun _ htok => by cases htok
  have heq := (derives_complete h hend le_rfl).symm.trans (derives_complete h' hend le_rfl)
  cases heq
  rfl

end Xv6.Sh
