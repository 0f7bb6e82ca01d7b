import Xv6.Lib.Agree

/-!
# `User.Sh` — the parser of `user/sh.c`

The command line is a C string in memory and a pointer a position in it. The tree holds pointers into the line, two for
each word: where it starts and where it ends. `ps` is the position behind what has been read. The recursion of the
parser and its loops count down `n`: `Stop.turns` says that they have been cut off, which is not an outcome of the code.
`malloc` and the stack have room.

`parseexec` keeps a pointer to the node it fills while `parseredirs` wraps that node: `Cmd.addArg` is the assignment
through this pointer.
-/

namespace Xv6.Sh

def MAXARGS : Nat := 10

def O_RDONLY : Nat := 0x000
def O_WRONLY : Nat := 0x001
def O_CREATE : Nat := 0x200
def O_TRUNC : Nat := 0x400

/-- The characters of a string literal. -/
def chars (s : List Char) : List UInt8 := s.map Char.toUInt8

/-- `" \t\r\n\v"` -/
def whitespace : List UInt8 := chars [' ', '\t', '\r', '\n', '\x0b']

/-- `"<|>&;()"` -/
def symbols : List UInt8 := chars ['<', '|', '>', '&', ';', '(', ')']

/-- `strchr(s, c)` is not null, for a `c` that is not the NUL. -/
def strchr (s : List UInt8) (c : UInt8) : Bool := s.contains c

inductive Panic
  /-- `missing file for redirection` -/
  | missingFile
  /-- `parseblock` -/
  | parseblock
  /-- `syntax - missing )` -/
  | missingParen
  /-- `syntax`, for a word that is not one -/
  | badWord
  /-- `too many args` -/
  | tooManyArgs
  /-- `syntax`, after `leftovers: ` and the rest of the line -/
  | leftovers

inductive Stop
  | panic (e : Panic)
  /-- `n` is too small -/
  | turns

inductive Cmd
  /-- `argv` and `eargv` up to the null pointers -/
  | exec (argv : List (Nat × Nat))
  | redir (cmd : Cmd) (file efile mode fd : Nat)
  | pipe (left right : Cmd)
  | list (left right : Cmd)
  | back (cmd : Cmd)

/-- `cmd->argv[argc] = q; cmd->eargv[argc] = eq;` for the simple command below the redirections. -/
def Cmd.addArg : Cmd → Nat → Nat → Cmd
  | .exec argv, q, eq => .exec (argv ++ [(q, eq)])
  | .redir cmd file efile mode fd, q, eq => .redir (cmd.addArg q eq) file efile mode fd
  | cmd, _, _ => cmd

section Parser

variable (mem : Nat → UInt8) (es : Nat)

/-! ## Tokens -/

/-- `while(s < es && p(*s)) s++;` with `n` characters left. -/
def skipLoop (p : UInt8 → Bool) : Nat → Nat → Nat
  | 0, s => s
  | n + 1, s => if s < es ∧ p (mem s) = true then skipLoop p n (s + 1) else s

def skip (p : UInt8 → Bool) (s : Nat) : Nat := skipLoop mem es p (es - s) s

def isSpace (c : UInt8) : Bool := strchr whitespace c

/-- A character of a word. -/
def isWord (c : UInt8) : Bool := !strchr whitespace c && !strchr symbols c

/-- What `gettoken` returns, with `*q`, `*eq` and the new `*ps`. -/
structure Got where
  ret : UInt8
  q : Nat
  eq : Nat
  ps : Nat

/-- The `switch` of `gettoken`: the code of the token at `s`, and where it ends. -/
def tokenAt (s : Nat) : UInt8 × Nat :=
  let c := mem s
  if c = 0 then (c, s)
  else if strchr (chars ['|', '(', ')', ';', '&', '<']) c then (c, s + 1)
  else if c = '>'.toUInt8 then
    if mem (s + 1) = '>'.toUInt8 then ('+'.toUInt8, s + 2) else (c, s + 1)
  else ('a'.toUInt8, skip mem es isWord s)

def gettoken (ps : Nat) : Got :=
  let q := skip mem es isSpace ps
  let (ret, eq) := tokenAt mem es q
  { ret := ret, q := q, eq := eq, ps := skip mem es isSpace eq }

/-- Whether the next character is one of `toks`, and the new `*ps`. -/
def peek (toks : List Char) (ps : Nat) : Bool × Nat :=
  let s := skip mem es isSpace ps
  (mem s != 0 && strchr (chars toks) (mem s), s)

/-! ## The grammar -/

/-- The `switch` of `parseredirs`. -/
def redircmd (tok : UInt8) (cmd : Cmd) (q eq : Nat) : Cmd :=
  if tok = '<'.toUInt8 then .redir cmd q eq O_RDONLY 0
  else if tok = '>'.toUInt8 then .redir cmd q eq (O_WRONLY ||| O_CREATE ||| O_TRUNC) 1
  else if tok = '+'.toUInt8 then .redir cmd q eq (O_WRONLY ||| O_CREATE) 1
  else cmd

def parseredirs : Nat → Cmd → Nat → Except Stop (Cmd × Nat)
  | 0, _, _ => .error .turns
  | n + 1, cmd, ps =>
      let (more, ps) := peek mem es ['<', '>'] ps
      if more then
        let tok := gettoken mem es ps
        let file := gettoken mem es tok.ps
        if file.ret ≠ 'a'.toUInt8 then .error (.panic .missingFile)
        else parseredirs n (redircmd tok.ret cmd file.q file.eq) file.ps
      else .ok (cmd, ps)

/-- The loop of `parseexec`. -/
def parseargs : Nat → Cmd → Nat → Nat → Except Stop (Cmd × Nat)
  | 0, _, _, _ => .error .turns
  | n + 1, ret, argc, ps => do
      let (stop, ps) := peek mem es ['|', ')', '&', ';'] ps
      if stop then .ok (ret, ps)
      else
        let tok := gettoken mem es ps
        if tok.ret = 0 then .ok (ret, tok.ps)
        else if tok.ret ≠ 'a'.toUInt8 then .error (.panic .badWord)
        else if argc + 1 ≥ MAXARGS then .error (.panic .tooManyArgs)
        else
          let (ret, ps) ← parseredirs mem es n (ret.addArg tok.q tok.eq) tok.ps
          parseargs n ret (argc + 1) ps

/-- The loop of `parseline`. -/
def parsebacks : Nat → Cmd → Nat → Except Stop (Cmd × Nat)
  | 0, _, _ => .error .turns
  | n + 1, cmd, ps =>
      let (more, ps) := peek mem es ['&'] ps
      if more then parsebacks n (.back cmd) (gettoken mem es ps).ps else .ok (cmd, ps)

mutual

def parseline : Nat → Nat → Except Stop (Cmd × Nat)
  | 0, _ => .error .turns
  | n + 1, ps => do
      let (cmd, ps) ← parsepipe n ps
      let (cmd, ps) ← parsebacks mem es n cmd ps
      let (more, ps) := peek mem es [';'] ps
      if more then
        let (right, ps) ← parseline n (gettoken mem es ps).ps
        .ok (.list cmd right, ps)
      else .ok (cmd, ps)

def parsepipe : Nat → Nat → Except Stop (Cmd × Nat)
  | 0, _ => .error .turns
  | n + 1, ps => do
      let (cmd, ps) ← parseexec n ps
      let (more, ps) := peek mem es ['|'] ps
      if more then
        let (right, ps) ← parsepipe n (gettoken mem es ps).ps
        .ok (.pipe cmd right, ps)
      else .ok (cmd, ps)

def parseexec : Nat → Nat → Except Stop (Cmd × Nat)
  | 0, _ => .error .turns
  | n + 1, ps => do
      let (block, ps) := peek mem es ['('] ps
      if block then parseblock n ps
      else
        let (ret, ps) ← parseredirs mem es n (.exec []) ps
        parseargs mem es n ret 0 ps

def parseblock : Nat → Nat → Except Stop (Cmd × Nat)
  | 0, _ => .error .turns
  | n + 1, ps => do
      let (block, ps) := peek mem es ['('] ps
      if !block then .error (.panic .parseblock)
      else
        let (cmd, ps) ← parseline n (gettoken mem es ps).ps
        let (close, ps) := peek mem es [')'] ps
        if !close then .error (.panic .missingParen)
        else parseredirs mem es n cmd (gettoken mem es ps).ps

end

end Parser

/-! ## `parsecmd` -/

/-- Writes a NUL behind every word of the tree. -/
def nulterminate : Cmd → (Nat → UInt8) → Nat → UInt8
  | .exec argv, mem => argv.foldl (fun mem arg => Function.update mem arg.2 0) mem
  | .redir cmd _ efile _ _, mem => Function.update (nulterminate cmd mem) efile 0
  | .pipe left right, mem => nulterminate right (nulterminate left mem)
  | .list left right, mem => nulterminate right (nulterminate left mem)
  | .back cmd, mem => nulterminate cmd mem

/-- The tree, and the memory with its words terminated; the string is at position 0 and has the length `es`. -/
def parsecmd (n : Nat) (mem : Nat → UInt8) (es : Nat) : Except Stop (Cmd × (Nat → UInt8)) := do
  let (cmd, ps) ← parseline mem es n 0
  let (_, ps) := peek mem es [] ps
  if ps ≠ es then .error (.panic .leftovers) else .ok (cmd, nulterminate cmd mem)

end Xv6.Sh
