import Xv6.Lib.Trace

/-!
# `Console.Model` — console input of `kernel/console.c`

`consoleintr` puts characters into a ring, `consoleread` takes lines out of it. Both work under `cons.lock`, so
a call of `consoleintr` is one step, and so is what a `consoleread` does from the moment it has the lock to the
`sleep` or `return` at which it gives it up. A reader may be woken at any time; a killed process leaves at its
next test of `killed`.

The same machine runs on two devices: the ring with its three wrapping indices, and `Lines`, the two-part model
of what the ring is for. Echoing is left out.
-/

namespace Xv6.Console

def INPUT_BUF : Nat := 128

def ctrlD : UInt8 := 4
def ctrlH : UInt8 := 8
def newline : UInt8 := 10
def carriageReturn : UInt8 := 13
def ctrlP : UInt8 := 16
def ctrlU : UInt8 := 21
def delete : UInt8 := 127

/-- How a critical section of `consoleread` ends. -/
inductive Exit
  | asleep
  | killed
  | done
deriving DecidableEq

/-- What the machine does with a device: `intr` handles a character; `read target killed n` executes
    `consoleread` with `n` of `target` bytes left, up to its next `sleep` or `return`, and gives the new `n`, the
    bytes copied out and how it ended. -/
structure Device (D : Type) where
  intr : D → UInt8 → D
  read : Nat → Bool → Nat → D → D × Nat × List UInt8 × Exit

/-! ## The ring -/

/-- `cons`: the buffer with its read, write and edit index. -/
structure Cons where
  buf : Nat → UInt8
  r : UInt32
  w : UInt32
  e : UInt32

def Cons.get (c : Cons) (i : UInt32) : UInt8 := c.buf (i.toNat % INPUT_BUF)

def Cons.put (c : Cons) (i : UInt32) (ch : UInt8) : Cons :=
  { c with buf := Function.update c.buf (i.toNat % INPUT_BUF) ch }

/-- The loop of `^U`; it takes at most `e - w` turns. -/
def killLine : Nat → Cons → Cons
  | 0, c => c
  | k + 1, c => if c.e ≠ c.w ∧ c.get (c.e - 1) ≠ newline then killLine k { c with e := c.e - 1 } else c

def consoleintr (c : Cons) (ch : UInt8) : Cons :=
  if ch = ctrlP then c
  else if ch = ctrlU then killLine (c.e - c.w).toNat c
  else if ch = ctrlH ∨ ch = delete then if c.e ≠ c.w then { c with e := c.e - 1 } else c
  else if ch ≠ 0 ∧ (c.e - c.r).toNat < INPUT_BUF then
    let ch := if ch = carriageReturn then newline else ch
    let c := { c.put c.e ch with e := c.e + 1 }
    if ch = newline ∨ ch = ctrlD ∨ c.e = c.r + UInt32.ofNat INPUT_BUF then { c with w := c.e } else c
  else c

def consoleread (target : Nat) (killed : Bool) : Nat → Cons → Cons × Nat × List UInt8 × Exit
  | 0, c => (c, 0, [], .done)
  | n + 1, c =>
      if c.r = c.w then (c, n + 1, [], if killed then .killed else .asleep)
      else
        let ch := c.get c.r
        let c := { c with r := c.r + 1 }
        if ch = ctrlD then
          -- save ^D for next time
          if n + 1 < target then ({ c with r := c.r - 1 }, n + 1, [], .done) else (c, n + 1, [], .done)
        else if ch = newline then (c, n, [ch], .done)
        else
          let x := consoleread target killed n c
          (x.1, x.2.1, ch :: x.2.2.1, x.2.2.2)

def ring : Device Cons := ⟨consoleintr, consoleread⟩

/-! ## Lines -/

/-- What the ring is for: the bytes that can be read, and the line that is being edited. -/
structure Lines where
  queue : List UInt8
  line : List UInt8

def Lines.held (l : Lines) : Nat := l.queue.length + l.line.length

/-- An ordinary character joins the line if there is room; a newline, `^D` or a full buffer commits the line. -/
def Lines.type (l : Lines) (ch : UInt8) : Lines :=
  if l.held < INPUT_BUF then
    if ch = newline ∨ ch = ctrlD ∨ l.held + 1 = INPUT_BUF then ⟨l.queue ++ l.line ++ [ch], []⟩
    else ⟨l.queue, l.line ++ [ch]⟩
  else l

def Lines.intr (l : Lines) (ch : UInt8) : Lines :=
  if ch = 0 ∨ ch = ctrlP then l
  else if ch = ctrlU then ⟨l.queue, []⟩
  else if ch = ctrlH ∨ ch = delete then ⟨l.queue, l.line.dropLast⟩
  else l.type (if ch = carriageReturn then newline else ch)

/-- Take bytes from the queue up to a newline, `n` bytes, or a `^D`; this is taken only if nothing else is. -/
def takeLine (target : Nat) (killed : Bool) : Nat → List UInt8 → List UInt8 × Nat × List UInt8 × Exit
  | 0, q => (q, 0, [], .done)
  | n + 1, [] => ([], n + 1, [], if killed then .killed else .asleep)
  | n + 1, ch :: q =>
      if ch = ctrlD then (if n + 1 < target then ch :: q else q, n + 1, [], .done)
      else if ch = newline then (q, n, [ch], .done)
      else
        let x := takeLine target killed n q
        (x.1, x.2.1, ch :: x.2.2.1, x.2.2.2)

def Lines.read (target : Nat) (killed : Bool) (n : Nat) (l : Lines) : Lines × Nat × List UInt8 × Exit :=
  let x := takeLine target killed n l.queue
  (⟨x.1, l.line⟩, x.2)

def lines : Device Lines := ⟨Lines.intr, Lines.read⟩

/-! ## The machine -/

/-- A process in `consoleread`: the bytes it asked for, those left, and those at the destination. -/
structure Reader where
  target : Nat
  n : Nat
  out : List UInt8
deriving DecidableEq

/-- The device, the calls of `consoleread` in progress, and those that have returned, with their bytes and their
    return value. -/
structure Sys (D : Type) (N : Nat) where
  dev : D
  readers : Fin N → Option Reader
  returned : List (Fin N × List UInt8 × Int)

inductive Act (N : Nat)
  | intr (ch : UInt8)
  | read (p : Fin N) (n : Int) (killed : Bool)
  | wake (p : Fin N) (killed : Bool)

variable {D : Type} {N : Nat}

/-- A process has the lock, from the start of `consoleread` or after a `sleep`. -/
def Sys.read (d : Device D) (s : Sys D N) (p : Fin N) (rd : Reader) (killed : Bool) : Sys D N :=
  let x := d.read rd.target killed rd.n s.dev
  let out := rd.out ++ x.2.2.1
  match x.2.2.2 with
  | .asleep => { s with dev := x.1, readers := Function.update s.readers p (some ⟨rd.target, x.2.1, out⟩) }
  | .killed =>
      { dev := x.1, readers := Function.update s.readers p none, returned := s.returned ++ [(p, out, -1)] }
  | .done =>
      { dev := x.1, readers := Function.update s.readers p none
        returned := s.returned ++ [(p, out, (rd.target - x.2.1 : Int))] }

def step (d : Device D) (s : Sys D N) : Act N → Option (Sys D N)
  | .intr ch => some { s with dev := d.intr s.dev ch }
  | .read p n killed =>
      if s.readers p = none then some (s.read d p ⟨n.toNat, n.toNat, []⟩ killed) else none
  | .wake p killed => (s.readers p).map fun rd => s.read d p rd killed

/-- Before the first character. -/
def boot (dev : D) : Sys D N := ⟨dev, fun _ => none, []⟩

def consoleinit : Cons := ⟨fun _ => 0, 0, 0, 0⟩

end Xv6.Console
