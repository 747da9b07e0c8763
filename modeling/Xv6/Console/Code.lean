/-
The input side of kernel/console.c: a ring of 128 bytes with three free-running indices, the
interrupt handler that edits the last line, and the readers.
-/
import Xv6.Lib.Transition
import Mathlib.Tactic.Ring

namespace Xv6.Console

def INPUT_BUF_SIZE : UInt32 := 128

/-- `C('D')`, `C('H')`, `C('P')` and `C('U')`, the delete key, `'\n'` and `'\r'`. -/
def EOF : UInt8 := 4
def BACKSPACE : UInt8 := 8
def DUMP : UInt8 := 16
def KILL : UInt8 := 21
def DELETE : UInt8 := 127
def NEWLINE : UInt8 := 10
def RETURN : UInt8 := 13

/-- The buffer and its read, write and edit index. -/
structure Cons where
  buf : Nat → UInt8 := fun _ => 0
  r : UInt32 := 0
  w : UInt32 := 0
  e : UInt32 := 0

namespace Cons

def get (s : Cons) (i : UInt32) : UInt8 := s.buf (i % INPUT_BUF_SIZE).toNat

/-- Store at the edit index. -/
def put (s : Cons) (b : UInt8) : Cons :=
  { s with buf := Function.update s.buf (s.e % INPUT_BUF_SIZE).toNat b, e := s.e + 1 }

/-- The loop of control-U. -/
def killLine (s : Cons) : Cons :=
  if s.e ≠ s.w ∧ s.get (s.e - 1) ≠ NEWLINE then killLine { s with e := s.e - 1 } else s
termination_by (s.e - s.w).toNat
decreasing_by
  next h =>
    have hne : s.e.toNat ≠ s.w.toNat := fun h0 => h.1 (UInt32.toNat_inj.mp h0)
    have he := s.e.toNat_lt
    have hw := s.w.toNat_lt
    have hone : (1 : UInt32).toNat = 1 := rfl
    change (s.e - 1 - s.w).toNat < (s.e - s.w).toNat
    rw [UInt32.toNat_sub, UInt32.toNat_sub, UInt32.toNat_sub, hone]
    omega

/-- The interrupt handler for one input character; the second component says whether it wakes up
the readers.  Its echo is left out. -/
def consoleintr (s : Cons) (b : UInt8) : Cons × Bool :=
  if b = DUMP then (s, false)
  else if b = KILL then (s.killLine, false)
  else if b = BACKSPACE ∨ b = DELETE then
    (if s.e ≠ s.w then { s with e := s.e - 1 } else s, false)
  else if b ≠ 0 ∧ s.e - s.r < INPUT_BUF_SIZE then
    let b := if b = RETURN then NEWLINE else b
    let s := s.put b
    if b = NEWLINE ∨ b = EOF ∨ s.e - s.r = INPUT_BUF_SIZE then ({ s with w := s.e }, true)
    else (s, false)
  else (s, false)

end Cons

/-- A process in consoleread: the bytes still wanted, the bytes asked for, and the bytes that it
has been given.  It waits for cons.lock, holds it, sleeps, or has returned. -/
inductive Reader
  | idle
  | waiting (n target : Int) (got : List UInt8)
  | loop (n target : Int) (got : List UInt8)
  | asleep (n target : Int) (got : List UInt8)
  | done (result : Int) (got : List UInt8)

def Reader.wake : Reader → Reader
  | asleep n target got => waiting n target got
  | x => x

/-- The reference line editor: the bytes of all committed lines, how many of them have been
consumed, and the line that is being edited. -/
structure Editor where
  committed : List UInt8 := []
  taken : Nat := 0
  line : List UInt8 := []

namespace Editor

/-- The bytes that are not consumed yet. -/
def pending (ed : Editor) : Nat := ed.committed.length - ed.taken + ed.line.length

def commit (ed : Editor) : Editor :=
  { ed with committed := ed.committed ++ ed.line, line := [] }

/-- Append a character to the line, unless the buffer is full. -/
def append (ed : Editor) (b : UInt8) : Editor :=
  if ed.pending < 128 then
    let b := if b = RETURN then NEWLINE else b
    let ed := { ed with line := ed.line ++ [b] }
    if b = NEWLINE ∨ b = EOF ∨ ed.pending = 128 then ed.commit else ed
  else ed

/-- The editor of which every character is either an edit or appended. -/
def edit (ed : Editor) (b : UInt8) : Editor :=
  if b = KILL then { ed with line := [] }
  else if b = BACKSPACE ∨ b = DELETE then { ed with line := ed.line.dropLast }
  else ed.append b

/-- The editor of the console, which ignores NUL and control-P. -/
def input (ed : Editor) (b : UInt8) : Editor :=
  if b = 0 ∨ b = DUMP then ed else ed.edit b

end Editor

/-- The console and its readers.  `editor` and `delivered`, the bytes given to readers in order,
are history. -/
structure Sys where
  cons : Cons := {}
  lock : Option Nat := none
  reader : Nat → Reader := fun _ => .idle
  killed : Nat → Bool := fun _ => false
  editor : Editor := {}
  delivered : List UInt8 := []

inductive Act
  | intr (b : UInt8)
  | call (p : Nat) (n : Int)
  | run (p : Nat)
  | kill (p : Nat)

namespace Sys

def goto (s : Sys) (p : Nat) (x : Reader) : Sys := { s with reader := Function.update s.reader p x }

/-- Release the lock and return. -/
def finish (s : Sys) (p : Nat) (result : Int) (got : List UInt8) : Sys :=
  { s.goto p (.done result got) with lock := none }

/-- Advance the read index. -/
def take (s : Sys) : Sys :=
  { s with
    cons := { s.cons with r := s.cons.r + 1 }
    editor := { s.editor with taken := s.editor.taken + 1 } }

/-- The index goes back by one, so that the next read sees the character again. -/
def putBack (s : Sys) : Sys :=
  { s with
    cons := { s.cons with r := s.cons.r - 1 }
    editor := { s.editor with taken := s.editor.taken - 1 } }

/-- One turn of the loop of consoleread, with cons.lock held. -/
def turn (s : Sys) (p : Nat) (n target : Int) (got : List UInt8) : Sys :=
  if ¬ 0 < n then s.finish p (target - n) got
  else if s.cons.r = s.cons.w then
    if s.killed p then s.finish p (-1) got
    else { s.goto p (.asleep n target got) with lock := none }
  else
    let b := s.cons.get s.cons.r
    let s := s.take
    if b = EOF then
      let s := if n < target then s.putBack else s
      s.finish p (target - n) got
    else
      let s := { s with delivered := s.delivered ++ [b] }
      if b = NEWLINE then s.finish p (target - (n - 1)) (got ++ [b])
      else s.goto p (.loop (n - 1) target (got ++ [b]))

/-- A step of the system.  Between its steps the handler and the readers hold no lock other than
the one recorded. -/
def step (s : Sys) : Act → Option (Except Empty Sys)
  | .intr b =>
      if s.lock = none then
        let (cons, woken) := s.cons.consoleintr b
        some (.ok { s with
          cons := cons
          reader := fun p => if woken then (s.reader p).wake else s.reader p
          editor := s.editor.input b })
      else none
  | .call p n =>
      match s.reader p with
      | .idle | .done .. => some (.ok (s.goto p (.waiting n n [])))
      | _ => none
  | .run p =>
      match s.reader p with
      | .waiting n target got =>
          if s.lock = none then
            some (.ok { s.goto p (.loop n target got) with lock := some p })
          else none
      | .loop n target got => some (.ok (s.turn p n target got))
      | _ => none
  | .kill p =>
      some (.ok { s.goto p (s.reader p).wake with killed := Function.update s.killed p true })

end Sys

end Xv6.Console
