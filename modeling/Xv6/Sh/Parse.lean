/-
The parser of user/sh.c.  A `char *` into the line is the text from there to `es`, so that
`s < es` says that this text is not empty.  malloc is taken to succeed.  Loops and recursive
calls have fuel, and a parse without fuel is told apart from one that ends in panic.
-/
import Mathlib.Logic.Function.Basic

namespace Xv6.Sh

abbrev Ptr := List UInt8

def MAXARGS : Nat := 10

def O_RDONLY : Nat := 0x000
def O_WRONLY : Nat := 0x001
def O_CREATE : Nat := 0x200
def O_TRUNC : Nat := 0x400

def text (s : List Char) : List UInt8 := s.map Char.toUInt8

def whitespace : List UInt8 := text [' ', '\t', '\r', '\n', Char.ofNat 11]

def symbols : List UInt8 := text ['<', '|', '>', '&', ';', '(', ')']

/-- A word from `q` to `eq`. -/
structure Span where
  q : Ptr
  eq : Ptr
deriving DecidableEq

/-- What gettoken returns, with q and eq of the words; `append` is `'+'`, and `none` stands
for 0. -/
inductive Token (W : Type)
  | bar
  | lparen
  | rparen
  | semi
  | amp
  | lt
  | gt
  | append
  | word (w : W)
deriving DecidableEq

/-- `struct cmd` and the structures behind it. -/
inductive Cmd (W : Type)
  | exec (argv : List W)
  | redir (cmd : Cmd W) (file : W) (mode fd : Nat)
  | pipe (left right : Cmd W)
  | list (left right : Cmd W)
  | back (cmd : Cmd W)
deriving DecidableEq

inductive Stop
  | fuel
  | panic (msg : String)
deriving DecidableEq

def isWhitespace (c : UInt8) : Bool := whitespace.contains c

def isWordChar (c : UInt8) : Bool := !whitespace.contains c && !symbols.contains c

def skip (s : Ptr) : Ptr := s.dropWhile isWhitespace

/-- The switch of gettoken at the first character `c` of a token, where `s` is the rest. -/
def scan (c : UInt8) (s : Ptr) : Token Span × Ptr :=
  if c = '|'.toUInt8 then (.bar, s)
  else if c = '('.toUInt8 then (.lparen, s)
  else if c = ')'.toUInt8 then (.rparen, s)
  else if c = ';'.toUInt8 then (.semi, s)
  else if c = '&'.toUInt8 then (.amp, s)
  else if c = '<'.toUInt8 then (.lt, s)
  else if c = '>'.toUInt8 then
    if s.head? = some '>'.toUInt8 then (.append, s.tail) else (.gt, s)
  else
    let eq := (c :: s).dropWhile isWordChar
    (.word ⟨c :: s, eq⟩, eq)

def gettoken (s : Ptr) : Option (Token Span) × Ptr :=
  match skip s with
  | [] => (none, [])
  | c :: rest => (some (scan c rest).1, skip (scan c rest).2)

def peek (s : Ptr) (toks : List Char) : Bool × Ptr :=
  ((skip s).head?.any (text toks).contains, skip s)

/-- `cmd->argv[argc] = q`, where the redirections wrap cmd. -/
def Cmd.addArg {W : Type} : Cmd W → W → Cmd W
  | .exec argv, w => .exec (argv ++ [w])
  | .redir cmd file mode fd, w => .redir (cmd.addArg w) file mode fd
  | cmd, _ => cmd

def parseredirs : Nat → Cmd Span → Ptr → Except Stop (Cmd Span × Ptr)
  | 0, _, _ => .error .fuel
  | n + 1, cmd, s =>
      match peek s ['<', '>'] with
      | (false, s) => .ok (cmd, s)
      | (true, s) =>
          let (tok, s) := gettoken s
          match gettoken s with
          | (some (.word file), s) =>
              match tok with
              | some .lt => parseredirs n (.redir cmd file O_RDONLY 0) s
              | some .gt =>
                  parseredirs n (.redir cmd file (O_WRONLY ||| O_CREATE ||| O_TRUNC) 1) s
              | some .append => parseredirs n (.redir cmd file (O_WRONLY ||| O_CREATE) 1) s
              | _ => parseredirs n cmd s
          | _ => .error (.panic "missing file for redirection")

/-- The loop of parseexec. -/
def parseargs : Nat → Nat → Cmd Span → Ptr → Except Stop (Cmd Span × Ptr)
  | 0, _, _, _ => .error .fuel
  | n + 1, argc, ret, s =>
      match peek s ['|', ')', '&', ';'] with
      | (true, s) => .ok (ret, s)
      | (false, s) =>
          match gettoken s with
          | (none, s) => .ok (ret, s)
          | (some (.word w), s) =>
              if argc + 1 ≥ MAXARGS then .error (.panic "too many args")
              else do
                let (ret, s) ← parseredirs n (ret.addArg w) s
                parseargs n (argc + 1) ret s
          | _ => .error (.panic "syntax")

/-- The loop of parseline. -/
def parsebacks : Nat → Cmd Span → Ptr → Except Stop (Cmd Span × Ptr)
  | 0, _, _ => .error .fuel
  | n + 1, cmd, s =>
      match peek s ['&'] with
      | (true, s) => parsebacks n (.back cmd) (gettoken s).2
      | (false, s) => .ok (cmd, s)

mutual

def parseline : Nat → Ptr → Except Stop (Cmd Span × Ptr)
  | 0, _ => .error .fuel
  | n + 1, s => do
      let (cmd, s) ← parsepipe n s
      let (cmd, s) ← parsebacks n cmd s
      match peek s [';'] with
      | (true, s) =>
          let (right, s) ← parseline n (gettoken s).2
          .ok (.list cmd right, s)
      | (false, s) => .ok (cmd, s)

def parsepipe : Nat → Ptr → Except Stop (Cmd Span × Ptr)
  | 0, _ => .error .fuel
  | n + 1, s => do
      let (cmd, s) ← parseexec n s
      match peek s ['|'] with
      | (true, s) =>
          let (right, s) ← parsepipe n (gettoken s).2
          .ok (.pipe cmd right, s)
      | (false, s) => .ok (cmd, s)

def parseblock : Nat → Ptr → Except Stop (Cmd Span × Ptr)
  | 0, _ => .error .fuel
  | n + 1, s =>
      match peek s ['('] with
      | (false, _) => .error (.panic "parseblock")
      | (true, s) => do
          let (cmd, s) ← parseline n (gettoken s).2
          match peek s [')'] with
          | (false, _) => .error (.panic "syntax - missing )")
          | (true, s) => parseredirs n cmd (gettoken s).2

def parseexec : Nat → Ptr → Except Stop (Cmd Span × Ptr)
  | 0, _ => .error .fuel
  | n + 1, s =>
      match peek s ['('] with
      | (true, s) => parseblock n s
      | (false, s) => do
          let (ret, s) ← parseredirs n (.exec []) s
          parseargs n 0 ret s

end

/-- Put a NUL after each word; the line has `len` characters. -/
def nulterminate (len : Nat) : Cmd Span → List UInt8 → List UInt8
  | .exec argv, buf => argv.foldl (fun buf w => buf.set (len - w.eq.length) 0) buf
  | .redir cmd file _ _, buf => (nulterminate len cmd buf).set (len - file.eq.length) 0
  | .pipe left right, buf => nulterminate len right (nulterminate len left buf)
  | .list left right, buf => nulterminate len right (nulterminate len left buf)
  | .back cmd, buf => nulterminate len cmd buf

/-- The tree with the buffer that its pointers point into. -/
def parsecmd (n : Nat) (s : Ptr) : Except Stop (Cmd Span × List UInt8) := do
  let (cmd, rest) ← parseline n s
  if (peek rest []).2 ≠ [] then .error (.panic "syntax")
  else .ok (cmd, nulterminate s.length cmd (s ++ [0]))

/-- The C string at `q`. -/
def cstring (len : Nat) (buf : List UInt8) (w : Span) : List UInt8 :=
  (buf.drop (len - w.q.length)).takeWhile (· ≠ 0)

end Xv6.Sh
