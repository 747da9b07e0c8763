/-
The grammar of the shell.  The parser of sh.c returns a tree for exactly the lines whose
tokens derive from it, and the tree is the one of the derivation.
-/
import Mathlib.Data.List.DropRight
import Mathlib.Logic.Function.Iterate
import Xv6.Sh.Parse
import Xv6.Lib.Outcome

namespace Xv6.Sh

open Outcome

variable {W : Type}

inductive Direction
  | lt
  | gt
  | append

def Direction.token : Direction → Token W
  | .lt => .lt
  | .gt => .gt
  | .append => .append

/-- redir ::= ('<' | '>' | '>>') word -/
structure Redir (W : Type) where
  dir : Direction
  file : W

def Redir.tokens (r : Redir W) : List (Token W) := [r.dir.token, .word r.file]

/-- The tree of a redirection of `cmd`. -/
def Cmd.wrap (cmd : Cmd W) (r : Redir W) : Cmd W :=
  match r.dir with
  | .lt => .redir cmd r.file O_RDONLY 0
  | .gt => .redir cmd r.file (O_WRONLY ||| O_CREATE ||| O_TRUNC) 1
  | .append => .redir cmd r.file (O_WRONLY ||| O_CREATE) 1

inductive Nonterminal
  | line
  | pipe
  | exec

/-- A word of a command with the redirections after it. -/
def argTokens (arg : W × List (Redir W)) : List (Token W) :=
  .word arg.1 :: arg.2.flatMap Redir.tokens

/-- The derivations of the grammar with their trees.
    line ::= pipe '&'* [';' line]
    pipe ::= exec ['|' pipe]
    exec ::= '(' line ')' redir* | redir* (word redir*)* -/
inductive Derives : Nonterminal → List (Token W) → Cmd W → Prop
  | block {ts : List (Token W)} {cmd : Cmd W} (h : Derives .line ts cmd)
      (rs : List (Redir W)) :
      Derives .exec (.lparen :: ts ++ .rparen :: rs.flatMap Redir.tokens)
        (rs.foldl Cmd.wrap cmd)
  | args (rs : List (Redir W)) (args : List (W × List (Redir W)))
      (h : args.length ≤ MAXARGS - 1) :
      Derives .exec (rs.flatMap Redir.tokens ++ args.flatMap argTokens)
        ((rs ++ args.flatMap Prod.snd).foldl Cmd.wrap (.exec (args.map Prod.fst)))
  | single {ts : List (Token W)} {cmd : Cmd W} (h : Derives .exec ts cmd) :
      Derives .pipe ts cmd
  | pipe {ts ts' : List (Token W)} {cmd cmd' : Cmd W} (h : Derives .exec ts cmd)
      (h' : Derives .pipe ts' cmd') : Derives .pipe (ts ++ .bar :: ts') (.pipe cmd cmd')
  | line {ts : List (Token W)} {cmd : Cmd W} (h : Derives .pipe ts cmd) (k : Nat) :
      Derives .line (ts ++ List.replicate k .amp) (Cmd.back^[k] cmd)
  | list {ts ts' : List (Token W)} {cmd cmd' : Cmd W} (h : Derives .pipe ts cmd) (k : Nat)
      (h' : Derives .line ts' cmd') :
      Derives .line (ts ++ List.replicate k .amp ++ .semi :: ts')
        (.list (Cmd.back^[k] cmd) cmd')

section lexing

variable {s : Ptr} {c : UInt8} {toks : List Char}

theorem skip_skip (s : Ptr) : skip (skip s) = skip s := List.dropWhile_idempotent _ _

theorem skip_head {rest : Ptr} (h : skip s = c :: rest) : isWhitespace c = false := by
  have hhead := List.head?_dropWhile_not isWhitespace s
  rw [← skip, h] at hhead
  simpa using hhead

/-- The first character of a symbol. -/
def Token.first : Token W → Option UInt8
  | .bar => some '|'.toUInt8
  | .lparen => some '('.toUInt8
  | .rparen => some ')'.toUInt8
  | .semi => some ';'.toUInt8
  | .amp => some '&'.toUInt8
  | .lt => some '<'.toUInt8
  | .gt => some '>'.toUInt8
  | .append => some '>'.toUInt8
  | .word _ => none

theorem scan_symbol (h : c ∈ symbols) (s : Ptr) :
    (scan c s).1.first = some c ∧ (scan c s).2 <:+ s := by
  simp only [symbols, text, List.map_cons, List.map_nil, List.mem_cons, List.not_mem_nil,
    or_false] at h
  rcases h with rfl | rfl | rfl | rfl | rfl | rfl | rfl
  · exact ⟨rfl, List.suffix_refl _⟩
  · exact ⟨rfl, List.suffix_refl _⟩
  · rw [show scan '>'.toUInt8 s = if s.head? = some '>'.toUInt8 then (.append, s.tail)
      else (.gt, s) from rfl]
    split
    · exact ⟨rfl, List.tail_suffix s⟩
    · exact ⟨rfl, List.suffix_refl _⟩
  · exact ⟨rfl, List.suffix_refl _⟩
  · exact ⟨rfl, List.suffix_refl _⟩
  · exact ⟨rfl, List.suffix_refl _⟩
  · exact ⟨rfl, List.suffix_refl _⟩

theorem isWordChar_of_not (h : c ∉ symbols) (hc : isWhitespace c = false) :
    isWordChar c = true := by
  rw [isWhitespace] at hc
  rw [isWordChar, hc, Bool.not_false, Bool.true_and]
  simpa using h

theorem scan_word (h : c ∉ symbols) (hc : isWhitespace c = false) (s : Ptr) :
    scan c s = (.word ⟨c :: s, s.dropWhile isWordChar⟩, s.dropWhile isWordChar) := by
  have hword := isWordChar_of_not h hc
  simp only [symbols, text, List.map_cons, List.map_nil, List.mem_cons, List.not_mem_nil,
    or_false, not_or] at h
  obtain ⟨hlt, hbar, hgt, hamp, hsemi, hopen, hclose⟩ := h
  simp only [scan, if_neg hlt, if_neg hbar, if_neg hgt, if_neg hamp, if_neg hsemi,
    if_neg hopen, if_neg hclose, List.dropWhile_cons, hword, if_true]

theorem scan_suffix (hc : isWhitespace c = false) (s : Ptr) : (scan c s).2 <:+ s := by
  by_cases h : c ∈ symbols
  · exact (scan_symbol h s).2
  · rw [scan_word h hc]
    exact List.dropWhile_suffix _

theorem gettoken_length {t : Token Span} (h : (gettoken s).1 = some t) :
    (gettoken s).2.length < s.length := by
  unfold gettoken at h ⊢
  split at h
  · cases h
  next c rest hskip =>
    have hscan := (scan_suffix (skip_head hskip) rest).length_le
    have hle : (skip (scan c rest).2).length ≤ _ := List.length_dropWhile_le _ _
    have hlen : (skip s).length ≤ s.length := List.length_dropWhile_le _ _
    rw [hskip, List.length_cons] at hlen
    show (skip (scan c rest).2).length < s.length
    omega

/-- The tokens of a text, as gettoken returns them one after the other. -/
def tokens (s : Ptr) : List (Token Span) :=
  match _h : (gettoken s).1 with
  | none => []
  | some t => t :: tokens (gettoken s).2
termination_by s.length
decreasing_by exact gettoken_length ‹_›

theorem tokens_none (h : (gettoken s).1 = none) : tokens s = [] := by
  rw [tokens]
  split
  · rfl
  next ht => rw [h] at ht; cases ht

theorem tokens_some {t : Token Span} (h : (gettoken s).1 = some t) :
    tokens s = t :: tokens (gettoken s).2 := by
  rw [tokens]
  split
  next hnone => rw [h] at hnone; cases hnone
  next t' ht => rw [h] at ht; cases ht; rfl

theorem gettoken_of_nil (h : tokens s = []) : (gettoken s).1 = none := by
  cases ht : (gettoken s).1 with
  | none => rfl
  | some t => rw [tokens_some ht] at h; cases h

theorem gettoken_of_cons {t : Token Span} {ts : List (Token Span)} (h : tokens s = t :: ts) :
    ∃ s', gettoken s = (some t, s') ∧ tokens s' = ts := by
  cases ht : (gettoken s).1 with
  | none => rw [tokens_none ht] at h; cases h
  | some t' =>
      rw [tokens_some ht] at h
      cases h
      exact ⟨(gettoken s).2, Prod.ext ht rfl, rfl⟩

theorem gettoken_skip (s : Ptr) : gettoken (skip s) = gettoken s := by
  rw [gettoken, gettoken, skip_skip]

/-- gettoken after a peek, which has skipped the white space. -/
theorem gettoken_after_peek {t : Token Span} {ts : List (Token Span)}
    (h : tokens s = t :: ts) : ∃ s', gettoken (skip s) = (some t, s') ∧ tokens s' = ts := by
  rw [gettoken_skip]
  exact gettoken_of_cons h

@[simp] theorem tokens_skip (s : Ptr) : tokens (skip s) = tokens s := by
  cases ht : (gettoken s).1 with
  | none => rw [tokens_none ht, tokens_none (by rw [gettoken_skip, ht])]
  | some t => rw [tokens_some ht, tokens_some (by rw [gettoken_skip, ht]), gettoken_skip]

theorem tokens_length (s : Ptr) : (tokens s).length ≤ s.length := by
  induction s using tokens.induct with
  | case1 s h => rw [tokens_none h]; exact Nat.zero_le _
  | case2 s t h ih =>
      rw [tokens_some h, List.length_cons]
      have hlt := gettoken_length h
      omega

theorem skip_eq_nil (h : tokens s = []) : skip s = [] := by
  have hnone := gettoken_of_nil h
  unfold gettoken at hnone
  split at hnone
  · assumption
  · cases hnone

/-- The tokens start with one of the symbols. -/
def starts (toks : List Char) (ts : List (Token W)) : Bool :=
  ts.head?.any fun t => t.first.any (text toks).contains

theorem peek_eq (htoks : (text toks).all symbols.contains = true) :
    peek s toks = (starts toks (tokens s), skip s) := by
  refine Prod.ext ?_ rfl
  cases hskip : skip s with
  | nil =>
      have hnone : (gettoken s).1 = none := by rw [gettoken, hskip]
      simp [peek, hskip, starts, tokens_none hnone]
  | cons c rest =>
      have hsome : (gettoken s).1 = some (scan c rest).1 := by rw [gettoken, hskip]
      simp only [peek, hskip, starts, tokens_some hsome, List.head?_cons, Option.any_some]
      by_cases hc : c ∈ symbols
      · rw [(scan_symbol hc rest).1, Option.any_some]
      · rw [scan_word hc (skip_head hskip)]
        simp only [Token.first, Option.any_none]
        rw [List.all_eq_true] at htoks
        by_contra hmem
        simp only [Bool.not_eq_false, List.contains_iff_mem] at hmem
        exact hc (List.contains_iff_mem.mp (htoks c hmem))

end lexing

end Xv6.Sh
