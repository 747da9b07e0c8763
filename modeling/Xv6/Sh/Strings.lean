/-
The strings of a command.  nulterminate writes only after words, so that each pointer of the
tree that parsecmd returns points to the word it was made for.
-/
import Xv6.Sh.Correct

namespace Xv6.Sh

open Outcome

variable {s : Ptr} {cmd : Cmd Span} {ts : List (Token Span)}

/-- The words of a tree in the order in which nulterminate comes to them. -/
def Cmd.words {W : Type} : Cmd W → List W
  | .exec argv => argv
  | .redir cmd file _ _ => cmd.words ++ [file]
  | .pipe left right => left.words ++ right.words
  | .list left right => left.words ++ right.words
  | .back cmd => cmd.words

theorem words_foldl_wrap (rs : List (Redir Span)) (cmd : Cmd Span) :
    (rs.foldl Cmd.wrap cmd).words = cmd.words ++ rs.map Redir.file := by
  induction rs generalizing cmd with
  | nil => simp
  | cons r rs ih =>
      rw [List.foldl_cons, ih]
      obtain ⟨d, file⟩ := r
      cases d <;> simp [Cmd.wrap, Cmd.words]

theorem words_back (k : Nat) (cmd : Cmd Span) : (Cmd.back^[k] cmd).words = cmd.words := by
  induction k generalizing cmd with
  | zero => rfl
  | succ k ih => exact ih (.back cmd)

theorem mem_redir_tokens {rs : List (Redir Span)} {r : Redir Span} (h : r ∈ rs) :
    .word r.file ∈ rs.flatMap Redir.tokens :=
  List.mem_flatMap.mpr ⟨r, h, by simp [Redir.tokens]⟩

/-- The words of a tree are tokens of its derivation. -/
theorem Derives.word_mem {nt : Nonterminal} (h : Derives nt ts cmd) :
    ∀ w ∈ cmd.words, .word w ∈ ts := by
  induction h with
  | block _ rs ih =>
      intro w hw
      rw [words_foldl_wrap, List.mem_append, List.mem_map] at hw
      rcases hw with hw | ⟨r, hr, rfl⟩
      · simp [ih w hw]
      · simp [mem_redir_tokens hr]
  | args rs args _ =>
      intro w hw
      rw [words_foldl_wrap, List.mem_append, List.map_append, List.mem_append] at hw
      rw [List.mem_append]
      rcases hw with hw | hw | hw
      · obtain ⟨arg, harg, rfl⟩ := List.mem_map.mp hw
        exact .inr (List.mem_flatMap.mpr ⟨arg, harg, by simp [argTokens]⟩)
      · obtain ⟨r, hr, rfl⟩ := List.mem_map.mp hw
        exact .inl (mem_redir_tokens hr)
      · obtain ⟨r, hr, rfl⟩ := List.mem_map.mp hw
        obtain ⟨arg, harg, hr⟩ := List.mem_flatMap.mp hr
        exact .inr (List.mem_flatMap.mpr ⟨arg, harg, .tail _ (mem_redir_tokens hr)⟩)
  | single _ ih => exact ih
  | pipe _ _ ih ih' =>
      intro w hw
      rcases List.mem_append.mp hw with hw | hw
      · simp [ih w hw]
      · simp [ih' w hw]
  | line _ k ih =>
      intro w hw
      rw [words_back] at hw
      simp [ih w hw]
  | list _ k _ ih ih' =>
      intro w hw
      rcases List.mem_append.mp hw with hw | hw
      · rw [words_back] at hw
        simp [ih w hw]
      · simp [ih' w hw]

/-- The text of a word. -/
def Span.text (w : Span) : List UInt8 := w.q.take (w.q.length - w.eq.length)

/-- A word of the line `s`: it ends before a character that is not of a word. -/
structure Span.Of (w : Span) (s : Ptr) : Prop where
  within : w.q <:+ s
  split : w.q = w.text ++ w.eq
  chars : ∀ c ∈ w.text, isWordChar c = true
  delimited : ∀ c, w.eq.head? = some c → isWordChar c = false

theorem scan_span {c : UInt8} {w : Span} (h : (scan c s).1 = .word w)
    (hc : isWhitespace c = false) : w.Of (c :: s) := by
  have hsymbol : c ∉ symbols := by
    intro hmem
    have hfirst := (scan_symbol hmem s).1
    rw [h] at hfirst
    cases hfirst
  have hword := isWordChar_of_not hsymbol hc
  rw [scan_word hsymbol hc] at h
  cases h
  have htext : Span.text ⟨c :: s, s.dropWhile isWordChar⟩ = c :: s.takeWhile isWordChar := by
    have hsplit := List.takeWhile_append_dropWhile (p := isWordChar) (l := s)
    have hlen := congrArg List.length hsplit
    rw [List.length_append] at hlen
    rw [Span.text, List.length_cons, show s.length + 1 - (s.dropWhile isWordChar).length =
      (s.takeWhile isWordChar).length + 1 by omega, List.take_succ_cons]
    congr 1
    nth_rewrite 2 [← hsplit]
    rw [List.take_left']
    rfl
  refine ⟨List.suffix_refl _, ?_, ?_, ?_⟩
  · rw [htext, List.cons_append, List.takeWhile_append_dropWhile]
  · rw [htext]
    intro d hd
    rcases List.mem_cons.mp hd with rfl | hd
    · exact hword
    · exact List.mem_takeWhile_imp hd
  · intro d hd
    have hnot := List.head?_dropWhile_not isWordChar s
    rw [hd] at hnot
    simpa using hnot

theorem gettoken_suffix {t : Token Span} (h : (gettoken s).1 = some t) :
    (gettoken s).2 <:+ s ∧ ∀ w, t = .word w → w.Of s := by
  unfold gettoken at h ⊢
  split at h
  · cases h
  next c rest hskip =>
    have hc := skip_head hskip
    have hs : c :: rest <:+ s := hskip ▸ List.dropWhile_suffix _
    refine ⟨?_, ?_⟩
    · exact (List.dropWhile_suffix _).trans
        ((scan_suffix hc rest).trans ((List.suffix_cons c rest).trans hs))
    · rintro w rfl
      have hof := scan_span (Option.some.inj h) hc
      exact { hof with within := hof.within.trans hs }

/-- Every word that gettoken returns is a word of the line. -/
theorem span_of_mem (s : Ptr) : ∀ w, .word w ∈ tokens s → w.Of s := by
  induction s using tokens.induct with
  | case1 s h =>
      intro w hw
      rw [tokens_none h] at hw
      cases hw
  | case2 s t h ih =>
      obtain ⟨hsuffix, hof⟩ := gettoken_suffix h
      intro w hw
      rw [tokens_some h] at hw
      rcases List.mem_cons.mp hw with heq | hw
      · exact hof w heq.symm
      · exact { ih w hw with within := (ih w hw).within.trans hsuffix }

section writes

variable {w w' : Span} {len : Nat}

theorem nulterminate_eq (cmd : Cmd Span) (buf : List UInt8) : nulterminate len cmd buf =
    cmd.words.foldl (fun buf w => buf.set (len - w.eq.length) 0) buf := by
  induction cmd generalizing buf with
  | exec argv => rfl
  | redir cmd file mode fd ih => rw [nulterminate, ih, Cmd.words, List.foldl_append]; rfl
  | pipe left right ihl ihr => rw [nulterminate, ihl, ihr, Cmd.words, List.foldl_append]
  | list left right ihl ihr => rw [nulterminate, ihl, ihr, Cmd.words, List.foldl_append]
  | back cmd ih => exact ih buf

theorem foldl_set_of_ne {ws : List Span} {i : Nat} (h : ∀ w ∈ ws, len - w.eq.length ≠ i)
    (buf : List UInt8) :
    (ws.foldl (fun buf w => buf.set (len - w.eq.length) 0) buf)[i]? = buf[i]? := by
  induction ws generalizing buf with
  | nil => rfl
  | cons w ws ih =>
      rw [List.foldl_cons, ih fun w' hw' => h w' (.tail _ hw'),
        List.getElem?_set_ne (h w (.head _))]

theorem foldl_set_of_mem {ws : List Span} {i : Nat} (h : ∃ w ∈ ws, len - w.eq.length = i)
    {buf : List UInt8} (hi : i < buf.length) :
    (ws.foldl (fun buf w => buf.set (len - w.eq.length) 0) buf)[i]? = some 0 := by
  induction ws generalizing buf with
  | nil =>
      obtain ⟨w, hw, -⟩ := h
      cases hw
  | cons w ws ih =>
      rw [List.foldl_cons]
      by_cases hrest : ∃ w ∈ ws, len - w.eq.length = i
      · exact ih hrest (by rwa [List.length_set])
      · obtain ⟨w', hw', heq⟩ := h
        rcases List.mem_cons.mp hw' with rfl | hw'
        · rw [foldl_set_of_ne fun w' hw' heq' => hrest ⟨w', hw', heq'⟩, heq,
            List.getElem?_set_self hi]
        · exact absurd ⟨w', hw', heq⟩ hrest

/-- A NUL-terminated string in a buffer. -/
structure StringAt (buf : List UInt8) (k : Nat) (text : List UInt8) : Prop where
  chars : ∀ i c, text[i]? = some c → buf[k + i]? = some c ∧ c ≠ 0
  ends : buf[k + text.length]? = some 0

/-- The characters up to the first NUL. -/
theorem StringAt.takeWhile_eq {l text : List UInt8} {k : Nat} (h : StringAt l k text) :
    (l.drop k).takeWhile (· ≠ 0) = text := by
  obtain ⟨htext, hend⟩ := h
  induction text generalizing k with
  | nil =>
      obtain ⟨hk, h0⟩ := List.getElem?_eq_some_iff.mp hend
      simp only [List.length_nil, Nat.add_zero] at hk h0
      rw [List.drop_eq_getElem_cons hk, h0]
      rfl
  | cons c text ih =>
      obtain ⟨hhead, hc⟩ := htext 0 c rfl
      obtain ⟨hk, hget⟩ := List.getElem?_eq_some_iff.mp hhead
      simp only [Nat.add_zero] at hk hget
      rw [List.drop_eq_getElem_cons hk, hget, List.takeWhile_cons, if_pos (by simpa using hc),
        ih]
      · intro i d hd
        have hnext := htext (i + 1) d hd
        rwa [show k + (i + 1) = k + 1 + i by omega] at hnext
      · rw [List.length_cons] at hend
        rwa [show k + (text.length + 1) = k + 1 + text.length by omega] at hend

theorem Span.Of.getElem_text (h : w.Of s) {i : Nat} {c : UInt8} (hi : w.text[i]? = some c) :
    s[s.length - w.q.length + i]? = some c := by
  obtain ⟨before, hb⟩ := h.within
  have hlen := congrArg List.length hb
  rw [List.length_append] at hlen
  rw [show s.length - w.q.length = before.length by omega, ← hb,
    List.getElem?_append_right (Nat.le_add_right ..), Nat.add_sub_cancel_left, h.split,
    List.getElem?_append_left (List.getElem?_eq_some_iff.mp hi).1, hi]

theorem Span.Of.eq_length (h : w.Of s) :
    s.length - w.eq.length = s.length - w.q.length + w.text.length ∧
      w.eq.length ≤ s.length := by
  have hle := h.within.length_le
  have hlen := congrArg List.length h.split
  rw [List.length_append] at hlen
  omega

theorem Span.Of.getElem_eq (h : w.Of s) : s[s.length - w.eq.length]? = w.eq.head? := by
  obtain ⟨before, hb⟩ := h.within
  have hlen := congrArg List.length hb
  have hpos := h.eq_length.1
  rw [List.length_append] at hlen
  rw [hpos, show s.length - w.q.length = before.length by omega, ← hb,
    List.getElem?_append_right (Nat.le_add_right ..), Nat.add_sub_cancel_left, h.split,
    List.getElem?_append_right (Nat.le_refl _), Nat.sub_self, List.head?_eq_getElem?]

/-- No word ends inside another. -/
theorem Span.Of.end_ne (h : w.Of s) (h' : w'.Of s) {i : Nat} (hi : i < w.text.length) :
    s.length - w'.eq.length ≠ s.length - w.q.length + i := by
  intro heq
  have hget := h.getElem_text (List.getElem?_eq_getElem hi)
  have hchar := h.chars _ (List.getElem_mem hi)
  rw [← heq, h'.getElem_eq] at hget
  rw [h'.delimited _ hget] at hchar
  cases hchar

/-- After nulterminate every pointer of the tree points to the text of its word. -/
theorem stringAt_nulterminate (hs : 0 ∉ s) (hcmd : ∀ w ∈ cmd.words, w.Of s)
    (hw : w ∈ cmd.words) :
    StringAt (nulterminate s.length cmd (s ++ [0])) (s.length - w.q.length) w.text := by
  have hof := hcmd w hw
  rw [nulterminate_eq]
  constructor
  · intro i c hi
    obtain ⟨hlt, -⟩ := List.getElem?_eq_some_iff.mp hi
    have hget := hof.getElem_text hi
    rw [foldl_set_of_ne fun w' hw' => hof.end_ne (hcmd w' hw') hlt]
    obtain ⟨hin, -⟩ := List.getElem?_eq_some_iff.mp hget
    refine ⟨by rw [List.getElem?_append_left hin, hget], ?_⟩
    rintro rfl
    exact hs (List.mem_of_getElem? hget)
  · apply foldl_set_of_mem ⟨w, hw, hof.eq_length.1⟩
    have hle := hof.eq_length
    rw [List.length_append, List.length_singleton]
    omega

end writes

def Cmd.map {W V : Type} (f : W → V) : Cmd W → Cmd V
  | .exec argv => .exec (argv.map f)
  | .redir cmd file mode fd => .redir (cmd.map f) (f file) mode fd
  | .pipe left right => .pipe (left.map f) (right.map f)
  | .list left right => .list (left.map f) (right.map f)
  | .back cmd => .back (cmd.map f)

theorem Cmd.map_congr {W V : Type} {f g : W → V} {cmd : Cmd W}
    (h : ∀ w ∈ cmd.words, f w = g w) : cmd.map f = cmd.map g := by
  induction cmd with
  | exec argv => exact congrArg Cmd.exec (List.map_congr_left h)
  | redir cmd file mode fd ih =>
      rw [Cmd.map, Cmd.map, ih fun w hw => h w (List.mem_append_left _ hw),
        h file (by simp [Cmd.words])]
  | pipe left right ihl ihr =>
      rw [Cmd.map, Cmd.map, ihl fun w hw => h w (List.mem_append_left _ hw),
        ihr fun w hw => h w (List.mem_append_right _ hw)]
  | list left right ihl ihr =>
      rw [Cmd.map, Cmd.map, ihl fun w hw => h w (List.mem_append_left _ hw),
        ihr fun w hw => h w (List.mem_append_right _ hw)]
  | back cmd ih => rw [Cmd.map, Cmd.map, ih h]

/-- The parse of a line that has a derivation up to the end. -/
theorem parsecmd_ok {n : Nat} {buf : List UInt8} (h : parsecmd n s = .ok (cmd, buf)) :
    Derives .line (tokens s) cmd ∧ buf = nulterminate s.length cmd (s ++ [0]) := by
  obtain ⟨⟨cmd', rest⟩, hparse, hrest⟩ := ok_of_bind h
  obtain ⟨ts, hts, hcmd⟩ := parse_sound n .line s _ hparse
  simp only at hrest hts hcmd
  split at hrest
  · cases hrest
  next hend =>
    cases hrest
    simp only [ne_eq, Decidable.not_not] at hend
    have hnil : tokens rest = [] := by
      rw [← tokens_skip, show skip rest = [] from hend]
      exact tokens_none rfl
    rw [hts, hnil, List.append_nil]
    exact ⟨hcmd, rfl⟩

/-- parsecmd terminates on every line, returns a tree for exactly the lines that derive from
the grammar, and the tree is that of the derivation, down to the strings in it. -/
theorem parsecmd_grammar (s : Ptr) (hs : 0 ∉ s) (n : Nat) (hn : 4 * s.length + 4 ≤ n) :
    Ends (parsecmd n s) ∧
    (∀ cmd, (∃ buf, parsecmd n s = .ok (cmd, buf)) ↔ Derives .line (tokens s) cmd) ∧
    ∀ cmd buf, parsecmd n s = .ok (cmd, buf) →
      cmd.map (cstring s.length buf) = cmd.map Span.text := by
  have hlen := tokens_length s
  have hends := parse_ends n .line s (by simp only [Nonterminal.depth]; omega)
  refine ⟨?_, fun cmd => ⟨?_, fun h => ?_⟩, fun cmd buf h => ?_⟩
  · refine hends.bind (parse_sound n .line s) ?_
    rintro ⟨cmd, rest⟩ -
    simp only
    split
    · intro h
      cases h
    · intro h
      cases h
  · rintro ⟨buf, h⟩
    exact (parsecmd_ok h).1
  · rcases parse_complete h n s [] (List.append_nil _).symm (.inl rfl) with
      hfuel | ⟨⟨cmd', rest⟩, hparse, rfl, hrest⟩
    · exact absurd hfuel hends
    · have hline : parseline n s = .ok (cmd', rest) := hparse
      have hskip : (peek rest []).2 = [] := skip_eq_nil hrest
      refine ⟨nulterminate s.length cmd' (s ++ [0]), ?_⟩
      rw [parsecmd, hline]
      exact if_neg (not_not_intro hskip)
  · obtain ⟨hderives, rfl⟩ := parsecmd_ok h
    apply Cmd.map_congr
    intro w hw
    have hof := fun w hw => span_of_mem s w (hderives.word_mem w hw)
    exact (stringAt_nulterminate hs hof hw).takeWhile_eq

/-- The argument vectors of the EXEC nodes. -/
def Cmd.execs {W : Type} : Cmd W → List (List W)
  | .exec argv => [argv]
  | .redir cmd _ _ _ => cmd.execs
  | .pipe left right => left.execs ++ right.execs
  | .list left right => left.execs ++ right.execs
  | .back cmd => cmd.execs

theorem execs_foldl_wrap (rs : List (Redir Span)) (cmd : Cmd Span) :
    (rs.foldl Cmd.wrap cmd).execs = cmd.execs := by
  induction rs generalizing cmd with
  | nil => rfl
  | cons r rs ih =>
      rw [List.foldl_cons, ih]
      obtain ⟨d, file⟩ := r
      cases d <;> rfl

theorem execs_back (k : Nat) (cmd : Cmd Span) : (Cmd.back^[k] cmd).execs = cmd.execs := by
  induction k generalizing cmd with
  | zero => rfl
  | succ k ih => exact ih (.back cmd)

theorem Cmd.mem_words_of_exec (cmd : Cmd Span) {argv : List Span} (h : argv ∈ cmd.execs)
    {w : Span} (hw : w ∈ argv) : w ∈ cmd.words := by
  induction cmd with
  | exec args =>
      rw [Cmd.execs, List.mem_singleton] at h
      rwa [Cmd.words, ← h]
  | redir cmd file mode fd ih => exact List.mem_append_left _ (ih h)
  | pipe left right ihl ihr | list left right ihl ihr =>
      rcases List.mem_append.mp h with h | h
      · exact List.mem_append_left _ (ihl h)
      · exact List.mem_append_right _ (ihr h)
  | back cmd ih => exact ih h

/-- Every argument vector leaves a slot of its array for the null pointer. -/
theorem Derives.execs_length {nt : Nonterminal} (h : Derives nt ts cmd) :
    ∀ argv ∈ cmd.execs, argv.length < MAXARGS := by
  induction h with
  | block _ rs ih =>
      rw [execs_foldl_wrap]
      exact ih
  | args rs args hlen =>
      rw [execs_foldl_wrap]
      intro argv hargv
      rw [List.mem_singleton.mp hargv, List.length_map]
      have hslots : 0 < MAXARGS := by decide
      omega
  | single _ ih => exact ih
  | pipe _ _ ih ih' =>
      intro argv hargv
      exact (List.mem_append.mp hargv).elim (ih argv) (ih' argv)
  | line _ k ih =>
      rw [execs_back]
      exact ih
  | list _ k _ ih ih' =>
      intro argv hargv
      rw [Cmd.execs, execs_back] at hargv
      exact (List.mem_append.mp hargv).elim (ih argv) (ih' argv)

/-- The array `argv` of an EXEC node, in which parseexec puts a null pointer after the words. -/
def argvSlot {W : Type} (argv : List W) (i : Nat) : Option W := argv[i]?

/-- On every line that parsecmd accepts, each word of the tree is a word of the line and in the
buffer a string of the same characters, and each argument vector ends in a null pointer. -/
theorem nulterminate_keeps_words (s : Ptr) (hs : 0 ∉ s) {n : Nat} {cmd : Cmd Span}
    {buf : List UInt8} (h : parsecmd n s = .ok (cmd, buf)) :
    (∀ w ∈ cmd.words, w.Of s ∧ StringAt buf (s.length - w.q.length) w.text) ∧
      ∀ argv ∈ cmd.execs, ∃ i < MAXARGS, argvSlot argv i = none ∧
        ∀ j < i, ∃ w ∈ cmd.words, argvSlot argv j = some w := by
  obtain ⟨hderives, rfl⟩ := parsecmd_ok h
  have hof := fun w hw => span_of_mem s w (hderives.word_mem w hw)
  refine ⟨fun w hw => ⟨hof w hw, stringAt_nulterminate hs hof hw⟩, fun argv hargv => ?_⟩
  refine ⟨argv.length, hderives.execs_length argv hargv, List.getElem?_eq_none le_rfl, ?_⟩
  intro j hj
  exact ⟨argv[j], cmd.mem_words_of_exec hargv (List.getElem_mem hj), List.getElem?_eq_getElem hj⟩

namespace ParseWitness

/-- `ls|wc>f&` -/
def line : Ptr := text ['l', 's', '|', 'w', 'c', '>', 'f', '&']

def parsed : Option (Cmd Span × List UInt8) := (parsecmd 40 line).toOption

theorem parsed_isSome : parsed.isSome = true := by decide +kernel

def tree : Cmd Span := (parsed.get parsed_isSome).1

theorem parsecmd_line : ∃ buf, parsecmd 40 line = .ok (tree, buf) := by
  cases h : parsecmd 40 line with
  | error e =>
      have hsome := parsed_isSome
      rw [parsed, h] at hsome
      cases hsome
  | ok x =>
      refine ⟨x.2, ?_⟩
      have hget : parsed.get parsed_isSome = x := by simp [parsed, h, Except.toOption]
      rw [tree, hget]

theorem parsecmd_grammar_line : Derives .line (tokens line) tree ∧
    tree.map Span.text = .back (.pipe (.exec [text ['l', 's']])
      (.redir (.exec [text ['w', 'c']]) (text ['f'])
        (O_WRONLY ||| O_CREATE ||| O_TRUNC) 1)) := by
  refine ⟨?_, by decide +kernel⟩
  have hparse := (parsecmd_grammar line (by decide) 40 (by decide)).2.1 tree
  exact hparse.mp parsecmd_line

/-- `a>b;c|d` -/
def packed : Ptr := text ['a', '>', 'b', ';', 'c', '|', 'd']

theorem parsecmd_packed : ∃ cmd buf, parsecmd 40 packed = .ok (cmd, buf) ∧
    cmd.words.length = 4 ∧ ∀ w ∈ cmd.words, StringAt buf (packed.length - w.q.length) w.text := by
  have hok : ((parsecmd 40 packed).toOption.map fun x => x.1.words.length) = some 4 := by
    decide +kernel
  cases hparse : parsecmd 40 packed with
  | error e =>
      rw [hparse] at hok
      cases hok
  | ok x =>
      rw [hparse] at hok
      have hwords := (nulterminate_keeps_words packed (by decide) hparse).1
      exact ⟨x.1, x.2, rfl, by simpa [Except.toOption] using hok, fun w hw => (hwords w hw).2⟩

end ParseWitness

end Xv6.Sh
