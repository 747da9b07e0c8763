/-
The parser follows the grammar: a tree that it returns has a derivation, a line that has a
derivation is parsed to its tree, and the fuel is enough for every line.
-/
import Xv6.Sh.Grammar

namespace Xv6.Sh

open Outcome

variable {n argc k : Nat} {s : Ptr} {cmd : Cmd Span} {ts rest : List (Token Span)}

/-- The parse runs out of fuel or returns a result that satisfies `Q`. -/
def Yields {α : Type} (x : Except Stop α) (Q : α → Prop) : Prop :=
  x = .error .fuel ∨ ∃ a, x = .ok a ∧ Q a

theorem Yields.ok {α : Type} {a : α} {Q : α → Prop} (h : Q a) :
    Yields (.ok a : Except Stop α) Q :=
  .inr ⟨a, rfl, h⟩

theorem Yields.bind {α β : Type} {x : Except Stop α} {f : α → Except Stop β} {P : α → Prop}
    {Q : β → Prop} (hx : Yields x P) (hf : ∀ a, P a → Yields (f a) Q) :
    Yields (x >>= f) Q := by
  rcases hx with rfl | ⟨a, rfl, ha⟩
  · exact .inl rfl
  · exact hf a ha

/-- The parse ends with the fuel that it has. -/
def Ends {α : Type} (x : Except Stop α) : Prop := x ≠ .error .fuel

theorem Ends.bind {α β : Type} {x : Except Stop α} {f : α → Except Stop β} {P : α → Prop}
    (hx : Ends x) (hP : Ensures x P) (hf : ∀ a, P a → Ends (f a)) : Ends (x >>= f) := by
  cases x with
  | error e =>
      rintro ⟨⟩
      exact hx rfl
  | ok a => exact hf a (hP a rfl)

/- parseredirs -/

theorem parseredirs_stop (h : starts ['<', '>'] (tokens s) = false) :
    parseredirs (n + 1) cmd s = .ok (cmd, skip s) := by
  rw [parseredirs, peek_eq (by decide), h]

theorem starts_token (d : Direction) (ts : List (Token Span)) :
    starts ['<', '>'] (d.token :: ts) = true := by
  cases d <;> rfl

theorem parseredirs_redir (n : Nat) (cmd : Cmd Span) {r : Redir Span}
    (h : tokens s = r.tokens ++ ts) :
    ∃ s', tokens s' = ts ∧ parseredirs (n + 1) cmd s = parseredirs n (cmd.wrap r) s' := by
  obtain ⟨d, file⟩ := r
  have hstarts : starts ['<', '>'] (tokens s) = true := by
    rw [h]
    exact starts_token d _
  obtain ⟨sfile, htok, hfile⟩ := gettoken_after_peek h
  obtain ⟨s', hword, hrest⟩ := gettoken_of_cons hfile
  refine ⟨s', hrest, ?_⟩
  rw [parseredirs, peek_eq (by decide), hstarts]
  cases d <;> simp only [htok, hword, Direction.token] <;> rfl

theorem parseredirs_error {d : Direction} (h : tokens s = d.token :: ts)
    (hword : ∀ w ts', ts ≠ .word w :: ts') :
    parseredirs (n + 1) cmd s = .error (.panic "missing file for redirection") := by
  have hstarts : starts ['<', '>'] (tokens s) = true := by
    rw [h]
    exact starts_token d _
  obtain ⟨sfile, htok, hfile⟩ := gettoken_after_peek h
  rw [parseredirs, peek_eq (by decide), hstarts]
  simp only [htok]
  split
  next file s' hnext =>
    exfalso
    have hsome := tokens_some (congrArg Prod.fst hnext)
    rw [hfile] at hsome
    exact hword _ _ hsome
  · rfl

/-- The three ways in which the tokens go on at parseredirs. -/
theorem redir_cases (ts : List (Token Span)) :
    starts ['<', '>'] ts = false ∨ (∃ (r : Redir Span) (ts' : _), ts = r.tokens ++ ts') ∨
      ∃ (d : Direction) (ts' : _), ts = d.token :: ts' ∧ ∀ w ts'', ts' ≠ .word w :: ts'' := by
  have hdir : ∀ (d : Direction) (ts : List (Token Span)),
      (∃ (r : Redir Span) (ts' : _), d.token :: ts = r.tokens ++ ts') ∨
      ∃ (d' : Direction) (ts' : _), d.token :: ts = d'.token :: ts' ∧
        ∀ w ts'', ts' ≠ .word w :: ts'' := by
    intro d ts
    by_cases h : ∃ w ts', ts = .word w :: ts'
    · obtain ⟨w, ts', rfl⟩ := h
      exact .inl ⟨⟨d, w⟩, ts', rfl⟩
    · exact .inr ⟨d, ts, rfl, fun w ts' heq => h ⟨w, ts', heq⟩⟩
  cases ts with
  | nil => exact .inl rfl
  | cons t ts =>
      cases t with
      | lt => exact .inr (hdir .lt ts)
      | gt => exact .inr (hdir .gt ts)
      | append => exact .inr (hdir .append ts)
      | word w => exact .inl rfl
      | _ => exact .inl rfl

theorem parseredirs_sound (n : Nat) (cmd : Cmd Span) (s : Ptr) :
    Ensures (parseredirs n cmd s) fun x => ∃ rs : List (Redir Span),
      tokens s = rs.flatMap Redir.tokens ++ tokens x.2 ∧ x.1 = rs.foldl Cmd.wrap cmd := by
  induction n generalizing cmd s with
  | zero => exact .error
  | succ n ih =>
      rcases redir_cases (tokens s) with hstop | ⟨r, ts, hr⟩ | ⟨d, ts, hd, hword⟩
      · rw [parseredirs_stop hstop]
        exact .ok ⟨[], by simp⟩
      · obtain ⟨s', hs', heq⟩ := parseredirs_redir n cmd hr
        rw [heq]
        refine (ih (cmd.wrap r) s').mono ?_
        rintro x ⟨rs, htokens, hx⟩
        refine ⟨r :: rs, ?_, hx⟩
        rw [hr, ← hs', htokens, List.flatMap_cons, List.append_assoc]
      · rw [parseredirs_error hd hword]
        exact .error

theorem parseredirs_complete (rs : List (Redir Span)) (n : Nat) (cmd : Cmd Span) (s : Ptr)
    (h : tokens s = rs.flatMap Redir.tokens ++ rest)
    (hrest : starts ['<', '>'] rest = false) :
    Yields (parseredirs n cmd s) fun x => x.1 = rs.foldl Cmd.wrap cmd ∧ tokens x.2 = rest := by
  induction rs generalizing n cmd s with
  | nil =>
      cases n with
      | zero => exact .inl rfl
      | succ n =>
          rw [List.flatMap_nil, List.nil_append] at h
          rw [parseredirs_stop (h ▸ hrest)]
          exact .ok ⟨rfl, (tokens_skip s).trans h⟩
  | cons r rs ih =>
      cases n with
      | zero => exact .inl rfl
      | succ n =>
          rw [List.flatMap_cons, List.append_assoc] at h
          obtain ⟨s', hs', heq⟩ := parseredirs_redir n cmd h
          rw [heq]
          exact ih n (cmd.wrap r) s' hs'

theorem parseredirs_ends (n : Nat) (cmd : Cmd Span) (s : Ptr) (h : (tokens s).length < n) :
    Ends (parseredirs n cmd s) := by
  induction n generalizing cmd s with
  | zero => exact absurd h (Nat.not_lt_zero _)
  | succ n ih =>
      rcases redir_cases (tokens s) with hstop | ⟨r, ts, hr⟩ | ⟨d, ts, hd, hword⟩
      · rw [parseredirs_stop hstop]
        exact nofun
      · obtain ⟨s', hs', heq⟩ := parseredirs_redir n cmd hr
        rw [heq]
        apply ih
        rw [hr, Redir.tokens, List.length_append] at h
        rw [hs']
        simp only [List.length_cons, List.length_nil] at h
        omega
      · rw [parseredirs_error hd hword]
        exact nofun

/- The loop of parseexec -/

theorem parseargs_stop (n argc : Nat) (cmd : Cmd Span)
    (h : tokens s = [] ∨ starts ['|', ')', '&', ';'] (tokens s) = true) :
    ∃ s', tokens s' = tokens s ∧ parseargs (n + 1) argc cmd s = .ok (cmd, s') := by
  rw [parseargs, peek_eq (by decide)]
  cases hstarts : starts ['|', ')', '&', ';'] (tokens s) with
  | true => exact ⟨skip s, tokens_skip s, rfl⟩
  | false =>
      have hnil := h.resolve_right (by simp [hstarts])
      have hnone := gettoken_of_nil ((tokens_skip s).trans hnil)
      have hskip := skip_eq_nil hnil
      refine ⟨[], ?_, ?_⟩
      · rw [hnil, ← hskip, tokens_skip, hnil]
      · simp only [hskip]
        rfl

theorem parseargs_word (n argc : Nat) (cmd : Cmd Span) {w : Span}
    (h : tokens s = .word w :: ts) :
    ∃ s', tokens s' = ts ∧ parseargs (n + 1) argc cmd s =
      if argc + 1 ≥ MAXARGS then .error (.panic "too many args")
      else parseredirs n (cmd.addArg w) s' >>= fun x => parseargs n (argc + 1) x.1 x.2 := by
  obtain ⟨s', htok, hrest⟩ := gettoken_after_peek h
  refine ⟨s', hrest, ?_⟩
  rw [parseargs, peek_eq (by decide), h, show starts ['|', ')', '&', ';']
    (Token.word w :: ts) = false from rfl]
  simp only [htok]

theorem parseargs_error {t : Token Span} (h : tokens s = t :: ts) (hw : ∀ w, t ≠ .word w)
    (hstarts : starts ['|', ')', '&', ';'] (t :: ts) = false) :
    parseargs (n + 1) argc cmd s = .error (.panic "syntax") := by
  obtain ⟨s', htok, -⟩ := gettoken_after_peek h
  rw [parseargs, peek_eq (by decide), h, hstarts]
  simp only [htok]
  cases t with
  | word w => exact absurd rfl (hw w)
  | _ => rfl

theorem args_cases (ts : List (Token Span)) :
    (ts = [] ∨ starts ['|', ')', '&', ';'] ts = true) ∨ (∃ w ts', ts = .word w :: ts') ∨
      ∃ t ts', ts = t :: ts' ∧ (∀ w, t ≠ .word w) ∧
        starts ['|', ')', '&', ';'] (t :: ts') = false := by
  cases ts with
  | nil => exact .inl (.inl rfl)
  | cons t ts =>
      cases t with
      | word w => exact .inr (.inl ⟨w, ts, rfl⟩)
      | bar => exact .inl (.inr rfl)
      | rparen => exact .inl (.inr rfl)
      | amp => exact .inl (.inr rfl)
      | semi => exact .inl (.inr rfl)
      | _ => exact .inr (.inr ⟨_, ts, rfl, nofun, rfl⟩)

/-- The words go below the redirections. -/
theorem addArg_foldl (rs : List (Redir Span)) (cmd : Cmd Span) (w : Span) :
    (rs.foldl Cmd.wrap cmd).addArg w = rs.foldl Cmd.wrap (cmd.addArg w) := by
  induction rs generalizing cmd with
  | nil => rfl
  | cons r rs ih =>
      rw [List.foldl_cons, List.foldl_cons, ih]
      obtain ⟨d, file⟩ := r
      cases d <;> rfl

theorem parseargs_sound (n argc : Nat) (argv : List Span) (rs : List (Redir Span)) (s : Ptr) :
    Ensures (parseargs n argc (rs.foldl Cmd.wrap (.exec argv)) s) fun x =>
      ∃ args : List (Span × List (Redir Span)), tokens s = args.flatMap argTokens ++ tokens x.2 ∧
        (args = [] ∨ args.length + argc ≤ MAXARGS - 1) ∧
        x.1 = (rs ++ args.flatMap Prod.snd).foldl Cmd.wrap
          (.exec (argv ++ args.map Prod.fst)) := by
  induction n generalizing argc argv rs s with
  | zero => exact .error
  | succ n ih =>
      rcases args_cases (tokens s) with hstop | ⟨w, ts, hw⟩ | ⟨t, ts, ht, hne, hstarts⟩
      · obtain ⟨s', hs', heq⟩ := parseargs_stop n argc (rs.foldl Cmd.wrap (.exec argv)) hstop
        rw [heq]
        exact .ok ⟨[], by simp [hs'], .inl rfl, by simp⟩
      · obtain ⟨s', hs', heq⟩ := parseargs_word n argc (rs.foldl Cmd.wrap (.exec argv)) hw
        rw [heq]
        refine .ite (fun _ => .error) fun hroom => ?_
        refine (parseredirs_sound n _ s').bind ?_
        rintro ⟨ret, s''⟩ ⟨rs', hrs', hret⟩
        simp only at hrs' hret
        rw [addArg_foldl, ← List.foldl_append] at hret
        rw [hret]
        refine (ih (argc + 1) (argv ++ [w]) (rs ++ rs') s'').mono ?_
        rintro x ⟨args, hargs, hlen, hx⟩
        refine ⟨(w, rs') :: args, ?_, .inr ?_, ?_⟩
        · rw [hw, ← hs', hrs', hargs]
          simp [argTokens]
        · rcases hlen with rfl | hlen
          · simp only [List.length_cons, List.length_nil]
            omega
          · rw [List.length_cons]
            omega
        · rw [hx]
          simp
      · rw [parseargs_error ht hne hstarts]
        exact .error

theorem starts_args (args : List (Span × List (Redir Span)))
    (hrest : starts ['<', '>'] rest = false) :
    starts ['<', '>'] (args.flatMap argTokens ++ rest) = false := by
  cases args with
  | nil => exact hrest
  | cons arg args => rfl

theorem parseargs_complete (args : List (Span × List (Redir Span))) (n argc : Nat)
    (argv : List Span) (rs : List (Redir Span)) (s : Ptr)
    (h : tokens s = args.flatMap argTokens ++ rest)
    (hlen : args.length + argc ≤ MAXARGS - 1)
    (hrest : rest = [] ∨ starts ['|', ')', '&', ';'] rest = true) :
    Yields (parseargs n argc (rs.foldl Cmd.wrap (.exec argv)) s) fun x =>
      x.1 = (rs ++ args.flatMap Prod.snd).foldl Cmd.wrap (.exec (argv ++ args.map Prod.fst)) ∧
        tokens x.2 = rest := by
  have hredir : starts ['<', '>'] rest = false := by
    rcases hrest with rfl | hrest
    · rfl
    · cases rest with
      | nil => rfl
      | cons t rest => cases t <;> first | rfl | cases hrest
  induction args generalizing n argc argv rs s with
  | nil =>
      cases n with
      | zero => exact .inl rfl
      | succ n =>
          rw [List.flatMap_nil, List.nil_append] at h
          obtain ⟨s', hs', heq⟩ :=
            parseargs_stop n argc (rs.foldl Cmd.wrap (.exec argv)) (h ▸ hrest)
          rw [heq]
          exact .ok ⟨by simp, hs'.trans h⟩
  | cons arg args ih =>
      obtain ⟨w, rs'⟩ := arg
      cases n with
      | zero => exact .inl rfl
      | succ n =>
          have hw : tokens s = .word w :: (rs'.flatMap Redir.tokens ++
              (args.flatMap argTokens ++ rest)) := by
            rw [h]
            simp [argTokens]
          rw [List.length_cons] at hlen
          obtain ⟨s', hs', heq⟩ := parseargs_word n argc (rs.foldl Cmd.wrap (.exec argv)) hw
          have hroom : ¬ argc + 1 ≥ MAXARGS := by
            simp only [MAXARGS] at hlen ⊢
            omega
          rw [heq, if_neg hroom]
          refine (parseredirs_complete rs' n _ s' hs' (starts_args args hredir)).bind ?_
          rintro ⟨ret, s''⟩ ⟨hret, hs''⟩
          simp only at hret hs''
          rw [hret, addArg_foldl, ← List.foldl_append]
          rcases ih n (argc + 1) (argv ++ [w]) (rs ++ rs') s'' hs'' (by omega) with
            hfuel | ⟨x, hx, hresult⟩
          · exact .inl hfuel
          · refine .inr ⟨x, hx, ?_⟩
            simpa using hresult

theorem parseargs_ends (n argc : Nat) (cmd : Cmd Span) (s : Ptr)
    (h : (tokens s).length < n) : Ends (parseargs n argc cmd s) := by
  induction n generalizing argc cmd s with
  | zero => exact absurd h (Nat.not_lt_zero _)
  | succ n ih =>
      rcases args_cases (tokens s) with hstop | ⟨w, ts, hw⟩ | ⟨t, ts, ht, hne, hstarts⟩
      · obtain ⟨s', -, heq⟩ := parseargs_stop n argc cmd hstop
        rw [heq]
        exact nofun
      · obtain ⟨s', hs', heq⟩ := parseargs_word n argc cmd hw
        rw [heq]
        rw [hw, List.length_cons] at h
        split
        · exact nofun
        · refine Ends.bind (parseredirs_ends n _ s' (by rw [hs']; omega))
            (parseredirs_sound n _ s') ?_
          rintro ⟨ret, s''⟩ ⟨rs, hrs, -⟩
          apply ih
          rw [← hs', hrs, List.length_append] at h
          simp only at h ⊢
          omega
      · rw [parseargs_error ht hne hstarts]
        exact nofun

/- The loop of parseline -/

theorem parsebacks_amp (n : Nat) (cmd : Cmd Span) (h : tokens s = .amp :: ts) :
    ∃ s', tokens s' = ts ∧ parsebacks (n + 1) cmd s = parsebacks n (.back cmd) s' := by
  obtain ⟨s', htok, hrest⟩ := gettoken_after_peek h
  refine ⟨s', hrest, ?_⟩
  rw [parsebacks, peek_eq (by decide), h, show starts ['&'] (Token.amp :: ts) = true from rfl]
  simp only [htok]

theorem parsebacks_stop (h : starts ['&'] (tokens s) = false) :
    parsebacks (n + 1) cmd s = .ok (cmd, skip s) := by
  rw [parsebacks, peek_eq (by decide), h]

theorem amp_cases (ts : List (Token Span)) :
    (∃ ts', ts = .amp :: ts') ∨ starts ['&'] ts = false := by
  cases ts with
  | nil => exact .inr rfl
  | cons t ts =>
      cases t with
      | amp => exact .inl ⟨ts, rfl⟩
      | _ => exact .inr rfl

theorem parsebacks_sound (n : Nat) (cmd : Cmd Span) (s : Ptr) :
    Ensures (parsebacks n cmd s) fun x => ∃ k,
      tokens s = List.replicate k .amp ++ tokens x.2 ∧ x.1 = Cmd.back^[k] cmd := by
  induction n generalizing cmd s with
  | zero => exact .error
  | succ n ih =>
      rcases amp_cases (tokens s) with ⟨ts, hamp⟩ | hstop
      · obtain ⟨s', hs', heq⟩ := parsebacks_amp n cmd hamp
        rw [heq]
        refine (ih (.back cmd) s').mono ?_
        rintro x ⟨k, hk, hx⟩
        refine ⟨k + 1, ?_, hx⟩
        rw [hamp, ← hs', hk, List.replicate_succ, List.cons_append]
      · rw [parsebacks_stop hstop]
        exact .ok ⟨0, by simp⟩

theorem parsebacks_complete (k n : Nat) (cmd : Cmd Span) (s : Ptr)
    (h : tokens s = List.replicate k .amp ++ rest) (hrest : starts ['&'] rest = false) :
    Yields (parsebacks n cmd s) fun x => x.1 = Cmd.back^[k] cmd ∧ tokens x.2 = rest := by
  induction k generalizing n cmd s with
  | zero =>
      cases n with
      | zero => exact .inl rfl
      | succ n =>
          rw [List.replicate_zero, List.nil_append] at h
          rw [parsebacks_stop (h ▸ hrest)]
          exact .ok ⟨rfl, (tokens_skip s).trans h⟩
  | succ k ih =>
      cases n with
      | zero => exact .inl rfl
      | succ n =>
          rw [List.replicate_succ, List.cons_append] at h
          obtain ⟨s', hs', heq⟩ := parsebacks_amp n cmd h
          rw [heq]
          exact ih n (.back cmd) s' hs'

theorem parsebacks_ends (n : Nat) (cmd : Cmd Span) (s : Ptr) (h : (tokens s).length < n) :
    Ends (parsebacks n cmd s) := by
  induction n generalizing cmd s with
  | zero => exact absurd h (Nat.not_lt_zero _)
  | succ n ih =>
      rcases amp_cases (tokens s) with ⟨ts, hamp⟩ | hstop
      · obtain ⟨s', hs', heq⟩ := parsebacks_amp n cmd hamp
        rw [heq]
        apply ih
        rw [hamp, List.length_cons] at h
        rw [hs']
        omega
      · rw [parsebacks_stop hstop]
        exact nofun

/- The recursive functions -/

def parse : Nonterminal → Nat → Ptr → Except Stop (Cmd Span × Ptr)
  | .line => parseline
  | .pipe => parsepipe
  | .exec => parseexec

/-- The symbol `ch` is next: peek sees it and gettoken takes it. -/
def Next (s : Ptr) (ch : Char) (t : Token Span) (s' : Ptr) : Prop :=
  peek s [ch] = (true, skip s) ∧ gettoken (skip s) = (some t, s') ∧ tokens s = t :: tokens s'

theorem next_of_cons (ch : Char) {t : Token Span} (h : tokens s = t :: ts)
    (hsymbol : (text [ch]).all symbols.contains = true) (ht : starts [ch] [t] = true) :
    ∃ s', Next s ch t s' ∧ tokens s' = ts := by
  obtain ⟨s', htok, hs'⟩ := gettoken_after_peek h
  have hstarts : starts [ch] (tokens s) = true := h ▸ ht
  exact ⟨s', ⟨by rw [peek_eq hsymbol, hstarts], htok, by rw [h, hs']⟩, hs'⟩

/-- A symbol is next, or peek does not see it. -/
theorem symbol_cases (s : Ptr) {ch : Char} (t : Token Span)
    (hsymbol : (text [ch]).all symbols.contains = true)
    (ht : ∀ t' : Token Span, starts [ch] [t'] = true → t' = t) :
    (∃ s', Next s ch t s') ∨ peek s [ch] = (false, skip s) := by
  cases hstarts : starts [ch] (tokens s) with
  | false => exact .inr (by rw [peek_eq hsymbol, hstarts])
  | true =>
      cases hs : tokens s with
      | nil => rw [hs] at hstarts; cases hstarts
      | cons t' ts =>
          rw [hs] at hstarts
          obtain rfl : t' = t := ht t' hstarts
          obtain ⟨s', hnext, -⟩ := next_of_cons ch hs hsymbol hstarts
          exact .inl ⟨s', hnext⟩

theorem semi_cases (s : Ptr) :
    (∃ s', Next s ';' .semi s') ∨ peek s [';'] = (false, skip s) :=
  symbol_cases s .semi (by decide) fun t h => by cases t <;> first | rfl | cases h

theorem bar_cases (s : Ptr) :
    (∃ s', Next s '|' .bar s') ∨ peek s ['|'] = (false, skip s) :=
  symbol_cases s .bar (by decide) fun t h => by cases t <;> first | rfl | cases h

theorem lparen_cases (s : Ptr) :
    (∃ s', Next s '(' .lparen s') ∨ peek s ['('] = (false, skip s) :=
  symbol_cases s .lparen (by decide) fun t h => by cases t <;> first | rfl | cases h

theorem rparen_cases (s : Ptr) :
    (∃ s', Next s ')' .rparen s') ∨ peek s [')'] = (false, skip s) :=
  symbol_cases s .rparen (by decide) fun t h => by cases t <;> first | rfl | cases h

/-- What the tree and the text after it have to do with a text. -/
def Parsed (nt : Nonterminal) (s : Ptr) (x : Cmd Span × Ptr) : Prop :=
  ∃ ts, tokens s = ts ++ tokens x.2 ∧ Derives nt ts x.1

theorem Parsed.length {nt : Nonterminal} {x : Cmd Span × Ptr} (h : Parsed nt s x) :
    (tokens x.2).length ≤ (tokens s).length := by
  obtain ⟨ts, hts, -⟩ := h
  rw [hts, List.length_append]
  omega

theorem parseblock_sound (hline : ∀ s, Ensures (parseline n s) (Parsed .line s)) (s : Ptr) :
    Ensures (parseblock (n + 1) s) (Parsed .exec s) := by
  rw [parseblock]
  rcases lparen_cases s with ⟨s', hpeek, htok, hs⟩ | hpeek
  · rw [hpeek]
    simp only [htok]
    refine (hline s').bind ?_
    rintro ⟨cmd, s₁⟩ ⟨ts₁, hts₁, hcmd⟩
    rcases rparen_cases s₁ with ⟨s₂, hpeek, htok, hs₁⟩ | hpeek
    · simp only [hpeek, htok]
      refine (parseredirs_sound n cmd s₂).mono ?_
      rintro ⟨cmd', s₃⟩ ⟨rs, hrs, hcmd'⟩
      simp only at hts₁ hcmd hrs hcmd'
      subst hcmd'
      refine ⟨_, ?_, .block hcmd rs⟩
      simp only
      rw [hs, hts₁, hs₁, hrs]
      simp
    · simp only [hpeek]
      exact .error
  · rw [hpeek]
    exact .error

theorem parse_sound (n : Nat) : ∀ (nt : Nonterminal) (s : Ptr),
    Ensures (parse nt n s) (Parsed nt s) := by
  induction n using Nat.strong_induction_on with
  | _ n ih =>
  intro nt s
  cases n with
  | zero => cases nt <;> exact .error
  | succ n =>
      cases nt with
      | line =>
          rw [parse, parseline]
          refine (ih n (Nat.lt_succ_self n) .pipe s).bind ?_
          rintro ⟨cmd, s₁⟩ ⟨ts₁, hts₁, hcmd⟩
          refine (parsebacks_sound n cmd s₁).bind ?_
          rintro ⟨cmd', s₂⟩ ⟨k, hk, hback⟩
          simp only at hts₁ hcmd hk hback
          subst hback
          rcases semi_cases s₂ with ⟨s₃, hpeek, htok, hs₂⟩ | hpeek
          · simp only [hpeek, htok]
            refine (ih n (Nat.lt_succ_self n) .line s₃).bind ?_
            rintro ⟨right, s₄⟩ ⟨ts₄, hts₄, hright⟩
            refine .ok ⟨_, ?_, .list hcmd k hright⟩
            simp only at hts₄ ⊢
            rw [hts₁, hk, hs₂, hts₄]
            simp
          · simp only [hpeek]
            refine .ok ⟨_, ?_, .line hcmd k⟩
            simp only [tokens_skip]
            rw [hts₁, hk, List.append_assoc]
      | pipe =>
          rw [parse, parsepipe]
          refine (ih n (Nat.lt_succ_self n) .exec s).bind ?_
          rintro ⟨cmd, s₁⟩ ⟨ts₁, hts₁, hcmd⟩
          simp only at hts₁ hcmd
          rcases bar_cases s₁ with ⟨s₂, hpeek, htok, hs₁⟩ | hpeek
          · simp only [hpeek, htok]
            refine (ih n (Nat.lt_succ_self n) .pipe s₂).bind ?_
            rintro ⟨right, s₃⟩ ⟨ts₃, hts₃, hright⟩
            refine .ok ⟨_, ?_, .pipe hcmd hright⟩
            simp only at hts₃ ⊢
            rw [hts₁, hs₁, hts₃]
            simp
          · simp only [hpeek]
            exact .ok ⟨ts₁, by rw [hts₁, tokens_skip], .single hcmd⟩
      | exec =>
          rw [parse, parseexec]
          rcases lparen_cases s with ⟨s', hpeek, -, -⟩ | hpeek
          · rw [hpeek]
            cases n with
            | zero => exact .error
            | succ n =>
                have hblock := parseblock_sound (n := n) (fun s => ih n (by omega) .line s)
                  (skip s)
                exact hblock.mono fun x hx => by rwa [Parsed, tokens_skip] at hx
          · rw [hpeek]
            refine (parseredirs_sound n (.exec []) (skip s)).bind ?_
            rintro ⟨ret, s₁⟩ ⟨rs, hrs, hret⟩
            simp only [tokens_skip] at hrs hret
            subst hret
            refine (parseargs_sound n 0 [] rs s₁).mono ?_
            rintro ⟨cmd, s₂⟩ ⟨args, hargs, hlen, hcmd⟩
            simp only [List.nil_append] at hargs hcmd
            subst hcmd
            refine ⟨_, ?_, .args rs args ?_⟩
            · simp only
              rw [hrs, hargs, List.append_assoc]
            · rcases hlen with rfl | hlen
              · exact Nat.zero_le _
              · exact hlen

/-- The symbols that can come after a derivation, inside a line. -/
def Nonterminal.follow : Nonterminal → List Char
  | .line => [')']
  | .pipe => [')', '&', ';']
  | .exec => ['|', ')', '&', ';']

def Follows (nt : Nonterminal) (rest : List (Token Span)) : Prop :=
  rest = [] ∨ starts nt.follow rest = true

theorem Follows.mono {nt nt' : Nonterminal} {rest : List (Token Span)} (h : Follows nt rest)
    (hsub : ∀ t : Token Span, starts nt.follow [t] = true → starts nt'.follow [t] = true) :
    Follows nt' rest := by
  rcases h with rfl | h
  · exact .inl rfl
  · cases rest with
    | nil => exact .inl rfl
    | cons t rest => exact .inr (hsub t h)

theorem Follows.not_starts {nt : Nonterminal} {rest : List (Token Span)} {ch : Char}
    (h : Follows nt rest)
    (hdisjoint : ∀ t : Token Span, starts nt.follow [t] = true → starts [ch] [t] = false) :
    starts [ch] rest = false := by
  rcases h with rfl | h
  · rfl
  · cases rest with
    | nil => rfl
    | cons t rest => exact hdisjoint t h

theorem Follows.backs {rest : List (Token Span)} (h : Follows .pipe rest) (k : Nat) :
    Follows .pipe (List.replicate k .amp ++ rest) := by
  cases k with
  | zero => exact h
  | succ k => exact .inr rfl

/-- Before the `)` of a block or at the end. -/
theorem Follows.pipe_of_line {rest : List (Token Span)} (h : Follows .line rest) :
    Follows .pipe rest :=
  h.mono fun t => by cases t <;> first | exact fun _ => rfl | exact nofun

theorem Follows.exec_of_pipe {rest : List (Token Span)} (h : Follows .pipe rest) :
    Follows .exec rest :=
  h.mono fun t => by cases t <;> first | exact fun _ => rfl | exact nofun

theorem Follows.starts_redir {rest : List (Token Span)} (h : Follows .exec rest) :
    starts ['<', '>'] rest = false := by
  rcases h with rfl | h
  · rfl
  · cases rest with
    | nil => rfl
    | cons t rest => cases t <;> first | rfl | cases h

theorem peek_false (ch : Char) (h : starts [ch] (tokens s) = false)
    (hsymbol : (text [ch]).all symbols.contains = true) :
    peek s [ch] = (false, skip s) := by
  rw [peek_eq hsymbol, h]

theorem starts_lparen (rs : List (Redir Span)) (args : List (Span × List (Redir Span)))
    (h : Follows .exec rest) :
    starts ['('] (rs.flatMap Redir.tokens ++ args.flatMap argTokens ++ rest) = false := by
  cases rs with
  | cons r rs =>
      obtain ⟨d, file⟩ := r
      cases d <;> rfl
  | nil =>
      cases args with
      | cons arg args => rfl
      | nil => exact h.not_starts fun t => by cases t <;> first | exact fun _ => rfl | exact nofun

/-- A derivation is what the parser finds. -/
theorem parse_complete {nt : Nonterminal} (h : Derives nt ts cmd) :
    ∀ (n : Nat) (s : Ptr) (rest : List (Token Span)), tokens s = ts ++ rest → Follows nt rest →
      Yields (parse nt n s) fun x => x.1 = cmd ∧ tokens x.2 = rest := by
  induction h with
  | @block ts cmd _ rs ih =>
      intro n s rest hs hrest
      match n with
      | 0 => exact .inl rfl
      | 1 =>
          obtain ⟨s', ⟨hpeek, -⟩, -⟩ := next_of_cons '(' hs (by decide) rfl
          exact .inl (by rw [parse, parseexec, hpeek]; rfl)
      | n + 2 =>
          obtain ⟨s₀, ⟨hpeek, -⟩, -⟩ := next_of_cons '(' hs (by decide) rfl
          obtain ⟨s', ⟨hpeek', htok, -⟩, hs'⟩ := next_of_cons (s := skip s) '('
            ((tokens_skip s).trans hs) (by decide) rfl
          rw [skip_skip] at hpeek' htok
          rw [parse, parseexec, hpeek]
          simp only [parseblock, hpeek', htok]
          have hline : tokens s' = ts ++ (.rparen :: (rs.flatMap Redir.tokens ++ rest)) := by
            rw [hs']
            simp
          refine (ih n s' _ hline (.inr rfl)).bind ?_
          rintro ⟨cmd', s₁⟩ ⟨rfl, hs₁⟩
          obtain ⟨s₂, ⟨hpeek, htok, -⟩, hs₂⟩ := next_of_cons ')' hs₁ (by decide) rfl
          simp only [hpeek, htok]
          exact parseredirs_complete rs n _ s₂ hs₂ hrest.starts_redir
  | args rs args hlen =>
      intro n s rest hs hrest
      cases n with
      | zero => exact .inl rfl
      | succ n =>
          have hpeek := peek_false (s := s) '('
            (by rw [hs]; exact starts_lparen rs args hrest) (by decide)
          rw [parse, parseexec, hpeek]
          simp only
          rw [List.append_assoc] at hs
          refine (parseredirs_complete rs n (.exec []) (skip s) ((tokens_skip s).trans hs)
            (starts_args args hrest.starts_redir)).bind ?_
          rintro ⟨ret, s₁⟩ ⟨rfl, hs₁⟩
          exact parseargs_complete args n 0 [] rs s₁ hs₁ hlen hrest
  | single _ ih =>
      intro n s rest hs hrest
      cases n with
      | zero => exact .inl rfl
      | succ n =>
          rw [parse, parsepipe]
          refine (ih n s rest hs hrest.exec_of_pipe).bind ?_
          rintro ⟨cmd, s₁⟩ ⟨rfl, hs₁⟩
          have hpeek := peek_false (s := s₁) '|' (hs₁ ▸ hrest.not_starts fun t => by
            cases t <;> first | exact fun _ => rfl | exact nofun) (by decide)
          simp only [hpeek]
          exact .ok ⟨rfl, (tokens_skip s₁).trans hs₁⟩
  | pipe _ _ ih ih' =>
      intro n s rest hs hrest
      cases n with
      | zero => exact .inl rfl
      | succ n =>
          rw [parse, parsepipe]
          rw [List.append_assoc] at hs
          refine (ih n s _ hs (.inr rfl)).bind ?_
          rintro ⟨cmd, s₁⟩ ⟨rfl, hs₁⟩
          obtain ⟨s₂, ⟨hpeek, htok, -⟩, hs₂⟩ := next_of_cons '|' hs₁ (by decide) rfl
          simp only [hpeek, htok]
          refine (ih' n s₂ rest hs₂ hrest).bind ?_
          rintro ⟨right, s₃⟩ ⟨rfl, hs₃⟩
          exact .ok ⟨rfl, hs₃⟩
  | line _ k ih =>
      intro n s rest hs hrest
      cases n with
      | zero => exact .inl rfl
      | succ n =>
          rw [parse, parseline]
          rw [List.append_assoc] at hs
          refine (ih n s _ hs (hrest.pipe_of_line.backs k)).bind ?_
          rintro ⟨cmd, s₁⟩ ⟨rfl, hs₁⟩
          refine (parsebacks_complete k n _ s₁ hs₁ (hrest.not_starts fun t => by
            cases t <;> first | exact fun _ => rfl | exact nofun)).bind ?_
          rintro ⟨cmd', s₂⟩ ⟨rfl, hs₂⟩
          have hpeek := peek_false (s := s₂) ';' (hs₂ ▸ hrest.not_starts fun t => by
            cases t <;> first | exact fun _ => rfl | exact nofun) (by decide)
          simp only [hpeek]
          exact .ok ⟨rfl, (tokens_skip s₂).trans hs₂⟩
  | list _ k _ ih ih' =>
      intro n s rest hs hrest
      cases n with
      | zero => exact .inl rfl
      | succ n =>
          rw [parse, parseline]
          rw [List.append_assoc, List.append_assoc] at hs
          refine (ih n s _ hs (Follows.backs (.inr rfl) k)).bind ?_
          rintro ⟨cmd, s₁⟩ ⟨rfl, hs₁⟩
          refine (parsebacks_complete k n _ s₁ hs₁ rfl).bind ?_
          rintro ⟨cmd', s₂⟩ ⟨rfl, hs₂⟩
          obtain ⟨s₃, ⟨hpeek, htok, -⟩, hs₃⟩ := next_of_cons ';' hs₂ (by decide) rfl
          simp only [hpeek, htok]
          refine (ih' n s₃ rest hs₃ hrest).bind ?_
          rintro ⟨right, s₄⟩ ⟨rfl, hs₄⟩
          exact .ok ⟨rfl, hs₄⟩

/-- The calls below a function on the same tokens. -/
def Nonterminal.depth : Nonterminal → Nat
  | .line => 4
  | .pipe => 3
  | .exec => 2

theorem parseblock_ends (hline : ∀ s', (tokens s').length < (tokens s).length →
    Ends (parseline n s')) (h : (tokens s).length ≤ n) : Ends (parseblock (n + 1) s) := by
  rw [parseblock]
  rcases lparen_cases s with ⟨s', hpeek, htok, hs⟩ | hpeek
  · rw [hpeek]
    simp only [htok]
    have hlen : (tokens s').length < (tokens s).length := by
      rw [hs, List.length_cons]
      omega
    refine (hline s' hlen).bind (parse_sound n .line s') ?_
    rintro ⟨cmd, s₁⟩ hcmd
    have hle := hcmd.length
    rcases rparen_cases s₁ with ⟨s₂, hpeek, htok, hs₁⟩ | hpeek
    · simp only [hpeek, htok]
      apply parseredirs_ends
      simp only [hs₁, List.length_cons] at hle
      omega
    · simp only [hpeek]
      exact nofun
  · rw [hpeek]
    exact nofun

/-- The parser terminates on every text. -/
theorem parse_ends (n : Nat) : ∀ (nt : Nonterminal) (s : Ptr),
    4 * (tokens s).length + nt.depth ≤ n → Ends (parse nt n s) := by
  induction n using Nat.strong_induction_on with
  | _ n ih =>
  intro nt s hn
  cases n with
  | zero => cases nt <;> simp [Nonterminal.depth] at hn
  | succ n =>
      cases nt with
      | line =>
          rw [parse, parseline]
          simp only [Nonterminal.depth] at hn
          refine (ih n (Nat.lt_succ_self n) .pipe s (by simp only [Nonterminal.depth]; omega)).bind
            (parse_sound n .pipe s) ?_
          rintro ⟨cmd, s₁⟩ hcmd
          have hle := hcmd.length
          simp only at hle
          refine (parsebacks_ends n cmd s₁ (by omega)).bind (parsebacks_sound n cmd s₁) ?_
          rintro ⟨cmd', s₂⟩ ⟨k, hk, -⟩
          simp only at hk
          rcases semi_cases s₂ with ⟨s₃, hpeek, htok, hs₂⟩ | hpeek
          · simp only [hpeek, htok]
            have hlt : (tokens s₃).length < (tokens s₁).length := by
              rw [hk, hs₂, List.length_append, List.length_cons]
              omega
            refine (ih n (Nat.lt_succ_self n) .line s₃
              (by simp only [Nonterminal.depth]; omega)).bind (parse_sound n .line s₃) ?_
            exact fun _ _ => nofun
          · simp only [hpeek]
            exact nofun
      | pipe =>
          rw [parse, parsepipe]
          simp only [Nonterminal.depth] at hn
          refine (ih n (Nat.lt_succ_self n) .exec s (by simp only [Nonterminal.depth]; omega)).bind
            (parse_sound n .exec s) ?_
          rintro ⟨cmd, s₁⟩ hcmd
          have hle := hcmd.length
          simp only at hle
          rcases bar_cases s₁ with ⟨s₂, hpeek, htok, hs₁⟩ | hpeek
          · simp only [hpeek, htok]
            rw [hs₁, List.length_cons] at hle
            refine (ih n (Nat.lt_succ_self n) .pipe s₂
              (by simp only [Nonterminal.depth]; omega)).bind (parse_sound n .pipe s₂) ?_
            exact fun _ _ => nofun
          · simp only [hpeek]
            exact nofun
      | exec =>
          rw [parse, parseexec]
          simp only [Nonterminal.depth] at hn
          rcases lparen_cases s with ⟨s', hpeek, -, -⟩ | hpeek
          · rw [hpeek]
            obtain ⟨m, rfl⟩ : ∃ m, n = m + 1 := ⟨n - 1, by omega⟩
            refine parseblock_ends (s := skip s) (fun s' hs' => ?_) ?_
            · rw [tokens_skip] at hs'
              exact ih m (by omega) .line s' (by simp only [Nonterminal.depth]; omega)
            · rw [tokens_skip]
              omega
          · rw [hpeek]
            have hskip : (tokens (skip s)).length < n := by
              rw [tokens_skip]
              omega
            refine (parseredirs_ends n _ (skip s) hskip).bind (parseredirs_sound n _ (skip s)) ?_
            rintro ⟨ret, s₁⟩ ⟨rs, hrs, -⟩
            apply parseargs_ends
            rw [hrs, List.length_append] at hskip
            simp only at hskip ⊢
            omega

end Xv6.Sh
