/-
The regular expressions of user/grep.c.  `match'`, `matchhere` and `matchstar` are the
backtracking matcher; the meaning of a pattern is given item by item, and the matcher
is shown to find a match exactly when there is one.
-/
import Mathlib.Data.List.Basic

namespace Xv6.Grep

/-- A NUL-terminated string: the bytes before the terminator. -/
abbrev Str := List UInt8

def star : UInt8 := 42
def dot : UInt8 := 46
def caret : UInt8 := 94
def dollar : UInt8 := 36

mutual

/-- `matchhere`: search for `re` at the beginning of `text`. -/
def matchhere (re text : Str) : Bool :=
  match re with
  | [] => true
  | c :: re' =>
      if re'.head? = some star then matchstar c (re'.drop 1) text
      else if c = dollar ∧ re' = [] then text.isEmpty
      else
        match text with
        | t :: text' => if c = dot ∨ c = t then matchhere re' text' else false
        | [] => false
termination_by (re.length, text.length, 0)

/-- `matchstar`: search for `c*re` at the beginning of `text`. -/
def matchstar (c : UInt8) (re text : Str) : Bool :=
  if matchhere re text then true
  else
    match text with
    | t :: text' => if t = c ∨ c = dot then matchstar c re text' else false
    | [] => false
termination_by (re.length, text.length, 1)

end

/-- The loop of `match'`: every suffix of the text is tried, the empty one included. -/
def matchAnywhere (re : Str) : Str → Bool
  | [] => matchhere re []
  | t :: text => if matchhere re (t :: text) then true else matchAnywhere re text

/-- `match` of user/grep.c. -/
def match' (re text : Str) : Bool :=
  match re with
  | c :: re' => if c = caret then matchhere re' text else matchAnywhere re text
  | [] => matchAnywhere re text

/-- What a pattern is made of. -/
inductive Item
  | one (x : UInt8)
  | many (x : UInt8)
  | ending
deriving DecidableEq, Repr

/-- A pattern read from left to right. -/
def items : Str → List Item
  | [] => []
  | [x] => if x = dollar then [.ending] else [.one x]
  | x :: y :: re => if y = star then .many x :: items re else .one x :: items (y :: re)

-- "**", "*" and "$*": a star behind a star or a dollar repeats it, a first star is itself
example : items [star, star] = [.many star] ∧ items [star] = [.one star] ∧
    items [dollar, star] = [.many dollar] := by decide

/-- The character `x` of a pattern stands for `c`. -/
def Stands (x c : UInt8) : Prop := x = dot ∨ x = c

/-- The item matches `s`, when `rest` is what follows `s` in the text. -/
def Item.Matches : Item → (s rest : Str) → Prop
  | .one x, s, _ => ∃ c, s = [c] ∧ Stands x c
  | .many x, s, _ => ∀ c ∈ s, Stands x c
  | .ending, s, rest => s = [] ∧ rest = []

/-- The items match `s` one after the other. -/
def Matches : List Item → (s rest : Str) → Prop
  | [], s, _ => s = []
  | i :: is, s, rest => ∃ u v, s = u ++ v ∧ i.Matches u (v ++ rest) ∧ Matches is v rest

/-- A text begins with a match. -/
def Begins (is : List Item) (text : Str) : Prop :=
  ∃ s rest, text = s ++ rest ∧ Matches is s rest

theorem begins_nil (text : Str) : Begins [] text := ⟨[], text, rfl, rfl⟩

theorem begins_cons {i : Item} {is : List Item} {text : Str} :
    Begins (i :: is) text ↔ ∃ u rest, text = u ++ rest ∧ i.Matches u rest ∧ Begins is rest := by
  constructor
  · rintro ⟨s, rest, rfl, u, v, rfl, hu, hv⟩
    exact ⟨u, v ++ rest, List.append_assoc .., hu, v, rest, rfl, hv⟩
  · rintro ⟨u, w, rfl, hu, v, rest, rfl, hv⟩
    exact ⟨u ++ v, rest, (List.append_assoc ..).symm, u, v, rfl, hu, hv⟩

theorem begins_one {x : UInt8} {is : List Item} {text : Str} :
    Begins (.one x :: is) text ↔ ∃ c text', text = c :: text' ∧ Stands x c ∧ Begins is text' := by
  rw [begins_cons]
  constructor
  · rintro ⟨u, rest, rfl, ⟨c, rfl, hc⟩, h⟩
    exact ⟨c, rest, rfl, hc, h⟩
  · rintro ⟨c, rest, rfl, hc, h⟩
    exact ⟨[c], rest, rfl, ⟨c, rfl, hc⟩, h⟩

theorem begins_ending {text : Str} : Begins [.ending] text ↔ text = [] := by
  rw [begins_cons]
  constructor
  · rintro ⟨u, rest, rfl, ⟨rfl, rfl⟩, -⟩
    rfl
  · rintro rfl
    exact ⟨[], [], rfl, ⟨rfl, rfl⟩, begins_nil []⟩

/-- A starred character takes nothing, or one character and then as before. -/
theorem begins_many {x : UInt8} {is : List Item} {text : Str} :
    Begins (.many x :: is) text ↔ Begins is text ∨
      ∃ c text', text = c :: text' ∧ Stands x c ∧ Begins (.many x :: is) text' := by
  rw [begins_cons]
  constructor
  · rintro ⟨u, rest, rfl, hu, h⟩
    cases u with
    | nil => exact .inl h
    | cons c u =>
        have hrest : Begins (.many x :: is) (u ++ rest) :=
          begins_cons.mpr ⟨u, rest, rfl, fun d hd => hu d (List.mem_cons_of_mem c hd), h⟩
        exact .inr ⟨c, u ++ rest, rfl, hu c List.mem_cons_self, hrest⟩
  · rintro (h | ⟨c, text', rfl, hc, h⟩)
    · exact ⟨[], text, rfl, fun d hd => absurd hd List.not_mem_nil, h⟩
    · obtain ⟨u, rest, rfl, hu, h⟩ := begins_cons.mp h
      refine ⟨c :: u, rest, rfl, fun d hd => ?_, h⟩
      rcases List.mem_cons.mp hd with rfl | hd
      · exact hc
      · exact hu d hd

theorem matchhere_nil (text : Str) : matchhere [] text = true := by
  rw [matchhere]

theorem matchhere_star (x : UInt8) (re text : Str) :
    matchhere (x :: star :: re) text = matchstar x re text := by
  rw [matchhere.eq_def]
  simp

theorem matchhere_dollar (text : Str) : matchhere [dollar] text = text.isEmpty := by
  rw [matchhere.eq_def]
  simp

/-- The last case of `matchhere`: one character of the pattern against one of the text. -/
theorem matchhere_one {x : UInt8} {re : Str} (hstar : re.head? ≠ some star)
    (hdollar : ¬ (x = dollar ∧ re = [])) (text : Str) :
    matchhere (x :: re) text = true ↔
      ∃ c text', text = c :: text' ∧ Stands x c ∧ matchhere re text' = true := by
  rw [matchhere.eq_def]
  simp only [if_neg hstar, if_neg hdollar]
  cases text with
  | nil => simp
  | cons t text => simp [Stands]

theorem matchstar_iff {x : UInt8} {re : Str} {is : List Item}
    (ih : ∀ text, matchhere re text = true ↔ Begins is text) (text : Str) :
    matchstar x re text = true ↔ Begins (.many x :: is) text := by
  induction text with
  | nil =>
      rw [matchstar, begins_many, ← ih []]
      simp
  | cons t text iht =>
      have hstands : (t = x ∨ x = dot) ↔ Stands x t := by
        rw [Stands, or_comm, eq_comm (a := t)]
      rw [matchstar, begins_many, ← ih (t :: text)]
      by_cases hhere : matchhere re (t :: text) = true
      · simp [hhere]
      · by_cases ht : Stands x t
        · simp [hhere, hstands, ht, iht]
        · simp [hhere, hstands, ht]

/-- The induction follows the reading of the pattern; the text is free, because every
case of the matcher goes on with another text. -/
theorem matchhere_iff (re text : Str) : matchhere re text = true ↔ Begins (items re) text := by
  induction re using items.induct generalizing text with
  | case1 => simp [matchhere_nil, items, begins_nil]
  | case2 =>
      rw [matchhere_dollar, items, if_pos rfl, begins_ending, List.isEmpty_iff]
  | case3 x hx =>
      rw [matchhere_one (by simp) (by simp [hx]), items, if_neg hx, begins_one]
      simp [matchhere_nil, begins_nil]
  | case4 x re ih => rw [matchhere_star, items, if_pos rfl, matchstar_iff ih]
  | case5 x y re hy ih =>
      rw [matchhere_one (by simpa using hy) (by simp), items, if_neg hy, begins_one]
      simp only [ih]

theorem matchAnywhere_iff (re text : Str) :
    matchAnywhere re text = true ↔ ∃ pre post, text = pre ++ post ∧ Begins (items re) post := by
  induction text with
  | nil =>
      rw [matchAnywhere, matchhere_iff]
      constructor
      · intro h
        exact ⟨[], [], rfl, h⟩
      · rintro ⟨pre, post, heq, h⟩
        obtain ⟨rfl, rfl⟩ := List.append_eq_nil_iff.mp heq.symm
        exact h
  | cons t text ih =>
      have hsplit : matchAnywhere re (t :: text) = true ↔
          Begins (items re) (t :: text) ∨ matchAnywhere re text = true := by
        rw [matchAnywhere, ← matchhere_iff]
        by_cases hhere : matchhere re (t :: text) = true <;> simp [hhere]
      rw [hsplit, ih]
      constructor
      · rintro (h | ⟨pre, post, rfl, h⟩)
        · exact ⟨[], t :: text, rfl, h⟩
        · exact ⟨t :: pre, post, rfl, h⟩
      · rintro ⟨pre, post, heq, h⟩
        cases pre with
        | nil =>
            subst heq
            exact .inl h
        | cons c pre =>
            rw [List.cons_append, List.cons.injEq] at heq
            exact .inr ⟨pre, post, heq.2, h⟩

/-- A pattern that begins with `^` is matched at the beginning of the text only. -/
def anchored : Str → Bool
  | c :: _ => c = caret
  | [] => false

/-- A pattern without its leading `^`. -/
def body (re : Str) : Str := if anchored re then re.drop 1 else re

theorem grepMatch_iff (re text : Str) :
    match' re text = true ↔ ∃ pre s post, text = pre ++ s ++ post ∧
      (anchored re = true → pre = []) ∧ Matches (items (body re)) s post := by
  by_cases hanch : anchored re = true
  · obtain ⟨re', rfl⟩ : ∃ re', re = caret :: re' := by
      cases re with
      | nil => cases hanch
      | cons c re' => exact ⟨re', by rw [of_decide_eq_true hanch]⟩
    have hmatch : match' (caret :: re') text = matchhere re' text := by simp [match']
    rw [hmatch, matchhere_iff]
    constructor
    · rintro ⟨s, post, rfl, h⟩
      exact ⟨[], s, post, rfl, fun _ => rfl, h⟩
    · rintro ⟨pre, s, post, rfl, hpre, h⟩
      rw [hpre rfl]
      exact ⟨s, post, rfl, h⟩
  · have hmatch : match' re text = matchAnywhere re text := by
      cases re with
      | nil => rfl
      | cons c re' =>
          have hc : c ≠ caret := fun hc => hanch (decide_eq_true hc)
          simp [match', hc]
    have hbody : body re = re := if_neg hanch
    rw [hmatch, matchAnywhere_iff, hbody]
    constructor
    · rintro ⟨pre, _, rfl, s, post, rfl, h⟩
      exact ⟨pre, s, post, (List.append_assoc ..).symm, fun hc => absurd hc hanch, h⟩
    · rintro ⟨pre, s, post, rfl, -, h⟩
      exact ⟨pre, s ++ post, List.append_assoc .., s, post, rfl, h⟩

end Xv6.Grep
