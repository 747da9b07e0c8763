/-
The loop of user/grep.c over its buffer of 1024 bytes.  Input arrives in reads of any
positive size; the line that a read cuts in two is moved to the front of the buffer.
Every access to the buffer is checked against its bounds.
-/
import Xv6.Lib.Lines
import Xv6.Memmove
import Xv6.Grep.Match

namespace Xv6.Grep

open Bytes

/-- `sizeof(buf)`. -/
def bufSize : Nat := 1024

def newline : UInt8 := 10

/-- An access outside of buf, or a count `m` that would become negative. -/
inductive Fault
  | bounds
  | negative
deriving DecidableEq, Repr

/-- The `n` bytes at `a` belong to the buffer at `buf`. -/
def Inside (buf a n : Nat) : Prop := buf ≤ a ∧ a + n ≤ buf + bufSize

instance (buf a n : Nat) : Decidable (Inside buf a n) := inferInstanceAs (Decidable (_ ∧ _))

def store (buf : Nat) (mem : Arr) (a : Nat) (c : UInt8) : Except Fault Arr :=
  if Inside buf a 1 then .ok (Function.update mem a c) else .error .bounds

/-- `write`: the bytes that the kernel takes from the buffer. -/
def write (buf : Nat) (mem : Arr) (a n : Nat) : Except Fault Str :=
  if Inside buf a n then .ok ((List.range n).map fun i => mem (a + i)) else .error .bounds

/-- `read`: the bytes that the kernel puts into the buffer. -/
def read (buf : Nat) (mem : Arr) (a : Nat) (chunk : Str) : Except Fault Arr :=
  if Inside buf a chunk.length then .ok (blit mem a (fun i => chunk.getD i 0) 0 chunk.length)
  else .error .bounds

/-- `memmove` inside the buffer. -/
def move (buf : Nat) (mem : Arr) (dst src n : Nat) : Except Fault Arr :=
  if Inside buf dst n ∧ Inside buf src n then .ok (Memmove.User.memmove mem dst src n).1
  else .error .bounds

/-- `strchr` of user/ulib.c on a string in the buffer. -/
def strchr (buf : Nat) (mem : Arr) (s : Nat) (c : UInt8) : Except Fault (Option Nat) :=
  if Inside buf s 1 then
    if mem s = 0 then .ok none
    else if mem s = c then .ok (some s)
    else strchr buf mem (s + 1) c
  else .error .bounds
termination_by buf + bufSize - s
decreasing_by simp only [Inside] at *; omega

/-- The string at `p`, as `match` reads it. -/
def textAt (buf : Nat) (mem : Arr) (p : Nat) : Except Fault Str :=
  if Inside buf p 1 then
    if mem p = 0 then .ok []
    else (textAt buf mem (p + 1)).map (mem p :: ·)
  else .error .bounds
termination_by buf + bufSize - p
decreasing_by simp only [Inside] at *; omega

/-- The body of the inner loop: the line from `p` to the newline at `q`.  The newline
is put back only when the line is written. -/
def line (re : Str) (buf : Nat) (mem : Arr) (p q : Nat) : Except Fault (Arr × Str) := do
  let mem ← store buf mem q 0
  let text ← textAt buf mem p
  if match' re text then
    let mem ← store buf mem q newline
    let bytes ← write buf mem p (q + 1 - p)
    return (mem, bytes)
  else return (mem, [])

theorem strchr_some {buf : Nat} {mem : Arr} {s q : Nat} {c : UInt8}
    (h : strchr buf mem s c = .ok (some q)) : s ≤ q ∧ q < buf + bufSize := by
  fun_induction strchr with
  | case1 => cases h
  | case2 s hin hnul hc =>
      cases h
      simp only [Inside] at hin
      omega
  | case3 s hin hnul hc ih =>
      have := ih h
      omega
  | case4 => cases h

/-- The inner loop: memory, `p` and the output when no newline is left. -/
def scan (re : Str) (buf : Nat) (mem : Arr) (p : Nat) (out : Str) :
    Except Fault (Arr × Nat × Str) :=
  match _hq : strchr buf mem p newline with
  | .error e => .error e
  | .ok none => .ok (mem, p, out)
  | .ok (some q) =>
      match line re buf mem p q with
      | .error e => .error e
      | .ok (mem, bytes) => scan re buf mem (q + 1) (out ++ bytes)
termination_by buf + bufSize - p
decreasing_by
  have := strchr_some _hq
  omega

/-- The variables of `grep`, and what it has written. -/
structure State where
  mem : Arr
  m : Nat := 0
  out : Str := []

/-- The body of the outer loop, after a read that returned `chunk`. -/
def State.step (re : Str) (buf : Nat) (s : State) (chunk : Str) : Except Fault State := do
  let mem ← read buf s.mem (buf + s.m) chunk
  let m := s.m + chunk.length
  let mem ← store buf mem (buf + m) 0
  let (mem, p, out) ← scan re buf mem buf s.out
  if m > 0 then
    if p - buf ≤ m then
      let m := m - (p - buf)
      let mem ← move buf mem buf p m
      return { mem := mem, m := m, out := out }
    else .error .negative
  else return { mem := mem, m := m, out := out }

/-- The outer loop of `grep`.  The `i`-th read delivers `size i` bytes, or as many as
there is space for, or as many as are left; the loop ends when it delivers none. -/
def grep (re : Str) (buf : Nat) (size : Nat → Nat) (i : Nat) (s : State) (input : Str) :
    Except Fault State :=
  let n := min (size i) (min (bufSize - s.m - 1) input.length)
  if n = 0 then .ok s
  else
    match s.step re buf (input.take n) with
    | .error e => .error e
    | .ok s' => grep re buf size (i + 1) s' (input.drop n)
termination_by input.length
decreasing_by
  rw [List.length_drop]
  omega

/-- The text `t` is in memory at `a`. -/
def At (mem : Arr) : Nat → Str → Prop
  | _, [] => True
  | a, c :: t => mem a = c ∧ At mem (a + 1) t

theorem at_append {mem : Arr} {a : Nat} {t u : Str} :
    At mem a (t ++ u) ↔ At mem a t ∧ At mem (a + t.length) u := by
  induction t generalizing a with
  | nil => simp [At]
  | cons c t ih =>
      have hlen : a + (c :: t).length = a + 1 + t.length := by
        rw [List.length_cons]
        omega
      rw [List.cons_append, At, At, ih, hlen, and_assoc]

theorem at_singleton {mem : Arr} {a : Nat} {c : UInt8} : At mem a [c] ↔ mem a = c := by
  simp [At]

theorem at_iff {mem : Arr} {a : Nat} {t : Str} :
    At mem a t ↔ ∀ (i : Nat) (h : i < t.length), mem (a + i) = t[i] := by
  induction t generalizing a with
  | nil => simp [At]
  | cons c t ih =>
      rw [At, ih]
      constructor
      · rintro ⟨hhead, htail⟩ i hi
        cases i with
        | zero => exact hhead
        | succ i =>
            have hpos : a + (i + 1) = a + 1 + i := by omega
            rw [hpos]
            exact htail i (by simpa using hi)
      · intro h
        refine ⟨h 0 (by simp), fun i hi => ?_⟩
        have hpos : a + 1 + i = a + (i + 1) := by omega
        rw [hpos]
        exact h (i + 1) (by simpa using hi)

/-- A text depends on its own bytes only. -/
theorem At.congr {mem mem' : Arr} {a a' : Nat} {t : Str} (h : At mem a t)
    (heq : ∀ i, i < t.length → mem' (a' + i) = mem (a + i)) : At mem' a' t := by
  rw [at_iff] at h ⊢
  exact fun i hi => (heq i hi).trans (h i hi)

theorem At.update {mem : Arr} {a b : Nat} {t : Str} {c : UInt8} (h : At mem a t)
    (hout : b < a ∨ a + t.length ≤ b) : At (Function.update mem b c) a t :=
  h.congr fun _ _ => Function.update_of_ne (by omega) ..

/-- A text that is copied is at its new place. -/
theorem At.blit {mem src : Arr} {a d : Nat} {t : Str} (h : At src a t) :
    At (blit mem d src a t.length) d t :=
  h.congr fun i hi => by
    have hin : d ≤ d + i ∧ d + i < d + t.length := by omega
    rw [Bytes.blit, if_pos hin, Nat.add_sub_cancel_left]

theorem at_chunk (chunk : Str) : At (fun i => chunk.getD i 0) 0 chunk := by
  rw [at_iff]
  intro i hi
  simp [hi]

theorem At.range_map {mem : Arr} {a : Nat} {t : Str} (h : At mem a t) :
    ((List.range t.length).map fun i => mem (a + i)) = t := by
  rw [at_iff] at h
  exact List.ext_getElem (by simp) fun i hi hi' => by simp [h i hi']

section strings

variable {buf : Nat} {mem : Arr}

/-- `strchr` finds the first occurrence. -/
theorem strchr_found {p : Nat} {t : Str} {c : UInt8} (hc : c ≠ 0) (hnul : 0 ∉ t) (hct : c ∉ t)
    (hat : At mem p (t ++ [c])) (hin : Inside buf p (t.length + 1)) :
    strchr buf mem p c = .ok (some (p + t.length)) := by
  induction t generalizing p with
  | nil =>
      have hp : mem p = c := at_singleton.mp hat
      rw [strchr, if_pos (show Inside buf p 1 from hin), hp, if_neg hc, if_pos rfl]
      rfl
  | cons d t ih =>
      obtain ⟨hp, hrest⟩ := hat
      simp only [List.mem_cons, not_or] at hnul hct
      simp only [Inside, List.length_cons] at hin
      have hin1 : Inside buf p 1 := ⟨hin.1, by omega⟩
      have hnext := ih hnul.2 hct.2 hrest ⟨by omega, by omega⟩
      rw [strchr, if_pos hin1, hp, if_neg (fun h => hnul.1 h.symm),
        if_neg (fun h => hct.1 h.symm), hnext, List.length_cons]
      congr 2
      omega

theorem strchr_absent {p : Nat} {t : Str} {c : UInt8} (hnul : 0 ∉ t) (hct : c ∉ t)
    (hat : At mem p (t ++ [0])) (hin : Inside buf p (t.length + 1)) :
    strchr buf mem p c = .ok none := by
  induction t generalizing p with
  | nil =>
      have hp : mem p = 0 := at_singleton.mp hat
      rw [strchr, if_pos (show Inside buf p 1 from hin), if_pos hp]
  | cons d t ih =>
      obtain ⟨hp, hrest⟩ := hat
      simp only [List.mem_cons, not_or] at hnul hct
      simp only [Inside, List.length_cons] at hin
      have hin1 : Inside buf p 1 := ⟨hin.1, by omega⟩
      rw [strchr, if_pos hin1, hp, if_neg (fun h => hnul.1 h.symm),
        if_neg (fun h => hct.1 h.symm)]
      exact ih hnul.2 hct.2 hrest ⟨by omega, by omega⟩

theorem textAt_eq {p : Nat} {t : Str} (hnul : 0 ∉ t) (hat : At mem p (t ++ [0]))
    (hin : Inside buf p (t.length + 1)) : textAt buf mem p = .ok t := by
  induction t generalizing p with
  | nil =>
      have hp : mem p = 0 := at_singleton.mp hat
      rw [textAt, if_pos (show Inside buf p 1 from hin), if_pos hp]
  | cons d t ih =>
      obtain ⟨hp, hrest⟩ := hat
      simp only [List.mem_cons, not_or] at hnul
      simp only [Inside, List.length_cons] at hin
      have hin1 : Inside buf p 1 := ⟨hin.1, by omega⟩
      have hnext := ih hnul.2 hrest ⟨by omega, by omega⟩
      rw [textAt, if_pos hin1, hp, if_neg (fun h => hnul.1 h.symm), hnext]
      rfl

theorem write_eq {p : Nat} {t : Str} (hat : At mem p t) (hin : Inside buf p t.length) :
    write buf mem p t.length = .ok t := by
  rw [write, if_pos hin, hat.range_map]

/-- A text moved inside the buffer, over whatever part of itself. -/
theorem move_eq {dst src : Nat} {t : Str} (hbuf : buf + bufSize ≤ Memmove.addresses)
    (hdst : Inside buf dst t.length) (hsrc : Inside buf src t.length) (hat : At mem src t) :
    ∃ mem', move buf mem dst src t.length = .ok mem' ∧ At mem' dst t := by
  refine ⟨_, if_pos ⟨hdst, hsrc⟩, ?_⟩
  rw [Memmove.User.memmove_eq (Nat.le_trans hdst.2 hbuf) (Nat.le_trans hsrc.2 hbuf)]
  exact hat.blit

end strings

section scan

variable {re : Str} {buf : Nat} {mem : Arr}

/-- What is written for a line. -/
def selected (re : Str) (l : Str) : Str := if match' re l then l ++ [newline] else []

theorem flatMap_selected (re : Str) (ls : List Str) :
    ls.flatMap (selected re) = Lines.join newline (ls.filter (match' re)) := by
  induction ls with
  | nil => rfl
  | cons l ls ih =>
      rw [List.flatMap_cons, ih, selected, List.filter_cons]
      split <;> simp

/-- The inner loop looks at one line, writes it if it matches, and leaves what comes
after it alone. -/
theorem line_eq {p : Nat} {l : Str} (hnul : 0 ∉ l) (hat : At mem p (l ++ [newline]))
    (hin : Inside buf p (l.length + 1)) :
    ∃ mem', line re buf mem p (p + l.length) = .ok (mem', selected re l) ∧
      ∀ a, p + l.length < a → mem' a = mem a := by
  simp only [Inside] at hin
  have hq : Inside buf (p + l.length) 1 := ⟨by omega, by omega⟩
  have hl : At mem p l := (at_append.mp hat).1
  -- the newline is overwritten, so that the line is a string of its own
  have hcut : At (Function.update mem (p + l.length) 0) p (l ++ [0]) :=
    at_append.mpr ⟨hl.update (.inr (Nat.le_refl _)), at_singleton.mpr (Function.update_self ..)⟩
  have htext : textAt buf (Function.update mem (p + l.length) 0) p = .ok l :=
    textAt_eq hnul hcut hin
  by_cases hmatch : match' re l = true
  · obtain ⟨mem', hmem⟩ : ∃ mem', mem' =
        Function.update (Function.update mem (p + l.length) 0) (p + l.length) newline := ⟨_, rfl⟩
    have hback : At mem' p (l ++ [newline]) := by
      rw [hmem]
      exact at_append.mpr ⟨(at_append.mp hcut).1.update (.inr (Nat.le_refl _)),
        at_singleton.mpr (Function.update_self ..)⟩
    have hcount : p + l.length + 1 - p = (l ++ [newline]).length := by
      rw [List.length_append, List.length_singleton]
      omega
    have hwrite : write buf mem' p (l ++ [newline]).length = .ok (l ++ [newline]) :=
      write_eq hback (by simpa [Inside] using hin)
    refine ⟨mem', ?_, fun a ha => ?_⟩
    · simp only [line, store, if_pos hq, htext, hmatch, if_true, selected, hcount, ← hmem,
        hwrite, bind, Except.bind, pure, Except.pure]
    · rw [hmem, Function.update_of_ne (by omega), Function.update_of_ne (by omega)]
  · refine ⟨Function.update mem (p + l.length) 0, ?_, fun a ha =>
      Function.update_of_ne (by omega) ..⟩
    simp only [line, store, if_pos hq, htext, hmatch, selected, bind, Except.bind, pure,
      Except.pure]
    rfl

theorem scan_of_none {p : Nat} {out : Str} (h : strchr buf mem p newline = .ok none) :
    scan re buf mem p out = .ok (mem, p, out) := by
  rw [scan]
  split <;> simp_all

theorem scan_of_some {p q : Nat} {out bytes : Str} {mem' : Arr}
    (h : strchr buf mem p newline = .ok (some q))
    (hline : line re buf mem p q = .ok (mem', bytes)) :
    scan re buf mem p out = scan re buf mem' (q + 1) (out ++ bytes) := by
  rw [scan]
  split <;> simp_all

/-- The inner loop writes the complete lines that match, and stops at the rest. -/
theorem scan_eq {ls : List Str} {t : Str} {p : Nat} {out : Str}
    (hnul : 0 ∉ Lines.join newline ls ++ t) (hls : ∀ l ∈ ls, newline ∉ l) (ht : newline ∉ t)
    (hat : At mem p (Lines.join newline ls ++ t ++ [0]))
    (hin : Inside buf p ((Lines.join newline ls ++ t).length + 1)) :
    ∃ mem', scan re buf mem p out = .ok (mem', p + (Lines.join newline ls).length,
        out ++ ls.flatMap (selected re)) ∧
      At mem' (p + (Lines.join newline ls).length) t := by
  induction ls generalizing mem p out with
  | nil =>
      have hstr : strchr buf mem p newline = .ok none := strchr_absent hnul ht hat hin
      refine ⟨mem, ?_, (at_append.mp hat).1⟩
      rw [scan_of_none hstr]
      simp
  | cons l ls ih =>
      have hsplit : Lines.join newline (l :: ls) ++ t =
          (l ++ [newline]) ++ (Lines.join newline ls ++ t) := by simp
      rw [hsplit] at hnul hat hin
      simp only [List.mem_append, not_or] at hnul
      rw [List.append_assoc, at_append] at hat
      obtain ⟨hhead, htail⟩ := hat
      simp only [Inside, List.length_append, List.length_singleton] at hin
      have hnl : newline ∉ l := hls l List.mem_cons_self
      have hstr : strchr buf mem p newline = .ok (some (p + l.length)) :=
        strchr_found (by decide) hnul.1.1 hnl hhead ⟨hin.1, by omega⟩
      obtain ⟨mem₁, hline, hframe⟩ : ∃ mem₁, line re buf mem p (p + l.length) =
          .ok (mem₁, selected re l) ∧ ∀ a, p + l.length < a → mem₁ a = mem a :=
        line_eq hnul.1.1 hhead ⟨hin.1, by omega⟩
      have hlen : p + (l ++ [newline]).length = p + l.length + 1 := by simp [Nat.add_assoc]
      have htail₁ : At mem₁ (p + l.length + 1) (Lines.join newline ls ++ t ++ [0]) := by
        rw [hlen] at htail
        exact htail.congr fun i _ => hframe _ (by omega)
      obtain ⟨mem', hscan, hat'⟩ := ih
        (by simpa [not_or] using hnul.2) (fun l' hl' => hls l' (List.mem_cons_of_mem l hl'))
        htail₁ ⟨by omega, by simp only [List.length_append]; omega⟩
      have hend : p + (Lines.join newline (l :: ls)).length =
          p + l.length + 1 + (Lines.join newline ls).length := by
        simp only [Lines.join_cons, List.length_append, List.length_cons]
        omega
      rw [hend]
      refine ⟨mem', ?_, hat'⟩
      rw [scan_of_some hstr hline, hscan, List.flatMap_cons, List.append_assoc]

end scan

/-- The buffer begins with the line that has not ended yet. -/
structure Carries (buf : Nat) (s : State) (t : Str) : Prop where
  count : s.m = t.length
  text : At s.mem buf t
  partialLine : newline ∉ t

section step

variable {re : Str} {buf : Nat} {s : State} {t chunk : Str}

/-- The buffer after `read` and after the terminator behind what was read. -/
theorem Carries.fill (h : Carries buf s t) (hfit : (t ++ chunk).length < bufSize) :
    ∃ mem₁ mem₂, read buf s.mem (buf + s.m) chunk = .ok mem₁ ∧
      store buf mem₁ (buf + (s.m + chunk.length)) 0 = .ok mem₂ ∧
      At mem₂ buf (t ++ chunk ++ [0]) := by
  rw [List.length_append] at hfit
  obtain ⟨mem₁, hmem₁⟩ : ∃ mem₁, mem₁ =
      blit s.mem (buf + t.length) (fun i => chunk.getD i 0) 0 chunk.length := ⟨_, rfl⟩
  have hat : At mem₁ buf (t ++ chunk) := by
    rw [hmem₁]
    refine at_append.mpr ⟨h.text.congr fun i hi => blit_of_disjoint (by omega), ?_⟩
    exact (at_chunk chunk).blit
  refine ⟨mem₁, Function.update mem₁ (buf + (t.length + chunk.length)) 0, ?_, ?_, ?_⟩
  · rw [read, h.count, if_pos ⟨by omega, by omega⟩, hmem₁]
  · rw [store, h.count, if_pos ⟨by omega, by omega⟩]
  · refine at_append.mpr ⟨hat.update (.inr (by rw [List.length_append])), ?_⟩
    rw [at_singleton, List.length_append, Function.update_self]

/-- One read, and all lines that it completes. -/
theorem State.step_eq (hbuf : buf + bufSize ≤ Memmove.addresses) (h : Carries buf s t)
    (hnul : 0 ∉ t ++ chunk) (hfit : (t ++ chunk).length < bufSize) :
    ∃ s', s.step re buf chunk = .ok s' ∧
      Carries buf s' (Lines.split newline (t ++ chunk)).2 ∧
      s'.out = s.out ++ (Lines.split newline (t ++ chunk)).1.flatMap (selected re) := by
  obtain ⟨ls, t', heq, hls, ht'⟩ := Lines.exists_join newline (t ++ chunk)
  have hsplit : Lines.split newline (t ++ chunk) = (ls, t') := by rw [heq, Lines.split_join hls ht']
  rw [hsplit]
  obtain ⟨mem₁, mem₂, hread, hstore, hat₂⟩ := h.fill hfit
  rw [heq] at hat₂
  rw [List.length_append] at hfit
  have hlen : (Lines.join newline ls).length + t'.length = t.length + chunk.length := by
    rw [← List.length_append, ← heq, List.length_append]
  obtain ⟨mem₃, hscan, hat₃⟩ : ∃ mem₃, scan re buf mem₂ buf s.out = .ok (mem₃,
      buf + (Lines.join newline ls).length, s.out ++ ls.flatMap (selected re)) ∧
      At mem₃ (buf + (Lines.join newline ls).length) t' :=
    scan_eq (heq ▸ hnul) hls ht' hat₂ ⟨Nat.le_refl _, by rw [List.length_append]; omega⟩
  have hm : s.m + chunk.length = (Lines.join newline ls).length + t'.length := by
    rw [h.count, hlen]
  by_cases hpos : s.m + chunk.length > 0
  · obtain ⟨mem₄, hmove, hat₄⟩ : ∃ mem₄, move buf mem₃ buf
        (buf + (Lines.join newline ls).length) t'.length = .ok mem₄ ∧ At mem₄ buf t' :=
      move_eq hbuf ⟨Nat.le_refl _, by omega⟩ ⟨by omega, by omega⟩ hat₃
    have hback : s.m + chunk.length - (buf + (Lines.join newline ls).length - buf) =
        t'.length := by omega
    have hle : buf + (Lines.join newline ls).length - buf ≤ s.m + chunk.length := by omega
    refine ⟨⟨mem₄, t'.length, s.out ++ ls.flatMap (selected re)⟩, ?_, ⟨rfl, hat₄, ht'⟩, rfl⟩
    simp only [State.step, hread, hstore, hscan, if_pos hpos, if_pos hle, hback, hmove, bind,
      Except.bind, pure, Except.pure]
  · have hnil : t' = [] := List.length_eq_zero_iff.mp (by omega)
    subst hnil
    refine ⟨⟨mem₃, s.m + chunk.length, s.out ++ ls.flatMap (selected re)⟩, ?_,
      ⟨by simpa using hpos, trivial, ht'⟩, rfl⟩
    simp only [State.step, hread, hstore, hscan, if_neg hpos, bind, Except.bind, pure,
      Except.pure]

end step

section run

variable {re : Str} {buf : Nat} {size : Nat → Nat}

/-- A read of no byte finds the input at its end, or the buffer full of the last line. -/
theorem Carries.last {s : State} {t input : Str} (h : Carries buf s t)
    (hshort : ∀ l ∈ (Lines.split newline (t ++ input)).1, l.length + 1 < bufSize)
    (hend : min (bufSize - t.length - 1) input.length = 0) : newline ∉ t ++ input := by
  intro hmem
  rcases List.mem_append.mp hmem with hmem | hmem
  · exact h.partialLine hmem
  · obtain ⟨l, hl, hlen⟩ := Lines.exists_long_piece h.partialLine hmem
    have hbound := hshort l hl
    have hinput := List.length_pos_of_mem hmem
    omega

/-- The loop from any of its states: what it adds to the output are the matching lines
of the carried text and the input behind it, wherever the reads cut the input.  The
induction is on the number of bytes that are left. -/
theorem grep_from (hbuf : buf + bufSize ≤ Memmove.addresses) (hsize : ∀ i, 0 < size i)
    (i : Nat) (s : State) (t input : Str) (h : Carries buf s t) (hnul : 0 ∉ t ++ input)
    (hfit : t.length < bufSize)
    (hshort : ∀ l ∈ (Lines.split newline (t ++ input)).1, l.length + 1 < bufSize) :
    ∃ s', grep re buf size i s input = .ok s' ∧ s'.out = s.out ++
      (Lines.split newline (t ++ input)).1.flatMap (selected re) := by
  induction hk : input.length using Nat.strong_induction_on generalizing i s t input with
  | _ k ih =>
  obtain ⟨n, hn⟩ : ∃ n, n = min (size i) (min (bufSize - s.m - 1) input.length) := ⟨_, rfl⟩
  have hpos := hsize i
  rw [h.count] at hn
  by_cases hzero : n = 0
  · have hlast : newline ∉ t ++ input := h.last hshort (by omega)
    refine ⟨s, ?_, by rw [Lines.split_of_not_mem hlast]; simp⟩
    rw [grep, h.count, ← hn, if_pos hzero]
  · have hle : n ≤ input.length := by omega
    have hinput : t ++ input = (t ++ input.take n) ++ input.drop n := by
      rw [List.append_assoc, List.take_append_drop]
    rw [hinput] at hnul hshort ⊢
    rw [Lines.split_append] at hshort ⊢
    have hnul' := hnul
    rw [List.mem_append, not_or] at hnul'
    have htake : (t ++ input.take n).length = t.length + n := by
      rw [List.length_append, List.length_take, Nat.min_eq_left hle]
    obtain ⟨s₁, hstep, hcarries, hout⟩ : ∃ s₁, s.step re buf (input.take n) = .ok s₁ ∧ _ :=
      State.step_eq hbuf h hnul'.1 (by omega)
    have hsuffix := Lines.rest_suffix newline (t ++ input.take n)
    have hrest : (Lines.split newline (t ++ input.take n)).2.length < bufSize := by
      have hle := hsuffix.length_le
      omega
    have hnulRest : 0 ∉ (Lines.split newline (t ++ input.take n)).2 ++ input.drop n := by
      rw [List.mem_append, not_or]
      exact ⟨fun hmem => hnul'.1 (hsuffix.subset hmem), hnul'.2⟩
    obtain ⟨s', hrun, hout'⟩ := ih (input.drop n).length
      (by rw [List.length_drop]; omega) (i + 1) s₁ _ (input.drop n) hcarries hnulRest hrest
      (fun l hl => hshort l (List.mem_append_right _ hl)) rfl
    refine ⟨s', ?_, ?_⟩
    · rw [grep, h.count, ← hn, if_neg hzero]
      simp only [hstep]
      exact hrun
    · rw [hout', hout, List.flatMap_append, List.append_assoc]

/-- However the reads cut the input, `grep` writes the complete lines that match, each
with its newline, and stays inside of its buffer. -/
theorem grep_writes_matching_lines (re input : Str) (mem : Arr) (buf : Nat) (size : Nat → Nat)
    (hbuf : buf + bufSize ≤ Memmove.addresses) (hsize : ∀ i, 0 < size i) (hnul : 0 ∉ input)
    (hshort : ∀ l ∈ (Lines.split newline input).1, (l ++ [newline]).length ≤ 1023) :
    ∃ s, grep re buf size 0 { mem := mem } input = .ok s ∧
      s.out = Lines.join newline ((Lines.split newline input).1.filter (match' re)) := by
  have hstart : Carries buf { mem := mem } [] := ⟨rfl, trivial, List.not_mem_nil⟩
  have hlines : ∀ l ∈ (Lines.split newline ([] ++ input)).1, l.length + 1 < bufSize := by
    intro l hl
    have hline := hshort l hl
    rw [List.length_append, List.length_singleton] at hline
    exact Nat.lt_succ_of_le hline
  obtain ⟨s, hrun, hout⟩ : ∃ s, grep re buf size 0 { mem := mem } input = .ok s ∧ _ :=
    grep_from hbuf hsize 0 _ [] input hstart hnul (by decide) hlines
  refine ⟨s, hrun, ?_⟩
  rw [hout, List.nil_append, flatMap_selected]
  rfl

/-- The input "a\nb" one byte at a time, and the pattern "a". -/
theorem grep_writes_matching_lines_bytewise :
    ∃ s, grep [97] 4096 (fun _ => 1) 0 { mem := fun _ => 0 } [97, 10, 98] = .ok s ∧
      s.out = [97, 10] := by
  obtain ⟨s, hrun, hout⟩ := grep_writes_matching_lines [97] [97, 10, 98] (fun _ => 0) 4096
    (fun _ => 1) (by decide) (fun _ => Nat.one_pos) (by decide) (by decide)
  have hsplit : (Lines.split newline [97, 10, 98]).1 = [[97]] := by decide
  have hmatch : match' [97] [97] = true := by
    simp [match', matchAnywhere, matchhere, caret, dollar]
  refine ⟨s, hrun, ?_⟩
  rw [hout, hsplit, List.filter_cons, if_pos hmatch]
  rfl

end run

end Xv6.Grep
