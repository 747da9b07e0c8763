/-
The console buffer against the reference line editor: the three indices count the bytes consumed,
committed and typed, and the ring holds the bytes in between.
-/
import Xv6.Console.Code

namespace Xv6.Console

open Transition

/-! ### Indices -/

theorem toNat_ring (k : Nat) : (UInt32.ofNat k % INPUT_BUF_SIZE).toNat = k % 128 := by
  have hsize : INPUT_BUF_SIZE.toNat = 128 := rfl
  rw [UInt32.toNat_mod, hsize, UInt32.toNat_ofNat']
  exact Nat.mod_mod_of_dvd k (by decide)

/-- The distance of two indices, whether or not they have wrapped around. -/
theorem toNat_distance {a b : Nat} (h : b ≤ a) (hab : a < b + 2 ^ 32) :
    (UInt32.ofNat a - UInt32.ofNat b).toNat = a - b := by
  rw [UInt32.toNat_sub, UInt32.toNat_ofNat', UInt32.toNat_ofNat']
  omega

theorem ofNat_ne {a b : Nat} (h : b < a) (hab : a < b + 2 ^ 32) :
    UInt32.ofNat a ≠ UInt32.ofNat b := by
  intro heq
  have hdist := toNat_distance (Nat.le_of_lt h) hab
  rw [heq, UInt32.sub_self] at hdist
  have hzero : (0 : UInt32).toNat = 0 := rfl
  omega

theorem ofNat_succ (k : Nat) : UInt32.ofNat (k + 1) = UInt32.ofNat k + 1 :=
  UInt32.ofNat_add k 1

theorem ofNat_succ_sub_one (k : Nat) : UInt32.ofNat (k + 1) - 1 = UInt32.ofNat k := by
  rw [ofNat_succ]
  exact UInt32.add_sub_cancel _ _

/-! ### The buffer -/

/-- The buffer holds what the editor holds. -/
structure Agree (s : Cons) (ed : Editor) : Prop where
  taken : ed.taken ≤ ed.committed.length
  size : ed.committed.length + ed.line.length ≤ ed.taken + 128
  r : s.r = UInt32.ofNat ed.taken
  w : s.w = UInt32.ofNat ed.committed.length
  e : s.e = UInt32.ofNat (ed.committed.length + ed.line.length)
  bytes : ∀ k b, ed.taken ≤ k → (ed.committed ++ ed.line)[k]? = some b → s.buf (k % 128) = b
  unfinished : NEWLINE ∉ ed.line

namespace Agree

variable {s : Cons} {ed : Editor}

theorem get_eq (h : Agree s ed) {k : Nat} {b : UInt8} (hk : ed.taken ≤ k)
    (hb : (ed.committed ++ ed.line)[k]? = some b) : s.get (UInt32.ofNat k) = b := by
  rw [Cons.get, toNat_ring]
  exact h.bytes k b hk hb

theorem e_eq_w_iff (h : Agree s ed) : s.e = s.w ↔ ed.line = [] := by
  rw [h.e, h.w]
  constructor
  · intro heq
    by_contra hne
    have hpos := List.length_pos_iff.mpr hne
    have hsize := h.size
    have htaken := h.taken
    exact ofNat_ne (by omega) (by omega) heq
  · intro hnil
    rw [hnil]
    rfl

theorem r_eq_w_iff (h : Agree s ed) : s.r = s.w ↔ ed.taken = ed.committed.length := by
  rw [h.r, h.w]
  refine ⟨fun heq => ?_, fun heq => by rw [heq]⟩
  by_contra hne
  have hsize := h.size
  have htaken := h.taken
  exact ofNat_ne (b := ed.taken) (by omega) (by omega) heq.symm

/-- The number of bytes in the buffer. -/
theorem length_eq (h : Agree s ed) : (s.e - s.r).toNat = ed.pending := by
  have hsize := h.size
  have htaken := h.taken
  rw [h.e, h.r, toNat_distance (by omega) (by omega), Editor.pending]
  omega

theorem lines_eq (h : Agree s ed) : (s.w - s.r).toNat = ed.committed.length - ed.taken := by
  have hsize := h.size
  have htaken := h.taken
  rw [h.w, h.r, toNat_distance (by omega) (by omega)]

theorem pending_le (h : Agree s ed) : ed.pending ≤ 128 := by
  have hsize := h.size
  have htaken := h.taken
  rw [Editor.pending]
  omega

/-- The last byte of the line is erased. -/
theorem erase (h : Agree s ed) (hne : ed.line ≠ []) :
    Agree { s with e := s.e - 1 } { ed with line := ed.line.dropLast } := by
  obtain ⟨m, hm⟩ : ∃ m, ed.line.length = m + 1 :=
    Nat.exists_eq_succ_of_ne_zero fun h0 => hne (List.eq_nil_of_length_eq_zero h0)
  have hlen : ed.line.dropLast.length = m := by rw [List.length_dropLast, hm, Nat.add_sub_cancel]
  have hsize := h.size
  refine ⟨h.taken, ?_, h.r, h.w, ?_, fun k b hk hb => h.bytes k b hk ?_, ?_⟩
  · change ed.committed.length + ed.line.dropLast.length ≤ ed.taken + 128
    omega
  · change s.e - 1 = UInt32.ofNat (ed.committed.length + ed.line.dropLast.length)
    rw [h.e, hm, ← Nat.add_assoc, ofNat_succ_sub_one, hlen]
  · rw [← List.dropLast_concat_getLast hne, ← List.append_assoc,
      List.getElem?_append_left (List.getElem?_eq_some_iff.mp hb).1]
    exact hb
  · exact fun hmem => h.unfinished (List.dropLast_subset _ hmem)

/-- control-U erases the line, in which there is no newline to stop at. -/
theorem killLine (h : Agree s ed) : Agree s.killLine { ed with line := [] } := by
  generalize hn : ed.line.length = n
  induction n generalizing s ed with
  | zero =>
      have hnil := List.eq_nil_of_length_eq_zero hn
      rw [Cons.killLine, if_neg fun hgo => hgo.1 (h.e_eq_w_iff.mpr hnil)]
      rw [← hnil]
      exact h
  | succ n ih =>
      have hne : ed.line ≠ [] := fun hnil => by rw [hnil] at hn; cases hn
      have hlast : s.get (s.e - 1) = ed.line.getLast hne := by
        rw [h.e, hn, ← Nat.add_assoc, ofNat_succ_sub_one]
        have htaken := h.taken
        refine h.get_eq (by omega) ?_
        rw [List.getElem?_append_right (by omega), Nat.add_sub_cancel_left,
          List.getLast_eq_getElem, List.getElem?_eq_getElem (by omega)]
        simp [hn]
      have hgo : s.e ≠ s.w ∧ s.get (s.e - 1) ≠ NEWLINE := by
        refine ⟨fun heq => hne (h.e_eq_w_iff.mp heq), fun heq => h.unfinished ?_⟩
        rw [← heq, hlast]
        exact List.getLast_mem hne
      rw [Cons.killLine, if_pos hgo]
      have hrest := ih (h.erase hne) (by rw [List.length_dropLast, hn, Nat.add_sub_cancel])
      exact hrest

/-- A byte is stored in a free place of the ring. -/
theorem put (h : Agree s ed) (hroom : ed.pending < 128) (b : UInt8) :
    (∀ k x, ed.taken ≤ k → (ed.committed ++ (ed.line ++ [b]))[k]? = some x →
      (s.put b).buf (k % 128) = x) ∧
    (s.put b).e = UInt32.ofNat (ed.committed.length + (ed.line ++ [b]).length) ∧
    ed.committed.length + (ed.line ++ [b]).length ≤ ed.taken + 128 := by
  have htaken := h.taken
  simp only [Editor.pending] at hroom
  refine ⟨fun k x hk hx => ?_, ?_, ?_⟩
  · simp only [Cons.put, h.e, toNat_ring]
    rw [← List.append_assoc] at hx
    obtain ⟨hlt, -⟩ := List.getElem?_eq_some_iff.mp hx
    simp only [List.length_append, List.length_singleton] at hlt
    by_cases hend : k = ed.committed.length + ed.line.length
    · rw [hend, ← List.length_append, List.getElem?_concat_length] at hx
      rw [hend, Function.update_self]
      exact Option.some.inj hx
    · rw [Function.update_of_ne (by omega)]
      rw [List.getElem?_append_left (by rw [List.length_append]; omega)] at hx
      exact h.bytes k x hk hx
  · change s.e + 1 = _
    rw [h.e, List.length_append, List.length_singleton, ← Nat.add_assoc, ofNat_succ]
  · rw [List.length_append, List.length_singleton]
    omega

/-- The handler appends a character as the editor does. -/
theorem append (h : Agree s ed) (b : UInt8) (hb : b ≠ 0) (hdump : b ≠ DUMP) (hkill : b ≠ KILL)
    (herase : ¬ (b = BACKSPACE ∨ b = DELETE)) : Agree (s.consoleintr b).1 (ed.append b) := by
  have hroom : s.e - s.r < INPUT_BUF_SIZE ↔ ed.pending < 128 := by
    rw [UInt32.lt_iff_toNat_lt, h.length_eq]
    rfl
  rw [Cons.consoleintr, if_neg hdump, if_neg hkill, if_neg herase, Editor.append]
  by_cases hlt : ed.pending < 128
  · rw [if_pos ⟨hb, hroom.mpr hlt⟩, if_pos hlt]
    generalize (if b = RETURN then NEWLINE else b) = b'
    obtain ⟨hbytes, he, hsize⟩ := h.put hlt b'
    have hfull : (s.put b').e - (s.put b').r = INPUT_BUF_SIZE ↔
        { ed with line := ed.line ++ [b'] }.pending = 128 := by
      have htaken := h.taken
      have hr : (s.put b').r = UInt32.ofNat ed.taken := h.r
      have hnew : { ed with line := ed.line ++ [b'] }.pending =
        ed.committed.length - ed.taken + (ed.line ++ [b']).length := rfl
      have hsize' : INPUT_BUF_SIZE.toNat = 128 := rfl
      rw [he, hr, ← UInt32.toNat_inj, toNat_distance (by omega) (by omega), hnew, hsize']
      omega
    simp only [hfull]
    split
    · -- The line is complete, and becomes readable.
      refine ⟨?_, ?_, h.r, ?_, ?_, ?_, List.not_mem_nil⟩
      · simp only [Editor.commit, List.length_append]
        exact Nat.le_add_right_of_le h.taken
      · simpa [Editor.commit] using hsize
      · simpa [Editor.commit] using he
      · simpa [Editor.commit] using he
      · simpa [Editor.commit] using hbytes
    · next hmore =>
        refine ⟨h.taken, hsize, h.r, h.w, he, hbytes, fun hmem => ?_⟩
        rcases List.mem_append.mp hmem with hmem | hmem
        · exact h.unfinished hmem
        · exact hmore (.inl (List.mem_singleton.mp hmem).symm)
  · rw [if_neg fun hgo => hlt (hroom.mp hgo.2), if_neg hlt]
    exact h

/-- The interrupt handler is the line editor. -/
theorem consoleintr (h : Agree s ed) (b : UInt8) :
    Agree (s.consoleintr b).1 (ed.input b) := by
  unfold Editor.input Editor.edit
  by_cases hdump : b = DUMP
  · rw [Cons.consoleintr, if_pos hdump, if_pos (.inr hdump)]
    exact h
  by_cases hzero : b = 0
  · subst hzero
    exact h
  rw [if_neg fun hor => hor.elim hzero hdump]
  by_cases hkill : b = KILL
  · rw [Cons.consoleintr, if_neg hdump, if_pos hkill, if_pos hkill]
    exact h.killLine
  by_cases herase : b = BACKSPACE ∨ b = DELETE
  · rw [Cons.consoleintr, if_neg hdump, if_neg hkill, if_pos herase, if_neg hkill, if_pos herase]
    by_cases hnil : ed.line = []
    · rw [if_neg fun hne => hne (h.e_eq_w_iff.mpr hnil), hnil, List.dropLast_nil, ← hnil]
      exact h
    · rw [if_pos fun heq => hnil (h.e_eq_w_iff.mp heq)]
      exact h.erase hnil
  · rw [if_neg hkill, if_neg herase]
    exact h.append b hzero hdump hkill herase

/-- A reader takes the next committed byte. -/
theorem take (h : Agree s ed) (hne : s.r ≠ s.w) :
    Agree { s with r := s.r + 1 } { ed with taken := ed.taken + 1 } ∧
      ed.committed[ed.taken]? = some (s.get s.r) := by
  have htaken := h.taken
  have hlt : ed.taken < ed.committed.length :=
    Nat.lt_of_le_of_ne htaken fun heq => hne (h.r_eq_w_iff.mpr heq)
  refine ⟨⟨hlt, ?_, ?_, h.w, h.e, fun k b hk => h.bytes k b (Nat.le_of_succ_le hk),
    h.unfinished⟩, ?_⟩
  · exact Nat.le_trans h.size (Nat.add_le_add_right (Nat.le_succ _) _)
  · change s.r + 1 = _
    rw [h.r, ← ofNat_succ]
  · have hget := List.getElem?_eq_getElem hlt
    have hget' : (ed.committed ++ ed.line)[ed.taken]? = some ed.committed[ed.taken] := by
      rw [List.getElem?_append_left hlt, hget]
    rw [hget, h.r, h.get_eq (Nat.le_refl _) hget']

end Agree

/-! ### The system -/

/-- What a reader has been given is at most one line, and its result is the number of bytes. -/
def Reader.Ok : Reader → Prop
  | idle => True
  | waiting n target got | loop n target got | asleep n target got =>
      NEWLINE ∉ got ∧ n + got.length = target
  | done result got => NEWLINE ∉ got.dropLast ∧ (result = got.length ∨ result = -1)

theorem Reader.Ok.wake {x : Reader} (h : x.Ok) : x.wake.Ok := by
  cases x with
  | asleep n target got => exact h
  | _ => exact h

structure Inv (s : Sys) : Prop where
  agree : Agree s.cons s.editor
  delivered : s.delivered = (s.editor.committed.take s.editor.taken).filter (· ≠ EOF)
  readers : ∀ p, (s.reader p).Ok

/-- `ed'` has committed what `ed` has, and perhaps more. -/
def Extends (ed ed' : Editor) : Prop :=
  ed'.taken = ed.taken ∧ ∃ more, ed'.committed = ed.committed ++ more

theorem extends_append (ed : Editor) (b : UInt8) : Extends ed (ed.append b) := by
  unfold Editor.append
  split
  · generalize (if b = RETURN then NEWLINE else b) = b'
    dsimp only
    split
    · exact ⟨rfl, _, rfl⟩
    · exact ⟨rfl, [], (List.append_nil _).symm⟩
  · exact ⟨rfl, [], (List.append_nil _).symm⟩

/-- The editor never goes back on what it has committed. -/
theorem extends_input (ed : Editor) (b : UInt8) : Extends ed (ed.input b) := by
  have hsame : ∀ line, Extends ed { ed with line := line } := fun line =>
    ⟨rfl, [], (List.append_nil _).symm⟩
  unfold Editor.input Editor.edit
  split
  · exact hsame ed.line
  split
  · exact hsame []
  split
  · exact hsame ed.line.dropLast
  · exact extends_append ed b

namespace Inv

variable {s : Sys} {p : Nat} {n target : Int} {got : List UInt8}

theorem intr (h : Inv s) (b : UInt8) : Inv { s with
    cons := (s.cons.consoleintr b).1
    reader := fun p => if (s.cons.consoleintr b).2 then (s.reader p).wake else s.reader p
    editor := s.editor.input b } := by
  obtain ⟨htaken, more, hmore⟩ := extends_input s.editor b
  refine ⟨h.agree.consoleintr b, ?_, fun p => ?_⟩
  · change s.delivered = ((s.editor.input b).committed.take (s.editor.input b).taken).filter _
    rw [htaken, hmore, List.take_append_of_le_length h.agree.taken]
    exact h.delivered
  · change (if _ then _ else _ : Reader).Ok
    split
    · exact (h.readers p).wake
    · exact h.readers p

theorem goto (h : Inv s) {x : Reader} (hx : x.Ok) : Inv (s.goto p x) := by
  refine ⟨h.agree, h.delivered, fun q => ?_⟩
  by_cases hq : q = p
  · rw [hq]
    simpa [Sys.goto] using hx
  · simpa [Sys.goto, hq] using h.readers q

theorem withLock (h : Inv s) (l : Option Nat) : Inv { s with lock := l } :=
  ⟨h.agree, h.delivered, h.readers⟩

theorem finish (h : Inv s) {result : Int} (hx : (Reader.done result got).Ok) :
    Inv (s.finish p result got) :=
  (h.goto hx).withLock none

/-- A byte that is taken by a reader. -/
theorem take (h : Inv s) (hne : s.cons.r ≠ s.cons.w) :
    (s.cons.get s.cons.r = EOF → Inv s.take) ∧
    (s.cons.get s.cons.r ≠ EOF →
      Inv { s.take with delivered := s.delivered ++ [s.cons.get s.cons.r] }) := by
  obtain ⟨hagree, hbyte⟩ := h.agree.take hne
  have htake : s.editor.committed.take (s.editor.taken + 1) =
      s.editor.committed.take s.editor.taken ++ [s.cons.get s.cons.r] := by
    rw [List.take_add_one, hbyte]
    rfl
  constructor
  · intro heof
    refine ⟨hagree, ?_, h.readers⟩
    change s.delivered = (s.editor.committed.take (s.editor.taken + 1)).filter _
    rw [htake, List.filter_append, h.delivered, heof]
    simp
  · intro heof
    refine ⟨hagree, ?_, h.readers⟩
    change s.delivered ++ [_] = (s.editor.committed.take (s.editor.taken + 1)).filter _
    rw [htake, List.filter_append, h.delivered]
    simp [heof]

theorem putBack_take (s : Sys) : s.take.putBack = s := by
  have hr : s.cons.r + 1 - 1 = s.cons.r := UInt32.add_sub_cancel _ _
  simp only [Sys.take, Sys.putBack, hr, Nat.add_sub_cancel]

/-- A turn at the mark that control-D leaves: the read ends, and the mark is consumed by a read
that has delivered nothing. -/
theorem turn_eof (hok : NEWLINE ∉ got ∧ n + got.length = target) (hn : 0 < n)
    (hne : s.cons.r ≠ s.cons.w) (heof : s.cons.get s.cons.r = EOF) :
    s.turn p n target got = (if got = [] then s.take else s).finish p got.length got := by
  have hresult : target - n = got.length := by omega
  rw [Sys.turn, if_neg (not_not.mpr hn), if_neg hne]
  simp only [heof, if_true, putBack_take, hresult]
  congr 1
  by_cases hgot : got = []
  · rw [if_pos hgot, if_neg]
    rw [hgot, List.length_nil] at hok
    omega
  · have hpos := List.length_pos_iff.mpr hgot
    rw [if_neg hgot, if_pos (by omega)]

/-- A turn of the loop. -/
theorem turn (h : Inv s) (hok : NEWLINE ∉ got ∧ n + got.length = target) :
    Inv (s.turn p n target got) := by
  have hline : NEWLINE ∉ got.dropLast := fun hmem => hok.1 (List.dropLast_subset _ hmem)
  by_cases hn : 0 < n
  · by_cases hempty : s.cons.r = s.cons.w
    · rw [Sys.turn, if_neg (not_not.mpr hn), if_pos hempty]
      split
      · exact h.finish ⟨hline, .inr rfl⟩
      · exact (h.goto (x := .asleep n target got) hok).withLock none
    · by_cases heof : s.cons.get s.cons.r = EOF
      · rw [turn_eof hok hn hempty heof]
        split
        · exact ((h.take hempty).1 heof).finish ⟨hline, .inl rfl⟩
        · exact h.finish ⟨hline, .inl rfl⟩
      · have htake := (h.take hempty).2 heof
        rw [Sys.turn, if_neg (not_not.mpr hn), if_neg hempty]
        simp only [heof, if_false]
        split
        · -- A whole line has arrived.
          refine htake.finish ⟨by rw [List.dropLast_concat]; exact hok.1, .inl ?_⟩
          rw [List.length_append, List.length_singleton]
          omega
        · next hnl =>
            refine htake.goto ⟨fun hmem => ?_, ?_⟩
            · rcases List.mem_append.mp hmem with hmem | hmem
              · exact hok.1 hmem
              · exact hnl (List.mem_singleton.mp hmem).symm
            · rw [List.length_append, List.length_singleton]
              omega
  · rw [Sys.turn, if_pos hn]
    exact h.finish ⟨hline, .inl (by omega)⟩

theorem step {s' : Sys} {a : Act} (h : Inv s) (hstep : s.step a = some (.ok s')) : Inv s' := by
  cases a with
  | intr b =>
      simp only [Sys.step] at hstep
      split at hstep
      · obtain rfl := Except.ok.inj (Option.some.inj hstep)
        exact h.intr b
      · cases hstep
  | call p n =>
      have hnew : (Reader.waiting n n []).Ok := ⟨List.not_mem_nil, by simp⟩
      simp only [Sys.step] at hstep
      split at hstep
      · obtain rfl := Except.ok.inj (Option.some.inj hstep)
        exact h.goto hnew
      · obtain rfl := Except.ok.inj (Option.some.inj hstep)
        exact h.goto hnew
      · cases hstep
  | run p =>
      have hp := h.readers p
      simp only [Sys.step] at hstep
      split at hstep
      · next n target got hreader =>
          rw [hreader] at hp
          split at hstep
          · obtain rfl := Except.ok.inj (Option.some.inj hstep)
            exact (h.goto (x := .loop n target got) hp).withLock (some p)
          · cases hstep
      · next n target got hreader =>
          rw [hreader] at hp
          obtain rfl := Except.ok.inj (Option.some.inj hstep)
          exact h.turn hp
      · cases hstep
  | kill p =>
      obtain rfl := Except.ok.inj (Option.some.inj hstep)
      have hgoto := h.goto (p := p) (h.readers p).wake
      exact ⟨hgoto.agree, hgoto.delivered, hgoto.readers⟩

end Inv

/-- The console after any events, from `r = w = e = 0`. -/
def Run : Sys → Prop := Reach (fun s => s = {}) (fun _ _ => True) Sys.step

theorem Run.inv {s : Sys} (h : Run s) : Inv s := by
  refine Reach.invariant ?_ (fun _ _ _ _ hstep hinv => hinv.step hstep) h
  rintro s rfl
  refine ⟨⟨Nat.le_refl 0, Nat.zero_le _, rfl, rfl, rfl, ?_, List.not_mem_nil⟩, rfl,
    fun p => trivial⟩
  intro k b _ hb
  cases hb

/-- The console is a line editor.  After any interrupts and reads the buffer holds at most 128
bytes; the bytes delivered are, in order, the first of those that the editor has committed, the
marks of control-D left out; each read has returned at most one line; and a control-D ends a read,
and is consumed if the read has delivered nothing. -/
theorem console_is_line_editor {s : Sys} (h : Run s) :
    (s.cons.w - s.cons.r).toNat ≤ (s.cons.e - s.cons.r).toNat ∧
    (s.cons.e - s.cons.r).toNat ≤ INPUT_BUF_SIZE.toNat ∧
    s.delivered <+: s.editor.committed.filter (· ≠ EOF) ∧
    (∀ p result got, s.reader p = .done result got →
      NEWLINE ∉ got.dropLast ∧ (result = got.length ∨ result = -1)) ∧
    ∀ p n target got, s.reader p = .loop n target got → 0 < n → s.cons.r ≠ s.cons.w →
      s.cons.get s.cons.r = EOF → ∃ s', s.step (.run p) = some (.ok s') ∧
        s'.reader p = .done got.length got ∧ s'.delivered = s.delivered ∧
        s'.cons.r = if got = [] then s.cons.r + 1 else s.cons.r := by
  have hinv := h.inv
  refine ⟨?_, ?_, ?_, fun p result got hp => ?_, fun p n target got hp hn hne heof => ?_⟩
  · rw [hinv.agree.lines_eq, hinv.agree.length_eq]
    exact Nat.le_add_right _ _
  · rw [hinv.agree.length_eq]
    exact hinv.agree.pending_le
  · rw [hinv.delivered]
    have hfirst := List.take_prefix s.editor.taken s.editor.committed
    exact hfirst.filter _
  · have hok := hinv.readers p
    rw [hp] at hok
    exact hok
  · have hok := hinv.readers p
    rw [hp] at hok
    refine ⟨s.turn p n target got, by simp only [Sys.step, hp], ?_⟩
    rw [Inv.turn_eof hok hn hne heof]
    refine ⟨by simp [Sys.finish, Sys.goto], ?_, ?_⟩
    · split <;> rfl
    · split <;> rfl

namespace LinesWitness

/-- The state after some events. -/
def after (acts : List Act) : Option Sys := runAll (fun _ _ => true) Sys.step {} acts

/-- "a" and return are typed, and a process reads. -/
def acts : List Act := [.intr 97, .intr RETURN, .call 0 5, .run 0, .run 0, .run 0]

theorem console_is_line_editor_one_line :
    ∃ s, after acts = some s ∧ s.delivered = [97, 10] ∧
      s.delivered <+: s.editor.committed.filter (· ≠ EOF) := by
  have hrun : (after acts).map Sys.delivered = some [97, 10] := by decide +kernel
  obtain ⟨s, hs, hdelivered⟩ := Option.map_eq_some_iff.mp hrun
  have hreach : Run s := Reach.runAll (A := fun _ _ => True) (fun _ _ _ => trivial) (.start rfl) hs
  exact ⟨s, hs, hdelivered, (console_is_line_editor hreach).2.2.1⟩

/-- control-P is not appended to the line, and the mark of control-D is committed and not
delivered: with either the bytes delivered are not the first ones that `Editor.edit` commits. -/
theorem delivered_not_edited :
    ((after [.intr DUMP, .intr NEWLINE, .call 0 5, .run 0, .run 0]).map Sys.delivered = some [10] ∧
      ([DUMP, NEWLINE].foldl Editor.edit {}).committed = [16, 10] ∧ ¬ [10] <+: [16, 10]) ∧
    ((after [.intr EOF, .intr 97, .intr NEWLINE, .call 0 5, .run 0, .run 0, .call 0 5, .run 0,
        .run 0, .run 0]).map Sys.delivered = some [97, 10] ∧
      ([EOF, 97, NEWLINE].foldl Editor.edit {}).committed = [4, 97, 10] ∧
      ¬ [97, 10] <+: [4, 97, 10]) := by
  decide +kernel

end LinesWitness

end Xv6.Console
