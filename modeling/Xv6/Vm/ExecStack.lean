/-
The initial stack of exec in the memory that the user sees: the strings of the arguments and
the array of their addresses, one below the other.
-/
import Xv6.Vm.Process

namespace Xv6.Vm

open Bytes

section copyout

variable {m m' : Mem} {v off : Nat} {src : List UInt8}

/-- The byte at an address, in a page that user code may not use only if `all`. -/
def Mem.byte (m : Mem) (all : Bool) (va : Nat) : Option UInt8 :=
  match m (va / PGSIZE) with
  | none => none
  | some u => if all || u.user then some (u.data (va % PGSIZE)) else none

theorem Mem.byte_false (m : Mem) (va : Nat) : m.byte false va = m.load va := rfl

/-- A store changes the bytes that it covers in one page. -/
theorem Mem.write_byte (h : m.write v off src = some m') (all : Bool) (va : Nat) :
    m'.byte all va = if va / PGSIZE = v ∧ off ≤ va % PGSIZE ∧ va % PGSIZE < off + src.length then
      some (src.getD (va % PGSIZE - off) 0) else m.byte all va := by
  unfold Mem.write at h
  split at h
  · cases h
  next u hu =>
  split at h
  next huw =>
    obtain rfl := Option.some.inj h
    rw [Bool.and_eq_true] at huw
    by_cases hv : va / PGSIZE = v
    · subst hv
      simp only [Mem.byte, Function.update_self, hu, huw.1, Bool.or_true, if_true, true_and,
        pokeBytes, blit, Nat.zero_add]
      split <;> rfl
    · rw [if_neg fun hand => hv hand.1]
      simp only [Mem.byte, Function.update_of_ne hv]
  · cases h

/-- When copyout succeeds, the bytes are at their addresses and all others as before. -/
theorem Mem.copyout_byte {n a : Nat} {d : List UInt8} (hn : d.length ≤ n)
    (h : ¬ (Mem.copyout n a d m).1 < 0) (all : Bool) (va : Nat) :
    (Mem.copyout n a d m).2.byte all va =
      if a ≤ va ∧ va < a + d.length then some (d.getD (va - a) 0) else m.byte all va := by
  induction n generalizing a d m with
  | zero =>
      rw [Mem.copyout, if_neg (by omega)]
  | succ n ih =>
      rw [Mem.copyout] at h ⊢
      by_cases hzero : d.length = 0
      · rw [if_pos hzero, if_neg (by omega)]
      rw [if_neg hzero] at h ⊢
      dsimp only at h ⊢
      have hdown : PGROUNDDOWN a ≤ a ∧ a < PGROUNDDOWN a + PGSIZE := by
        simp only [PGROUNDDOWN, PGSIZE]
        omega
      generalize hlen : min (PGSIZE - (a - PGROUNDDOWN a)) d.length = len at h ⊢
      cases hw : m.write (a / PGSIZE) (a - PGROUNDDOWN a) (d.take len) with
      | none =>
          simp only [hw] at h
          exact absurd (by decide) h
      | some m₁ =>
          simp only [hw] at h ⊢
          rw [ih (by rw [List.length_drop]; omega) h, Mem.write_byte hw, List.length_drop,
            List.length_take, min_eq_left (by omega)]
          -- the address is in the rest, in this page's part, or in neither
          by_cases hrest : PGROUNDDOWN a + PGSIZE ≤ va ∧ va < a + d.length
          · have hix : len + (va - (PGROUNDDOWN a + PGSIZE)) = va - a := by omega
            rw [if_pos (by omega), if_pos (by omega), List.getD_eq_getElem?_getD,
              List.getElem?_drop, hix, List.getD_eq_getElem?_getD]
          · rw [if_neg (by omega)]
            by_cases hpart : a ≤ va ∧ va < a + len
            · have hin : va / PGSIZE = a / PGSIZE ∧ a - PGROUNDDOWN a ≤ va % PGSIZE ∧
                  va % PGSIZE < a - PGROUNDDOWN a + len ∧
                  va % PGSIZE - (a - PGROUNDDOWN a) = va - a := by
                simp only [PGROUNDDOWN, PGSIZE] at *
                omega
              rw [if_pos ⟨hin.1, hin.2.1, hin.2.2.1⟩, if_pos (by omega), hin.2.2.2,
                List.getD_eq_getElem?_getD, List.getElem?_take_of_lt (by omega),
                List.getD_eq_getElem?_getD]
            · rw [if_neg (by simp only [PGROUNDDOWN, PGSIZE] at *; omega), if_neg (by omega)]

end copyout

/-- The bytes that a push of `n` bytes takes from an aligned stack. -/
def round16 (n : Nat) : Nat := (n + 15) / 16 * 16

theorem round16_down {sp n : Nat} (hsp : sp % 16 = 0) (hpos : 0 < sp - n - (sp - n) % 16) :
    sp - n - (sp - n) % 16 + round16 n = sp := by
  rw [round16]
  omega

theorem le_round16 (n : Nat) : n ≤ round16 n := by
  rw [round16]
  omega

/-- The room for the strings of the arguments. -/
def argBytes (argv : List (List UInt8)) : Nat := (argv.map fun arg => round16 (arg.length + 1)).sum

/-- The room for the strings and for the array of their addresses with the 0 at its end. -/
def stackUse (argv : List (List UInt8)) : Nat := argBytes argv + round16 ((argv.length + 1) * 8)

theorem argBytes_mod (argv : List (List UInt8)) : argBytes argv % 16 = 0 := by
  induction argv with
  | nil => rfl
  | cons arg rest ih =>
      have hcons : argBytes (arg :: rest) = round16 (arg.length + 1) + argBytes rest := by
        simp [argBytes]
      rw [hcons, round16]
      omega

/-- A string with its end is at an address. -/
def Mem.StringAt (m : Mem) (arg : List UInt8) (a : Nat) : Prop :=
  ∀ j, j ≤ arg.length → m.load (a + j) = some ((arg ++ [0]).getD j 0)

/-- `m'` is `m` after the strings have been pushed from `sp` down to `sp'`. -/
structure Mem.Pushed (m m' : Mem) (argv : List (List UInt8)) (sp sp' : Nat) (addrs : List Nat) :
    Prop where
  used : sp' + argBytes argv = sp
  strings : List.Forall₂ m'.StringAt argv addrs
  within : ∀ x ∈ argv.zip addrs, sp' ≤ x.2 ∧ x.2 + x.1.length + 1 ≤ sp
  apart : (argv.zip addrs).Pairwise fun x y => y.2 + y.1.length + 1 ≤ x.2
  frame : ∀ all va, va < sp' ∨ sp ≤ va → m'.byte all va = m.byte all va

theorem Mem.Pushed.nil (m : Mem) (sp : Nat) : m.Pushed m [] sp sp [] where
  used := rfl
  strings := .nil
  within x hx := by cases hx
  apart := .nil
  frame _ _ _ := rfl

/-- One more string on top of those that follow it. -/
theorem Mem.Pushed.cons {m m₁ m' : Mem} {arg : List UInt8} {rest : List (List UInt8)}
    {sp a sp' : Nat} {addrs : List Nat} (ha : a + round16 (arg.length + 1) = sp)
    (hfirst : ∀ all va, m₁.byte all va = if a ≤ va ∧ va < a + (arg ++ [0]).length then
      some ((arg ++ [0]).getD (va - a) 0) else m.byte all va)
    (h : m₁.Pushed m' rest a sp' addrs) : m.Pushed m' (arg :: rest) sp sp' (a :: addrs) := by
  have hround := le_round16 (arg.length + 1)
  have hused := h.used
  have hlength : (arg ++ [(0 : UInt8)]).length = arg.length + 1 := by simp
  rw [hlength] at hfirst
  refine ⟨?_, .cons ?_ h.strings, ?_, ?_, ?_⟩
  · have hcons : argBytes (arg :: rest) = round16 (arg.length + 1) + argBytes rest := by
      simp [argBytes]
    omega
  · intro j hj
    rw [← Mem.byte_false, h.frame _ _ (Or.inr (by omega)), hfirst, if_pos (by omega),
      Nat.add_sub_cancel_left]
  · intro x hx
    rw [List.zip_cons_cons, List.mem_cons] at hx
    rcases hx with rfl | hx
    · exact ⟨by simp only; omega, by simp only; omega⟩
    · have hin := h.within x hx
      omega
  · rw [List.zip_cons_cons, List.pairwise_cons]
    exact ⟨fun x hx => (h.within x hx).2, h.apart⟩
  · intro all va hva
    rw [h.frame all va (by omega), hfirst, if_neg (by omega)]

/-- The eight bytes of each word of an array are one after the other. -/
theorem getD_wordBytes (words : List Nat) {i j : Nat} (hi : i < words.length) (hj : j < 8) :
    (words.flatMap wordBytes).getD (8 * i + j) 0 = (wordBytes (words.getD i 0)).getD j 0 := by
  induction words generalizing i with
  | nil => exact absurd hi (Nat.not_lt_zero i)
  | cons w rest ih =>
      have hword : (wordBytes w).length = 8 := rfl
      rw [List.flatMap_cons]
      cases i with
      | zero =>
          rw [List.getD_append _ _ _ _ (by rw [hword]; omega)]
          simp
      | succ i =>
          rw [List.getD_append_right _ _ _ _ (by rw [hword]; omega), hword,
            show 8 * (i + 1) + j - 8 = 8 * i + j by omega,
            ih (Nat.lt_of_succ_lt_succ hi)]
          simp

theorem length_wordBytes (addrs : List Nat) :
    (addrs.flatMap wordBytes).length = 8 * addrs.length := by
  induction addrs with
  | nil => rfl
  | cons head tail ih =>
      have hword : (wordBytes head).length = 8 := rfl
      rw [List.flatMap_cons, List.length_append, ih, hword, List.length_cons]
      omega

/-- The stack that exec leaves below `sz`: the array of addresses at `sp`, and the strings
above it. -/
structure Mem.Stack (m m' : Mem) (argv : List (List UInt8)) (sz sp : Nat) (addrs : List Nat) :
    Prop where
  used : sp + stackUse argv = sz
  words : ∀ i j, i ≤ argv.length → j < 8 →
    m'.load (sp + 8 * i + j) = some ((wordBytes ((addrs ++ [0]).getD i 0)).getD j 0)
  strings : List.Forall₂ m'.StringAt argv addrs
  within : ∀ x ∈ argv.zip addrs,
    sp + (argv.length + 1) * 8 ≤ x.2 ∧ x.2 + x.1.length + 1 ≤ sz
  apart : (argv.zip addrs).Pairwise fun x y => y.2 + y.1.length + 1 ≤ x.2
  frame : ∀ all va, va < sp ∨ sz ≤ va → m'.byte all va = m.byte all va

/-- The array of addresses below the strings. -/
theorem Mem.Pushed.stack {m m₁ m' : Mem} {argv : List (List UInt8)} {sz sp₁ sp : Nat}
    {addrs : List Nat} (h : m.Pushed m₁ argv sz sp₁ addrs)
    (hsp : sp + round16 ((argv.length + 1) * 8) = sp₁)
    (hlast : ∀ all va, m'.byte all va =
      if sp ≤ va ∧ va < sp + ((addrs ++ [0]).flatMap wordBytes).length then
        some (((addrs ++ [0]).flatMap wordBytes).getD (va - sp) 0) else m₁.byte all va) :
    m.Stack m' argv sz sp addrs := by
  have hround := le_round16 ((argv.length + 1) * 8)
  have hlen := h.strings.length_eq
  have hused := h.used
  have hlength : ((addrs ++ [0]).flatMap wordBytes).length = (argv.length + 1) * 8 := by
    rw [length_wordBytes, List.length_append, ← hlen, List.length_singleton]
    omega
  rw [hlength] at hlast
  constructor
  case used =>
    rw [stackUse]
    omega
  case words =>
    intro i j hi hj
    rw [← Mem.byte_false, hlast, if_pos (by omega), ← getD_wordBytes _ (by simp; omega) hj]
    congr 2
    omega
  case strings =>
    have hkeep : ∀ x ∈ argv.zip addrs, m₁.StringAt x.1 x.2 → m'.StringAt x.1 x.2 := by
      intro x hx hat j hj
      have hin := (h.within x hx).1
      rw [← Mem.byte_false, hlast, if_neg (by omega)]
      exact hat j hj
    exact List.forall₂_iff_zip.mpr ⟨hlen, fun hmem =>
      hkeep _ hmem ((List.forall₂_iff_zip.mp h.strings).2 hmem)⟩
  case within =>
    intro x hx
    have hin := h.within x hx
    omega
  case apart => exact h.apart
  case frame =>
    intro all va hva
    rw [hlast, if_neg (by omega)]
    exact h.frame all va (by omega)

end Xv6.Vm
