/-
`memmove` of kernel/string.c and of user/ulib.c over one flat byte memory.  The two
choose the direction of copying by different tests; both are compared with the copy
that reads every source byte before it writes any.
-/
import Xv6.Lib.Bytes

namespace Xv6.Memmove

open Bytes

/-- The number of addresses.  Pointers wrap around there. -/
abbrev addresses : Nat := 2 ^ 64

/-- `p + n` on a pointer, for a count of either sign. -/
def offset (p : Nat) (n : Int) : Nat := ((p + n) % addresses).toNat

/-- `while(n-- > 0) *d++ = *s++;` -/
def copyUp : Nat → Arr → Nat → Nat → Arr
  | 0, mem, _, _ => mem
  | n + 1, mem, d, s =>
      copyUp n (Function.update mem d (mem s)) (offset d 1) (offset s 1)

/-- `while(n-- > 0) *--d = *--s;` -/
def copyDown : Nat → Arr → Nat → Nat → Arr
  | 0, mem, _, _ => mem
  | n + 1, mem, d, s =>
      copyDown n (Function.update mem (offset d (-1)) (mem (offset s (-1))))
        (offset d (-1)) (offset s (-1))

/-- `memmove` of kernel/string.c: the memory after it, and the pointer it returns. -/
def Kernel.memmove (mem : Arr) (dst src n : Nat) : Arr × Nat :=
  if n = 0 then (mem, dst)
  else if src < dst ∧ offset src n > dst then
    (copyDown n mem (offset dst n) (offset src n), dst)
  else (copyUp n mem dst src, dst)

/-- `memmove` of user/ulib.c, whose count is an int. -/
def User.memmove (mem : Arr) (dst src : Nat) (n : Int) : Arr × Nat :=
  if src > dst then (copyUp n.toNat mem dst src, dst)
  else (copyDown n.toNat mem (offset dst n) (offset src n), dst)

theorem offset_natCast (p n : Nat) : offset p n = (p + n) % addresses := by
  simp only [offset, addresses]
  omega

theorem offset_mod_one (p : Nat) : offset (p % addresses) 1 = (p + 1) % addresses := by
  simp only [offset, addresses]
  omega

theorem offset_mod_neg_one (p : Nat) :
    offset ((p + 1) % addresses) (-1) = p % addresses := by
  simp only [offset, addresses]
  omega

section step

variable {mem : Arr} {d s n : Nat}

/-- A byte copied first, and then all bytes above it. -/
theorem blit_above (h : d ≤ s ∨ s + (n + 1) ≤ d) :
    blit (Function.update mem d (mem s)) (d + 1) (Function.update mem d (mem s)) (s + 1) n =
      blit mem d mem s (n + 1) := by
  funext a
  by_cases had : a = d
  · subst had
    have hout : ¬ (a + 1 ≤ a ∧ a < a + 1 + n) := by omega
    have hin : a ≤ a ∧ a < a + (n + 1) := by omega
    rw [blit, blit, if_neg hout, if_pos hin, Function.update_self, Nat.sub_self, Nat.add_zero]
  · by_cases hin : d + 1 ≤ a ∧ a < d + 1 + n
    · have hin' : d ≤ a ∧ a < d + (n + 1) := by omega
      have hread : s + 1 + (a - (d + 1)) = s + (a - d) := by omega
      -- the byte at `d` has been read already, or is no source byte at all
      have hne : s + (a - d) ≠ d := by omega
      rw [blit, blit, if_pos hin, if_pos hin', hread, Function.update_of_ne hne]
    · have hout : ¬ (d ≤ a ∧ a < d + (n + 1)) := by omega
      rw [blit, blit, if_neg hin, if_neg hout, Function.update_of_ne had]

/-- The byte at the end copied first, and then all bytes below it. -/
theorem blit_below (h : s ≤ d ∨ d + (n + 1) ≤ s) :
    blit (Function.update mem (d + n) (mem (s + n))) d
        (Function.update mem (d + n) (mem (s + n))) s n =
      blit mem d mem s (n + 1) := by
  funext a
  by_cases had : a = d + n
  · subst had
    have hout : ¬ (d ≤ d + n ∧ d + n < d + n) := by omega
    have hin : d ≤ d + n ∧ d + n < d + (n + 1) := by omega
    have hlast : d + n - d = n := by omega
    rw [blit, blit, if_neg hout, if_pos hin, Function.update_self, hlast]
  · by_cases hin : d ≤ a ∧ a < d + n
    · have hin' : d ≤ a ∧ a < d + (n + 1) := by omega
      have hne : s + (a - d) ≠ d + n := by omega
      rw [blit, blit, if_pos hin, if_pos hin', Function.update_of_ne hne]
    · have hout : ¬ (d ≤ a ∧ a < d + (n + 1)) := by omega
      rw [blit, blit, if_neg hin, if_neg hout, Function.update_of_ne had]

end step

theorem blit_zero (mem : Arr) (d : Nat) (src : Arr) (s : Nat) : blit mem d src s 0 = mem := by
  funext a
  exact blit_of_disjoint (by omega)

/-- Copying upwards is right when the destination does not begin inside the source.
The pointers are taken modulo the address space, because both may end at its end. -/
theorem copyUp_eq_blit {n : Nat} {mem : Arr} {d s : Nat} (hd : d + n ≤ addresses)
    (hs : s + n ≤ addresses) (h : d ≤ s ∨ s + n ≤ d) :
    copyUp n mem (d % addresses) (s % addresses) = blit mem d mem s n := by
  induction n generalizing mem d s with
  | zero => exact (blit_zero ..).symm
  | succ n ih =>
      have hdmod : d % addresses = d := Nat.mod_eq_of_lt (by omega)
      have hsmod : s % addresses = s := Nat.mod_eq_of_lt (by omega)
      rw [copyUp, offset_mod_one, offset_mod_one, hdmod, hsmod,
        ih (by omega) (by omega) (by omega)]
      exact blit_above h

/-- Copying downwards is right when the source does not begin inside the destination. -/
theorem copyDown_eq_blit {n : Nat} {mem : Arr} {d s : Nat} (hd : d + n ≤ addresses)
    (hs : s + n ≤ addresses) (h : s ≤ d ∨ d + n ≤ s) :
    copyDown n mem ((d + n) % addresses) ((s + n) % addresses) = blit mem d mem s n := by
  induction n generalizing mem with
  | zero => exact (blit_zero ..).symm
  | succ n ih =>
      have hdmod : (d + n) % addresses = d + n := Nat.mod_eq_of_lt (by omega)
      have hsmod : (s + n) % addresses = s + n := Nat.mod_eq_of_lt (by omega)
      rw [copyDown, ← Nat.add_assoc, ← Nat.add_assoc, offset_mod_neg_one, offset_mod_neg_one,
        ih (by omega) (by omega) (by omega), hdmod, hsmod]
      exact blit_below h

/-- The test of the kernel version.  `s + n` does not wrap when the destination is
above the source, since the destination then ends above `s + n`. -/
theorem Kernel.memmove_eq {mem : Arr} {dst src n : Nat} (hdst : dst + n ≤ addresses)
    (hsrc : src + n ≤ addresses) :
    Kernel.memmove mem dst src n = (blit mem dst mem src n, dst) := by
  unfold Kernel.memmove
  by_cases hn : n = 0
  · rw [if_pos hn, hn, blit_zero]
  · have hdmod : dst % addresses = dst := Nat.mod_eq_of_lt (by omega)
    have hsmod : src % addresses = src := Nat.mod_eq_of_lt (by omega)
    rw [if_neg hn, offset_natCast, offset_natCast]
    by_cases htest : src < dst ∧ (src + n) % addresses > dst
    · rw [if_pos htest, copyDown_eq_blit hdst hsrc (.inl (Nat.le_of_lt htest.1))]
    · have happart : dst ≤ src ∨ src + n ≤ dst := by
        by_cases hlt : src < dst
        · rw [Nat.mod_eq_of_lt (show src + n < addresses by omega)] at htest
          omega
        · omega
      have hup : copyUp n mem (dst % addresses) (src % addresses) = blit mem dst mem src n :=
        copyUp_eq_blit hdst hsrc happart
      rw [hdmod, hsmod] at hup
      rw [if_neg htest, hup]

theorem User.memmove_eq {mem : Arr} {dst src n : Nat} (hdst : dst + n ≤ addresses)
    (hsrc : src + n ≤ addresses) :
    User.memmove mem dst src n = (blit mem dst mem src n, dst) := by
  unfold User.memmove
  rw [Int.toNat_natCast, offset_natCast, offset_natCast]
  by_cases htest : src > dst
  · rw [if_pos htest]
    rcases Nat.eq_zero_or_pos n with hn | hn
    · rw [hn, blit_zero, copyUp]
    · have hup : copyUp n mem (dst % addresses) (src % addresses) = blit mem dst mem src n :=
        copyUp_eq_blit hdst hsrc (.inl (Nat.le_of_lt htest))
      rw [Nat.mod_eq_of_lt (by omega), Nat.mod_eq_of_lt (by omega)] at hup
      rw [hup]
  · rw [if_neg htest, copyDown_eq_blit hdst hsrc (.inl (Nat.le_of_not_lt htest))]

/-- Both versions leave the memory that the simultaneous copy leaves, for every
overlap of ranges that do not wrap around. -/
theorem memmove_simultaneous (mem : Arr) (dst src n : Nat) (hdst : dst + n ≤ addresses)
    (hsrc : src + n ≤ addresses) :
    (Kernel.memmove mem dst src n).2 = dst ∧ (User.memmove mem dst src n).2 = dst ∧
      ∀ a, let byte := if dst ≤ a ∧ a < dst + n then mem (src + (a - dst)) else mem a
        (Kernel.memmove mem dst src n).1 a = byte ∧ (User.memmove mem dst src n).1 a = byte := by
  rw [Kernel.memmove_eq hdst hsrc, User.memmove_eq hdst hsrc]
  exact ⟨rfl, rfl, fun a => ⟨rfl, rfl⟩⟩

/-- Ranges that overlap and end at the end of the address space. -/
theorem memmove_simultaneous_top :
    (Kernel.memmove (fun a => UInt8.ofNat a) (addresses - 3) (addresses - 4) 3).1 (addresses - 1) =
      UInt8.ofNat (addresses - 2) := by
  have h := (memmove_simultaneous (fun a => UInt8.ofNat a) (addresses - 3) (addresses - 4) 3
    (by decide) (by decide)).2.2 (addresses - 1)
  exact h.1

end Xv6.Memmove
