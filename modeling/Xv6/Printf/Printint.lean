/-
`printint` of kernel/printf.c and of user/printf.c.  Both fill a buffer of 16 bytes from
the least significant digit on and print it backwards; they differ in the width of the
number and in the case of the digits.
-/
import Xv6.Lib.Numeral

namespace Xv6.Printf

/-- The characters that are printed, or a string. -/
abbrev Str := List UInt8

/-- A write behind the end of buf, or a directive for which there is no argument. -/
inductive Fault
  | overflow
  | arguments
deriving DecidableEq, Repr

/-- `sizeof(buf)`. -/
def bufSize : Nat := 16

def minus : UInt8 := 45

/-- `do { buf[i++] = digits[x % base]; } while((x /= base) != 0);` where `room` bytes of
the buffer are left. -/
def putDigits (digit : Nat → UInt8) (base : Nat) :
    (room x : Nat) → (buf : Str) → Except Fault (Nat × Str)
  | 0, _, _ => .error .overflow
  | room + 1, x, buf =>
      if x / base = 0 then .ok (room, buf ++ [digit (x % base)])
      else putDigits digit base room (x / base) (buf ++ [digit (x % base)])

/-- `if(neg) buf[i++] = '-';` -/
def putSign (neg : Bool) (room : Nat) (buf : Str) : Except Fault Str :=
  if neg then if room = 0 then .error .overflow else .ok (buf ++ [minus]) else .ok buf

/-- The code that the two versions of `printint` share, for numbers of `w` bits. -/
def printNumber {w : Nat} (digit : Nat → UInt8) (xx : BitVec w) (base : Nat) (sign : Bool) :
    Except Fault Str := do
  let neg := sign && decide (xx.toInt < 0)
  let x := if neg then -xx else xx
  let (room, buf) ← putDigits digit base bufSize x.toNat []
  let buf ← putSign neg room buf
  return buf.reverse

/-- "0123456789abcdef" -/
def Kernel.digits : List UInt8 :=
  [48, 49, 50, 51, 52, 53, 54, 55, 56, 57, 97, 98, 99, 100, 101, 102]

/-- "0123456789ABCDEF" -/
def User.digits : List UInt8 :=
  [48, 49, 50, 51, 52, 53, 54, 55, 56, 57, 65, 66, 67, 68, 69, 70]

def Kernel.digit (i : Nat) : UInt8 := Kernel.digits.getD i 0

def User.digit (i : Nat) : UInt8 := User.digits.getD i 0

/-- `printint` of kernel/printf.c, on a long long. -/
def Kernel.printint (xx : BitVec 64) (base : Nat) (sign : Bool) : Except Fault Str :=
  printNumber Kernel.digit xx base sign

/-- `printint` of user/printf.c, on an int. -/
def User.printint (xx : BitVec 32) (base : Nat) (sgn : Bool) : Except Fault Str :=
  printNumber User.digit xx base sgn

/-- The number that is meant, in either sign mode. -/
def value {w : Nat} (xx : BitVec w) (sign : Bool) : Int := if sign then xx.toInt else xx.toNat

/-- The numeral of a number, with `-` before a negative one. -/
def numeral (digit : Nat → UInt8) (base : Nat) (v : Int) : Str :=
  (if v < 0 then [minus] else []) ++ (Numeral.digits base v.natAbs).map digit

section

variable {digit : Nat → UInt8} {base : Nat}

/-- The loop writes all digits, or runs into the end of the buffer. -/
theorem putDigits_eq (hbase : 1 < base) (room x : Nat) (buf : Str) :
    putDigits digit base room x buf =
      if (Numeral.lowDigits base x).length ≤ room then
        .ok (room - (Numeral.lowDigits base x).length,
          buf ++ (Numeral.lowDigits base x).map digit)
      else .error .overflow := by
  induction room generalizing x buf with
  | zero =>
      have hpos := List.length_pos_iff.mpr (Numeral.lowDigits_ne_nil base x)
      rw [putDigits, if_neg (by omega)]
  | succ room ih =>
      rw [putDigits, Numeral.lowDigits_eq hbase x]
      by_cases hq : x / base = 0
      · simp [hq]
      · rw [if_neg hq, if_neg hq, ih]
        simp

theorem value_neg_iff {w : Nat} (xx : BitVec w) (sign : Bool) :
    (sign && decide (xx.toInt < 0)) = decide (value xx sign < 0) := by
  cases sign with
  | false =>
      have hpos : ¬ ((xx.toNat : Int) < 0) := by omega
      simp [value, hpos]
  | true => simp [value]

/-- The negation is right at the most negative number as well, because it is read as
an unsigned number. -/
theorem natAbs_value {w : Nat} (xx : BitVec w) (sign : Bool) :
    (if decide (value xx sign < 0) then -xx else xx).toNat = (value xx sign).natAbs := by
  rw [← value_neg_iff]
  have hlt := xx.isLt
  cases sign with
  | false => simp [value]
  | true =>
      by_cases hneg : xx.toInt < 0
      · simp only [hneg, value, decide_true, Bool.and_self, if_true, BitVec.toNat_neg]
        rw [BitVec.toInt_eq_toNat_cond] at hneg ⊢
        split at hneg
        · omega
        · next hmsb =>
            rw [if_neg hmsb, Nat.mod_eq_of_lt (by omega)]
            omega
      · simp only [hneg, value, decide_false, Bool.and_false, Bool.false_eq_true, if_false,
          if_true]
        rw [BitVec.toInt_eq_toNat_cond] at hneg ⊢
        split at hneg
        · next hmsb =>
            rw [if_pos hmsb]
            omega
        · omega

/-- `printint` prints the numeral if the buffer has room for it, and otherwise writes
behind its end. -/
theorem printNumber_eq {w : Nat} (hbase : 1 < base) (xx : BitVec w) (sign : Bool) :
    printNumber digit xx base sign =
      if (numeral digit base (value xx sign)).length ≤ bufSize then
        .ok (numeral digit base (value xx sign))
      else .error .overflow := by
  unfold printNumber
  simp only [value_neg_iff]
  rw [natAbs_value, putDigits_eq hbase]
  obtain ⟨ds, hds⟩ : ∃ ds, ds = Numeral.lowDigits base (value xx sign).natAbs := ⟨_, rfl⟩
  have hdigits : Numeral.digits base (value xx sign).natAbs = ds.reverse := by
    rw [hds, Numeral.digits]
  simp only [numeral, hdigits, ← hds]
  by_cases hfit : ds.length ≤ bufSize
  · by_cases hneg : value xx sign < 0
    · by_cases hroom : ds.length = bufSize
      · simp [hroom, hneg, putSign, bind, Except.bind]
      · have hlt : ds.length + 1 ≤ bufSize := by omega
        have hleft : bufSize - ds.length ≠ 0 := by omega
        simp [hfit, hneg, putSign, bind, Except.bind, pure, Except.pure, hlt, hleft]
    · simp [hfit, hneg, putSign, bind, Except.bind, pure, Except.pure]
  · have hlong : ∀ k, ¬ (k + ds.length ≤ bufSize) := fun k => by omega
    simp [hfit, hlong, bind, Except.bind]

/-- The numerals for which the buffer has room: `-` takes the place of one digit. -/
theorem length_numeral_le_iff (digit : Nat → UInt8) (hbase : 1 < base) (v : Int) :
    (numeral digit base v).length ≤ bufSize ↔ -(base : Int) ^ 15 < v ∧ v < (base : Int) ^ 16 := by
  have hpos : 0 < base := by omega
  have h15 : 0 < (base : Int) ^ 15 := Int.pow_pos (by omega)
  have h16 : 0 < (base : Int) ^ 16 := Int.pow_pos (by omega)
  by_cases hneg : v < 0
  · have hlen : (numeral digit base v).length = (Numeral.digits base v.natAbs).length + 1 := by
      simp [numeral, hneg]
    have hfits : (Numeral.digits base v.natAbs).length ≤ 15 ↔ v.natAbs < base ^ 15 :=
      Numeral.length_digits_le_iff hbase v.natAbs 14
    have habs : (v.natAbs : Int) = -v := by omega
    have hcast : v.natAbs < base ^ 15 ↔ -v < (base : Int) ^ 15 := by
      rw [← habs, ← Nat.cast_pow, Nat.cast_lt]
    rw [hlen, bufSize]
    omega
  · have hlen : (numeral digit base v).length = (Numeral.digits base v.natAbs).length := by
      simp [numeral, hneg]
    have hfits : (Numeral.digits base v.natAbs).length ≤ 16 ↔ v.natAbs < base ^ 16 :=
      Numeral.length_digits_le_iff hbase v.natAbs 15
    have habs : (v.natAbs : Int) = v := by omega
    have hcast : v.natAbs < base ^ 16 ↔ v < (base : Int) ^ 16 := by
      conv_rhs => rw [← habs, ← Nat.cast_pow, Nat.cast_lt]
    rw [hlen, bufSize]
    omega

end

/-- The kernel prints the shortest numeral, without a write behind the end of buf, for
exactly the numbers with at most 16 digits, or 15 after a `-`. -/
theorem Kernel.printint_correct_iff (xx : BitVec 64) (base : Nat) (sign : Bool)
    (hbase : base = 10 ∨ base = 16) :
    (∃ ds, Kernel.printint xx base sign =
        .ok ((if value xx sign < 0 then [minus] else []) ++ ds.map Kernel.digit) ∧
      Numeral.Shortest base (value xx sign).natAbs ds) ↔
    -(base : Int) ^ 15 < value xx sign ∧ value xx sign < (base : Int) ^ 16 := by
  have hlt : 1 < base := by omega
  rw [← length_numeral_le_iff Kernel.digit hlt, Kernel.printint, printNumber_eq hlt]
  constructor
  · rintro ⟨ds, hok, -⟩
    by_contra hlong
    rw [if_neg hlong] at hok
    cases hok
  · intro hfits
    rw [if_pos hfits]
    exact ⟨Numeral.digits base (value xx sign).natAbs, rfl, Numeral.shortest_digits hlt _⟩

theorem Kernel.printint_correct_iff_hex :
    ∃ ds, Kernel.printint (-255) 16 true = .ok ([minus] ++ ds.map Kernel.digit) ∧
      Numeral.Shortest 16 255 ds :=
  (Kernel.printint_correct_iff (-255) 16 true (.inr rfl)).mpr (by decide)

/-- 17 decimal digits do not fit; nor does the most negative number, in either base. -/
theorem Kernel.printint_overflows :
    Kernel.printint 10000000000000000 10 false = .error .overflow ∧
      Kernel.printint (BitVec.intMin 64) 10 true = .error .overflow ∧
      Kernel.printint (BitVec.intMin 64) 16 true = .error .overflow := by
  decide

end Xv6.Printf
