/-
Numerals: the digits of a number in a base, most significant first, with one digit for
zero.  They are the shortest digits with that value.
-/
import Mathlib.Data.Nat.Digits.Lemmas

namespace Numeral

variable {b n : Nat}

/-- The digits from the least significant one on, as repeated division finds them. -/
def lowDigits (b n : Nat) : List Nat := if n = 0 then [0] else Nat.digits b n

/-- The digits of `n` in base `b`, most significant first. -/
def digits (b n : Nat) : List Nat := (lowDigits b n).reverse

/-- The number that digits stand for, most significant first. -/
def value (b : Nat) (ds : List Nat) : Nat := Nat.ofDigits b ds.reverse

/-- No numeral of `n` has fewer digits. -/
structure Shortest (b n : Nat) (ds : List Nat) : Prop where
  ne_nil : ds ≠ []
  lt_base : ∀ d ∈ ds, d < b
  value_eq : value b ds = n
  length_le : ∀ ds', ds' ≠ [] → (∀ d ∈ ds', d < b) → value b ds' = n → ds.length ≤ ds'.length

theorem lowDigits_eq (hb : 1 < b) (n : Nat) :
    lowDigits b n = n % b :: if n / b = 0 then [] else lowDigits b (n / b) := by
  by_cases hn : n = 0
  · subst hn
    simp [lowDigits]
  · rw [lowDigits, if_neg hn, Nat.digits_def' hb (Nat.pos_of_ne_zero hn)]
    by_cases hq : n / b = 0
    · rw [if_pos hq, hq, Nat.digits_zero]
    · rw [if_neg hq, lowDigits, if_neg hq]

theorem lowDigits_ne_nil (b n : Nat) : lowDigits b n ≠ [] := by
  unfold lowDigits
  split
  · simp
  · next hn => exact Nat.digits_ne_nil_iff_ne_zero.mpr hn

theorem lt_of_mem_lowDigits (hb : 1 < b) {d : Nat} (hd : d ∈ lowDigits b n) : d < b := by
  unfold lowDigits at hd
  split at hd
  · rw [List.mem_singleton] at hd
    omega
  · exact Nat.digits_lt_base hb hd

theorem lt_of_mem_digits (hb : 1 < b) {d : Nat} (hd : d ∈ digits b n) : d < b :=
  lt_of_mem_lowDigits hb (List.mem_reverse.mp hd)

theorem value_digits (b n : Nat) : value b (digits b n) = n := by
  unfold value digits lowDigits
  rw [List.reverse_reverse]
  split
  · next hn => simp [hn]
  · exact Nat.ofDigits_digits b n

theorem digits_injective (b : Nat) : Function.Injective (digits b) := fun m n h => by
  rw [← value_digits b m, h, value_digits]

/-- A number has at most `k + 1` digits if and only if it is below `b ^ (k + 1)`. -/
theorem length_digits_le_iff (hb : 1 < b) (n k : Nat) :
    (digits b n).length ≤ k + 1 ↔ n < b ^ (k + 1) := by
  unfold digits lowDigits
  rw [List.length_reverse]
  split
  · next hn =>
      subst hn
      simp [Nat.pow_pos (Nat.lt_of_succ_lt hb)]
  · exact Nat.digits_length_le_iff hb n

/-- A larger number has at least as many digits. -/
theorem length_digits_mono (hb : 1 < b) {m n : Nat} (h : m ≤ n) :
    (digits b m).length ≤ (digits b n).length := by
  obtain ⟨k, hk⟩ : ∃ k, (digits b n).length = k + 1 :=
    Nat.exists_eq_succ_of_ne_zero fun hlen => lowDigits_ne_nil b n
      (List.reverse_eq_nil_iff.mp (List.length_eq_zero_iff.mp hlen))
  have hn := (length_digits_le_iff hb n k).mp hk.le
  rw [hk]
  exact (length_digits_le_iff hb m k).mpr (by omega)

theorem shortest_digits (hb : 1 < b) (n : Nat) : Shortest b n (digits b n) where
  ne_nil h := lowDigits_ne_nil b n (List.reverse_eq_nil_iff.mp h)
  lt_base _ hd := lt_of_mem_digits hb hd
  value_eq := value_digits b n
  length_le ds' hne hlt hval := by
    obtain ⟨k, hk⟩ : ∃ k, ds'.length = k + 1 :=
      Nat.exists_eq_add_one_of_ne_zero (by simpa using hne)
    rw [hk, length_digits_le_iff hb, ← hk, ← hval, value, ← List.length_reverse]
    exact Nat.ofDigits_lt_base_pow_length hb fun d hd => hlt d (List.mem_reverse.mp hd)

end Numeral
