/-
Little-endian integers inside byte arrays.  An array is a function from
offsets to bytes, so that an in-place store is a function update and two
stores to disjoint ranges commute by reading.
-/
import Mathlib.Tactic.Ring
import Mathlib.Data.Nat.ModEq

namespace Bytes

/-- A byte array, indexed by offset. -/
abbrev Arr := Nat → UInt8

/-- The `n`-byte little-endian integer stored at `off`. -/
def getLE : Nat → Arr → Nat → Nat
  | 0, _, _ => 0
  | n + 1, b, off => (b off).toNat + 256 * getLE n b (off + 1)

/-- Store the low `n` bytes of `v` at `off`, least significant byte first. -/
def putLE (n : Nat) (b : Arr) (off v : Nat) : Arr := fun j =>
  if off ≤ j ∧ j < off + n then UInt8.ofNat (v / 256 ^ (j - off)) else b j

/-- Copy `n` bytes of `src`, starting at `from_`, to offset `off` of `b`. -/
def blit (b : Arr) (off : Nat) (src : Arr) (from_ n : Nat) : Arr := fun j =>
  if off ≤ j ∧ j < off + n then src (from_ + (j - off)) else b j

theorem getLE_lt (n : Nat) (b : Arr) (off : Nat) : getLE n b off < 256 ^ n := by
  induction n generalizing off with
  | zero => simp [getLE]
  | succ n ih =>
      have htail := ih (off + 1)
      have hhead : (b off).toNat < 256 := (b off).toNat_lt
      simp only [getLE, pow_succ]
      omega

theorem getLE_congr {n : Nat} {b c : Arr} {off : Nat}
    (h : ∀ j, off ≤ j → j < off + n → b j = c j) :
    getLE n b off = getLE n c off := by
  induction n generalizing off with
  | zero => rfl
  | succ n ih =>
      have hhead := h off (Nat.le_refl _) (by omega)
      have htail : getLE n b (off + 1) = getLE n c (off + 1) :=
        ih fun j hlo hhi => h j (by omega) (by omega)
      simp only [getLE, hhead, htail]

theorem getLE_zero (n off : Nat) : getLE n (fun _ => 0) off = 0 := by
  induction n generalizing off with
  | zero => rfl
  | succ n ih => simp [getLE, ih]

theorem putLE_of_disjoint {n : Nat} {b : Arr} {off v j : Nat}
    (h : j < off ∨ off + n ≤ j) : putLE n b off v j = b j := by
  have hout : ¬ (off ≤ j ∧ j < off + n) := by omega
  simp [putLE, hout]

theorem putLE_putLE (n : Nat) (b : Arr) (off v w : Nat) :
    putLE n (putLE n b off v) off w = putLE n b off w := by
  funext j
  unfold putLE
  split <;> rfl

/-- A store does not change an integer that lies outside the stored range. -/
theorem getLE_putLE_of_disjoint {m n : Nat} {b : Arr} {off off' v : Nat}
    (h : off' + m ≤ off ∨ off + n ≤ off') :
    getLE m (putLE n b off v) off' = getLE m b off' :=
  getLE_congr fun j hlo hhi => putLE_of_disjoint (by omega)

/-- Reading back a little-endian store gives the stored value, cut to the
width of the store.  The induction peels the least significant byte. -/
theorem getLE_putLE_self (n : Nat) (b : Arr) (off v : Nat) :
    getLE n (putLE n b off v) off = v % 256 ^ n := by
  induction n generalizing off v b with
  | zero => simp [getLE, Nat.mod_one]
  | succ n ih =>
      have hhead : putLE (n + 1) b off v off = UInt8.ofNat v := by
        simp [putLE]
      have htail : getLE n (putLE (n + 1) b off v) (off + 1) =
          getLE n (putLE n b (off + 1) (v / 256)) (off + 1) := by
        apply getLE_congr
        intro j hlo hhi
        have hin : off ≤ j ∧ j < off + (n + 1) := by omega
        have hexp : j - off = (j - (off + 1)) + 1 := by omega
        simp only [putLE, hin, and_self, ↓reduceIte, hlo, hhi, hexp, pow_succ]
        rw [Nat.mul_comm, Nat.div_div_eq_div_mul]
      simp only [getLE, hhead, htail, ih, UInt8.toNat_ofNat']
      rw [pow_succ 256 n, Nat.mul_comm (256 ^ n) 256, Nat.mod_mul]

/-- Storing the integer that is there changes nothing. -/
theorem putLE_getLE (n : Nat) (b : Arr) (off : Nat) :
    putLE n b off (getLE n b off) = b := by
  have hdigit : ∀ k, k < n →
      UInt8.ofNat (getLE n b off / 256 ^ k) = b (off + k) := by
    intro k
    induction k generalizing n off with
    | zero =>
        intro hk
        obtain ⟨m, rfl⟩ : ∃ m, n = m + 1 := ⟨n - 1, by omega⟩
        apply UInt8.toNat_inj.mp
        have hlt : (b off).toNat < 256 := (b off).toNat_lt
        simp only [getLE, pow_zero, Nat.div_one, UInt8.toNat_ofNat', Nat.add_zero]
        omega
    | succ k ih =>
        intro hk
        obtain ⟨m, rfl⟩ : ∃ m, n = m + 1 := ⟨n - 1, by omega⟩
        have hlt : (b off).toNat < 256 := (b off).toNat_lt
        have hdiv : getLE (m + 1) b off / 256 = getLE m b (off + 1) := by
          simp only [getLE]
          omega
        rw [pow_succ', ← Nat.div_div_eq_div_mul, hdiv, ih m (off + 1) (by omega)]
        congr 1
        omega
  funext j
  by_cases hin : off ≤ j ∧ j < off + n
  · have hoff : off + (j - off) = j := by omega
    rw [putLE, if_pos hin, hdigit (j - off) (by omega), hoff]
  · rw [putLE, if_neg hin]

theorem blit_of_disjoint {b : Arr} {off : Nat} {src : Arr} {from_ n j : Nat}
    (h : j < off ∨ off + n ≤ j) : blit b off src from_ n j = b j := by
  have hout : ¬ (off ≤ j ∧ j < off + n) := by omega
  simp [blit, hout]

end Bytes
