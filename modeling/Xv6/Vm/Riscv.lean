/-
The page and page-table-entry macros of kernel/riscv.h and kernel/memlayout.h.
Addresses are natural numbers; a page-table entry is a 64-bit word.
-/
import Mathlib.Data.Nat.Bitwise
import Xv6.Lib.Bytes

namespace Xv6.Vm

open Bytes

def PGSIZE : Nat := 4096
def PGROUNDUP (sz : Nat) : Nat := (sz + PGSIZE - 1) / PGSIZE * PGSIZE
def PGROUNDDOWN (a : Nat) : Nat := a / PGSIZE * PGSIZE

def KERNBASE : Nat := 0x80000000
def PHYSTOP : Nat := KERNBASE + 128 * 1024 * 1024
def MAXVA : Nat := 2 ^ (9 + 9 + 9 + 12 - 1)
def TRAMPOLINE : Nat := MAXVA - PGSIZE
def TRAPFRAME : Nat := TRAMPOLINE - PGSIZE

/-- A page-table entry. -/
abbrev Pte := BitVec 64

def PTE_V : Pte := 1
def PTE_R : Pte := 2
def PTE_W : Pte := 4
def PTE_X : Pte := 8
def PTE_U : Pte := 16
def PTE_COW : Pte := 256

def PA2PTE (pa : Nat) : Pte := (BitVec.ofNat 64 pa >>> 12) <<< 10
def PTE2PA (pte : Pte) : Nat := ((pte >>> 10) <<< 12).toNat
def PTE_FLAGS (pte : Pte) : Pte := pte &&& 0x3FF

/-- The nine bits of the virtual address that index a table of this level. -/
def PX (level va : Nat) : Nat := va / 2 ^ (12 + 9 * level) % 512

/-- The C test `pte & bit`. -/
def Pte.has (pte bit : Pte) : Bool := pte &&& bit != 0

/-- Entry `i` of the table stored in a page. -/
def loadPte (page : Arr) (i : Nat) : Pte := BitVec.ofNat 64 (getLE 8 page (8 * i))

def storePte (page : Arr) (i : Nat) (pte : Pte) : Arr :=
  putLE 8 page (8 * i) pte.toNat

@[simp] theorem loadPte_storePte_self (page : Arr) (i : Nat) (pte : Pte) :
    loadPte (storePte page i pte) i = pte := by
  have hmod : pte.toNat % 256 ^ 8 = pte.toNat := Nat.mod_eq_of_lt pte.isLt
  rw [loadPte, storePte, getLE_putLE_self, hmod, BitVec.ofNat_toNat,
    BitVec.setWidth_eq]

theorem loadPte_storePte_of_ne {page : Arr} {i j : Nat} {pte : Pte} (h : j ≠ i) :
    loadPte (storePte page i pte) j = loadPte page j := by
  unfold loadPte storePte
  rw [getLE_putLE_of_disjoint (by omega)]

theorem storePte_self {page : Arr} {i : Nat} {pte : Pte} (h : loadPte page i = pte) :
    storePte page i pte = page := by
  have hlt := getLE_lt 8 page (8 * i)
  have hmod : getLE 8 page (8 * i) % 2 ^ 64 = getLE 8 page (8 * i) :=
    Nat.mod_eq_of_lt hlt
  rw [← h, storePte, loadPte, BitVec.toNat_ofNat, hmod, putLE_getLE]

theorem storePte_storePte (page : Arr) (i : Nat) (pte pte' : Pte) :
    storePte (storePte page i pte) i pte' = storePte page i pte' := putLE_putLE ..

@[simp] theorem loadPte_zero (i : Nat) : loadPte (fun _ => 0) i = 0 := by
  simp [loadPte, getLE_zero]

/-- The flag words of entries: the low ten bits. -/
def IsFlags (fl : Pte) : Prop := fl.toNat < 1024

instance (fl : Pte) : Decidable (IsFlags fl) := inferInstanceAs (Decidable (_ < _))

theorem toNat_PA2PTE {pa : Nat} (hpa : pa < 2 ^ 56) :
    (PA2PTE pa).toNat = pa / 4096 * 1024 := by
  have hmod : pa % 2 ^ 64 = pa := Nat.mod_eq_of_lt (by omega)
  have hlt : pa / 4096 * 1024 < 2 ^ 64 := by omega
  simp only [PA2PTE, BitVec.toNat_shiftLeft, BitVec.toNat_ushiftRight,
    BitVec.toNat_ofNat, hmod, Nat.shiftRight_eq_div_pow, Nat.shiftLeft_eq]
  exact Nat.mod_eq_of_lt hlt

/-- An entry made of an address and flags is their sum, the parts being disjoint. -/
theorem toNat_PA2PTE_or {pa : Nat} {fl : Pte} (hpa : pa < 2 ^ 56)
    (hfl : IsFlags fl) :
    (PA2PTE pa ||| fl).toNat = pa / 4096 * 1024 + fl.toNat := by
  have hfl' : fl.toNat < 2 ^ 10 := hfl
  rw [BitVec.toNat_or, toNat_PA2PTE hpa]
  have hor := Nat.two_pow_add_eq_or_of_lt hfl' (pa / 4096)
  rw [Nat.mul_comm (pa / 4096) 1024]
  exact hor.symm

theorem PTE2PA_or {pa : Nat} {fl : Pte} (hpa : pa < 2 ^ 56)
    (halign : pa % 4096 = 0) (hfl : IsFlags fl) :
    PTE2PA (PA2PTE pa ||| fl) = pa := by
  have hfl' : fl.toNat < 1024 := hfl
  simp only [PTE2PA, BitVec.toNat_shiftLeft, BitVec.toNat_ushiftRight,
    toNat_PA2PTE_or hpa hfl, Nat.shiftRight_eq_div_pow, Nat.shiftLeft_eq]
  omega

theorem PTE_FLAGS_or {pa : Nat} {fl : Pte} (hpa : pa < 2 ^ 56)
    (hfl : IsFlags fl) : PTE_FLAGS (PA2PTE pa ||| fl) = fl := by
  have hfl' : fl.toNat < 1024 := hfl
  apply BitVec.eq_of_toNat_eq
  have hmask : (0x3FF : Pte).toNat = 2 ^ 10 - 1 := rfl
  rw [PTE_FLAGS, BitVec.toNat_and, toNat_PA2PTE_or hpa hfl, hmask,
    Nat.and_two_pow_sub_one_eq_mod]
  omega

/-- Flag tests of an entry only read its flags. -/
theorem Pte.has_or {pa : Nat} {fl bit : Pte} (hpa : pa < 2 ^ 56)
    (hfl : IsFlags fl) (hbit : bit &&& 0x3FF = bit) :
    Pte.has (PA2PTE pa ||| fl) bit = Pte.has fl bit := by
  have hand : (PA2PTE pa ||| fl) &&& bit = fl &&& bit := by
    conv_lhs => rw [← hbit, BitVec.and_comm bit, ← BitVec.and_assoc]
    have hflags := PTE_FLAGS_or hpa hfl
    unfold PTE_FLAGS at hflags
    rw [hflags]
  unfold Pte.has
  rw [hand]

theorem Pte.has_twoPow (pte : Pte) {i : Nat} (hi : i < 64) :
    Pte.has pte (BitVec.twoPow 64 i) = pte.getLsbD i := by
  rw [Pte.has, BitVec.and_twoPow]
  cases hbit : pte.getLsbD i with
  | false => simp
  | true =>
      have hne : BitVec.twoPow 64 i ≠ 0 := by
        intro hzero
        have hget := congrArg (fun w => BitVec.getLsbD w i) hzero
        simp [hi] at hget
      simpa using hne

theorem Pte.has_V (pte : Pte) : Pte.has pte PTE_V = pte.getLsbD 0 :=
  Pte.has_twoPow pte (i := 0) (by decide)

theorem Pte.has_or_flags (a b bit : Pte) :
    Pte.has (a ||| b) bit = (Pte.has a bit || Pte.has b bit) := by
  have hdist : (a ||| b) &&& bit = a &&& bit ||| b &&& bit := by
    apply BitVec.eq_of_getLsbD_eq
    intro i _
    simp [Bool.and_or_distrib_right]
  unfold Pte.has
  rw [hdist]
  by_cases ha : a &&& bit = 0
  · simp [ha]
  · have hor : a &&& bit ||| b &&& bit ≠ 0 := by
      intro hzero
      exact ha (BitVec.or_eq_zero_iff.mp hzero).1
    rw [bne_iff_ne.mpr hor, bne_iff_ne.mpr ha, Bool.true_or]

theorem IsFlags.or {a b : Pte} (ha : IsFlags a) (hb : IsFlags b) :
    IsFlags (a ||| b) := by
  unfold IsFlags at *
  rw [BitVec.toNat_or]
  exact Nat.or_lt_two_pow (n := 10) ha hb

theorem IsFlags.and {a : Pte} (ha : IsFlags a) (b : Pte) : IsFlags (a &&& b) := by
  unfold IsFlags at *
  rw [BitVec.toNat_and]
  exact lt_of_le_of_lt Nat.and_le_left ha

end Xv6.Vm
