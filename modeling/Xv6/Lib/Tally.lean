/-
Totals of natural-number weights over an index type of any size, of which only
finitely many are not zero.  A counter that is meant to equal such a total is
related to it by `HasTally`, and each change of one weight moves the total.
-/
import Mathlib.Algebra.BigOperators.Ring.Finset
import Mathlib.Algebra.Order.BigOperators.Group.Finset

namespace Tally

variable {ι : Type}

/-- The weights `f` add up to `total`. -/
def HasTally (f : ι → Nat) (total : Nat) : Prop :=
  ∃ S : Finset ι, (∀ i, i ∉ S → f i = 0) ∧ ∑ i ∈ S, f i = total

theorem HasTally.zero {f : ι → Nat} (h : ∀ i, f i = 0) : HasTally f 0 :=
  ⟨∅, fun i _ => h i, rfl⟩

theorem HasTally.congr {f g : ι → Nat} {total : Nat} (h : HasTally f total)
    (hfg : ∀ i, f i = g i) : HasTally g total := by
  have heq : f = g := funext hfg
  exact heq ▸ h

/-- Give index `i` a new weight. -/
theorem HasTally.update {f g : ι → Nat} {total total' : Nat} {i : ι}
    (h : HasTally f total) (hothers : ∀ j, j ≠ i → g j = f j)
    (htotal : total' + f i = total + g i) : HasTally g total' := by
  classical
  obtain ⟨S, hzero, hsum⟩ := h
  refine ⟨insert i S, ?_, ?_⟩
  · intro j hj
    simp only [Finset.mem_insert, not_or] at hj
    rw [hothers j hj.1]
    exact hzero j hj.2
  · have herase : ∑ j ∈ S.erase i, f j + f i = total := by
      by_cases hi : i ∈ S
      · rw [Finset.sum_erase_add _ _ hi, hsum]
      · rw [Finset.erase_eq_of_notMem hi, hzero i hi, hsum, Nat.add_zero]
    have hsame : ∑ j ∈ S.erase i, g j = ∑ j ∈ S.erase i, f j :=
      Finset.sum_congr rfl fun j hj => hothers j (Finset.ne_of_mem_erase hj)
    rw [← Finset.sum_erase_add _ _ (Finset.mem_insert_self i S),
      Finset.erase_insert_eq_erase, hsame]
    omega

theorem HasTally.le {f : ι → Nat} {total : Nat} (h : HasTally f total) (i : ι) :
    f i ≤ total := by
  obtain ⟨S, hzero, hsum⟩ := h
  by_cases hi : i ∈ S
  · exact hsum ▸ Finset.single_le_sum (f := f) (fun _ _ => Nat.zero_le _) hi
  · rw [hzero i hi]
    exact Nat.zero_le _

/-- Two weights are a part of the total. -/
theorem HasTally.add_le {f : ι → Nat} {total : Nat} (h : HasTally f total) {i j : ι}
    (hij : i ≠ j) : f i + f j ≤ total := by
  classical
  have hi := h.le i
  have hrest : HasTally (Function.update f i 0) (total - f i) := by
    apply h.update (i := i)
    · exact fun k hk => Function.update_of_ne hk 0 f
    · rw [Function.update_self]
      omega
  have hj := hrest.le j
  rw [Function.update_of_ne hij.symm] at hj
  omega

/-- Weights bounded by multiples of other weights have bounded totals. -/
theorem HasTally.le_mul {f g : ι → Nat} {total total' bound : Nat}
    (hf : HasTally f total) (hg : HasTally g total')
    (hle : ∀ i, f i ≤ bound * g i) : total ≤ bound * total' := by
  classical
  obtain ⟨S, hzero, hsum⟩ := hf
  obtain ⟨T, hzero', hsum'⟩ := hg
  calc total = ∑ i ∈ S, f i := hsum.symm
    _ ≤ ∑ i ∈ S ∪ T, f i :=
        Finset.sum_le_sum_of_subset Finset.subset_union_left
    _ ≤ ∑ i ∈ S ∪ T, bound * g i := Finset.sum_le_sum fun i _ => hle i
    _ = bound * ∑ i ∈ S ∪ T, g i := (Finset.mul_sum _ _ _).symm
    _ = bound * total' := by
        rw [← hsum', Finset.sum_subset Finset.subset_union_right
          fun i _ hi => hzero' i hi]

end Tally
