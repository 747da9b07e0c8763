/-
Counting references.  A family of optional pointers over a finite index set
refers to a target as often as there are indices that hold it.
-/
import Mathlib.Algebra.Order.BigOperators.Group.Finset

namespace Refs

variable {ι κ : Type} [DecidableEq κ]

/-- One if the pointer refers to `f`. -/
def ind (o : Option κ) (f : κ) : Nat := if o = some f then 1 else 0

@[simp] theorem ind_none (f : κ) : ind none f = 0 := rfl

@[simp] theorem ind_some_self (f : κ) : ind (some f) f = 1 := by simp [ind]

theorem ind_some_of_ne {p f : κ} (h : p ≠ f) : ind (some p) f = 0 := by
  simp [ind, h]

theorem ind_le_one (o : Option κ) (f : κ) : ind o f ≤ 1 := by
  unfold ind
  split <;> omega

theorem ind_pos_iff {o : Option κ} {f : κ} : 1 ≤ ind o f ↔ o = some f := by
  unfold ind
  split <;> simp_all

/-- How many indices of `D` refer to `f`. -/
def refs (D : Finset ι) (g : ι → Option κ) (f : κ) : Nat := ∑ x ∈ D, ind (g x) f

variable {D : Finset ι} {g : ι → Option κ} {f : κ}

theorem refs_def (D : Finset ι) (g : ι → Option κ) (f : κ) :
    refs D g f = ∑ x ∈ D, ind (g x) f := rfl

theorem ind_le_refs {x : ι} (hx : x ∈ D) : ind (g x) f ≤ refs D g f :=
  Finset.single_le_sum (f := fun y => ind (g y) f) (fun _ _ => Nat.zero_le _) hx

theorem refs_pos {x : ι} (hx : x ∈ D) (hg : g x = some f) : 1 ≤ refs D g f := by
  have hle := ind_le_refs (g := g) (f := f) hx
  simpa [hg] using hle

theorem refs_eq_zero (h : ∀ x ∈ D, g x ≠ some f) : refs D g f = 0 := by
  apply Finset.sum_eq_zero
  intro x hx
  simp [ind, h x hx]

theorem refs_ne_zero (h : refs D g f ≠ 0) : ∃ x ∈ D, g x = some f := by
  by_contra hno
  push Not at hno
  exact h (refs_eq_zero hno)

/-- A family with a single pointer. -/
theorem refs_single {x : ι} (hx : x ∈ D) (h : ∀ y, y ≠ x → g y = none) :
    refs D g f = ind (g x) f := by
  apply Finset.sum_eq_single x
  · intro y _ hy
    rw [h y hy, ind_none]
  · intro hnot
    exact absurd hx hnot

theorem refs_congr {g' : ι → Option κ} (h : ∀ x ∈ D, g x = g' x) :
    refs D g f = refs D g' f :=
  Finset.sum_congr rfl fun x hx => by rw [h x hx]

theorem refs_le_refs {g' : ι → Option κ} (h : ∀ x ∈ D, g x = some f → g' x = some f) :
    refs D g f ≤ refs D g' f := by
  apply Finset.sum_le_sum
  intro x hx
  by_cases hg : g x = some f
  · rw [hg, h x hx hg]
  · simp [ind, hg]

/-- A target with at most one reference is held by at most one index. -/
theorem refs_inj [DecidableEq ι] (h : refs D g f ≤ 1) {x y : ι} (hx : x ∈ D) (hy : y ∈ D)
    (hgx : g x = some f) (hgy : g y = some f) : x = y := by
  by_contra hne
  have hpair : ∑ z ∈ ({x, y} : Finset ι), ind (g z) f ≤ refs D g f := by
    apply Finset.sum_le_sum_of_subset
    intro z hz
    rcases Finset.mem_insert.mp hz with rfl | hz
    · exact hx
    · rw [Finset.mem_singleton.mp hz]
      exact hy
  rw [Finset.sum_pair hne, hgx, hgy, ind_some_self] at hpair
  omega

/-- If distinct indices hold distinct pointers, a target is held at most once. -/
theorem refs_le_one (h : ∀ x ∈ D, ∀ y ∈ D, g x = some f → g y = some f → x = y) :
    refs D g f ≤ 1 := by
  by_cases hex : ∃ x ∈ D, g x = some f
  · obtain ⟨x, hx, hgx⟩ := hex
    have hsingle : refs D g f = ind (g x) f := by
      apply Finset.sum_eq_single x
      · intro y hy hyx
        have hne : g y ≠ some f := fun hgy => hyx (h y hy x hx hgy hgx)
        simp [ind, hne]
      · intro hnot
        exact absurd hx hnot
    rw [hsingle]
    exact ind_le_one _ _
  · push Not at hex
    rw [refs_eq_zero hex]
    omega

/-- Replacing one pointer moves one reference. -/
theorem refs_update [DecidableEq ι] (g : ι → Option κ) (f : κ) {x : ι} (hx : x ∈ D)
    (o : Option κ) :
    refs D (Function.update g x o) f + ind (g x) f = refs D g f + ind o f := by
  have hrest : ∀ h : ι → Option κ,
      refs D h f = ind (h x) f + ∑ y ∈ D.erase x, ind (h y) f := by
    intro h
    exact (Finset.add_sum_erase D (fun y => ind (h y) f) hx).symm
  have hsame : ∑ y ∈ D.erase x, ind (Function.update g x o y) f =
      ∑ y ∈ D.erase x, ind (g y) f := by
    apply Finset.sum_congr rfl
    intro y hy
    rw [Function.update_of_ne (Finset.ne_of_mem_erase hy)]
  rw [hrest, hrest g, hsame, Function.update_self]
  omega

theorem refs_update_of_notMem [DecidableEq ι] {x : ι} (hx : x ∉ D) (o : Option κ) :
    refs D (Function.update g x o) f = refs D g f := by
  apply refs_congr
  intro y hy
  rw [Function.update_of_ne]
  rintro rfl
  exact hx hy

/-- Pointers that are held at most once each and lie in `T` are at most as many
as `T` has elements. -/
theorem card_le_of_refs_le_one [DecidableEq ι] {T : Finset κ}
    (hone : ∀ f, refs D g f ≤ 1)
    (hsome : ∀ x ∈ D, ∃ f ∈ T, g x = some f) : D.card ≤ T.card := by
  have hcard : D.card ≤ (T.image some).card := by
    apply Finset.card_le_card_of_injOn g
    · intro x hx
      obtain ⟨t, ht, hg⟩ := hsome x hx
      rw [hg]
      exact Finset.mem_coe.mpr (Finset.mem_image_of_mem some ht)
    · intro x hx y hy hxy
      obtain ⟨t, _, hg⟩ := hsome x hx
      exact refs_inj (hone t) hx hy hg (hxy ▸ hg)
  exact hcard.trans Finset.card_image_le

attribute [irreducible] refs

end Refs
