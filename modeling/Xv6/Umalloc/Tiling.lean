/-
Memory from sbrk as a row of blocks, each free or in use, without a gap.  What the allocator
keeps in memory is read off this row: the sizes of all blocks, and the circular list of the
free ones in the order of their addresses.
-/
import Mathlib.Data.List.Chain
import Mathlib.Algebra.BigOperators.Group.List.Basic
import Xv6.Lib.Circular
import Xv6.Umalloc.Code

namespace Xv6.Umalloc

open Circular

structure Tile where
  units : Nat
  live : Bool

def total (T : List Tile) : Nat := (T.map Tile.units).sum

/-- Addresses and sizes of the blocks in use, or of the free ones, in a row that starts at
`a`. -/
def blocks (live : Bool) : Nat → List Tile → List (Nat × Nat)
  | _, [] => []
  | a, t :: T =>
      if t.live = live then (a, t.units) :: blocks live (a + 16 * t.units) T
      else blocks live (a + 16 * t.units) T

/-- The nodes of the free list, without base. -/
def nodes (a : Nat) (T : List Tile) : List Nat := (blocks false a T).map Prod.fst

section tiles

variable {a n : Nat} {T T' : List Tile} {live : Bool} {x : Nat × Nat}

@[simp] theorem total_nil : total [] = 0 := rfl

@[simp] theorem total_cons (t : Tile) (T : List Tile) : total (t :: T) = t.units + total T :=
  List.sum_cons

@[simp] theorem total_append (T T' : List Tile) : total (T ++ T') = total T + total T' := by
  rw [total, List.map_append, List.sum_append]
  rfl

theorem blocks_append (live : Bool) (a : Nat) (T T' : List Tile) :
    blocks live a (T ++ T') = blocks live a T ++ blocks live (a + 16 * total T) T' := by
  induction T generalizing a with
  | nil => simp [blocks]
  | cons t T ih =>
      have haddr : a + 16 * t.units + 16 * total T = a + 16 * total (t :: T) := by
        rw [total_cons]
        ring
      rw [List.cons_append, blocks, blocks, ih, haddr]
      split <;> rfl

theorem nodes_append (a : Nat) (T T' : List Tile) :
    nodes a (T ++ T') = nodes a T ++ nodes (a + 16 * total T) T' := by
  rw [nodes, blocks_append, List.map_append]
  rfl

@[simp] theorem nodes_cons_live (a n : Nat) (T : List Tile) :
    nodes a (⟨n, true⟩ :: T) = nodes (a + 16 * n) T := rfl

@[simp] theorem nodes_cons_free (a n : Nat) (T : List Tile) :
    nodes a (⟨n, false⟩ :: T) = a :: nodes (a + 16 * n) T := rfl

/-- A block in the row. -/
theorem blocks_bounds (h : x ∈ blocks live a T) :
    a ≤ x.1 ∧ x.1 + 16 * x.2 ≤ a + 16 * total T := by
  induction T generalizing a with
  | nil => cases h
  | cons t T ih =>
      rw [total_cons]
      rw [blocks] at h
      split at h
      · rcases List.mem_cons.mp h with rfl | h
        · simp only
          omega
        · have hbounds := ih h
          omega
      · have hbounds := ih h
        omega

theorem blocks_units (hpos : ∀ t ∈ T, 0 < t.units) (h : x ∈ blocks live a T) : 0 < x.2 := by
  induction T generalizing a with
  | nil => cases h
  | cons t T ih =>
      have htail : ∀ t ∈ T, 0 < t.units := fun t' ht' => hpos t' (.tail _ ht')
      rw [blocks] at h
      split at h
      · rcases List.mem_cons.mp h with rfl | h
        · exact hpos t (.head _)
        · exact ih htail h
      · exact ih htail h

theorem nodes_bounds (hpos : ∀ t ∈ T, 0 < t.units) {y : Nat} (h : y ∈ nodes a T) :
    a ≤ y ∧ y < a + 16 * total T := by
  obtain ⟨x, hx, rfl⟩ := List.mem_map.mp h
  have hbounds := blocks_bounds hx
  have hunits := blocks_units hpos hx
  omega

/-- Where a block is in the row. -/
theorem exists_split (h : x ∈ blocks live a T) : ∃ T₁ T₂, T = T₁ ++ ⟨x.2, live⟩ :: T₂ ∧
    x.1 = a + 16 * total T₁ := by
  induction T generalizing a with
  | nil => cases h
  | cons t T ih =>
      have htail : x ∈ blocks live (a + 16 * t.units) T →
          ∃ T₁ T₂, t :: T = T₁ ++ ⟨x.2, live⟩ :: T₂ ∧ x.1 = a + 16 * total T₁ := by
        intro h
        obtain ⟨T₁, T₂, rfl, hx⟩ := ih h
        refine ⟨t :: T₁, T₂, rfl, ?_⟩
        rw [hx, total_cons]
        ring
      rw [blocks] at h
      split at h
      next hlive =>
        rcases List.mem_cons.mp h with rfl | h
        · exact ⟨[], T, by rw [← hlive]; rfl, by simp⟩
        · exact htail h
      next => exact htail h

/-- Blocks of a row do not overlap. -/
theorem blocks_apart {live' : Bool} {y : Nat × Nat} (hpos : ∀ t ∈ T, 0 < t.units)
    (hx : x ∈ blocks live a T) (hy : y ∈ blocks live' a T) :
    (x = y ∧ live = live') ∨ x.1 + 16 * x.2 ≤ y.1 ∨ y.1 + 16 * y.2 ≤ x.1 := by
  obtain ⟨T₁, T₂, rfl, hx₁⟩ := exists_split hx
  rw [blocks_append, List.mem_append] at hy
  rcases hy with hy | hy
  · have hbounds := blocks_bounds hy
    omega
  · rw [blocks] at hy
    split at hy
    next hlive =>
      rcases List.mem_cons.mp hy with rfl | hy
      · exact .inl ⟨Prod.ext hx₁ rfl, hlive⟩
      · have hbounds := blocks_bounds hy
        simp only at hbounds
        omega
    next =>
      have hbounds := blocks_bounds hy
      simp only at hbounds
      omega

theorem nodes_sorted (hpos : ∀ t ∈ T, 0 < t.units) (a : Nat) :
    (nodes a T).Pairwise (· < ·) := by
  induction T generalizing a with
  | nil => exact .nil
  | cons t T ih =>
      have htail : ∀ t ∈ T, 0 < t.units := fun t' ht' => hpos t' (.tail _ ht')
      have ht := hpos t (.head _)
      obtain ⟨n, live⟩ := t
      cases live with
      | true => exact ih htail _
      | false =>
          rw [nodes_cons_free, List.pairwise_cons]
          refine ⟨fun y hy => ?_, ih htail _⟩
          have hbounds := nodes_bounds htail hy
          simp only at ht
          omega

theorem nodes_length (a : Nat) (hpos : ∀ t ∈ T, 0 < t.units) :
    (nodes a T).length ≤ total T := by
  induction T generalizing a with
  | nil => exact Nat.le_refl 0
  | cons t T ih =>
      have htail := ih (a + 16 * t.units) fun t' ht' => hpos t' (.tail _ ht')
      have ht := hpos t (.head _)
      obtain ⟨n, live⟩ := t
      rw [total_cons]
      cases live with
      | true => exact Nat.le_trans htail (Nat.le_add_left ..)
      | false =>
          rw [nodes_cons_free, List.length_cons]
          simp only at htail ht ⊢
          omega

end tiles

/-- The memory of the allocator for a row of blocks, of which no two free ones are next to
each other. -/
structure Tiled (base lo : Nat) (h : Heap) (T : List Tile) : Prop where
  static : 0 < base ∧ base + 16 ≤ lo
  pos : ∀ t ∈ T, 0 < t.units
  apart : T.IsChain fun t t' => t.live = true ∨ t'.live = true
  brk : h.brk = lo + 16 * total T
  top : 16 * total T ≤ USERTOP
  sizes : ∀ live, ∀ x ∈ blocks live lo T, h.size x.1 = x.2
  ring : Leads h.next base (nodes lo T) base
  zero : h.size base = 0
  freep : h.freep ∈ base :: nodes lo T

end Xv6.Umalloc
