/-
Lists cut after every separator: the complete pieces, and the rest that no separator
ends.  The cut is determined by what it joins to, so a list that arrives in parts is
cut by carrying the rest from one part to the next.
-/
import Mathlib.Data.List.Basic

namespace Lines

variable {α : Type} {sep : α}

/-- Every piece with its separator. -/
def join (sep : α) (ls : List (List α)) : List α := ls.flatMap (· ++ [sep])

@[simp] theorem join_nil : join sep [] = [] := rfl

@[simp] theorem join_cons (l : List α) (ls : List (List α)) :
    join sep (l :: ls) = l ++ sep :: join sep ls := by
  simp [join]

theorem join_append (ls ls' : List (List α)) :
    join sep (ls ++ ls') = join sep ls ++ join sep ls' := by
  simp [join]

variable [DecidableEq α]

/-- The pieces that a separator ends, without it, and the rest. -/
def split (sep : α) : List α → List (List α) × List α
  | [] => ([], [])
  | c :: s =>
      if c = sep then ([] :: (split sep s).1, (split sep s).2)
      else
        match (split sep s).1 with
        | [] => ([], c :: (split sep s).2)
        | l :: ls => ((c :: l) :: ls, (split sep s).2)

theorem split_of_not_mem {t : List α} (h : sep ∉ t) : split sep t = ([], t) := by
  induction t with
  | nil => rfl
  | cons c t ih =>
      have hc : c ≠ sep := fun hc => h (hc ▸ List.mem_cons_self)
      have ht : split sep t = ([], t) := ih fun hmem => h (List.mem_cons_of_mem c hmem)
      rw [split, if_neg hc, ht]

theorem split_piece {l : List α} (h : sep ∉ l) (s : List α) :
    split sep (l ++ sep :: s) = (l :: (split sep s).1, (split sep s).2) := by
  induction l with
  | nil => rw [List.nil_append, split, if_pos rfl]
  | cons c l ih =>
      have hc : c ≠ sep := fun hc => h (hc ▸ List.mem_cons_self)
      have hl := ih fun hmem => h (List.mem_cons_of_mem c hmem)
      rw [List.cons_append, split, if_neg hc, hl]

theorem split_join {ls : List (List α)} {t : List α} (hls : ∀ l ∈ ls, sep ∉ l)
    (ht : sep ∉ t) : split sep (join sep ls ++ t) = (ls, t) := by
  induction ls with
  | nil => exact split_of_not_mem ht
  | cons l ls ih =>
      have hl : sep ∉ l := hls l List.mem_cons_self
      have hrest := ih fun l' hl' => hls l' (List.mem_cons_of_mem l hl')
      rw [join_cons, List.append_assoc, List.cons_append, split_piece hl, hrest]

/-- Every list is a sequence of pieces and a rest. -/
theorem exists_join (sep : α) (s : List α) :
    ∃ ls t, s = join sep ls ++ t ∧ (∀ l ∈ ls, sep ∉ l) ∧ sep ∉ t := by
  induction s with
  | nil => exact ⟨[], [], rfl, by simp, List.not_mem_nil⟩
  | cons c s ih =>
      obtain ⟨ls, t, rfl, hls, ht⟩ := ih
      by_cases hc : c = sep
      · subst hc
        exact ⟨[] :: ls, t, by simp, by simpa using hls, ht⟩
      · cases ls with
        | nil =>
            refine ⟨[], c :: t, rfl, by simp, ?_⟩
            rw [List.mem_cons, not_or]
            exact ⟨fun h => hc h.symm, ht⟩
        | cons l ls =>
            refine ⟨(c :: l) :: ls, t, by simp, fun l' hl' => ?_, ht⟩
            rcases List.mem_cons.mp hl' with rfl | hl'
            · rw [List.mem_cons, not_or]
              exact ⟨fun h => hc h.symm, hls l List.mem_cons_self⟩
            · exact hls l' (List.mem_cons_of_mem l hl')

theorem join_split (sep : α) (s : List α) : join sep (split sep s).1 ++ (split sep s).2 = s := by
  obtain ⟨ls, t, rfl, hls, ht⟩ := exists_join sep s
  rw [split_join hls ht]

theorem rest_suffix (sep : α) (s : List α) : (split sep s).2 <:+ s := ⟨_, join_split sep s⟩

theorem not_mem_of_mem_split {s l : List α} (h : l ∈ (split sep s).1) : sep ∉ l := by
  obtain ⟨ls, t, rfl, hls, ht⟩ := exists_join sep s
  rw [split_join hls ht] at h
  exact hls l h

theorem not_mem_rest (s : List α) : sep ∉ (split sep s).2 := by
  obtain ⟨ls, t, rfl, hls, ht⟩ := exists_join sep s
  rw [split_join hls ht]
  exact ht

/-- What was cut off stays as it is; the rest is cut together with what comes next. -/
theorem split_append (a b : List α) :
    split sep (a ++ b) = ((split sep a).1 ++ (split sep ((split sep a).2 ++ b)).1,
      (split sep ((split sep a).2 ++ b)).2) := by
  have heq : a ++ b = join sep ((split sep a).1 ++ (split sep ((split sep a).2 ++ b)).1) ++
      (split sep ((split sep a).2 ++ b)).2 := by
    rw [join_append, List.append_assoc, join_split, ← List.append_assoc, join_split]
  have hpieces : ∀ l ∈ (split sep a).1 ++ (split sep ((split sep a).2 ++ b)).1, sep ∉ l := by
    intro l hl
    rcases List.mem_append.mp hl with hl | hl <;> exact not_mem_of_mem_split hl
  conv_lhs => rw [heq]
  exact split_join hpieces (not_mem_rest _)

/-- A separator further on ends a piece that begins with all of `t`. -/
theorem exists_long_piece {t s : List α} (ht : sep ∉ t) (hs : sep ∈ s) :
    ∃ l ∈ (split sep (t ++ s)).1, t.length ≤ l.length := by
  obtain ⟨ls, r, rfl, hls, hr⟩ := exists_join sep s
  cases ls with
  | nil => exact absurd hs hr
  | cons l ls =>
      have hl : sep ∉ t ++ l := by
        rw [List.mem_append, not_or]
        exact ⟨ht, hls l List.mem_cons_self⟩
      have heq : t ++ (join sep (l :: ls) ++ r) = (t ++ l) ++ sep :: (join sep ls ++ r) := by
        simp
      refine ⟨t ++ l, ?_, by simp⟩
      rw [heq, split_piece hl]
      exact List.mem_cons_self

end Lines
