/-
Singly linked lists that end where they are told to: from a node over the nodes of a list to
a last one.  A circular list is one that ends where it starts.
-/
import Mathlib.Data.List.Basic
import Mathlib.Tactic.Ring

namespace Circular

variable {α : Type}

/-- Following `next` from `p` leads over the nodes `l` to `q`. -/
def Leads (next : α → α) : α → List α → α → Prop
  | p, [], q => next p = q
  | p, a :: l, q => next p = a ∧ Leads next a l q

variable {next next' : α → α} {p q a x y : α} {l l' : List α}

theorem leads_append : Leads next p (l ++ a :: l') q ↔
    Leads next p l a ∧ Leads next a l' q := by
  induction l generalizing p with
  | nil => rfl
  | cons b l ih =>
      rw [List.cons_append, Leads, Leads, ih]
      exact and_assoc.symm

theorem Leads.congr (h : Leads next p l q) (heq : ∀ x ∈ p :: l, next' x = next x) :
    Leads next' p l q := by
  induction l generalizing p with
  | nil => exact (heq p (.head _)).trans h
  | cons a l ih =>
      exact ⟨(heq p (.head _)).trans h.1, ih h.2 fun x hx => heq x (.tail _ hx)⟩

/-- Another first node in front of the same list. -/
theorem Leads.head_congr (h : Leads next p l q) (hp : next' y = next p)
    (heq : ∀ x ∈ l, next' x = next x) : Leads next' y l q := by
  cases l with
  | nil => exact hp.trans h
  | cons a l => exact ⟨hp.trans h.1, h.2.congr heq⟩

/-- A list cut after its first part, whose last node is `y`. -/
theorem Leads.cut (h : Leads next p (l ++ l') q) : ∃ front y, p :: l = front ++ [y] ∧
    Leads next y l' q ∧ ∀ (next' : α → α) (l'' : List α) (q' : α),
      (∀ x ∈ front, next' x = next x) → Leads next' y l'' q' →
        Leads next' p (l ++ l'') q' := by
  rcases List.eq_nil_or_concat l with rfl | ⟨front, y, rfl⟩
  · exact ⟨[], p, rfl, h, fun _ _ _ _ h' => h'⟩
  · rw [List.concat_eq_append] at *
    rw [List.append_assoc, List.singleton_append, leads_append] at h
    refine ⟨p :: front, y, rfl, h.2, fun next' l'' q' heq h' => ?_⟩
    rw [List.append_assoc, List.singleton_append, leads_append]
    exact ⟨h.1.congr heq, h'⟩

/-- A circular list starts at each of its nodes. -/
theorem Leads.rotate (h : Leads next p l p) (hx : x ∈ p :: l) :
    ∃ l', Leads next x l' x ∧ (x :: l').Perm (p :: l) := by
  rcases List.mem_cons.mp hx with rfl | hx
  · exact ⟨l, h, .refl _⟩
  · obtain ⟨front, back, rfl⟩ := List.append_of_mem hx
    rw [leads_append] at h
    refine ⟨back ++ p :: front, leads_append.mpr ⟨h.2, h.1⟩, ?_⟩
    have hperm : ((x :: back) ++ (p :: front)).Perm ((p :: front) ++ (x :: back)) :=
      List.perm_append_comm
    simpa using hperm

/-- Each node of an increasing list is followed by the next larger one, the last by the end of
the list. -/
theorem Leads.succ [LinearOrder α] (h : Leads next p l q) (hsorted : (p :: l).Pairwise (· < ·))
    (hx : x ∈ p :: l) :
    (next x ∈ l ∧ x < next x ∧ ∀ y ∈ p :: l, y ≤ x ∨ next x ≤ y) ∨
      (next x = q ∧ ∀ y ∈ p :: l, y ≤ x) := by
  induction l generalizing p with
  | nil =>
      obtain rfl := List.mem_singleton.mp hx
      exact .inr ⟨h, fun y hy => le_of_eq (List.mem_singleton.mp hy)⟩
  | cons a l ih =>
      obtain ⟨hlt, htail⟩ := List.pairwise_cons.mp hsorted
      rcases List.mem_cons.mp hx with rfl | hx
      · refine .inl ⟨h.1 ▸ .head _, h.1 ▸ hlt a (.head _), ?_⟩
        intro y hy
        rcases List.mem_cons.mp hy with rfl | hy
        · exact .inl le_rfl
        · rw [h.1]
          rcases List.mem_cons.mp hy with rfl | hy
          · exact .inr le_rfl
          · exact .inr (le_of_lt ((List.pairwise_cons.mp htail).1 y hy))
      · have hp : p ≤ x := le_of_lt (hlt x hx)
        rcases ih h.2 htail hx with ⟨hmem, hnext, hbetween⟩ | ⟨hnext, hmax⟩
        · refine .inl ⟨.tail _ hmem, hnext, fun y hy => ?_⟩
          rcases List.mem_cons.mp hy with rfl | hy
          · exact .inl hp
          · exact hbetween y hy
        · refine .inr ⟨hnext, fun y hy => ?_⟩
          rcases List.mem_cons.mp hy with rfl | hy
          · exact hp
          · exact hmax y hy

end Circular
