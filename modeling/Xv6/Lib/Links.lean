/-
Circular doubly linked lists.  The links of all nodes are two functions; from the head one
meets the nodes of the list, in their order, on the way back to the head.
-/
import Mathlib.Data.List.Nodup
import Mathlib.Logic.Function.Basic

variable {α : Type}

/-- The links of every node. -/
structure Links (α : Type) where
  next : α → α
  prev : α → α

namespace Links

/-- From `a` the links lead through `l` to `b`, and back. -/
def Segment (k : Links α) : α → List α → α → Prop
  | a, [], b => k.next a = b ∧ k.prev b = a
  | a, x :: l, b => k.next a = x ∧ k.prev x = a ∧ k.Segment x l b

/-- The nodes of `l` are in a circle with the head `h`. -/
structure Circle (k : Links α) (h : α) (l : List α) : Prop where
  nodup : (h :: l).Nodup
  segment : k.Segment h l h

variable {k k' : Links α} {a b h x y : α} {l l₁ l₂ : List α}

theorem segment_append : k.Segment a (l₁ ++ x :: l₂) b ↔
    k.Segment a l₁ x ∧ k.Segment x l₂ b := by
  induction l₁ generalizing a with
  | nil => simp only [List.nil_append, Segment, and_assoc]
  | cons y l₁ ih => simp only [List.cons_append, Segment, ih, and_assoc]

/-- A segment depends on the links of its nodes only. -/
theorem Segment.congr (hs : k.Segment a l b) (hnext : ∀ x ∈ a :: l, k'.next x = k.next x)
    (hprev : ∀ x ∈ l ++ [b], k'.prev x = k.prev x) : k'.Segment a l b := by
  induction l generalizing a with
  | nil =>
      refine ⟨?_, ?_⟩
      · rw [hnext a List.mem_cons_self, hs.1]
      · rw [hprev b (by simp), hs.2]
  | cons y l ih =>
      refine ⟨?_, ?_, ih hs.2.2 (fun x hx => ?_) (fun x hx => ?_)⟩
      · rw [hnext a List.mem_cons_self, hs.1]
      · rw [hprev y (by simp), hs.2.1]
      · exact hnext x (List.mem_cons_of_mem a hx)
      · exact hprev x (by simpa using .inr (by simpa using hx))

/-- The way back is a segment of the reversed links. -/
def flip (k : Links α) : Links α := ⟨k.prev, k.next⟩

theorem Segment.flip (hs : k.Segment a l b) : k.flip.Segment b l.reverse a := by
  induction l generalizing a with
  | nil => exact ⟨hs.2, hs.1⟩
  | cons x l ih =>
      rw [List.reverse_cons, segment_append]
      exact ⟨ih hs.2.2, hs.2.1, hs.1⟩

theorem Circle.flip (hc : k.Circle h l) : k.flip.Circle h l.reverse where
  nodup := by
    have hnodup := hc.nodup
    simpa only [List.nodup_cons, List.mem_reverse, List.nodup_reverse] using hnodup
  segment := hc.segment.flip

/-- The first node from `a` on with the property `p`, before the head; the first argument is
the number of nodes that may be visited. -/
def find [DecidableEq α] (k : Links α) (h : α) (p : α → Bool) : Nat → α → Option (Option α)
  | 0, _ => none
  | n + 1, a =>
      if a = h then some none
      else if p a then some (some a)
      else k.find h p n (k.next a)

theorem Segment.find [DecidableEq α] {p : α → Bool} {n : Nat} (hs : k.Segment a l h)
    (hl : h ∉ l) (hn : l.length < n) : k.find h p n (k.next a) = some (l.find? p) := by
  induction l generalizing a n with
  | nil =>
      cases n with
      | zero => exact absurd hn (Nat.not_lt_zero _)
      | succ n => rw [hs.1, Links.find, if_pos rfl, List.find?_nil]
  | cons x l ih =>
      cases n with
      | zero => exact absurd hn (Nat.not_lt_zero _)
      | succ n =>
          have hne : x ≠ h := fun heq => hl (heq ▸ List.mem_cons_self)
          rw [hs.1, Links.find, if_neg hne, List.find?_cons]
          cases hp : p x with
          | true => rfl
          | false =>
              simp only [Bool.false_eq_true, if_false]
              exact ih hs.2.2 (fun hmem => hl (List.mem_cons_of_mem x hmem))
                (Nat.lt_of_succ_lt_succ hn)

/-- A walk from the head finds what is first in the list. -/
theorem Circle.find [DecidableEq α] {p : α → Bool} {n : Nat} (hc : k.Circle h l)
    (hn : l.length < n) : k.find h p n (k.next h) = some (l.find? p) :=
  hc.segment.find (List.nodup_cons.mp hc.nodup).1 hn

/-- The node from which a segment reaches its end. -/
theorem Segment.prev_mem (hs : k.Segment a l b) : k.prev b ∈ a :: l := by
  induction l generalizing a with
  | nil => simp [hs.2]
  | cons x l ih => exact List.mem_cons_of_mem a (ih hs.2.2)

/-- The node that a segment reaches first. -/
theorem Segment.next_mem (hs : k.Segment a l b) : k.next a ∈ l ++ [b] := by
  cases l with
  | nil => simp [hs.1]
  | cons x l => simp [hs.1]

variable [DecidableEq α]

def setNext (k : Links α) (a x : α) : Links α := { k with next := Function.update k.next a x }

def setPrev (k : Links α) (a x : α) : Links α := { k with prev := Function.update k.prev a x }

/-- Take a node out: x->next->prev = x->prev, and then x->prev->next = x->next. -/
def unlink (k : Links α) (x : α) : Links α :=
  let k := k.setPrev (k.next x) (k.prev x)
  k.setNext (k.prev x) (k.next x)

/-- Put a node behind the head: the links of the node, then those to it. -/
def insert (k : Links α) (h x : α) : Links α :=
  let k := k.setNext x (k.next h)
  let k := k.setPrev x h
  let k := k.setPrev (k.next h) x
  k.setNext h x

/-- The end of a segment is replaced. -/
theorem Segment.retarget (hs : k.Segment a l b) (hnodup : (a :: l).Nodup) (hy : y ∉ l)
    (hnext : k'.next = Function.update k.next (k.prev b) y)
    (hprev : k'.prev = Function.update k.prev y (k.prev b)) : k'.Segment a l y := by
  induction l generalizing a with
  | nil =>
      obtain ⟨-, hback⟩ := hs
      rw [hback] at hnext hprev
      exact ⟨by rw [hnext, Function.update_self], by rw [hprev, Function.update_self]⟩
  | cons x l ih =>
      obtain ⟨hfwd, hback, hrest⟩ := hs
      obtain ⟨ha, hnodup⟩ := List.nodup_cons.mp hnodup
      have hne : a ≠ k.prev b := fun heq => ha (heq ▸ hrest.prev_mem)
      have hxy : x ≠ y := fun heq => hy (heq ▸ List.mem_cons_self)
      refine ⟨?_, ?_, ih hrest hnodup fun hmem => hy (List.mem_cons_of_mem x hmem)⟩
      · rw [hnext, Function.update_of_ne hne, hfwd]
      · rw [hprev, Function.update_of_ne hxy, hback]

omit [DecidableEq α] in
/-- A node of the circle is met once. -/
theorem nodup_without (hnodup : (h :: (l₁ ++ x :: l₂)).Nodup) :
    x ∉ h :: (l₁ ++ l₂) ∧ (h :: (l₁ ++ l₂)).Nodup := by
  have hmid : (h :: l₁ ++ x :: l₂).Nodup := hnodup
  exact List.nodup_cons.mp (List.nodup_middle.mp hmid)

theorem Circle.unlink (hc : k.Circle h (l₁ ++ x :: l₂)) : (k.unlink x).Circle h (l₁ ++ l₂) := by
  obtain ⟨hs₁, hs₂⟩ := segment_append.mp hc.segment
  obtain ⟨hx, hnodup⟩ := nodup_without hc.nodup
  have hfirst : (h :: l₁).Nodup :=
    hnodup.sublist (.cons_cons h (List.sublist_append_left l₁ l₂))
  have hnextx : k.next x ≠ x := by
    intro heq
    have hmem := hs₂.next_mem
    rw [heq] at hmem
    rcases List.mem_append.mp hmem with hmem | hmem
    · exact hx (List.mem_cons_of_mem h (List.mem_append_right l₁ hmem))
    · exact hx (List.mem_singleton.mp hmem ▸ List.mem_cons_self)
  have hnext : (k.unlink x).next = Function.update k.next (k.prev x) (k.next x) := by
    simp only [Links.unlink, setNext, setPrev, Function.update_of_ne hnextx.symm]
  have hprev : (k.unlink x).prev = Function.update k.prev (k.next x) (k.prev x) := rfl
  refine ⟨hnodup, ?_⟩
  cases l₂ with
  | nil =>
      rw [List.append_nil]
      rw [hs₂.1] at hnext hprev
      exact hs₁.retarget hfirst (List.nodup_cons.mp hfirst).1 hnext hprev
  | cons y l₂ =>
      obtain ⟨hy, -, hrest⟩ := hs₂
      rw [hy] at hnext hprev
      obtain ⟨hmid, -⟩ := nodup_without hnodup
      have happend : (h :: l₁ ++ y :: l₂).Nodup := hnodup
      have hdisj := List.disjoint_of_nodup_append happend
      refine segment_append.mpr ⟨hs₁.retarget hfirst (fun hmem => ?_) hnext hprev,
        hrest.congr (fun z hz => ?_) fun z hz => ?_⟩
      · exact hmid (List.mem_cons_of_mem h (List.mem_append_left l₂ hmem))
      · rw [hnext, Function.update_of_ne]
        rintro rfl
        exact hdisj hs₁.prev_mem hz
      · rw [hprev, Function.update_of_ne]
        rintro rfl
        rcases List.mem_append.mp hz with hz | hz
        · exact hmid (List.mem_cons_of_mem h (List.mem_append_right l₁ hz))
        · exact hmid (List.mem_singleton.mp hz ▸ List.mem_cons_self)

theorem Circle.insert (hc : k.Circle h l) (hx : x ∉ h :: l) : (k.insert h x).Circle h (x :: l) := by
  have hs := hc.segment
  have hxh : x ≠ h := fun heq => hx (heq ▸ List.mem_cons_self)
  have hxl : x ∉ l := fun hmem => hx (List.mem_cons_of_mem h hmem)
  obtain ⟨hhl, hl⟩ := List.nodup_cons.mp hc.nodup
  have hnext : (k.insert h x).next =
      Function.update (Function.update k.next x (k.next h)) h x := rfl
  have hprev : (k.insert h x).prev =
      Function.update (Function.update k.prev x h) (k.next h) x := by
    simp only [Links.insert, setNext, setPrev, Function.update_of_ne hxh.symm]
  have hnexth : x ≠ k.next h := by
    rintro rfl
    rcases List.mem_append.mp hs.next_mem with hmem | hmem
    · exact hxl hmem
    · exact hxh (List.mem_singleton.mp hmem)
  have hforth : (k.insert h x).next x = k.next h := by
    rw [hnext, Function.update_of_ne hxh, Function.update_self]
  have hback : (k.insert h x).prev (k.next h) = x := by rw [hprev, Function.update_self]
  refine ⟨?_, ?_, ?_, ?_⟩
  · refine List.nodup_cons.mpr ⟨fun hmem => ?_, List.nodup_cons.mpr ⟨hxl, hl⟩⟩
    rcases List.mem_cons.mp hmem with heq | hmem
    · exact hxh heq.symm
    · exact hhl hmem
  · rw [hnext, Function.update_self]
  · rw [hprev, Function.update_of_ne hnexth, Function.update_self]
  · cases l with
    | nil =>
        rw [hs.1] at hforth hback
        exact ⟨hforth, hback⟩
    | cons y l =>
        obtain ⟨hy, -, hrest⟩ := hs
        rw [hy] at hforth hback
        rw [hy] at hprev
        refine ⟨hforth, hback, hrest.congr (fun z hz => ?_) fun z hz => ?_⟩
        · have hzh : z ≠ h := fun heq => hhl (heq ▸ hz)
          have hzx : z ≠ x := fun heq => hxl (heq ▸ hz)
          rw [hnext, Function.update_of_ne hzh, Function.update_of_ne hzx]
        · have hzy : z ≠ y := by
            rintro rfl
            rcases List.mem_append.mp hz with hz | hz
            · exact (List.nodup_cons.mp hl).1 hz
            · exact hhl (List.mem_singleton.mp hz ▸ List.mem_cons_self)
          have hzx : z ≠ x := by
            rintro rfl
            rcases List.mem_append.mp hz with hz | hz
            · exact hxl (List.mem_cons_of_mem y hz)
            · exact hxh (List.mem_singleton.mp hz)
          rw [hprev, Function.update_of_ne hzy, Function.update_of_ne hzx]

end Links
