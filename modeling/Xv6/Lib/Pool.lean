/-
A pool of programs that run interleaved.  The resources are divided among the
tasks of the pool, and a step of one task leaves the shares of the others alone.
-/
import Mathlib.Data.List.Perm.Basic
import Xv6.Lib.Interleave

namespace Interleave

open Program

universe u

section each

variable {ι : Type u} {R : Type} [AddCommMonoid R] {P Q : ι → R → Prop}

/-- The resources are divided into one part for every element of a list. -/
def Each (P : ι → R → Prop) : List ι → R → Prop
  | [], r => r = 0
  | x :: xs, r => ∃ a b, P x a ∧ Each P xs b ∧ r = a + b

theorem Each.cons {x : ι} {xs : List ι} {a b : R} (ha : P x a) (hb : Each P xs b) :
    Each P (x :: xs) (a + b) := ⟨a, b, ha, hb, rfl⟩

theorem Each.perm {xs ys : List ι} {r : R} (hperm : xs.Perm ys) (h : Each P xs r) :
    Each P ys r := by
  induction hperm generalizing r with
  | nil => exact h
  | cons x _ ih =>
      obtain ⟨a, b, ha, hb, rfl⟩ := h
      exact Each.cons ha (ih hb)
  | swap x y xs =>
      obtain ⟨a, _, ha, ⟨b, c, hb, hc, rfl⟩, rfl⟩ := h
      rw [add_left_comm]
      exact Each.cons hb (Each.cons ha hc)
  | trans _ _ ih₁ ih₂ => exact ih₂ (ih₁ h)

theorem Each.append {xs ys : List ι} {a b : R} (ha : Each P xs a) (hb : Each P ys b) :
    Each P (xs ++ ys) (a + b) := by
  induction xs generalizing a with
  | nil =>
      have hzero : a = 0 := ha
      rwa [hzero, zero_add]
  | cons x xs ih =>
      obtain ⟨c, d, hc, hd, rfl⟩ := ha
      rw [add_assoc]
      exact Each.cons hc (ih hd)

theorem Each.of_append {xs ys : List ι} {r : R} (h : Each P (xs ++ ys) r) :
    ∃ a b, Each P xs a ∧ Each P ys b ∧ r = a + b := by
  induction xs generalizing r with
  | nil => exact ⟨0, r, rfl, h, (zero_add r).symm⟩
  | cons x xs ih =>
      obtain ⟨c, d, hc, hd, rfl⟩ := h
      obtain ⟨a, b, ha, hb, rfl⟩ := ih hd
      exact ⟨c + a, b, Each.cons hc ha, hb, (add_assoc ..).symm⟩

theorem Each.mono {xs : List ι} {r : R} (h : Each P xs r)
    (hPQ : ∀ x ∈ xs, ∀ a, P x a → Q x a) : Each Q xs r := by
  induction xs generalizing r with
  | nil => exact h
  | cons x xs ih =>
      obtain ⟨a, b, ha, hb, rfl⟩ := h
      exact Each.cons (hPQ x List.mem_cons_self a ha)
        (ih hb fun y hy => hPQ y (List.mem_cons_of_mem x hy))

/-- The part of one element, next to the parts of all the others. -/
theorem Each.get {xs : List ι} {r : R} {i : Nat} {x : ι} (h : Each P xs r)
    (hx : xs[i]? = some x) :
    ∃ a b, P x a ∧ Each P (xs.eraseIdx i) b ∧ r = a + b := by
  obtain ⟨hi, rfl⟩ := List.getElem?_eq_some_iff.mp hx
  exact h.perm (List.getElem_cons_eraseIdx_perm hi).symm

theorem Each.set {xs : List ι} {i : Nat} {x : ι} {a b : R} (hi : i < xs.length)
    (ha : P x a) (hb : Each P (xs.eraseIdx i) b) : Each P (xs.set i x) (a + b) :=
  (Each.cons ha hb).perm (List.set_perm_cons_eraseIdx hi x).symm

end each

section pool

variable {C : Type → Type} {σ ε R : Type} [AddCommMonoid R]
variable {O : Type u} {Res : O → Type}

/-- A program that runs for an operation and returns a result of its type. -/
structure Task (C : Type → Type) (Res : O → Type) where
  op : O
  prog : Prog C (Res op)

/-- What an operation may fail with, and what it leaves behind. -/
structure Contract (Res : O → Type) (ε R : Type) where
  errors : O → ε → Prop
  post : (o : O) → Res o → R → Prop

/-- The share with which a task is safe. -/
def Task.Share (L : Logic C σ ε R) (T : Contract Res ε R) (t : Task C Res) (r : R) : Prop :=
  Safe L (T.errors t.op) t.prog r (T.post t.op)

variable {L : Logic C σ ε R} {T : Contract Res ε R}

/-- One step of one task in the pool. -/
theorem Each.step {pool : List (Task C Res)} {i : Nat} {o : O} {β : Type} {c : C β}
    {next : β → Prog C (Res o)} {r F : R} {s : σ} (h : Each (Task.Share L T) pool r)
    (hinv : L.inv (r + F) s) (ht : pool[i]? = some ⟨o, .call c next⟩) :
    match L.exec _ c s with
    | .ok (answer, s') => ∃ r', Each (Task.Share L T) (pool.set i ⟨o, next answer⟩) r' ∧
        L.inv (r' + F) s'
    | .error e => T.errors o e := by
  obtain ⟨a, b, ha, hb, rfl⟩ := h.get ht
  have hlt : i < pool.length := (List.getElem?_eq_some_iff.mp ht).1
  rw [add_assoc] at hinv
  obtain ⟨a', -, -, hstep⟩ := Safe.step ha hinv
  cases hexec : L.exec _ c s with
  | error e =>
      simp only [hexec] at hstep
      exact hstep
  | ok out =>
      simp only [hexec] at hstep
      obtain ⟨a'', hinv'', hsafe⟩ := hstep
      refine ⟨a'' + b, Each.set hlt hsafe hb, ?_⟩
      rwa [add_assoc]

/-- A task that has ended gives its share back. -/
theorem Each.finish {pool : List (Task C Res)} {i : Nat} {o : O} {value : Res o}
    {r F : R} {s : σ} (h : Each (Task.Share L T) pool r) (hinv : L.inv (r + F) s)
    (ht : pool[i]? = some ⟨o, .ret value⟩) :
    ∃ a b, T.post o value a ∧ Each (Task.Share L T) (pool.eraseIdx i) b ∧
      L.inv (a + (b + F)) s := by
  obtain ⟨a, b, ha, hb, rfl⟩ := h.get ht
  rw [add_assoc] at hinv
  obtain ⟨a', hinv', hpost⟩ := Safe.done ha hinv
  exact ⟨a', b, hpost, hb, hinv'⟩

/-- What is known about the share of a task that is looked at between two steps. -/
def Task.Rests (L : Logic C σ ε R) (T : Contract Res ε R) (s : σ) (t : Task C Res)
    (r : R) : Prop :=
  match t.prog with
  | .ret value => T.post t.op value r
  | .call c _ => L.adm r s c

/-- Between two steps every share can be brought into the form that its next
command needs. -/
theorem Each.rest {pool : List (Task C Res)} {r F : R} {s : σ}
    (h : Each (Task.Share L T) pool r) (hinv : L.inv (r + F) s) :
    ∃ r', Each (Task.Rests L T s) pool r' ∧ L.inv (r' + F) s := by
  induction pool generalizing r F with
  | nil => exact ⟨r, h, hinv⟩
  | cons t pool ih =>
      obtain ⟨a, b, ha, hb, rfl⟩ := h
      rw [add_assoc, add_left_comm] at hinv
      obtain ⟨b', hb', hinv'⟩ := ih hb hinv
      rw [add_left_comm] at hinv'
      obtain ⟨o, prog⟩ := t
      cases prog with
      | ret value =>
          obtain ⟨a', hinv'', hpost⟩ := Safe.done ha hinv'
          refine ⟨a' + b', Each.cons hpost hb', ?_⟩
          rwa [add_assoc]
      | call c next =>
          obtain ⟨a', hinv'', hadm, -⟩ := Safe.step ha hinv'
          refine ⟨a' + b', Each.cons hadm hb', ?_⟩
          rwa [add_assoc]

end pool

end Interleave
