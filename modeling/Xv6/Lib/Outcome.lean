/-
Computations that may fail: what holds of the result, if there is one.
-/
import Mathlib.Init

namespace Outcome

variable {ε α β : Type}

/-- If the computation returns, then with a result that satisfies `Q`. -/
def Ensures (x : Except ε α) (Q : α → Prop) : Prop := ∀ a, x = .ok a → Q a

/-- A sequence that returns has an intermediate result. -/
theorem ok_of_bind {x : Except ε α} {f : α → Except ε β} {b : β} (h : x >>= f = .ok b) :
    ∃ a, x = .ok a ∧ f a = .ok b := by
  cases x with
  | error e => cases h
  | ok a => exact ⟨a, rfl, h⟩

theorem Ensures.ok {a : α} {Q : α → Prop} (h : Q a) : Ensures (.ok a : Except ε α) Q := by
  rintro a' ⟨⟩
  exact h

theorem Ensures.error {e : ε} {Q : α → Prop} : Ensures (.error e : Except ε α) Q := by
  rintro a ⟨⟩

theorem Ensures.mono {x : Except ε α} {Q R : α → Prop} (h : Ensures x Q)
    (hQ : ∀ a, Q a → R a) : Ensures x R :=
  fun a ha => hQ a (h a ha)

theorem Ensures.bind {x : Except ε α} {f : α → Except ε β} {P : α → Prop} {Q : β → Prop}
    (hx : Ensures x P) (hf : ∀ a, P a → Ensures (f a) Q) : Ensures (x >>= f) Q := by
  intro b hb
  obtain ⟨a, ha, hfa⟩ := ok_of_bind hb
  exact hf a (hx a ha) b hfa

theorem Ensures.ite {c : Prop} [Decidable c] {x y : Except ε α} {Q : α → Prop}
    (hx : c → Ensures x Q) (hy : ¬ c → Ensures y Q) :
    Ensures (if c then x else y) Q := by
  split
  · next hc => exact hx hc
  · next hc => exact hy hc

end Outcome
