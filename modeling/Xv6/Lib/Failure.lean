/-
What programs do after a command has failed: properties of all branches of the command tree,
for any answers that the commands may give.
-/
import Xv6.Lib.Program

namespace Program

variable {C : Type → Type} {α β γ : Type} {fail : ∀ β : Type, C β → β → Prop}

/-- Whatever the commands answer, the program returns a value with `Q` if it returns. -/
def Prog.Always (Q : α → Prop) : Prog C α → Prop
  | .ret value => Q value
  | .call _ next => ∀ answer, (next answer).Always Q

/-- Once a command has given an answer that counts as a failure, the program returns a value
with `Q` if it returns. -/
def Prog.AfterFail (fail : ∀ β : Type, C β → β → Prop) (Q : α → Prop) : Prog C α → Prop
  | .ret _ => True
  | .call c next => ∀ answer, (fail _ c answer → (next answer).Always Q) ∧
      (next answer).AfterFail fail Q

theorem Prog.Always.bind {p : Prog C α} {next : α → Prog C β} {R : α → Prop} {Q : β → Prop}
    (h : p.Always R) (hnext : ∀ value, R value → (next value).Always Q) :
    (p >>= next).Always Q := by
  induction p with
  | ret value => exact hnext value h
  | call c rest ih => exact fun answer => ih answer (h answer)

theorem Prog.always_true (p : Prog C α) : p.Always fun _ => True := by
  induction p with
  | ret value => trivial
  | call c rest ih => exact fun answer => ih answer

/-- A program whose last step returns a value with `Q`. -/
theorem Prog.Always.last (p : Prog C α) {next : α → Prog C β} {Q : β → Prop}
    (hnext : ∀ value, (next value).Always Q) : (p >>= next).Always Q :=
  p.always_true.bind fun value _ => hnext value

theorem Prog.AfterFail.bind {p : Prog C α} {next : α → Prog C β} {R : α → Prop}
    {Q : β → Prop} (h : p.AfterFail fail R)
    (hfail : ∀ value, R value → (next value).Always Q)
    (hnext : ∀ value, (next value).AfterFail fail Q) : (p >>= next).AfterFail fail Q := by
  induction p with
  | ret value => exact hnext value
  | call c rest ih =>
      intro answer
      obtain ⟨hstop, hrest⟩ := h answer
      exact ⟨fun hc => (hstop hc).bind hfail, ih answer hrest⟩

theorem Prog.Always.pure {value : α} {Q : α → Prop} (h : Q value) :
    (Pure.pure value : Prog C α).Always Q := h

theorem Prog.AfterFail.pure (value : α) {Q : α → Prop} :
    (Pure.pure value : Prog C α).AfterFail fail Q := trivial

/-- The rule for one command. -/
theorem Prog.AfterFail.call {c : C γ} {next : γ → Prog C α} {Q : α → Prop}
    (hfail : ∀ answer, fail _ c answer → (next answer).Always Q)
    (hnext : ∀ answer, (next answer).AfterFail fail Q) :
    (Prog.call c next).AfterFail fail Q := fun answer => ⟨hfail answer, hnext answer⟩

/-- A command that cannot fail. -/
theorem Prog.AfterFail.cmd {c : C γ} {Q : γ → Prop} (h : ∀ answer, ¬ fail _ c answer) :
    (Prog.cmd c).AfterFail fail Q := fun answer => ⟨fun hc => absurd hc (h answer), trivial⟩

/-- The rule for programs of which the first part cannot fail. -/
theorem Prog.AfterFail.then {p : Prog C α} {next : α → Prog C β} {Q : β → Prop}
    (h : p.AfterFail fail fun _ => False) (hnext : ∀ value, (next value).AfterFail fail Q) :
    (p >>= next).AfterFail fail Q := h.bind (fun _ hfalse => hfalse.elim) hnext

theorem Prog.AfterFail.upto {n : Nat} {body : Nat → Prog C Unit}
    (h : ∀ i, (body i).AfterFail fail fun _ => False) :
    (Prog.upto n body).AfterFail fail fun _ => False := by
  induction n with
  | zero => trivial
  | succ n ih => exact ih.then fun _ => h n

attribute [irreducible] Prog.Always Prog.AfterFail

end Program
