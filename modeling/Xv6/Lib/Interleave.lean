/-
Programs that share a state and own parts of it.  What a program owns is an
element of a commutative monoid, and one invariant relates the state to the sum
of everything that is owned.  A program is safe when each of its commands keeps
the invariant for every amount owned by the others, so safe programs may be
interleaved in any order.
-/
import Mathlib.Algebra.Group.Basic
import Xv6.Lib.Program

namespace Interleave

open Program

variable {C : Type → Type} {σ ε R α β γ : Type} [AddCommMonoid R]

/-- Commands with their meaning, the invariant of the shared state under what is
owned in total, and what a program must guarantee when it issues a command. -/
structure Logic (C : Type → Type) (σ ε R : Type) where
  exec : Handler C σ ε
  inv : R → σ → Prop
  adm : ∀ {β : Type}, R → σ → C β → Prop

/-- The program `p`, owning `r`, keeps the invariant and returns with a value
and ownership that satisfy `post`; its commands fail only with errors in `E`.
What is owned may be regrouped at every point where the invariant allows it. -/
def Safe (L : Logic C σ ε R) (E : ε → Prop) :
    Prog C α → R → (α → R → Prop) → Prop
  | .ret value, r, post =>
      ∀ F s, L.inv (r + F) s → ∃ r', L.inv (r' + F) s ∧ post value r'
  | .call c next, r, post =>
      ∀ F s, L.inv (r + F) s → ∃ r', L.inv (r' + F) s ∧ L.adm r' s c ∧
        match L.exec _ c s with
        | .ok (answer, s') =>
            ∃ r'', L.inv (r'' + F) s' ∧ Safe L E (next answer) r'' post
        | .error e => E e

variable {L : Logic C σ ε R} {E : ε → Prop}

/-- Ownership may be regrouped, by a choice that depends on the state. -/
theorem Safe.shift {p : Prog C α} {r : R} {post : α → R → Prop}
    (h : ∀ F s, L.inv (r + F) s → ∃ r', L.inv (r' + F) s ∧ Safe L E p r' post) :
    Safe L E p r post := by
  cases p with
  | ret value =>
      intro F s hinv
      obtain ⟨r', hinv', hsafe⟩ := h F s hinv
      exact hsafe F s hinv'
  | call c next =>
      intro F s hinv
      obtain ⟨r', hinv', hsafe⟩ := h F s hinv
      exact hsafe F s hinv'

/-- Facts that the invariant implies may be used in the safety proof. -/
theorem Safe.learn {p : Prog C α} {r : R} {post : α → R → Prop}
    (h : ∀ F s, L.inv (r + F) s → Safe L E p r post) : Safe L E p r post :=
  Safe.shift fun F s hinv => ⟨r, hinv, h F s hinv⟩

theorem Safe.pure {value : α} {r : R} {post : α → R → Prop}
    (h : post value r) : Safe L E (Pure.pure value) r post :=
  fun _ _ hinv => ⟨r, hinv, h⟩

theorem Safe.bind {p : Prog C α} {next : α → Prog C β} {r : R}
    {M : α → R → Prop} {post : β → R → Prop} (h : Safe L E p r M)
    (hnext : ∀ value r', M value r' → Safe L E (next value) r' post) :
    Safe L E (p >>= next) r post := by
  induction p generalizing r with
  | ret value =>
      apply Safe.shift
      intro F s hinv
      obtain ⟨r', hinv', hpost⟩ := h F s hinv
      exact ⟨r', hinv', hnext value r' hpost⟩
  | call c rest ih =>
      intro F s hinv
      obtain ⟨r', hinv', hadm, hstep⟩ := h F s hinv
      refine ⟨r', hinv', hadm, ?_⟩
      cases hexec : L.exec _ c s with
      | error e => simpa only [hexec] using hstep
      | ok out =>
          simp only [hexec] at hstep
          obtain ⟨r'', hinv'', hrest⟩ := hstep
          exact ⟨r'', hinv'', ih out.1 hrest⟩

theorem Safe.mono {p : Prog C α} {r : R} {post post' : α → R → Prop}
    (h : Safe L E p r post) (hpost : ∀ value r', post value r' → post' value r') :
    Safe L E p r post' := by
  have hbind : Safe L E (p >>= fun value => Pure.pure value) r post' :=
    h.bind fun value r' hvalue => Safe.pure (hpost value r' hvalue)
  rwa [Prog.bind_pure] at hbind

/-- One command: it is admissible, and it fails as allowed or reaches a state in
which the invariant holds for a new ownership. -/
theorem Safe.cmd {c : C γ} {r : R} {post : γ → R → Prop}
    (h : ∀ F s, L.inv (r + F) s → L.adm r s c ∧
      match L.exec _ c s with
      | .ok (answer, s') => ∃ r', L.inv (r' + F) s' ∧ post answer r'
      | .error e => E e) :
    Safe L E (Prog.cmd c) r post := by
  intro F s hinv
  obtain ⟨hadm, hstep⟩ := h F s hinv
  refine ⟨r, hinv, hadm, ?_⟩
  cases hexec : L.exec _ c s with
  | error e => simpa only [hexec] using hstep
  | ok out =>
      simp only [hexec] at hstep
      obtain ⟨r', hinv', hpost⟩ := hstep
      exact ⟨r', hinv', fun F' s' hinv'' => ⟨r', hinv'', hpost⟩⟩

/-- The rule for counted loops: `P k` is what is owned before iteration `k`. -/
theorem Safe.upto {P : Nat → R → Prop} {body : Nat → Prog C Unit} {n : Nat}
    {r : R} (hstart : P 0 r)
    (hbody : ∀ k r', k < n → P k r' → Safe L E (body k) r' fun _ => P (k + 1)) :
    Safe L E (Prog.upto n body) r fun _ => P n := by
  induction n with
  | zero => exact Safe.pure hstart
  | succ n ih =>
      have hpre := ih fun k r' hk => hbody k r' (by omega)
      exact hpre.bind fun _ r' hr' => hbody n r' (by omega) hr'

/-- A safe program that runs alone ends with its postcondition, or stops with an
error it is allowed to stop with. -/
theorem Safe.run {p : Prog C α} {r F : R} {s : σ} {post : α → R → Prop}
    (h : Safe L E p r post) (hinv : L.inv (r + F) s) :
    match p.run L.exec s with
    | .ok (value, s') => ∃ r', L.inv (r' + F) s' ∧ post value r'
    | .error e => E e := by
  induction p generalizing r s with
  | ret value => exact h F s hinv
  | call c rest ih =>
      obtain ⟨r', hinv', hadm, hstep⟩ := h F s hinv
      cases hexec : L.exec _ c s with
      | error e =>
          simp only [hexec] at hstep
          simpa only [Prog.run, hexec] using hstep
      | ok out =>
          simp only [hexec] at hstep
          obtain ⟨r'', hinv'', hrest⟩ := hstep
          simpa only [Prog.run, hexec] using ih out.1 hrest hinv''

/-- A program that has no excuse to fail returns. -/
theorem Safe.returns {p : Prog C α} {r F : R} {s : σ} {post : α → R → Prop}
    (h : Safe L (fun _ => False) p r post) (hinv : L.inv (r + F) s) :
    ∃ value s' r', p.run L.exec s = .ok (value, s') ∧ L.inv (r' + F) s' ∧ post value r' := by
  have hrun := h.run hinv
  cases hres : p.run L.exec s with
  | error e =>
      rw [hres] at hrun
      exact hrun.elim
  | ok x =>
      rw [hres] at hrun
      obtain ⟨r', hinv', hpost⟩ := hrun
      exact ⟨x.1, x.2, r', rfl, hinv', hpost⟩

/-- A command that always stops the program. -/
theorem Safe.stop {c : C γ} {next : γ → Prog C α} {r : R} {post : α → R → Prop}
    (h : ∀ F s, L.inv (r + F) s →
      L.adm r s c ∧ ∃ e, L.exec _ c s = .error e ∧ E e) :
    Safe L E (.call c next) r post := by
  intro F s hinv
  obtain ⟨hadm, e, hexec, he⟩ := h F s hinv
  refine ⟨r, hinv, hadm, ?_⟩
  simpa only [hexec] using he

/-- The unfolding of a safe program at a command. -/
theorem Safe.step {β : Type} {c : C β} {next : β → Prog C α} {r F : R} {s : σ}
    {post : α → R → Prop} (h : Safe L E (.call c next) r post)
    (hinv : L.inv (r + F) s) :
    ∃ r', L.inv (r' + F) s ∧ L.adm r' s c ∧
      match L.exec _ c s with
      | .ok (answer, s') =>
          ∃ r'', L.inv (r'' + F) s' ∧ Safe L E (next answer) r'' post
      | .error e => E e :=
  h F s hinv

/-- A program that has ended satisfies its postcondition. -/
theorem Safe.done {value : α} {r F : R} {s : σ} {post : α → R → Prop}
    (h : Safe L E (.ret value) r post) (hinv : L.inv (r + F) s) :
    ∃ r', L.inv (r' + F) s ∧ post value r' :=
  h F s hinv

-- A goal `Safe L E p r post` would otherwise be unfolded along the whole program.
attribute [irreducible] Safe

end Interleave
