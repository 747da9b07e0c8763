/-
Programs as trees of commands.  A program has returned, or it issues one
command and continues from the answer.  The same tree is read in three ways:
run to the end by one thread, stopped after any number of commands, or
interleaved with other programs (see `Xv6.Lib.Interleave`).
-/
import Mathlib.Logic.Function.Basic

namespace Program

variable {C : Type → Type} {σ ε α β γ : Type}

/-- A program over the command set `C` with result type `α`. -/
inductive Prog (C : Type → Type) (α : Type) : Type 1
  | ret (value : α)
  | call {β : Type} (cmd : C β) (next : β → Prog C α)

namespace Prog

/-- Sequencing grafts the continuation onto every leaf. -/
def bind : Prog C α → (α → Prog C β) → Prog C β
  | ret value, next => next value
  | call cmd rest, next => call cmd fun answer => (rest answer).bind next

instance : Monad (Prog C) where
  pure := ret
  bind := bind

/-- The program that issues one command. -/
def cmd (c : C β) : Prog C β := call c ret

@[simp] theorem pure_bind (value : α) (next : α → Prog C β) :
    (pure value : Prog C α) >>= next = next value := rfl

@[simp] theorem ret_bind (value : α) (next : α → Prog C β) :
    (ret value : Prog C α) >>= next = next value := rfl

@[simp] theorem call_bind (c : C γ) (rest : γ → Prog C α)
    (next : α → Prog C β) :
    (call c rest >>= next) = call c fun answer => rest answer >>= next := rfl

@[simp] theorem cmd_bind (c : C γ) (next : γ → Prog C β) :
    (cmd c >>= next) = call c next := rfl

theorem bind_assoc (p : Prog C α) (f : α → Prog C β) (g : β → Prog C γ) :
    p >>= f >>= g = p >>= fun value => f value >>= g := by
  induction p with
  | ret value => rfl
  | call c rest ih =>
      simp only [call_bind]
      exact congrArg (call c) (funext ih)

theorem bind_pure (p : Prog C α) : (p >>= fun value => pure value) = p := by
  induction p with
  | ret value => rfl
  | call c rest ih =>
      simp only [call_bind]
      exact congrArg (call c) (funext ih)

/-- Run `body 0`, ..., `body (n - 1)` in this order. -/
def upto : Nat → (Nat → Prog C Unit) → Prog C Unit
  | 0, _ => ret ()
  | n + 1, body => do
      upto n body
      body n

end Prog

/-- The meaning of the commands: each acts once on the state, or fails. -/
abbrev Handler (C : Type → Type) (σ ε : Type) : Type 1 :=
  ∀ β : Type, C β → σ → Except ε (β × σ)

/-- Run a program alone until it returns or a command fails. -/
def Prog.run (exec : Handler C σ ε) : Prog C α → σ → Except ε (α × σ)
  | .ret value, s => .ok (value, s)
  | .call c next, s =>
      match exec _ c s with
      | .ok (answer, s') => (next answer).run exec s'
      | .error e => .error e

/-- Running a sequence: the second part starts where the first has ended. -/
theorem Prog.run_bind_ok {exec : Handler C σ ε} {p : Prog C α}
    {next : α → Prog C β} {s s' : σ} {value : α}
    (h : p.run exec s = .ok (value, s')) :
    (p >>= next).run exec s = (next value).run exec s' := by
  induction p generalizing s with
  | ret v =>
      simp only [Prog.run, Except.ok.injEq, Prod.mk.injEq] at h
      obtain ⟨rfl, rfl⟩ := h
      rfl
  | call c rest ih =>
      rw [Prog.call_bind]
      cases hexec : exec _ c s with
      | error e =>
          simp only [Prog.run, hexec] at h
          cases h
      | ok out =>
          simp only [Prog.run, hexec] at h ⊢
          exact ih out.1 h

theorem Prog.run_bind_error {exec : Handler C σ ε} {p : Prog C α} {next : α → Prog C β} {s : σ}
    {e : ε} (h : p.run exec s = .error e) : (p >>= next).run exec s = .error e := by
  induction p generalizing s with
  | ret v => cases h
  | call c rest ih =>
      rw [Prog.call_bind]
      cases hexec : exec _ c s with
      | error e' =>
          simp only [Prog.run, hexec, Except.error.injEq] at h ⊢
          exact h
      | ok out =>
          simp only [Prog.run, hexec] at h ⊢
          exact ih out.1 h

/-- A sequence that returns has run both parts. -/
theorem Prog.run_bind_inv {exec : Handler C σ ε} {p : Prog C α} {next : α → Prog C β} {s : σ}
    {out : β × σ} (h : (p >>= next).run exec s = .ok out) :
    ∃ value s', p.run exec s = .ok (value, s') ∧ (next value).run exec s' = .ok out := by
  cases hp : p.run exec s with
  | error e =>
      rw [Prog.run_bind_error hp] at h
      cases h
  | ok x =>
      rw [Prog.run_bind_ok hp] at h
      exact ⟨x.1, x.2, rfl, h⟩

/-- The state after at most `n` commands of the program; a failing command
leaves the state where it was. -/
def Prog.after (exec : Handler C σ ε) : Nat → Prog C α → σ → σ
  | 0, _, s => s
  | _ + 1, .ret _, s => s
  | n + 1, .call c next, s =>
      match exec _ c s with
      | .ok (answer, s') => (next answer).after exec n s'
      | .error _ => s

/-- From `s` the program keeps `inv` after every command, no command fails,
and the result satisfies `post`. -/
def Prog.Holds (exec : Handler C σ ε) (inv : σ → Prop) :
    Prog C α → σ → (α → σ → Prop) → Prop
  | .ret value, s, post => inv s ∧ post value s
  | .call c next, s, post =>
      inv s ∧ ∃ answer s', exec _ c s = .ok (answer, s') ∧
        (next answer).Holds exec inv s' post

section Holds

variable {exec : Handler C σ ε} {inv : σ → Prop}

theorem Prog.Holds.inv_start {p : Prog C α} {s : σ} {post : α → σ → Prop}
    (h : p.Holds exec inv s post) : inv s := by
  cases p with
  | ret value => exact h.1
  | call c next => exact h.1

theorem Prog.Holds.bind {p : Prog C α} {next : α → Prog C β} {s : σ}
    {M : α → σ → Prop} {post : β → σ → Prop}
    (h : p.Holds exec inv s M)
    (hnext : ∀ value s', M value s' → (next value).Holds exec inv s' post) :
    (p >>= next).Holds exec inv s post := by
  induction p generalizing s with
  | ret value => exact hnext value s h.2
  | call c rest ih =>
      obtain ⟨hinv, answer, s', hexec, hrest⟩ := h
      exact ⟨hinv, answer, s', hexec, ih answer hrest⟩

theorem Prog.Holds.pure {value : α} {s : σ} {post : α → σ → Prop}
    (hinv : inv s) (hpost : post value s) :
    (Pure.pure value : Prog C α).Holds exec inv s post := ⟨hinv, hpost⟩

/-- One command of a straight-line program. -/
theorem Prog.Holds.cmd_bind {c : C γ} {next : γ → Prog C α} {s s' : σ}
    {answer : γ} {post : α → σ → Prop} (hinv : inv s)
    (hexec : exec _ c s = .ok (answer, s'))
    (hnext : (next answer).Holds exec inv s' post) :
    (Prog.cmd c >>= next).Holds exec inv s post :=
  ⟨hinv, answer, s', hexec, hnext⟩

theorem Prog.Holds.cmd {c : C γ} {s s' : σ} {answer : γ}
    {post : γ → σ → Prop} (hinv : inv s)
    (hexec : exec _ c s = .ok (answer, s')) (hinv' : inv s')
    (hpost : post answer s') : (Prog.cmd c).Holds exec inv s post :=
  ⟨hinv, answer, s', hexec, hinv', hpost⟩

theorem Prog.Holds.mono {p : Prog C α} {s : σ} {post post' : α → σ → Prop}
    (h : p.Holds exec inv s post)
    (hpost : ∀ value s', post value s' → post' value s') :
    p.Holds exec inv s post' := by
  induction p generalizing s with
  | ret value => exact ⟨h.1, hpost value s h.2⟩
  | call c rest ih =>
      obtain ⟨hinv, answer, s', hexec, hrest⟩ := h
      exact ⟨hinv, answer, s', hexec, ih answer hrest⟩

/-- The invariant also holds of the result. -/
theorem Prog.Holds.and_inv {p : Prog C α} {s : σ} {post : α → σ → Prop}
    (h : p.Holds exec inv s post) :
    p.Holds exec inv s fun value s' => inv s' ∧ post value s' := by
  induction p generalizing s with
  | ret value => exact ⟨h.1, h⟩
  | call c rest ih =>
      obtain ⟨hinv, answer, s', hexec, hrest⟩ := h
      exact ⟨hinv, answer, s', hexec, ih answer hrest⟩

/-- The rule for counted loops: `P k` is what holds before iteration `k`. -/
theorem Prog.Holds.upto {P : Nat → σ → Prop} {body : Nat → Prog C Unit}
    {n : Nat} {s : σ} (hinv : ∀ k s', P k s' → inv s') (hstart : P 0 s)
    (hbody : ∀ k s', k < n → P k s' →
      (body k).Holds exec inv s' fun _ => P (k + 1)) :
    (Prog.upto n body).Holds exec inv s fun _ => P n := by
  induction n with
  | zero => exact ⟨hinv 0 s hstart, hstart⟩
  | succ n ih =>
      have hpre := ih fun k s' hk => hbody k s' (by omega)
      exact hpre.bind fun _ s' hs' => hbody n s' (by omega) hs'

/-- The invariant holds wherever the program is stopped. -/
theorem Prog.Holds.after {p : Prog C α} {s : σ} {post : α → σ → Prop}
    (h : p.Holds exec inv s post) (n : Nat) : inv (p.after exec n s) := by
  induction n generalizing p s with
  | zero => exact h.inv_start
  | succ n ih =>
      cases p with
      | ret value => exact h.1
      | call c next =>
          obtain ⟨_, answer, s', hexec, hrest⟩ := h
          simp only [Prog.after, hexec]
          exact ih hrest

/-- A program that keeps its invariant runs to completion. -/
theorem Prog.Holds.run {p : Prog C α} {s : σ} {post : α → σ → Prop}
    (h : p.Holds exec inv s post) :
    ∃ value s', p.run exec s = .ok (value, s') ∧ inv s' ∧ post value s' := by
  induction p generalizing s with
  | ret value => exact ⟨value, s, rfl, h.1, h.2⟩
  | call c rest ih =>
      obtain ⟨_, answer, s', hexec, hrest⟩ := h
      simp only [Prog.run, hexec]
      exact ih answer hrest

end Holds

/-- Alone and from `s`, the program returns `value` in `s'`, and every command that it issues
on the way is of the kind `ok`. -/
def Prog.Finishes (exec : Handler C σ ε) (ok : ∀ β : Type, C β → Prop) :
    Prog C α → σ → α → σ → Prop
  | .ret v, s, value, s' => v = value ∧ s = s'
  | .call c next, s, value, s' =>
      ok _ c ∧ ∃ answer t, exec _ c s = .ok (answer, t) ∧
        (next answer).Finishes exec ok t value s'

section Finishes

variable {exec : Handler C σ ε} {ok : ∀ β : Type, C β → Prop}

theorem Prog.Finishes.run {p : Prog C α} {s s' : σ} {value : α}
    (h : p.Finishes exec ok s value s') : p.run exec s = .ok (value, s') := by
  induction p generalizing s with
  | ret v =>
      obtain ⟨rfl, rfl⟩ := h
      rfl
  | call c rest ih =>
      obtain ⟨-, answer, t, hexec, hrest⟩ := h
      rw [Prog.run, hexec]
      exact ih answer hrest

theorem Prog.Finishes.bind {p : Prog C α} {next : α → Prog C β} {s t s' : σ} {value : α}
    {result : β} (h : p.Finishes exec ok s value t)
    (hnext : (next value).Finishes exec ok t result s') :
    (p >>= next).Finishes exec ok s result s' := by
  induction p generalizing s with
  | ret v =>
      obtain ⟨rfl, rfl⟩ := h
      exact hnext
  | call c rest ih =>
      obtain ⟨hok, answer, t', hexec, hrest⟩ := h
      exact ⟨hok, answer, t', hexec, ih answer hrest⟩

theorem Prog.Finishes.pure (value : α) (s : σ) :
    (Pure.pure value : Prog C α).Finishes exec ok s value s := ⟨rfl, rfl⟩

theorem Prog.Finishes.cmd {c : C γ} {s s' : σ} {answer : γ} (hok : ok _ c)
    (hexec : exec _ c s = .ok (answer, s')) :
    (Prog.cmd c).Finishes exec ok s answer s' := ⟨hok, answer, s', hexec, rfl, rfl⟩

end Finishes

end Program
