/-
Runs of a system whose steps are functions: a labelled action is not enabled
(`none`), fails (`error`), or leads to one next state.
-/
import Mathlib.Logic.Basic

namespace Transition

universe u v w

variable {σ : Type u} {ι : Type v} {ε : Type w}

/-- The states reached from an initial state by enabled, successful actions
that all satisfy `allowed`. -/
inductive Reach (init : σ → Prop) (allowed : σ → ι → Prop)
    (step : σ → ι → Option (Except ε σ)) : σ → Prop
  | start {s : σ} (h : init s) : Reach init allowed step s
  | next {s s' : σ} {a : ι} (h : Reach init allowed step s) (hallowed : allowed s a)
      (hstep : step s a = some (.ok s')) : Reach init allowed step s'

variable {init : σ → Prop} {A : σ → ι → Prop}
  {step : σ → ι → Option (Except ε σ)}

/-- What holds initially and is kept by every allowed step holds throughout. -/
theorem Reach.invariant {I : σ → Prop} (hinit : ∀ s, init s → I s)
    (hstep : ∀ s a s', A s a → step s a = some (.ok s') → I s → I s')
    {s : σ} (h : Reach init A step s) : I s := by
  induction h with
  | start h => exact hinit _ h
  | next _ hallowed hs ih => exact hstep _ _ _ hallowed hs ih

/-- Take a list of actions in order, each allowed where it is taken. -/
def runAll (allowedB : σ → ι → Bool) (step : σ → ι → Option (Except ε σ)) :
    σ → List ι → Option σ
  | s, [] => some s
  | s, a :: rest =>
      if allowedB s a then
        match step s a with
        | some (.ok s') => runAll allowedB step s' rest
        | _ => none
      else none

theorem Reach.runAll {allowedB : σ → ι → Bool}
    (hallowed : ∀ s a, allowedB s a = true → A s a) {s s' : σ}
    {acts : List ι} (h : Reach init A step s)
    (hrun : Transition.runAll allowedB step s acts = some s') :
    Reach init A step s' := by
  induction acts generalizing s with
  | nil =>
      simp only [Transition.runAll, Option.some.injEq] at hrun
      exact hrun ▸ h
  | cons a rest ih =>
      simp only [Transition.runAll] at hrun
      split at hrun
      · next hok =>
          split at hrun
          · next hs => exact ih (.next h (hallowed _ _ hok) hs) hrun
          · cases hrun
      · cases hrun

/-- A run all of whose states, the first and the last included, satisfy `P`. -/
inductive Passage (step : σ → ι → Option (Except ε σ)) (P : σ → Prop) : σ → σ → Prop
  | refl {s : σ} (h : P s) : Passage step P s s
  | next {s s' s'' : σ} {a : ι} (h : Passage step P s s')
      (hstep : step s' a = some (.ok s'')) (hP : P s'') : Passage step P s s''

theorem Passage.first {P : σ → Prop} {s s' : σ} (h : Passage step P s s') : P s := by
  induction h with
  | refl h => exact h
  | next _ _ _ ih => exact ih

theorem Passage.last {P : σ → Prop} {s s' : σ} (h : Passage step P s s') : P s' := by
  cases h with
  | refl h => exact h
  | next _ _ h => exact h

theorem Passage.trans {P : σ → Prop} {s s' s'' : σ} (h : Passage step P s s')
    (h' : Passage step P s' s'') : Passage step P s s'' := by
  induction h' with
  | refl _ => exact h
  | next _ hstep hP ih => exact .next ih hstep hP

/-- What holds at the start of a run and is kept by its steps holds at its end. -/
theorem Passage.invariant {P I : σ → Prop}
    (hstep : ∀ s a s', step s a = some (.ok s') → P s → P s' → I s → I s')
    {s s' : σ} (h : Passage step P s s') (hs : I s) : I s' := by
  induction h with
  | refl _ => exact hs
  | next hpath hs' hP ih => exact hstep _ _ _ hs' hpath.last hP ih

/-- Take a list of actions in order through states that pass a test. -/
def follow (test : σ → Bool) (step : σ → ι → Option (Except ε σ)) :
    σ → List ι → Option σ
  | s, [] => if test s then some s else none
  | s, a :: rest =>
      if test s then
        match step s a with
        | some (.ok s') => follow test step s' rest
        | _ => none
      else none

theorem follow_head {test : σ → Bool} {s s' : σ} {acts : List ι}
    (h : follow test step s acts = some s') : test s = true := by
  cases acts <;> simp only [follow] at h <;> split at h <;> first | assumption | cases h

theorem Passage.follow {test : σ → Bool} {s₀ s s' : σ} {acts : List ι}
    (h : Passage step (fun s => test s = true) s₀ s)
    (hrun : Transition.follow test step s acts = some s') :
    Passage step (fun s => test s = true) s₀ s' := by
  induction acts generalizing s with
  | nil =>
      simp only [Transition.follow] at hrun
      split at hrun <;> cases hrun
      exact h
  | cons a rest ih =>
      simp only [Transition.follow] at hrun
      split at hrun
      · split at hrun
        · next hs => exact ih (.next h hs (follow_head hrun)) hrun
        · cases hrun
      · cases hrun

end Transition
