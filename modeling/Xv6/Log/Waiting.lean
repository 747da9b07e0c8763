/-
Sleepers in begin_op.  A process that sleeps on `&log` has found a commit in progress or too
little space, and whoever changes that wakes it up in the same critical section.
-/
import Xv6.Log.GroupInv

namespace Xv6.Log

open Transition

variable {r : Region} {s s' : Sys} {p : Nat}

/-- begin_op would find too little space for one more operation. -/
def Sys.Crowded (s : Sys) : Prop :=
  s.dev.lh.n + (s.outstanding + 1) * MAXOPBLOCKS > LOGSIZE

/-- Every process asleep on `&log` has a reason. -/
def Waits (s : Sys) : Prop :=
  ∀ p, s.phase p = .sleeping → s.committing = true ∨ s.Crowded

theorem sleeping_wakeup (s : Sys) (p : Nat) : s.wakeup.phase p ≠ .sleeping := by
  simp only [Sys.wakeup]
  split
  · intro h
    cases h
  · assumption

/-- A process other than `p` that sleeps was asleep before. -/
theorem sleeping_setPhase {ph : Phase} (hph : ph ≠ .sleeping) {q : Nat}
    (h : (s.setPhase p ph).phase q = .sleeping) : s.phase q = .sleeping := by
  by_cases hq : q = p
  · rw [hq, phase_setPhase_self] at h
    exact absurd h hph
  · rwa [phase_setPhase_of_ne s ph hq] at h

/-- A step of `p` that puts nobody to sleep, ends no commit and frees no space. -/
theorem Waits.keep {ph : Phase} (h : Waits s) (hphase : s'.phase = s.phase)
    (hph : ph ≠ .sleeping) (hcommit : s.committing = true → s'.committing = true)
    (hspace : s.Crowded → s'.committing = true ∨ s'.Crowded) : Waits (s'.setPhase p ph) := by
  intro q hq
  have hsleep := sleeping_setPhase hph hq
  rw [hphase] at hsleep
  exact (h q hsleep).elim (fun hc => .inl (hcommit hc)) hspace

/-- A step of `p` after a wakeup leaves no sleeper. -/
theorem waits_of_wakeup {ph : Phase} (hph : ph ≠ .sleeping) :
    Waits (s.wakeup.setPhase p ph) := by
  intro q hq
  exact absurd (sleeping_setPhase hph hq) (sleeping_wakeup s q)

/-- More blocks or more operations do not make space. -/
theorem Sys.Crowded.mono (h : s.Crowded) (hn : s.dev.lh.n ≤ s'.dev.lh.n)
    (hout : s.outstanding ≤ s'.outstanding) : s'.Crowded := by
  unfold Sys.Crowded at h ⊢
  have hops : (MAXOPBLOCKS : Int) = 10 := rfl
  rw [hops] at h ⊢
  omega

theorem Waits.beginOp (h : Waits s) : Waits (beginOp s p) := by
  have hsleep : s.committing = true ∨ s.Crowded → Waits (s.setPhase p .sleeping) := by
    intro hreason q hq
    by_cases hqp : q = p
    · exact hreason
    · rw [phase_setPhase_of_ne s _ hqp] at hq
      exact h q hq
  unfold Log.beginOp
  split
  · next hc => exact hsleep (.inl hc)
  split
  · next hcrowded => exact hsleep (.inr hcrowded)
  · refine h.keep rfl nofun id fun hcrowded => .inr (hcrowded.mono (le_refl _) ?_)
    exact Int.le_add_of_nonneg_right (by decide)

theorem n_le_addBlock (lh : LogHeader) (b : UInt32) : lh.n ≤ (addBlock lh b).n := by
  simp only [addBlock]
  split <;> omega

theorem Waits.logWrite {op : Nat} {logged : List UInt32} {b : UInt32} (h : Waits s)
    (hok : logWrite r s p op logged b = .ok s') : Waits s' := by
  unfold Log.logWrite at hok
  split at hok
  · cases hok
  split at hok
  · cases hok
  obtain rfl := Except.ok.inj hok
  exact h.keep rfl nofun id fun hcrowded =>
    .inr (hcrowded.mono (n_le_addBlock _ _) (le_refl _))

theorem Waits.endOp (h : Waits s) (hok : endOp s p = .ok s') : Waits s' := by
  simp only [Log.endOp] at hok
  split at hok
  · cases hok
  split at hok
  · obtain rfl := Except.ok.inj hok
    exact h.keep rfl (by simp) (fun _ => rfl) fun _ => .inl rfl
  · obtain rfl := Except.ok.inj hok
    exact waits_of_wakeup (by simp)

theorem Waits.commitStep {stage : Stage} (h : Waits s) (hc : s.committing = true) :
    Waits (commitStep r s p stage) := by
  have hkeep : ∀ (s' : Sys) (stage' : Stage), s'.committing = true →
      s'.phase = s.phase → Waits (s'.setPhase p (.commit stage')) := by
    intro s' stage' hc' hphase
    exact h.keep hphase (by simp) (fun _ => hc') fun _ => .inl hc'
  cases stage with
  | writeLog =>
      rw [Log.commitStep]
      split
      · exact hkeep _ _ hc rfl
      · exact hkeep _ _ hc rfl
  | writeHead | install | clear | erase => exact hkeep _ _ hc rfl
  | finish => exact waits_of_wakeup (by simp)

theorem Waits.step {a : Nat × Act} (h : Waits s) (hinv : Inv s)
    (hstep : step r s a = some (.ok s')) : Waits s' := by
  obtain ⟨p, act⟩ := a
  unfold Log.step at hstep
  split at hstep
  · obtain rfl := Except.ok.inj (Option.some.inj hstep)
    exact h.keep rfl nofun id .inr
  · obtain rfl := Except.ok.inj (Option.some.inj hstep)
    exact h.beginOp
  · exact h.logWrite (Option.some.inj hstep)
  · exact h.endOp (Option.some.inj hstep)
  · next stage hp _ =>
      obtain rfl := Except.ok.inj (Option.some.inj hstep)
      exact h.commitStep (hinv.commit p stage hp)
  · cases hstep

/-- No process waits for log space that is available: in every interleaving of begin_op,
log_write and end_op, and whenever log.lock is free, a process asleep on `&log` finds a commit in
progress or too little space for its operation. -/
theorem sleeper_has_reason (h : Runs r (fun _ _ => True) s) (hp : s.phase p = .sleeping) :
    s.committing = true ∨ s.dev.lh.n + (s.outstanding + 1) * MAXOPBLOCKS > LOGSIZE := by
  have hboth : Inv s ∧ Waits s := by
    refine Reach.invariant (I := fun s => Inv s ∧ Waits s) ?_ ?_ h
    · intro s hs
      refine ⟨Inv.init hs, fun p hp => ?_⟩
      rw [hs.phase] at hp
      cases hp
    · intro s a s' _ hstep hinv
      exact ⟨hinv.1.step hstep, hinv.2.step hinv.1 hstep⟩
  exact hboth.2 p hp

namespace WaitingWitness

/-- Three operations fill the log, and a fourth has to wait. -/
def acts : List (Nat × Act) :=
  [(0, .call), (1, .call), (2, .call), (3, .call), (0, .acquire), (1, .acquire), (2, .acquire),
    (3, .acquire)]

theorem sleeper_has_reason_fourth :
    ∃ s, runAll (fun _ _ => true) (step ⟨2, 30⟩) GroupWitness.sys acts = some s ∧
      s.phase 3 = .sleeping ∧
      (s.committing = true ∨ s.dev.lh.n + (s.outstanding + 1) * MAXOPBLOCKS > LOGSIZE) := by
  have hrun : (runAll (fun _ _ => true) (step ⟨2, 30⟩) GroupWitness.sys acts).map
      (fun s => s.phase 3) = some .sleeping := by decide +kernel
  obtain ⟨s, hs, hphase⟩ := Option.map_eq_some_iff.mp hrun
  have hreach := Reach.runAll (A := fun _ _ => True) (fun _ _ _ => trivial)
    (.start GroupWitness.sys_init) hs
  exact ⟨s, hs, hphase, sleeper_has_reason hreach hphase⟩

end WaitingWitness

end Xv6.Log
