/-
Log space reservation.  begin_op reserves MAXOPBLOCKS slots per operation
against LOGSIZE, but log_write refuses the slot nlog - 1, which on an image
made by mkfs is one less.
-/
import Xv6.Log.GroupInv

namespace Xv6.Log

open Program Transition Tally

/-- The log of a file system made by mkfs: `sb.nlog = LOGSIZE`, the header
block included. -/
def mkfsRegion : Region := ⟨2, LOGSIZE⟩

/-- An operation logs at most MAXOPBLOCKS distinct blocks. -/
def WithinBudget (s : Sys) (a : Nat × Act) : Prop :=
  ∀ op logged b, s.phase a.1 = .inOp op logged → a.2 = .write b →
    b ∉ logged → logged.length < MAXOPBLOCKS

/-- An operation is admitted only when its reservation leaves the last slot
that log_write accepts unused. -/
def LeavesSlot (r : Region) (s : Sys) (a : Nat × Act) : Prop :=
  s.phase a.1 = .start → a.2 = .acquire → s.committing = false →
    s.dev.lh.n + (s.outstanding + 1) * MAXOPBLOCKS ≤ LOGSIZE →
    s.dev.lh.n + (s.outstanding + 1) * MAXOPBLOCKS ≤ (r.size : Int) - 2

/-- How many more distinct blocks an operation may log. -/
def Phase.budget : Phase → Nat
  | .inOp _ logged => MAXOPBLOCKS - logged.length
  | _ => 0

theorem Phase.budget_le (ph : Phase) : ph.budget ≤ MAXOPBLOCKS * ph.weight := by
  cases ph <;> simp [Phase.budget, Phase.weight, Phase.isOp]

/-- The blocks listed and the budgets still open fit in the log. -/
def Fits (r : Region) (s : Sys) : Prop :=
  ∃ k : Nat, HasTally (fun p => (s.phase p).budget) k ∧
    s.dev.lh.n + k ≤ (r.size : Int) - 2

/-- Process `p` gets a phase with budget `v`; all others keep theirs. -/
theorem Fits.set {r : Region} {s s' : Sys} {p : Nat} (h : Fits r s)
    (hothers : ∀ q, q ≠ p → (s'.phase q).budget = (s.phase q).budget)
    (hn : s'.dev.lh.n + (s'.phase p).budget ≤ s.dev.lh.n + (s.phase p).budget) :
    Fits r s' := by
  obtain ⟨k, htally, hk⟩ := h
  have hle : (s.phase p).budget ≤ k := htally.le p
  refine ⟨k - (s.phase p).budget + (s'.phase p).budget,
    htally.update (i := p) hothers ?_, ?_⟩ <;> omega

theorem budget_setPhase_of_ne (s : Sys) {p q : Nat} (ph : Phase) (hq : q ≠ p) :
    ((s.setPhase p ph).phase q).budget = (s.phase q).budget := by
  rw [phase_setPhase_of_ne s ph hq]

theorem budget_wakeup (s : Sys) (p : Nat) :
    (s.wakeup.phase p).budget = (s.phase p).budget := by
  by_cases hp : s.phase p = .sleeping
  · simp [Sys.wakeup, hp, Phase.budget]
  · simp [Sys.wakeup, hp]

theorem Fits.beginOp {r : Region} {s : Sys} {p : Nat} (h : Fits r s) (hinv : Inv s)
    (hp : s.phase p = .start) (hslot : LeavesSlot r s (p, .acquire)) :
    Fits r (beginOp s p) := by
  have hsleep : Fits r (s.setPhase p .sleeping) :=
    h.set (fun q hq => budget_setPhase_of_ne s _ hq) (by
      simp [Sys.setPhase, hp, Phase.budget])
  unfold Log.beginOp
  split
  · exact hsleep
  split
  · exact hsleep
  · next hcommitting hroom =>
      have hreserve := hslot hp rfl (by simpa using hcommitting) (by omega)
      obtain ⟨k, htally, hk⟩ := h
      obtain ⟨m, hactive, hm⟩ := hinv.active
      have hbound : k ≤ MAXOPBLOCKS * m :=
        htally.le_mul hactive fun q => Phase.budget_le _
      refine ⟨k + MAXOPBLOCKS, htally.update (i := p) ?_ ?_, ?_⟩
      · exact fun q hq => budget_setPhase_of_ne _ _ hq
      · simp [Sys.setPhase, hp, Phase.budget]
      · simp only [Sys.setPhase, MAXOPBLOCKS] at hreserve hbound ⊢
        omega

/-- A block that an operation has logged before is listed, so that logging it
again is absorbed. -/
theorem Inv.logged_listed {s : Sys} (h : Inv s) {p op : Nat} {logged : List UInt32}
    (hp : s.phase p = .inOp op logged) {b : UInt32} (hb : b ∈ logged) :
    b ∈ s.dev.lh.listed := by
  obtain ⟨e, he, heop, rfl⟩ := h.recorded p op logged hp b hb
  have htxn := h.current p op logged hp e he heop
  exact (h.pending e he (by omega)).2

theorem n_addBlock_le {lh : LogHeader} (hn : 0 ≤ lh.n) (b : UInt32) :
    (addBlock lh b).n ≤ lh.n + 1 := by
  by_cases hb : b ∈ lh.listed
  · rw [addBlock_of_mem hb]
    omega
  · rw [n_addBlock_of_not_mem hn hb]

theorem Fits.logWrite {r : Region} {s s' : Sys} {p op : Nat} {logged : List UInt32}
    {b : UInt32} (h : Fits r s) (hinv : Inv s) (hp : s.phase p = .inOp op logged)
    (hbudget : WithinBudget s (p, .write b))
    (hstep : logWrite r s p op logged b = .ok s') : Fits r s' := by
  unfold Log.logWrite at hstep
  split at hstep
  · cases hstep
  split at hstep
  · cases hstep
  simp only [Except.ok.injEq] at hstep
  subst hstep
  apply h.set (p := p)
  · exact fun q hq => budget_setPhase_of_ne _ _ hq
  · by_cases hb : b ∈ logged
    · have habsorbed := addBlock_of_mem (hinv.logged_listed hp hb)
      simp [Sys.setPhase, hp, hb, habsorbed]
    · have hroom := hbudget op logged b hp rfl hb
      have hle := n_addBlock_le hinv.nonneg b
      simp only [Sys.setPhase, Function.update_self, hb, ↓reduceIte, hp, Phase.budget,
        List.length_cons]
      omega

theorem Fits.endOp {r : Region} {s s' : Sys} {p op : Nat} {logged : List UInt32}
    (h : Fits r s) (hp : s.phase p = .inOp op logged)
    (hstep : endOp s p = .ok s') : Fits r s' := by
  unfold Log.endOp at hstep
  simp only at hstep
  split at hstep
  · cases hstep
  split at hstep <;>
    (simp only [Except.ok.injEq] at hstep; subst hstep; apply h.set (p := p))
  · exact fun q hq => budget_setPhase_of_ne _ _ hq
  · simp [Sys.setPhase, hp, Phase.budget]
  · intro q hq
    rw [budget_setPhase_of_ne _ _ hq, budget_wakeup]
  · simp [Sys.setPhase, Sys.wakeup, hp, Phase.budget]

theorem Fits.commitStep {r : Region} {s : Sys} {p : Nat} {stage : Stage}
    (h : Fits r s) (hinv : Inv s) (hp : s.phase p = .commit stage) :
    Fits r (commitStep r s p stage) := by
  have hn := hinv.nonneg
  cases stage with
  | writeLog =>
      simp only [Log.commitStep]
      split <;> refine h.set (fun q hq => budget_setPhase_of_ne _ _ hq) ?_
      · simp [Sys.setPhase, lh_runDev_writeLog, Phase.budget]
      · simp [Sys.setPhase, Phase.budget]
  | writeHead =>
      refine h.set (p := p) (fun q hq => budget_setPhase_of_ne _ _ hq) ?_
      simp [Log.commitStep, Sys.setPhase, lh_runDev_writeHead, Phase.budget]
  | install =>
      refine h.set (p := p) (fun q hq => budget_setPhase_of_ne _ _ hq) ?_
      simp [Log.commitStep, Sys.setPhase, lh_runDev_installTrans, Phase.budget]
  | clear =>
      refine h.set (p := p) (fun q hq => budget_setPhase_of_ne _ _ hq) ?_
      simp [Log.commitStep, Sys.setPhase, lh_runDev_clearHead, Phase.budget, hp, hn]
  | erase =>
      refine h.set (p := p) (fun q hq => budget_setPhase_of_ne _ _ hq) ?_
      simp [Log.commitStep, Sys.setPhase, lh_runDev_writeHead, Phase.budget]
  | finish =>
      refine h.set (p := p) (fun q hq => ?_) ?_
      · exact (budget_setPhase_of_ne _ _ hq).trans (budget_wakeup _ q)
      · simp [Log.commitStep, Sys.setPhase, Sys.wakeup, Phase.budget]

theorem Fits.step {r : Region} {s s' : Sys} {a : Nat × Act} (h : Fits r s)
    (hinv : Inv s) (hbudget : WithinBudget s a) (hslot : LeavesSlot r s a)
    (hstep : step r s a = some (.ok s')) : Fits r s' := by
  obtain ⟨p, act⟩ := a
  unfold Log.step at hstep
  simp only at hstep
  split at hstep
  · next hp =>
      simp only [Option.some.injEq, Except.ok.injEq] at hstep
      subst hstep
      exact h.set (fun q hq => budget_setPhase_of_ne s _ hq) (by
        simp [Sys.setPhase, Phase.budget])
  · next hp =>
      simp only [Option.some.injEq, Except.ok.injEq] at hstep
      subst hstep
      exact h.beginOp hinv hp hslot
  · next hp =>
      simp only [Option.some.injEq] at hstep
      exact h.logWrite hinv hp hbudget hstep
  · next hp =>
      simp only [Option.some.injEq] at hstep
      exact h.endOp hp hstep
  · next hp =>
      simp only [Option.some.injEq, Except.ok.injEq] at hstep
      subst hstep
      exact h.commitStep hinv hp
  · cases hstep

/-- Where every admitted operation leaves the last slot free, log_write never
finds the log full. -/
theorem log_write_fits {s : Sys}
    (h : Runs mkfsRegion
      (fun s a => WithinBudget s a ∧ LeavesSlot mkfsRegion s a) s)
    (p : Nat) (b : UInt32) :
    step mkfsRegion s (p, .write b) ≠ some (.error "too big a transaction") := by
  have hboth : Inv s ∧ Fits mkfsRegion s := by
    refine Reach.invariant (I := fun s => Inv s ∧ Fits mkfsRegion s) ?_ ?_ h
    · intro s hs
      refine ⟨Inv.init hs, 0, HasTally.zero fun p => ?_, ?_⟩
      · simp [hs.phase, Phase.budget]
      · rw [hs.n]
        decide
    · intro s a s' hallowed hstep hinv
      exact ⟨hinv.1.step hstep, hinv.2.step hinv.1 hallowed.1 hallowed.2 hstep⟩
  obtain ⟨_, k, _, hk⟩ := hboth
  have hsize : (mkfsRegion.size : Int) = 30 := rfl
  have hlogsize : (LOGSIZE : Int) = 30 := rfl
  intro hstep
  unfold step at hstep
  split at hstep <;> simp only [Option.some.injEq, reduceCtorEq] at hstep
  · unfold logWrite at hstep
    rw [if_neg (by omega)] at hstep
    split at hstep <;> simp at hstep
  · simp_all

namespace ReservationWitness

instance (s : Sys) (a : Nat × Act) : Decidable (LeavesSlot mkfsRegion s a) := by
  unfold LeavesSlot; infer_instance

/-- The budget condition as a test. -/
def withinBudget (s : Sys) (a : Nat × Act) : Bool :=
  match s.phase a.1, a.2 with
  | .inOp _ logged, .write b => b ∈ logged || logged.length < MAXOPBLOCKS
  | _, _ => true

theorem withinBudget_sound {s : Sys} {a : Nat × Act} (h : withinBudget s a = true) :
    WithinBudget s a := by
  intro op logged b hp ha hb
  simp only [withinBudget, hp, ha, hb, decide_false, Bool.false_or,
    decide_eq_true_eq] at h
  exact h

/-- Process `p` logs the `n` blocks after block `46 + 10 * p`. -/
def writes (p n : Nat) : List (Nat × Act) :=
  (List.range n).map fun i => (p, .write (UInt32.ofNat (46 + 10 * p + i)))

/-- Three operations are admitted together and use up their reservations, but
for the last block of the third. -/
def acts : List (Nat × Act) :=
  [(0, .call), (1, .call), (2, .call), (0, .acquire), (1, .acquire), (2, .acquire)] ++
    writes 0 10 ++ writes 1 10 ++ writes 2 9

/-- begin_op admits three operations of MAXOPBLOCKS blocks each, and the
thirtieth block makes log_write panic. -/
theorem log_write_too_big :
    ¬ ∀ s, Runs mkfsRegion WithinBudget s → ∀ p b, WithinBudget s (p, .write b) →
      step mkfsRegion s (p, .write b) ≠ some (.error "too big a transaction") := by
  intro hclaim
  have hrun : (runAll withinBudget (step mkfsRegion) GroupWitness.sys acts).map
      (fun s => (withinBudget s (2, .write 75), s.phase 2, s.dev.lh.n)) =
      some (true, .inOp 2 [74, 73, 72, 71, 70, 69, 68, 67, 66], 29) := by
    decide +kernel
  obtain ⟨s, hs, hstate⟩ := Option.map_eq_some_iff.mp hrun
  simp only [Prod.mk.injEq] at hstate
  obtain ⟨hbudget, hphase, hn⟩ := hstate
  have hreach := Reach.runAll (A := WithinBudget)
    (fun _ _ => withinBudget_sound) (.start GroupWitness.sys_init) hs
  apply hclaim s hreach 2 75 (withinBudget_sound hbudget)
  simp only [step, hphase, logWrite, hn]
  rfl

/-- Two overlapping operations meet the condition, and neither is refused. -/
theorem log_write_fits_two :
    ∃ s, runAll (fun s a => withinBudget s a && decide (LeavesSlot mkfsRegion s a))
        (step mkfsRegion) GroupWitness.sys
        ([(0, .call), (1, .call), (0, .acquire), (1, .acquire)] ++ writes 0 10 ++
          writes 1 9) = some s ∧
      step mkfsRegion s (1, .write 65) ≠ some (.error "too big a transaction") := by
  have hrun : (runAll
      (fun s a => withinBudget s a && decide (LeavesSlot mkfsRegion s a))
      (step mkfsRegion) GroupWitness.sys
      ([(0, .call), (1, .call), (0, .acquire), (1, .acquire)] ++ writes 0 10 ++
        writes 1 9)).isSome = true := by
    decide +kernel
  obtain ⟨s, hs⟩ := Option.isSome_iff_exists.mp hrun
  refine ⟨s, hs, log_write_fits (Reach.runAll ?_ (.start GroupWitness.sys_init) hs)
    1 65⟩
  intro s a hok
  simp only [Bool.and_eq_true, decide_eq_true_eq] at hok
  exact ⟨withinBudget_sound hok.1, hok.2⟩

end ReservationWitness

end Xv6.Log
