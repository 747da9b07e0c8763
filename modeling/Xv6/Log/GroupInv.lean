/-
The invariant of group commit: `outstanding` counts the processes inside an
operation, a commit excludes them, and every block logged for the transaction
at hand is still listed in the header.
-/
import Xv6.Lib.Tally
import Xv6.Log.Group

namespace Xv6.Log

open Program Transition Tally

def Phase.isOp : Phase → Bool
  | .inOp _ _ => true
  | _ => false

def Phase.weight (ph : Phase) : Nat := if ph.isOp then 1 else 0

/-- The stages after the header is on disk. -/
def Stage.settled : Stage → Bool
  | .writeLog | .writeHead => false
  | _ => true

/-- The stages after `log.lh.n = 0`. -/
def Stage.cleared : Stage → Bool
  | .erase | .finish => true
  | _ => false

structure Inv (s : Sys) : Prop where
  active : ∃ k : Nat, HasTally (fun p => (s.phase p).weight) k ∧ s.outstanding = k
  commit : ∀ p stage, s.phase p = .commit stage → s.committing = true
  alone : s.committing = true → s.outstanding = 0
  single : ∀ p q stage stage', s.phase p = .commit stage →
    s.phase q = .commit stage' → p = q
  nonneg : 0 ≤ s.dev.lh.n
  empty : s.outstanding = 0 → s.committing = false → s.dev.lh.n = 0
  cleared : ∀ p stage, s.phase p = .commit stage → stage.cleared = true →
    s.dev.lh.n = 0
  settled : ∀ p stage, s.phase p = .commit stage → stage.settled = true →
    ∀ e ∈ s.journal, e.txn < s.txns.length
  past : ∀ e ∈ s.journal, e.txn < s.txns.length →
    ∃ t, s.txns[e.txn]? = some t ∧ e.block ∈ t
  pending : ∀ e ∈ s.journal, ¬ e.txn < s.txns.length →
    e.txn = s.txns.length ∧ e.block ∈ s.dev.lh.listed
  oneTxn : ∀ e ∈ s.journal, ∀ e' ∈ s.journal, e.op = e'.op → e.txn = e'.txn
  current : ∀ p op logged, s.phase p = .inOp op logged →
    ∀ e ∈ s.journal, e.op = op → e.txn = s.txns.length
  fresh : ∀ e ∈ s.journal, e.op < s.ops
  serial : ∀ p op logged, s.phase p = .inOp op logged → op < s.ops
  recorded : ∀ p op logged, s.phase p = .inOp op logged →
    ∀ b ∈ logged, ∃ e ∈ s.journal, e.op = op ∧ e.block = b

/-! The log's programs on the device keep the in-memory header. -/

theorem runDev_of_holds {prog : LogProg Unit} {s : Dev} {I : Dev → Prop}
    (h : prog.Holds exec I s fun _ _ => True) : I (runDev prog s) := by
  obtain ⟨_, s', hrun, hinv, _⟩ := h.run
  simpa only [runDev, hrun] using hinv

/-- A loop keeps what each of its iterations keeps. -/
theorem holds_upto {I : Dev → Prop} {s : Dev} (hs : I s) (n : Nat)
    {body : Nat → LogProg Unit}
    (hbody : ∀ k s', I s' → (body k).Holds exec I s' fun _ _ => True) :
    (Prog.upto n body).Holds exec I s fun _ _ => True :=
  (Prog.Holds.upto (P := fun _ => I) (fun _ _ h => h) hs
    fun k s' _ hs' => (hbody k s' hs').and_inv.mono fun _ _ h => h.1).mono
    fun _ _ _ => trivial

section

variable (r : Region) (s : Dev)

theorem lh_runDev_writeLog : (runDev (writeLog r) s).lh = s.lh := by
  apply runDev_of_holds (I := fun s' => s'.lh = s.lh)
  refine Prog.Holds.cmd_bind rfl rfl ?_
  refine holds_upto (I := fun s' => s'.lh = s.lh) rfl _ fun k s' hs' => ?_
  refine Prog.Holds.cmd_bind hs' rfl ?_
  refine Prog.Holds.cmd_bind hs' rfl ?_
  exact Prog.Holds.cmd hs' rfl hs' trivial

theorem lh_runDev_writeHead : (runDev (writeHead r) s).lh = s.lh := rfl

theorem lh_runDev_clearHead : (runDev clearHead s).lh = { s.lh with n := 0 } := rfl

theorem lh_runDev_installTrans (recovering : Bool) :
    (runDev (installTrans r recovering) s).lh = s.lh := by
  apply runDev_of_holds (I := fun s' => s'.lh = s.lh)
  refine Prog.Holds.cmd_bind rfl rfl ?_
  refine holds_upto (I := fun s' => s'.lh = s.lh) rfl _ fun k s' hs' => ?_
  refine Prog.Holds.cmd_bind hs' rfl ?_
  refine Prog.Holds.cmd_bind hs' rfl ?_
  refine Prog.Holds.cmd_bind hs' rfl ?_
  cases recovering with
  | true => exact Prog.Holds.pure hs' trivial
  | false => exact Prog.Holds.cmd hs' rfl hs' trivial

end

/-! log_write and absorption. -/

theorem mem_listed {lh : LogHeader} {b : UInt32} :
    b ∈ lh.listed ↔ ∃ i < lh.n.toNat, lh.block i = b := by
  simp [LogHeader.listed]

/-- A block that is listed already is absorbed: the header stays as it is. -/
theorem addBlock_of_mem {lh : LogHeader} {b : UInt32} (hb : b ∈ lh.listed) :
    addBlock lh b = lh := by
  obtain ⟨j, hj, hblock⟩ := mem_listed.mp hb
  obtain ⟨i, hfind⟩ : ∃ i,
      (List.range lh.n.toNat).find? (fun i => lh.block i = b) = some i := by
    rw [← Option.isSome_iff_exists, List.find?_isSome]
    exact ⟨j, List.mem_range.mpr hj, by simpa using hblock⟩
  have hi : i < lh.n.toNat := List.mem_range.mp (List.mem_of_find?_eq_some hfind)
  have hib : lh.block i = b := by simpa using List.find?_some hfind
  have hne : (i : Int) ≠ lh.n := by omega
  have habsorb : absorb lh b = i := by simp [absorb, hfind]
  simp only [addBlock, habsorb, hne, ↓reduceIte]
  rw [← hib, Function.update_eq_self]

theorem absorb_of_not_mem {lh : LogHeader} {b : UInt32} (hb : b ∉ lh.listed) :
    absorb lh b = lh.n.toNat := by
  have hnone : (List.range lh.n.toNat).find? (fun i => lh.block i = b) = none := by
    rw [List.find?_eq_none]
    intro i hi
    have := fun heq => hb (mem_listed.mpr ⟨i, List.mem_range.mp hi, heq⟩)
    simpa using this
  simp [absorb, hnone]

theorem n_addBlock_of_not_mem {lh : LogHeader} {b : UInt32} (hn : 0 ≤ lh.n)
    (hb : b ∉ lh.listed) : (addBlock lh b).n = lh.n + 1 := by
  simp [addBlock, absorb_of_not_mem hb, Int.toNat_of_nonneg hn]

/-- log_write appends a new block to the list. -/
theorem listed_addBlock_of_not_mem {lh : LogHeader} {b : UInt32} (hn : 0 ≤ lh.n)
    (hb : b ∉ lh.listed) : (addBlock lh b).listed = lh.listed ++ [b] := by
  have hcount : (lh.n + 1).toNat = lh.n.toNat + 1 := by omega
  rw [LogHeader.listed, n_addBlock_of_not_mem hn hb, hcount, List.range_succ,
    List.map_append]
  congr 1
  · apply List.map_congr_left
    intro i hi
    have hne : i ≠ lh.n.toNat := (List.mem_range.mp hi).ne
    simp [addBlock, absorb_of_not_mem hb, Function.update_of_ne hne]
  · simp [addBlock, absorb_of_not_mem hb]

theorem mem_listed_addBlock {lh : LogHeader} {b x : UInt32} (hn : 0 ≤ lh.n) :
    x ∈ (addBlock lh b).listed ↔ x ∈ lh.listed ∨ x = b := by
  by_cases hb : b ∈ lh.listed
  · rw [addBlock_of_mem hb]
    exact ⟨Or.inl, fun h => h.elim id fun heq => heq ▸ hb⟩
  · rw [listed_addBlock_of_not_mem hn hb]
    simp

theorem addBlock_nonneg {lh : LogHeader} (hn : 0 ≤ lh.n) (b : UInt32) :
    0 ≤ (addBlock lh b).n := by
  by_cases hb : b ∈ lh.listed
  · rwa [addBlock_of_mem hb]
  · rw [n_addBlock_of_not_mem hn hb]
    omega

/-! One step at a time. -/

/-- Outside every operation and every commit. -/
def Phase.quiet : Phase → Bool
  | .inOp _ _ | .commit _ => false
  | _ => true

theorem Phase.weight_of_quiet {ph : Phase} (h : ph.quiet = true) : ph.weight = 0 := by
  cases ph <;> simp_all [Phase.quiet, Phase.weight, Phase.isOp]

@[simp] theorem phase_setPhase_self (s : Sys) (p : Nat) (ph : Phase) :
    (s.setPhase p ph).phase p = ph := by
  simp [Sys.setPhase]

theorem phase_setPhase_of_ne (s : Sys) {p q : Nat} (ph : Phase) (hq : q ≠ p) :
    (s.setPhase p ph).phase q = s.phase q := by
  simp [Sys.setPhase, Function.update_of_ne hq]

/-- Moving processes between quiet phases changes nothing the invariant sees. -/
theorem Inv.requiet {s : Sys} (h : Inv s) (phase : Nat → Phase)
    (hphase : ∀ q, phase q = s.phase q ∨
      ((s.phase q).quiet = true ∧ (phase q).quiet = true)) :
    Inv { s with phase := phase } := by
  have hkeep : ∀ q, (phase q).quiet = false → s.phase q = phase q := by
    intro q hq
    rcases hphase q with heq | ⟨_, hquiet⟩
    · exact heq.symm
    · simp [hq] at hquiet
  have hop : ∀ q op logged, phase q = .inOp op logged → s.phase q = .inOp op logged :=
    fun q op logged hq => hq ▸ hkeep q (by rw [hq]; rfl)
  have hcommit : ∀ q stage, phase q = .commit stage → s.phase q = .commit stage :=
    fun q stage hq => hq ▸ hkeep q (by rw [hq]; rfl)
  obtain ⟨k, htally, hk⟩ := h.active
  refine { h with
    active := ⟨k, htally.congr fun q => ?_, hk⟩
    commit := fun p stage hp => h.commit p stage (hcommit p stage hp)
    single := fun p q stage stage' hp hq =>
      h.single p q stage stage' (hcommit p stage hp) (hcommit q stage' hq)
    cleared := fun p stage hp => h.cleared p stage (hcommit p stage hp)
    settled := fun p stage hp => h.settled p stage (hcommit p stage hp)
    current := fun p op logged hp => h.current p op logged (hop p op logged hp)
    serial := fun p op logged hp => h.serial p op logged (hop p op logged hp)
    recorded := fun p op logged hp => h.recorded p op logged (hop p op logged hp) }
  rcases hphase q with heq | ⟨hold, hnew⟩
  · simp [heq]
  · rw [Phase.weight_of_quiet hold, Phase.weight_of_quiet hnew]

theorem Inv.quiet_setPhase {s : Sys} (h : Inv s) {p : Nat} {ph : Phase}
    (hold : (s.phase p).quiet = true) (hnew : ph.quiet = true) :
    Inv (s.setPhase p ph) := by
  apply h.requiet
  intro q
  by_cases hq : q = p
  · subst hq
    exact Or.inr ⟨hold, by simpa using hnew⟩
  · exact Or.inl (Function.update_of_ne hq _ _)

theorem Inv.wakeup {s : Sys} (h : Inv s) : Inv s.wakeup := by
  apply h.requiet
  intro q
  by_cases hq : s.phase q = .sleeping
  · right
    simp [hq, Phase.quiet]
  · left
    simp [hq]

/-- While a commit runs nobody is inside an operation. -/
theorem Inv.inOp_pos {s : Sys} (h : Inv s) {p op : Nat} {logged : List UInt32}
    (hp : s.phase p = .inOp op logged) :
    1 ≤ s.outstanding ∧ s.committing = false := by
  obtain ⟨k, htally, hk⟩ := h.active
  have hle := htally.le p
  simp only [hp, Phase.weight, Phase.isOp, ↓reduceIte] at hle
  have hpos : 1 ≤ s.outstanding := by omega
  refine ⟨hpos, ?_⟩
  cases hc : s.committing with
  | false => rfl
  | true =>
      have := h.alone hc
      omega

theorem Inv.init {s : Sys} (h : s.Init) : Inv s where
  active := ⟨0, HasTally.zero fun p => by simp [h.phase, Phase.weight, Phase.isOp],
    h.outstanding⟩
  commit p stage hp := by simp [h.phase] at hp
  alone _ := h.outstanding
  single p q stage stage' hp := by simp [h.phase] at hp
  nonneg := by rw [h.n]
  empty _ _ := h.n
  cleared p stage hp := by simp [h.phase] at hp
  settled p stage hp := by simp [h.phase] at hp
  past e he := by simp [h.journal] at he
  pending e he := by simp [h.journal] at he
  oneTxn e he := by simp [h.journal] at he
  current p op logged hp := by simp [h.phase] at hp
  fresh e he := by simp [h.journal] at he
  serial p op logged hp := by simp [h.phase] at hp
  recorded p op logged hp := by simp [h.phase] at hp

/-- A granted begin_op. -/
theorem Inv.admit {s : Sys} (h : Inv s) {p : Nat} (hp : s.phase p = .start)
    (hcommitting : s.committing = false) :
    Inv ({ s with outstanding := s.outstanding + 1, ops := s.ops + 1 }.setPhase p
      (.inOp s.ops [])) := by
  obtain ⟨k, htally, hk⟩ := h.active
  have hother : ∀ q, q ≠ p →
      (Function.update s.phase p (.inOp s.ops [])) q = s.phase q :=
    fun q hq => Function.update_of_ne hq _ _
  have hcommit : ∀ q stage, (Function.update s.phase p (.inOp s.ops [])) q =
      .commit stage → s.phase q = .commit stage := by
    intro q stage hq
    by_cases hqp : q = p
    · subst hqp
      simp at hq
    · rwa [hother q hqp] at hq
  have hnone : ∀ q stage, s.phase q ≠ .commit stage := fun q stage hq => by
    simp [h.commit q stage hq] at hcommitting
  refine { h with
    active := ⟨k + 1, ?_, by simp [hk, Sys.setPhase]⟩
    commit := fun q stage hq => h.commit q stage (hcommit q stage hq)
    alone := fun hc => by simp [Sys.setPhase, hcommitting] at hc
    single := fun q q' stage stage' hq => absurd (hcommit q stage hq) (hnone q stage)
    empty := fun hzero => ?_
    cleared := fun q stage hq => absurd (hcommit q stage hq) (hnone q stage)
    settled := fun q stage hq => absurd (hcommit q stage hq) (hnone q stage)
    current := fun q op logged hq e he heop => ?_
    fresh := fun e he => Nat.lt_succ_of_lt (h.fresh e he)
    serial := fun q op logged hq => ?_
    recorded := fun q op logged hq b hb => ?_ }
  · apply htally.update (i := p)
    · intro q hq
      simp [Sys.setPhase, hother q hq]
    · simp [hp, Phase.weight, Phase.isOp]
  · simp only [Sys.setPhase] at hzero
    omega
  · by_cases hqp : q = p
    · subst hqp
      simp only [phase_setPhase_self, Phase.inOp.injEq] at hq
      have := h.fresh e he
      omega
    · rw [phase_setPhase_of_ne _ _ hqp] at hq
      exact h.current q op logged hq e he heop
  · by_cases hqp : q = p
    · subst hqp
      simp only [phase_setPhase_self, Phase.inOp.injEq] at hq
      simp [Sys.setPhase, ← hq.1]
    · rw [phase_setPhase_of_ne _ _ hqp] at hq
      exact Nat.lt_succ_of_lt (h.serial q op logged hq)
  · by_cases hqp : q = p
    · subst hqp
      simp only [phase_setPhase_self, Phase.inOp.injEq] at hq
      simp [← hq.2] at hb
    · rw [phase_setPhase_of_ne _ _ hqp] at hq
      exact h.recorded q op logged hq b hb

theorem Inv.beginOp {s : Sys} (h : Inv s) {p : Nat} (hp : s.phase p = .start) :
    Inv (beginOp s p) := by
  have hsleep : Inv (s.setPhase p .sleeping) :=
    h.quiet_setPhase (by rw [hp]; rfl) rfl
  unfold Log.beginOp
  split
  · exact hsleep
  · next hcommitting =>
      split
      · exact hsleep
      · exact h.admit hp (by simpa using hcommitting)

/-- log_write inside an operation. -/
theorem Inv.logWrite {r : Region} {s s' : Sys} (h : Inv s) {p op : Nat}
    {logged : List UInt32} {b : UInt32} (hp : s.phase p = .inOp op logged)
    (hstep : logWrite r s p op logged b = .ok s') : Inv s' := by
  obtain ⟨hpos, hcommitting⟩ := h.inOp_pos hp
  have hnone : ∀ q stage, s.phase q ≠ .commit stage := fun q stage hq => by
    simp [h.commit q stage hq] at hcommitting
  unfold Log.logWrite at hstep
  split at hstep
  · cases hstep
  split at hstep
  · cases hstep
  simp only [Except.ok.injEq] at hstep
  subst hstep
  obtain ⟨k, htally, hk⟩ := h.active
  have hcommit : ∀ q ph stage, (Function.update s.phase p (.inOp op ph)) q =
      .commit stage → False := by
    intro q ph stage hq
    by_cases hqp : q = p
    · subst hqp
      simp at hq
    · rw [Function.update_of_ne hqp] at hq
      exact hnone q stage hq
  have hmine : ∀ e ∈ s.journal, e.op = op → e.txn = s.txns.length :=
    h.current p op logged hp
  refine { h with
    active := ⟨k, htally.update (i := p) ?_ ?_, hk⟩
    commit := fun q stage hq => (hcommit q _ stage hq).elim
    single := fun q q' stage stage' hq => (hcommit q _ stage hq).elim
    nonneg := addBlock_nonneg h.nonneg b
    empty := fun hzero => by
      simp only [Sys.setPhase] at hzero
      omega
    cleared := fun q stage hq => (hcommit q _ stage hq).elim
    settled := fun q stage hq => (hcommit q _ stage hq).elim
    past := fun e he hlt => ?_
    pending := fun e he hlt => ?_
    oneTxn := fun e he e' he' heq => ?_
    current := fun q op' logged' hq e he heop => ?_
    fresh := fun e he => ?_
    serial := fun q op' logged' hq => ?_
    recorded := fun q op' logged' hq x hx => ?_ }
  · intro q hq
    simp [Sys.setPhase, Function.update_of_ne hq]
  · simp [Sys.setPhase, hp, Phase.weight, Phase.isOp]
  · rcases List.mem_cons.mp he with rfl | he
    · exact absurd hlt (Nat.lt_irrefl _)
    · exact h.past e he hlt
  · rcases List.mem_cons.mp he with rfl | he
    · exact ⟨rfl, (mem_listed_addBlock h.nonneg).mpr (Or.inr rfl)⟩
    · obtain ⟨htxn, hlisted⟩ := h.pending e he hlt
      exact ⟨htxn, (mem_listed_addBlock h.nonneg).mpr (Or.inl hlisted)⟩
  · rcases List.mem_cons.mp he with rfl | he <;>
      rcases List.mem_cons.mp he' with rfl | he'
    · rfl
    · exact (hmine e' he' heq.symm).symm
    · exact hmine e he heq
    · exact h.oneTxn e he e' he' heq
  · rcases List.mem_cons.mp he with rfl | hold
    · rfl
    · by_cases hqp : q = p
      · subst hqp
        simp only [phase_setPhase_self, Phase.inOp.injEq] at hq
        exact hmine e hold (heop.trans hq.1.symm)
      · rw [phase_setPhase_of_ne _ _ hqp] at hq
        exact h.current q op' logged' hq e hold heop
  · rcases List.mem_cons.mp he with rfl | he
    · exact h.serial p op logged hp
    · exact h.fresh e he
  · by_cases hqp : q = p
    · subst hqp
      simp only [phase_setPhase_self, Phase.inOp.injEq] at hq
      exact hq.1 ▸ h.serial q op logged hp
    · rw [phase_setPhase_of_ne _ _ hqp] at hq
      exact h.serial q op' logged' hq
  · by_cases hqp : q = p
    · subst hqp
      simp only [phase_setPhase_self, Phase.inOp.injEq] at hq
      obtain ⟨rfl, rfl⟩ := hq
      have hcases : x = b ∨ x ∈ logged := by
        split at hx
        · exact Or.inr hx
        · exact List.mem_cons.mp hx
      rcases hcases with rfl | hold
      · exact ⟨_, List.mem_cons_self, rfl, rfl⟩
      · obtain ⟨e, he, heq⟩ := h.recorded q op logged hp x hold
        exact ⟨e, List.mem_cons_of_mem _ he, heq⟩
    · rw [phase_setPhase_of_ne _ _ hqp] at hq
      obtain ⟨e, he, heq⟩ := h.recorded q op' logged' hq x hx
      exact ⟨e, List.mem_cons_of_mem _ he, heq⟩

/-- An operation ends while others go on. -/
theorem Inv.leave {s : Sys} (h : Inv s) {p op : Nat} {logged : List UInt32}
    (hp : s.phase p = .inOp op logged) (hmore : s.outstanding - 1 ≠ 0) :
    Inv ({ s with outstanding := s.outstanding - 1 }.setPhase p .idle) := by
  obtain ⟨hpos, hcommitting⟩ := h.inOp_pos hp
  obtain ⟨k, htally, hk⟩ := h.active
  have hkeep : ∀ q ph, ph ≠ .idle →
      (Function.update s.phase p .idle) q = ph → s.phase q = ph := by
    intro q ph hne hq
    by_cases hqp : q = p
    · subst hqp
      simp only [Function.update_self] at hq
      exact absurd hq.symm hne
    · rwa [Function.update_of_ne hqp] at hq
  have hcommit := fun q stage => hkeep q (.commit stage) (by simp)
  have hop := fun q op logged => hkeep q (.inOp op logged) (by simp)
  refine { h with
    active := ⟨k - 1, htally.update (i := p) ?_ ?_, ?_⟩
    commit := fun q stage hq => h.commit q stage (hcommit q stage hq)
    alone := fun hc => by simp [Sys.setPhase, hcommitting] at hc
    single := fun q q' stage stage' hq hq' =>
      h.single q q' stage stage' (hcommit q stage hq) (hcommit q' stage' hq')
    empty := fun hzero => absurd hzero hmore
    cleared := fun q stage hq => h.cleared q stage (hcommit q stage hq)
    settled := fun q stage hq => h.settled q stage (hcommit q stage hq)
    current := fun q op logged hq => h.current q op logged (hop q op logged hq)
    serial := fun q op logged hq => h.serial q op logged (hop q op logged hq)
    recorded := fun q op logged hq => h.recorded q op logged (hop q op logged hq) }
  · intro q hq
    simp [Sys.setPhase, Function.update_of_ne hq]
  · simp only [Sys.setPhase, hp, Function.update_self, Phase.weight, Phase.isOp]
    simp only [Bool.false_eq_true, ↓reduceIte]
    omega
  · simp only [Sys.setPhase]
    omega

/-- The last operation ends and its process starts the commit. -/
theorem Inv.startCommit {s : Sys} (h : Inv s) {p op : Nat} {logged : List UInt32}
    (hp : s.phase p = .inOp op logged) (hlast : s.outstanding - 1 = 0) :
    Inv ({ s with outstanding := s.outstanding - 1, committing := true }.setPhase p
      (.commit .writeLog)) := by
  obtain ⟨hpos, hcommitting⟩ := h.inOp_pos hp
  obtain ⟨k, htally, hk⟩ := h.active
  have hnone : ∀ q stage, s.phase q ≠ .commit stage := fun q stage hq => by
    simp [h.commit q stage hq] at hcommitting
  have hcommit : ∀ q stage, (Function.update s.phase p (.commit .writeLog)) q =
      .commit stage → q = p ∧ stage = .writeLog := by
    intro q stage hq
    by_cases hqp : q = p
    · subst hqp
      simp only [Function.update_self, Phase.commit.injEq] at hq
      exact ⟨rfl, hq.symm⟩
    · rw [Function.update_of_ne hqp] at hq
      exact absurd hq (hnone q stage)
  have hop : ∀ q op logged, (Function.update s.phase p (.commit .writeLog)) q =
      .inOp op logged → s.phase q = .inOp op logged := by
    intro q op logged hq
    by_cases hqp : q = p
    · subst hqp
      simp at hq
    · rwa [Function.update_of_ne hqp] at hq
  refine { h with
    active := ⟨0, htally.update (i := p) ?_ ?_, hlast⟩
    commit := fun q stage hq => rfl
    alone := fun _ => hlast
    single := fun q q' stage stage' hq hq' =>
      (hcommit q stage hq).1.trans (hcommit q' stage' hq').1.symm
    empty := fun _ hc => by simp [Sys.setPhase] at hc
    cleared := fun q stage hq hstage => by
      rw [(hcommit q stage hq).2] at hstage
      cases hstage
    settled := fun q stage hq hstage => by
      rw [(hcommit q stage hq).2] at hstage
      cases hstage
    current := fun q op logged hq => h.current q op logged (hop q op logged hq)
    serial := fun q op logged hq => h.serial q op logged (hop q op logged hq)
    recorded := fun q op logged hq => h.recorded q op logged (hop q op logged hq) }
  · intro q hq
    simp [Sys.setPhase, Function.update_of_ne hq]
  · simp only [Sys.setPhase, hp, Function.update_self, Phase.weight, Phase.isOp]
    simp only [Bool.false_eq_true, ↓reduceIte]
    omega

theorem Inv.endOp {s s' : Sys} (h : Inv s) {p op : Nat} {logged : List UInt32}
    (hp : s.phase p = .inOp op logged) (hstep : endOp s p = .ok s') : Inv s' := by
  unfold Log.endOp at hstep
  simp only at hstep
  split at hstep
  · cases hstep
  split at hstep
  · next hlast =>
      simp only [Except.ok.injEq] at hstep
      subst hstep
      exact h.startCommit hp hlast
  · next hmore =>
      simp only [Except.ok.injEq] at hstep
      subst hstep
      -- wakeup commutes with leaving: `p` itself was not asleep
      have hleft := (h.leave hp hmore).wakeup
      apply hleft.requiet
      intro q
      left
      by_cases hqp : q = p
      · subst hqp
        simp [Sys.setPhase, Sys.wakeup]
      · simp [Sys.setPhase, Sys.wakeup, Function.update_of_ne hqp]

/-! The stages of a commit.  Only the committing process moves, and it moves
from one stage to a later one. -/

/-- A committing process goes on to another stage; `lh` may have been cleared
and the transaction recorded, as the stages require. -/
theorem Inv.nextStage {s : Sys} (h : Inv s) {p : Nat} {stage stage' : Stage}
    (hp : s.phase p = .commit stage) {dev : Dev} {txns : List (List UInt32)}
    (hnonneg : 0 ≤ dev.lh.n) (hcleared : stage'.cleared = true → dev.lh.n = 0)
    (hsettled : stage'.settled = true → ∀ e ∈ s.journal, e.txn < txns.length)
    (hpast : ∀ e ∈ s.journal, e.txn < txns.length →
      ∃ t, txns[e.txn]? = some t ∧ e.block ∈ t)
    (hpending : ∀ e ∈ s.journal, ¬ e.txn < txns.length →
      e.txn = txns.length ∧ e.block ∈ dev.lh.listed) :
    Inv ({ s with dev := dev, txns := txns }.setPhase p (.commit stage')) := by
  have hc := h.commit p stage hp
  obtain ⟨k, htally, hk⟩ := h.active
  have hcommit : ∀ q st, (Function.update s.phase p (.commit stage')) q =
      .commit st → q = p ∧ st = stage' := by
    intro q st hq
    by_cases hqp : q = p
    · subst hqp
      simp only [Function.update_self, Phase.commit.injEq] at hq
      exact ⟨rfl, hq.symm⟩
    · rw [Function.update_of_ne hqp] at hq
      exact absurd (h.single q p st stage hq hp) hqp
  have hop : ∀ q op logged, (Function.update s.phase p (.commit stage')) q ≠
      .inOp op logged := by
    intro q op logged hq
    by_cases hqp : q = p
    · subst hqp
      simp at hq
    · rw [Function.update_of_ne hqp] at hq
      have := (h.inOp_pos hq).2
      simp [hc] at this
  refine { h with
    active := ⟨k, htally.update (i := p) ?_ ?_, hk⟩
    commit := fun q st hq => hc
    single := fun q q' st st' hq hq' =>
      (hcommit q st hq).1.trans (hcommit q' st' hq').1.symm
    nonneg := hnonneg
    empty := fun _ hnot => by simp [Sys.setPhase, hc] at hnot
    cleared := fun q st hq hst => hcleared ((hcommit q st hq).2 ▸ hst)
    settled := fun q st hq hst => hsettled ((hcommit q st hq).2 ▸ hst)
    past := hpast
    pending := hpending
    current := fun q op logged hq => absurd hq (hop q op logged)
    serial := fun q op logged hq => absurd hq (hop q op logged)
    recorded := fun q op logged hq => absurd hq (hop q op logged) }
  · intro q hq
    simp [Sys.setPhase, Function.update_of_ne hq]
  · simp [Sys.setPhase, hp, Phase.weight, Phase.isOp]

/-- The end of end_op after its commit. -/
theorem Inv.finish {s : Sys} (h : Inv s) {p : Nat}
    (hp : s.phase p = .commit .finish) :
    Inv ({ s with committing := false }.setPhase p .idle) := by
  have hc := h.commit p _ hp
  obtain ⟨k, htally, hk⟩ := h.active
  have hnone : ∀ q ph, ph.quiet = false →
      (Function.update s.phase p .idle) q ≠ ph := by
    intro q ph hph hq
    by_cases hqp : q = p
    · subst hqp
      simp only [Function.update_self] at hq
      simp [← hq, Phase.quiet] at hph
    · rw [Function.update_of_ne hqp] at hq
      cases ph with
      | inOp op logged =>
          have := (h.inOp_pos hq).2
          simp [hc] at this
      | commit st => exact hqp (h.single q p st _ hq hp)
      | _ => simp [Phase.quiet] at hph
  have hop := fun q op logged => hnone q (.inOp op logged) rfl
  have hcommit := fun q st => hnone q (.commit st) rfl
  refine { h with
    active := ⟨k, htally.update (i := p) ?_ ?_, hk⟩
    commit := fun q st hq => absurd hq (hcommit q st)
    alone := fun _ => h.alone hc
    single := fun q q' st st' hq => absurd hq (hcommit q st)
    empty := fun _ _ => h.cleared p _ hp rfl
    cleared := fun q st hq => absurd hq (hcommit q st)
    settled := fun q st hq => absurd hq (hcommit q st)
    current := fun q op logged hq => absurd hq (hop q op logged)
    serial := fun q op logged hq => absurd hq (hop q op logged)
    recorded := fun q op logged hq => absurd hq (hop q op logged) }
  · intro q hq
    simp [Sys.setPhase, Function.update_of_ne hq]
  · simp [Sys.setPhase, hp, Phase.weight, Phase.isOp]

theorem Inv.commitStep {s : Sys} (h : Inv s) (r : Region) {p : Nat} {stage : Stage}
    (hp : s.phase p = .commit stage) : Inv (commitStep r s p stage) := by
  cases stage with
  | writeLog =>
      simp only [Log.commitStep]
      split
      · apply h.nextStage hp
        · rw [lh_runDev_writeLog]
          exact h.nonneg
        · intro hst
          cases hst
        · intro hst
          cases hst
        · exact h.past
        · rw [lh_runDev_writeLog]
          exact h.pending
      · next hn =>
          have hzero : s.dev.lh.n = 0 := by
            have := h.nonneg
            omega
          refine h.nextStage hp h.nonneg (fun _ => hzero) ?_ h.past h.pending
          intro _ e he
          by_contra hlt
          have := (h.pending e he hlt).2
          simp [LogHeader.listed, hzero] at this
  | writeHead =>
      have hlen : (s.txns ++ [s.dev.lh.listed]).length = s.txns.length + 1 := by simp
      have hall : ∀ e ∈ s.journal, e.txn < s.txns.length + 1 := by
        intro e he
        by_cases hlt : e.txn < s.txns.length
        · omega
        · have := (h.pending e he hlt).1
          omega
      refine h.nextStage hp ?_ ?_ ?_ ?_ ?_
      · exact h.nonneg
      · intro hst
        cases hst
      · intro _
        rw [hlen]
        exact hall
      · intro e he _
        by_cases hlt : e.txn < s.txns.length
        · rw [List.getElem?_append_left hlt]
          exact h.past e he hlt
        · obtain ⟨htxn, hblock⟩ := h.pending e he hlt
          exact ⟨s.dev.lh.listed, by simp [htxn], hblock⟩
      · intro e he hlt
        rw [hlen] at hlt
        exact absurd (hall e he) hlt
  | install =>
      refine h.nextStage hp ?_ (fun hst => by cases hst)
        (fun _ => h.settled p _ hp rfl) h.past ?_
      · rw [lh_runDev_installTrans]
        exact h.nonneg
      · rw [lh_runDev_installTrans]
        exact h.pending
  | clear =>
      have hall := h.settled p _ hp rfl
      refine h.nextStage hp (Int.le_refl 0) (fun _ => rfl) (fun _ => hall) h.past ?_
      intro e he hlt
      exact absurd (hall e he) hlt
  | erase =>
      exact h.nextStage hp h.nonneg (fun _ => h.cleared p _ hp rfl)
        (fun _ => h.settled p _ hp rfl) h.past h.pending
  | finish =>
      have hdone := (h.finish hp).wakeup
      apply hdone.requiet
      intro q
      left
      by_cases hqp : q = p
      · subst hqp
        simp [Sys.setPhase, Sys.wakeup]
      · simp [Sys.setPhase, Sys.wakeup, Function.update_of_ne hqp]

/-- Every step keeps the invariant. -/
theorem Inv.step {r : Region} {s s' : Sys} {a : Nat × Act} (h : Inv s)
    (hstep : step r s a = some (.ok s')) : Inv s' := by
  obtain ⟨p, act⟩ := a
  unfold Log.step at hstep
  simp only at hstep
  split at hstep
  · next hp =>
      simp only [Option.some.injEq, Except.ok.injEq] at hstep
      subst hstep
      exact h.quiet_setPhase (by rw [hp]; rfl) rfl
  · next hp =>
      simp only [Option.some.injEq, Except.ok.injEq] at hstep
      subst hstep
      exact h.beginOp hp
  · next hp =>
      simp only [Option.some.injEq] at hstep
      exact h.logWrite hp hstep
  · next hp =>
      simp only [Option.some.injEq] at hstep
      exact h.endOp hp hstep
  · next hp =>
      simp only [Option.some.injEq, Except.ok.injEq] at hstep
      subst hstep
      exact h.commitStep r hp
  · cases hstep

theorem Runs.inv {r : Region} {allowed : Sys → Nat × Act → Prop} {s : Sys}
    (h : Runs r allowed s) : Inv s :=
  h.invariant (fun _ => Inv.init) fun _ _ _ _ hstep hinv => hinv.step hstep

/-- Inside an operation the two sanity checks of the log never fire. -/
theorem Inv.step_error {r : Region} {s : Sys} {a : Nat × Act} {msg : String}
    (h : Inv s) (hstep : Log.step r s a = some (.error msg)) :
    msg = "too big a transaction" := by
  obtain ⟨p, act⟩ := a
  unfold Log.step at hstep
  simp only at hstep
  split at hstep <;> simp only [Option.some.injEq, reduceCtorEq] at hstep
  · next hp =>
      have hpos := (h.inOp_pos hp).1
      unfold Log.logWrite at hstep
      split at hstep
      · simpa using hstep.symm
      · rw [if_neg (by omega)] at hstep
        cases hstep
  · next hp =>
      have hcommitting := (h.inOp_pos hp).2
      simp only [Log.endOp, hcommitting, Bool.false_eq_true, ↓reduceIte] at hstep
      split at hstep <;> cases hstep

/-- File-system operations are committed whole.  In every reachable state a
commit runs only with `committing` set and no operation outstanding; while it
is set nobody can log a block or get past begin_op; the two panics that guard
this are unreachable; all blocks that one operation logs go into one
transaction, which lists them when it commits; and once the log is at rest
every logged block has been committed. -/
theorem operations_commit_whole {r : Region} {s : Sys}
    (h : Runs r (fun _ _ => True) s) :
    (∀ p stage, s.phase p = .commit stage →
      s.outstanding = 0 ∧ s.committing = true) ∧
    (s.committing = true → ∀ p, (∀ b, step r s (p, .write b) = none) ∧
      ∀ s', step r s (p, .acquire) = some (.ok s') →
        s'.phase p = .sleeping ∧ s'.outstanding = s.outstanding) ∧
    (∀ a msg, step r s a = some (.error msg) →
      msg ≠ "log.committing" ∧ msg ≠ "log_write outside of trans") ∧
    (∀ op, ∃ t, ∀ e ∈ s.journal, e.op = op → e.txn = t ∧
      (t < s.txns.length → ∃ txn, s.txns[t]? = some txn ∧ e.block ∈ txn)) ∧
    (s.outstanding = 0 → s.committing = false →
      ∀ e ∈ s.journal, e.txn < s.txns.length) := by
  have hinv : Inv s := Runs.inv h
  refine ⟨?_, ?_, ?_, ?_, ?_⟩
  · intro p stage hp
    have hc := hinv.commit p stage hp
    exact ⟨hinv.alone hc, hc⟩
  · intro hc p
    refine ⟨?_, ?_⟩
    · intro b
      cases hp : s.phase p with
      | inOp op logged =>
          have := (hinv.inOp_pos hp).2
          simp [hc] at this
      | _ => simp [step, hp]
    · intro s' hstep
      cases hp : s.phase p with
      | start =>
          simp only [step, hp, Option.some.injEq, Except.ok.injEq, beginOp, hc,
            ↓reduceIte] at hstep
          subst hstep
          exact ⟨phase_setPhase_self s p .sleeping, rfl⟩
      | _ => simp [step, hp] at hstep
  · intro a msg hstep
    rw [hinv.step_error hstep]
    decide
  · intro op
    by_cases hany : ∃ e ∈ s.journal, e.op = op
    · obtain ⟨e, he, heop⟩ := hany
      refine ⟨e.txn, fun e' he' heop' => ?_⟩
      have htxn := hinv.oneTxn e' he' e he (heop'.trans heop.symm)
      refine ⟨htxn, fun hlt => ?_⟩
      rw [← htxn] at hlt ⊢
      exact hinv.past e' he' hlt
    · exact ⟨0, fun e he heop => absurd ⟨e, he, heop⟩ hany⟩
  · intro hzero hidle e he
    by_contra hlt
    have hblock := (hinv.pending e he hlt).2
    simp [LogHeader.listed, hinv.empty hzero hidle] at hblock

namespace GroupWitness

/-- A system at rest on an empty log. -/
def sys : Sys :=
  { outstanding := 0, committing := false, dev := boot ⟨fun _ _ => 0, []⟩
    phase := fun _ => .idle, ops := 0, journal := [], txns := [] }

theorem sys_init : sys.Init :=
  ⟨rfl, rfl, rfl, fun _ => rfl, rfl, rfl⟩

/-- Two overlapping operations, each logging one block, and their commit. -/
def acts : List (Nat × Act) :=
  [(0, .call), (1, .call), (0, .acquire), (1, .acquire), (0, .write 46),
    (0, .endOp), (1, .write 47), (1, .endOp), (1, .commit), (1, .commit)]

/-- Both operations end up in the one transaction that commits. -/
theorem operations_commit_whole_overlapping :
    ∃ s, runAll (fun _ _ => true) (step ⟨2, 30⟩) sys acts = some s ∧
      s.txns = [[46, 47]] ∧
      ∀ op, ∃ t, ∀ e ∈ s.journal, e.op = op → e.txn = t ∧
        (t < s.txns.length → ∃ txn, s.txns[t]? = some txn ∧ e.block ∈ txn) := by
  have hrun : (runAll (fun _ _ => true) (step ⟨2, 30⟩) sys acts).map Sys.txns =
      some [[46, 47]] := by decide +kernel
  obtain ⟨s, hs, htxns⟩ := Option.map_eq_some_iff.mp hrun
  have hreach := Reach.runAll (A := fun _ _ => True) (fun _ _ _ => trivial)
    (.start sys_init) hs
  exact ⟨s, hs, htxns, (operations_commit_whole hreach).2.2.2.1⟩

end GroupWitness

end Xv6.Log
