/-
Where processes run.  The invariant says which CPU holds which lock, which process
is on which CPU, and that a process off the CPUs has a complete saved context.
-/
import Xv6.Sched.Effect
import Xv6.Sched.Machine

namespace Xv6.Sched

variable {κ δ ι : Type}

/-- The states of a process that has left its CPU, or is about to. -/
def ProcState.idle : ProcState → Bool
  | .SLEEPING | .RUNNABLE | .ZOMBIE => true
  | _ => false

/-- A thread that a CPU can go on with when it holds `p->lock` and nothing else. -/
def Thread.Saved (i : Nat) (t : Thread κ) : Prop :=
  t.parked = false ∧ t.resumes = true ∧ ∀ l, t.Needs i l → l = .proc i

theorem Thread.needs_of_parked {i : Nat} {t : Thread κ} (h : t.parked = true) :
    t.Needs i (.proc i) := by
  obtain ⟨y, p, r⟩ := t
  cases y with
  | swtch => exact .inl (by simp [Yield.locks])
  | idle | acquire | ready | release =>
      right
      simp only [Thread.parked, Bool.or_eq_true, beq_iff_eq, reduceCtorEq, false_or] at h
      rcases p with o | ⟨c, back⟩
      · cases o <;> simp_all [Pos.parked, Op.parked, Pos.Needs, Op.locks]
      · cases c <;> simp_all [Pos.parked, Sub.parked, Pos.Needs, Sub.locks]

/-- What holds of a CPU in each mode. -/
def CpuOk (slots : Nat → Slot) (threads : Nat → Thread κ) (m : Cpu) : Prop :=
  match m.mode with
  | .scan _ => m.proc = none ∧ m.held = []
  | .test j | .unlock j => m.proc = none ∧ m.held = [.proc j]
  | .enter i => m.proc = some i ∧ m.held = [.proc i] ∧ (slots i).state = .RUNNING ∧
      (threads i).Saved i
  | .run i => m.proc = some i ∧ (∀ l, (threads i).Needs i l → l ∈ m.held) ∧
      if (threads i).parked then (slots i).state.idle = true
      else (slots i).state = .RUNNING
  | .leave i | .back i => m.proc = some i ∧ m.held = [.proc i] ∧
      (slots i).state.idle = true ∧ (threads i).Saved i

structure Placed (s : Machine κ δ) : Prop where
  owner : ∀ l c, s.lock l = some c ↔ l ∈ (s.cpus c).held
  nodup : ∀ c, (s.cpus c).held.Nodup
  wf : ∀ i, (s.threads i).Wf i
  cpu : ∀ c, CpuOk s.slots s.threads (s.cpus c)
  single : ∀ c c' i, (s.cpus c).proc = some i → (s.cpus c').proc = some i → c = c'
  running : ∀ i, (s.slots i).state = .RUNNING → ∃ c, (s.cpus c).proc = some i
  saved : ∀ i, (∀ c, (s.cpus c).proc ≠ some i) → (s.slots i).state.idle = true →
    (s.threads i).Saved i
  child : ∀ i np b, (s.threads i).pos.child = some (np, b) →
    (s.slots np).state = .USED ∧ (b = true → (s.threads np).Saved np)
  children : ∀ i i' np b b', (s.threads i).pos.child = some (np, b) →
    (s.threads i').pos.child = some (np, b') → i = i'

section cpu

variable {slots slots' : Nat → Slot} {threads threads' : Nat → Thread κ} {m : Cpu} {i : Nat}

theorem CpuOk.mode_of_proc (h : CpuOk slots threads m) (hi : m.proc = some i) :
    m.mode = .enter i ∨ m.mode = .run i ∨ m.mode = .leave i ∨ m.mode = .back i := by
  obtain ⟨proc, mode, held⟩ := m
  subst hi
  cases mode <;> simp_all [CpuOk]

/-- A process that is on a CPU and not RUNNING has its lock held there. -/
theorem CpuOk.held_of_proc (h : CpuOk slots threads m) (hi : m.proc = some i)
    (hstate : (slots i).state ≠ .RUNNING) :
    .proc i ∈ m.held ∧ (slots i).state.idle = true := by
  rcases h.mode_of_proc hi with hm | hm | hm | hm <;> simp only [CpuOk, hm] at h
  · exact absurd h.2.2.1 hstate
  · obtain ⟨-, hneeds, hpark⟩ := h
    split at hpark
    · next hp => exact ⟨hneeds _ (Thread.needs_of_parked hp), hpark⟩
    · exact absurd hpark hstate
  · exact ⟨by rw [h.2.1]; exact List.mem_singleton.mpr rfl, h.2.2.1⟩
  · exact ⟨by rw [h.2.1]; exact List.mem_singleton.mpr rfl, h.2.2.1⟩

/-- The facts about a CPU depend only on its process. -/
theorem CpuOk.congr (h : CpuOk slots threads m)
    (heq : ∀ i, m.proc = some i →
      (slots' i).state = (slots i).state ∧ threads' i = threads i) :
    CpuOk slots' threads' m := by
  obtain ⟨proc, mode, held⟩ := m
  cases mode with
  | scan j | test j | unlock j => exact h
  | enter i | run i | leave i | back i =>
      obtain ⟨hs, ht⟩ := heq i h.1
      simp only [CpuOk, hs, ht]
      exact h

end cpu

namespace Placed

variable {s : Machine κ δ} {c i j : Nat} {l : Lock}

theorem state_of_run (h : Placed s) (hm : (s.cpus c).mode = .run i)
    (hpark : (s.threads i).parked = false) : (s.slots i).state = .RUNNING := by
  have hcpu := h.cpu c
  simp only [CpuOk, hm, hpark] at hcpu
  exact hcpu.2.2

theorem held_of_needs (h : Placed s) (hm : (s.cpus c).mode = .run i)
    (hl : (s.threads i).Needs i l) : l ∈ (s.cpus c).held := by
  have hcpu := h.cpu c
  simp only [CpuOk, hm] at hcpu
  exact hcpu.2.1 l hl

theorem proc_of_run (h : Placed s) (hm : (s.cpus c).mode = .run i) :
    (s.cpus c).proc = some i := by
  have hcpu := h.cpu c
  simp only [CpuOk, hm] at hcpu
  exact hcpu.1

/-- Only one CPU is at a process. -/
theorem eq_of_proc (h : Placed s) (hm : (s.cpus c).mode = .run i) {c' : Nat}
    (hc' : (s.cpus c').proc = some i) : c' = c :=
  h.single _ _ i hc' (h.proc_of_run hm)

theorem off_of_used (h : Placed s) (hused : (s.slots j).state = .USED) (d : Nat) :
    (s.cpus d).proc ≠ some j := by
  intro hd
  have hidle := ((h.cpu d).held_of_proc hd (by rw [hused]; simp)).2
  rw [hused] at hidle
  cases hidle

/-- A running process is not being created. -/
theorem not_child (h : Placed s) (hm : (s.cpus c).mode = .run i) (i' : Nat) (b : Bool) :
    (s.threads i').pos.child ≠ some (i, b) := by
  intro hchild
  exact h.off_of_used (h.child _ _ _ hchild).1 c (h.proc_of_run hm)

/-- Holding the lock of a process that is not RUNNING, a CPU that does not have it
knows that no CPU has it. -/
theorem off (h : Placed s) (hj : .proc j ∈ (s.cpus c).held)
    (hstate : (s.slots j).state ≠ .RUNNING) (hc : (s.cpus c).proc ≠ some j) (c' : Nat) :
    (s.cpus c').proc ≠ some j := by
  intro hc'
  have hheld := ((h.cpu c').held_of_proc hc' hstate).1
  have hown := (h.owner (.proc j) c).mpr hj
  rw [(h.owner (.proc j) c').mpr hheld, Option.some.injEq] at hown
  exact hc (hown ▸ hc')

/-- A CPU goes on with the same process and the same locks. -/
theorem setCpu (h : Placed s) {m : Cpu} (hproc : m.proc = (s.cpus c).proc)
    (hheld : m.held = (s.cpus c).held) (hok : CpuOk s.slots s.threads m) :
    Placed (s.setCpu c m) := by
  have hp : ∀ d, ((s.setCpu c m).cpus d).proc = (s.cpus d).proc := by
    intro d
    by_cases hd : d = c <;> simp [Machine.setCpu, hd, hproc]
  have hh : ∀ d, ((s.setCpu c m).cpus d).held = (s.cpus d).held := by
    intro d
    by_cases hd : d = c <;> simp [Machine.setCpu, hd, hheld]
  refine { h with owner := ?_, nodup := ?_, cpu := ?_, single := ?_, running := ?_, saved := ?_ }
  · exact fun k d => by rw [hh]; exact h.owner k d
  · exact fun d => by rw [hh]; exact h.nodup d
  · intro d
    by_cases hd : d = c
    · subst hd
      simpa [Machine.setCpu] using hok
    · simpa [Machine.setCpu, hd] using h.cpu d
  · exact fun d d' k hd hd' => h.single d d' k (by rwa [← hp]) (by rwa [← hp])
  · intro k hk
    obtain ⟨d, hd⟩ := h.running k hk
    exact ⟨d, by rwa [hp]⟩
  · exact fun k hk hidle => h.saved k (fun d => by rw [← hp]; exact hk d) hidle

/-- A running thread, or the scheduler at a slot, takes a lock. -/
theorem take (h : Placed s) {m : Cpu} (hl : l ∉ (s.cpus c).held) (hfree : s.lock l = none)
    (hproc : m.proc = (s.cpus c).proc) (hheld : m.held = l :: (s.cpus c).held)
    (hok : CpuOk s.slots s.threads m) :
    Placed ((s.take c l).setCpu c m) := by
  have hp : ∀ d, (((s.take c l).setCpu c m).cpus d).proc = (s.cpus d).proc := by
    intro d
    by_cases hd : d = c <;> simp [Machine.take, Machine.setCpu, hd, hproc]
  refine { h with owner := ?_, nodup := ?_, cpu := ?_, single := ?_, running := ?_, saved := ?_ }
  · intro k d
    by_cases hd : d = c
    · subst hd
      by_cases hk : k = l
      · simp [Machine.take, Machine.setCpu, hk, hheld]
      · simpa [Machine.take, Machine.setCpu, hk, hheld] using h.owner k d
    · by_cases hk : k = l
      · subst hk
        have hnot : k ∉ (s.cpus d).held := by
          intro hmem
          rw [(h.owner k d).mpr hmem] at hfree
          cases hfree
        simp [Machine.take, Machine.setCpu, hd, hnot, Ne.symm hd]
      · simpa [Machine.take, Machine.setCpu, hk, hd] using h.owner k d
  · intro d
    by_cases hd : d = c
    · subst hd
      simpa [Machine.setCpu, hheld] using ⟨hl, h.nodup d⟩
    · simpa [Machine.take, Machine.setCpu, hd] using h.nodup d
  · intro d
    by_cases hd : d = c
    · subst hd
      simpa [Machine.take, Machine.setCpu] using hok
    · simpa [Machine.take, Machine.setCpu, hd] using h.cpu d
  · exact fun d d' k hd hd' => h.single d d' k (by rwa [← hp]) (by rwa [← hp])
  · intro k hk
    obtain ⟨d, hd⟩ := h.running k hk
    exact ⟨d, by rwa [hp]⟩
  · exact fun k hk hidle => h.saved k (fun d => by rw [← hp]; exact hk d) hidle

/-- A running thread, or the scheduler at a slot, lets go of a lock. -/
theorem drop (h : Placed s) {m : Cpu} (hl : l ∈ (s.cpus c).held)
    (hproc : m.proc = (s.cpus c).proc) (hheld : m.held = (s.cpus c).held.erase l)
    (hok : CpuOk s.slots s.threads m) : Placed ((s.drop c l).setCpu c m) := by
  have hp : ∀ d, (((s.drop c l).setCpu c m).cpus d).proc = (s.cpus d).proc := by
    intro d
    by_cases hd : d = c <;> simp [Machine.drop, Machine.setCpu, hd, hproc]
  have hown := (h.owner l c).mpr hl
  refine { h with owner := ?_, nodup := ?_, cpu := ?_, single := ?_, running := ?_, saved := ?_ }
  · intro k d
    by_cases hd : d = c
    · subst hd
      by_cases hk : k = l
      · subst hk
        simp [Machine.drop, Machine.setCpu, hheld, (h.nodup d).mem_erase_iff]
      · simpa [Machine.drop, Machine.setCpu, hk, hheld, (h.nodup d).mem_erase_iff] using
          h.owner k d
    · by_cases hk : k = l
      · subst hk
        have hnot : k ∉ (s.cpus d).held := by
          intro hmem
          rw [(h.owner k d).mpr hmem, Option.some.injEq] at hown
          exact hd hown
        simp [Machine.drop, Machine.setCpu, hd, hnot]
      · simpa [Machine.drop, Machine.setCpu, hk, hd] using h.owner k d
  · intro d
    by_cases hd : d = c
    · subst hd
      simpa [Machine.setCpu, hheld] using (h.nodup d).erase l
    · simpa [Machine.drop, Machine.setCpu, hd] using h.nodup d
  · intro d
    by_cases hd : d = c
    · subst hd
      simpa [Machine.drop, Machine.setCpu] using hok
    · simpa [Machine.drop, Machine.setCpu, hd] using h.cpu d
  · exact fun d d' k hd hd' => h.single d d' k (by rwa [← hp]) (by rwa [← hp])
  · intro k hk
    obtain ⟨d, hd⟩ := h.running k hk
    exact ⟨d, by rwa [hp]⟩
  · exact fun k hk hidle => h.saved k (fun d => by rw [← hp]; exact hk d) hidle

/-- The running thread moves on. -/
theorem setThread (h : Placed s) (hm : (s.cpus c).mode = .run i) {t : Thread κ}
    (hwf : t.Wf i) (hneeds : ∀ k, t.Needs i k → k ∈ (s.cpus c).held)
    (hkeeps : (s.threads i).Keeps t) : Placed (s.setThread i t) := by
  have hchild : ∀ k, ((s.setThread i t).threads k).pos.child = (s.threads k).pos.child := by
    intro k
    by_cases hk : k = i
    · subst hk
      simpa [Machine.setThread] using hkeeps.2
    · simp [Machine.setThread, hk]
  refine { h with wf := ?_, cpu := ?_, saved := ?_, child := ?_, children := ?_ }
  · intro k
    by_cases hk : k = i
    · subst hk
      simpa [Machine.setThread] using hwf
    · simpa [Machine.setThread, hk] using h.wf k
  · intro d
    by_cases hd : d = c
    · subst hd
      have hcpu := h.cpu d
      simp only [CpuOk, hm] at hcpu
      simp only [CpuOk, Machine.setThread, hm, Function.update_self, hkeeps.1]
      exact ⟨hcpu.1, hneeds, hcpu.2.2⟩
    · apply (h.cpu d).congr
      intro k hk
      have hki : k ≠ i := by
        rintro rfl
        exact hd (h.eq_of_proc hm hk)
      simp [Machine.setThread, hki]
  · intro k hk hidle
    have hki : k ≠ i := by
      rintro rfl
      exact hk c (h.proc_of_run hm)
    simpa [Machine.setThread, hki] using h.saved k hk hidle
  · intro k np b hb
    rw [hchild] at hb
    have hne : np ≠ i := by
      rintro rfl
      exact h.not_child hm _ _ hb
    simpa [Machine.setThread, hne] using h.child k np b hb
  · intro k k' np b b' hb hb'
    rw [hchild] at hb hb'
    exact h.children _ _ _ _ _ hb hb'

/-- An assignment that keeps the state of a process. -/
theorem setSlot_same (h : Placed s) {p : Slot} (hp : p.state = (s.slots j).state) :
    Placed (s.setSlot j p) := by
  have hstate : ∀ k, ((s.setSlot j p).slots k).state = (s.slots k).state := by
    intro k
    by_cases hk : k = j
    · subst hk
      simpa [Machine.setSlot] using hp
    · simp [Machine.setSlot, hk]
  refine { h with cpu := ?_, running := ?_, saved := ?_, child := ?_ }
  · exact fun d => (h.cpu d).congr fun k _ => ⟨hstate k, rfl⟩
  · exact fun k hk => h.running k (by rwa [← hstate])
  · exact fun k hk hidle => h.saved k hk (by rwa [← hstate])
  · intro k np b hb
    rw [hstate]
    exact h.child k np b hb

/-- An assignment to the state of a process that is on no CPU. -/
theorem setSlot (h : Placed s) {p : Slot} (hoff : ∀ d, (s.cpus d).proc ≠ some j)
    (hp : p.state ≠ .RUNNING) (hsaved : p.state.idle = true → (s.threads j).Saved j)
    (hchild : ∀ k b, (s.threads k).pos.child = some (j, b) → p.state = .USED) :
    Placed (s.setSlot j p) := by
  refine { h with cpu := ?_, running := ?_, saved := ?_, child := ?_ }
  · intro d
    apply (h.cpu d).congr
    intro k hk
    have hkj : k ≠ j := by
      rintro rfl
      exact hoff d hk
    simp [Machine.setSlot, hkj]
  · intro k hk
    by_cases hkj : k = j
    · subst hkj
      exact absurd (by simpa [Machine.setSlot] using hk) hp
    · exact h.running k (by simpa [Machine.setSlot, hkj] using hk)
  · intro k hk hidle
    by_cases hkj : k = j
    · subst hkj
      exact hsaved (by simpa [Machine.setSlot] using hidle)
    · exact h.saved k hk (by simpa [Machine.setSlot, hkj] using hidle)
  · intro k np b hb
    by_cases hnj : np = j
    · subst hnj
      refine ⟨by simpa [Machine.setSlot] using hchild k b hb, (h.child k np b hb).2⟩
    · simpa [Machine.setSlot, hnj] using h.child k np b hb

/-- The running thread changes the state of its own process on the way to swtch. -/
theorem park (h : Placed s) (hm : (s.cpus c).mode = .run i) {t : Thread κ} {p : Slot}
    (hwf : t.Wf i) (hneeds : ∀ k, t.Needs i k → k ∈ (s.cpus c).held)
    (hpark : t.parked = true) (hchild : t.pos.child = (s.threads i).pos.child)
    (hp : p.state.idle = true) : Placed ((s.setThread i t).setSlot i p) := by
  have hchildren : ∀ k, (((s.setThread i t).setSlot i p).threads k).pos.child =
      (s.threads k).pos.child := by
    intro k
    by_cases hk : k = i
    · subst hk
      simpa [Machine.setThread, Machine.setSlot] using hchild
    · simp [Machine.setThread, Machine.setSlot, hk]
  refine { h with
    wf := ?_, cpu := ?_, running := ?_, saved := ?_, child := ?_, children := ?_ }
  · intro k
    by_cases hk : k = i
    · subst hk
      simpa [Machine.setThread, Machine.setSlot] using hwf
    · simpa [Machine.setThread, Machine.setSlot, hk] using h.wf k
  · intro d
    by_cases hd : d = c
    · subst hd
      simp only [CpuOk, Machine.setThread, Machine.setSlot, hm, Function.update_self, hpark,
        if_true]
      exact ⟨h.proc_of_run hm, hneeds, hp⟩
    · apply (h.cpu d).congr
      intro k hk
      have hki : k ≠ i := by
        rintro rfl
        exact hd (h.eq_of_proc hm hk)
      simp [Machine.setThread, Machine.setSlot, hki]
  · intro k hk
    by_cases hki : k = i
    · subst hki
      exact ⟨c, h.proc_of_run hm⟩
    · exact h.running k (by simpa [Machine.setThread, Machine.setSlot, hki] using hk)
  · intro k hk hidle
    have hki : k ≠ i := by
      rintro rfl
      exact hk c (h.proc_of_run hm)
    have hs := h.saved k hk (by simpa [Machine.setThread, Machine.setSlot, hki] using hidle)
    simpa [Machine.setThread, Machine.setSlot, hki] using hs
  · intro k np b hb
    rw [hchildren] at hb
    have hne : np ≠ i := by
      rintro rfl
      exact h.not_child hm _ _ hb
    simpa [Machine.setThread, Machine.setSlot, hne] using h.child k np b hb
  · intro k k' np b b' hb hb'
    rw [hchildren] at hb hb'
    exact h.children _ _ _ _ _ hb hb'

/-- The running thread saves its context. -/
theorem leave (h : Placed s) (hm : (s.cpus c).mode = .run i) {t : Thread κ}
    (hwf : t.Wf i) (hheld : (s.cpus c).held = [.proc i])
    (hneeds : ∀ k, t.Needs i k → k ∈ (s.cpus c).held)
    (hpark : (s.threads i).parked = true) (hpark' : t.parked = false)
    (hresumes : t.resumes = true) (hchild : t.pos.child = (s.threads i).pos.child) :
    Placed ((s.setThread i t).setMode c (.leave i)) := by
  have hidle : (s.slots i).state.idle = true := by
    have hcpu := h.cpu c
    simp only [CpuOk, hm, hpark, if_true] at hcpu
    exact hcpu.2.2
  have hsaved : t.Saved i := by
    refine ⟨hpark', hresumes, fun l hl => ?_⟩
    have hmem := hneeds l hl
    rwa [hheld, List.mem_singleton] at hmem
  have hp : ∀ d, (((s.setThread i t).setMode c (.leave i)).cpus d).proc =
      (s.cpus d).proc := by
    intro d
    by_cases hd : d = c <;> simp [Machine.setThread, Machine.setMode, Machine.setCpu, hd]
  have hh : ∀ d, (((s.setThread i t).setMode c (.leave i)).cpus d).held =
      (s.cpus d).held := by
    intro d
    by_cases hd : d = c <;> simp [Machine.setThread, Machine.setMode, Machine.setCpu, hd]
  have hchildren : ∀ k, (((s.setThread i t).setMode c (.leave i)).threads k).pos.child =
      (s.threads k).pos.child := by
    intro k
    by_cases hk : k = i
    · subst hk
      simpa [Machine.setThread, Machine.setMode, Machine.setCpu] using hchild
    · simp [Machine.setThread, Machine.setMode, Machine.setCpu, hk]
  constructor
  case owner => exact fun k d => by rw [hh]; exact h.owner k d
  case nodup => exact fun d => by rw [hh]; exact h.nodup d
  case wf =>
    intro k
    by_cases hk : k = i
    · subst hk
      simpa [Machine.setThread, Machine.setMode, Machine.setCpu] using hwf
    · simpa [Machine.setThread, Machine.setMode, Machine.setCpu, hk] using h.wf k
  case cpu =>
    intro d
    by_cases hd : d = c
    · subst hd
      simp only [CpuOk, Machine.setThread, Machine.setMode, Machine.setCpu,
        Function.update_self]
      exact ⟨h.proc_of_run hm, hheld, hidle, hsaved⟩
    · have hcpu : ((s.setThread i t).setMode c (.leave i)).cpus d = s.cpus d := by
        simp [Machine.setThread, Machine.setMode, Machine.setCpu, hd]
      rw [hcpu]
      apply (h.cpu d).congr
      intro k hk
      have hki : k ≠ i := by
        rintro rfl
        exact hd (h.eq_of_proc hm hk)
      simp [Machine.setThread, Machine.setMode, Machine.setCpu, hki]
  case single => exact fun d d' k hd hd' => h.single d d' k (by rwa [← hp]) (by rwa [← hp])
  case running =>
    intro k hk
    obtain ⟨d, hd⟩ := h.running k hk
    exact ⟨d, by rwa [hp]⟩
  case saved =>
    intro k hk hst
    by_cases hki : k = i
    · subst hki
      simpa [Machine.setThread, Machine.setMode, Machine.setCpu] using hsaved
    · have hs := h.saved k (fun d => by rw [← hp]; exact hk d) hst
      simpa [Machine.setThread, Machine.setMode, Machine.setCpu, hki] using hs
  case child =>
    intro k np b hb
    rw [hchildren] at hb
    have hne : np ≠ i := by
      rintro rfl
      exact h.not_child hm _ _ hb
    simpa [Machine.setThread, Machine.setMode, Machine.setCpu, hne] using h.child k np b hb
  case children =>
    intro k k' np b b' hb hb'
    rw [hchildren] at hb hb'
    exact h.children _ _ _ _ _ hb hb'

/-- fork gives a process its next state, or wait frees one. -/
theorem birth (h : Placed s) (hm : (s.cpus c).mode = .run i) {t : Thread κ} {p : Slot}
    (hwf : t.Wf i) (hneeds : ∀ k, t.Needs i k → k ∈ (s.cpus c).held)
    (hpark : t.parked = (s.threads i).parked) (hoff : ∀ d, (s.cpus d).proc ≠ some j)
    (hp : p.state ≠ .RUNNING) (hsaved : p.state.idle = true → (s.threads j).Saved j)
    (hother : ∀ k b, k ≠ i → (s.threads k).pos.child ≠ some (j, b))
    (hchild : t.pos.child = none ∨ t.pos.child = some (j, false) ∧ p.state = .USED) :
    Placed ((s.setThread i t).setSlot j p) := by
  have hji : j ≠ i := by
    rintro rfl
    exact hoff c (h.proc_of_run hm)
  refine { h with
    wf := ?_, cpu := ?_, running := ?_, saved := ?_, child := ?_, children := ?_ }
  · intro k
    by_cases hk : k = i
    · subst hk
      simpa [Machine.setThread, Machine.setSlot] using hwf
    · simpa [Machine.setThread, Machine.setSlot, hk] using h.wf k
  · intro d
    by_cases hd : d = c
    · subst hd
      have hcpu := h.cpu d
      simp only [CpuOk, hm] at hcpu
      simp only [CpuOk, Machine.setThread, Machine.setSlot, hm, Function.update_self, hpark,
        Function.update_of_ne hji.symm]
      exact ⟨hcpu.1, hneeds, hcpu.2.2⟩
    · apply (h.cpu d).congr
      intro k hk
      have hki : k ≠ i := by
        rintro rfl
        exact hd (h.eq_of_proc hm hk)
      have hkj : k ≠ j := by
        rintro rfl
        exact hoff d hk
      simp [Machine.setThread, Machine.setSlot, hki, hkj]
  · intro k hk
    by_cases hkj : k = j
    · subst hkj
      exact absurd (by simpa [Machine.setThread, Machine.setSlot] using hk) hp
    · exact h.running k (by simpa [Machine.setThread, Machine.setSlot, hkj] using hk)
  · intro k hk hidle
    have hki : k ≠ i := by
      rintro rfl
      exact hk c (h.proc_of_run hm)
    by_cases hkj : k = j
    · subst hkj
      have hs := hsaved (by simpa [Machine.setThread, Machine.setSlot] using hidle)
      simpa [Machine.setThread, Machine.setSlot, hki] using hs
    · have hs := h.saved k hk
        (by simpa [Machine.setThread, Machine.setSlot, hkj] using hidle)
      simpa [Machine.setThread, Machine.setSlot, hki] using hs
  · intro k np b hb
    by_cases hki : k = i
    · subst hki
      have hb' : t.pos.child = some (np, b) := by
        simpa [Machine.setThread, Machine.setSlot] using hb
      rcases hchild with hnone | ⟨hsome, hused⟩
      · rw [hnone] at hb'
        cases hb'
      · rw [hsome] at hb'
        cases hb'
        exact ⟨by simpa [Machine.setThread, Machine.setSlot] using hused, by simp⟩
    · have hb' : (s.threads k).pos.child = some (np, b) := by
        simpa [Machine.setThread, Machine.setSlot, hki] using hb
      have hnj : np ≠ j := by
        rintro rfl
        exact hother k b hki hb'
      have hni : np ≠ i := by
        rintro rfl
        exact h.not_child hm _ _ hb'
      simpa [Machine.setThread, Machine.setSlot, hnj, hni] using h.child k np b hb'
  · have hmine : ∀ np b, t.pos.child = some (np, b) → np = j := by
      intro np b hb
      rcases hchild with hnone | ⟨hsome, -⟩
      · rw [hnone] at hb
        cases hb
      · rw [hsome] at hb
        cases hb
        rfl
    intro k k' np b b' hb hb'
    by_cases hki : k = i <;> by_cases hki' : k' = i
    · rw [hki, hki']
    · subst hki
      have heq := hmine np b (by simpa [Machine.setThread, Machine.setSlot] using hb)
      subst heq
      exact absurd (by simpa [Machine.setThread, Machine.setSlot, hki'] using hb')
        (hother k' b' hki')
    · subst hki'
      have heq := hmine np b' (by simpa [Machine.setThread, Machine.setSlot] using hb')
      subst heq
      exact absurd (by simpa [Machine.setThread, Machine.setSlot, hki] using hb)
        (hother k b hki)
    · exact h.children k k' np b b'
        (by simpa [Machine.setThread, Machine.setSlot, hki] using hb)
        (by simpa [Machine.setThread, Machine.setSlot, hki'] using hb')

/-- fork sets up the context of the process that it creates. -/
theorem spawn (h : Placed s) (hm : (s.cpus c).mode = .run i) {t : Thread κ} {k₀ : κ}
    (hwf : t.Wf i) (hneeds : ∀ k, t.Needs i k → k ∈ (s.cpus c).held)
    (hpark : t.parked = (s.threads i).parked)
    (hold : (s.threads i).pos.child = some (j, false))
    (hnew : t.pos.child = some (j, true)) :
    Placed ((s.setThread i t).setThread j { pos := .op (.forkret k₀) }) := by
  have hused := (h.child i j false hold).1
  have hoff := h.off_of_used hused
  have hji : j ≠ i := by
    rintro rfl
    exact hoff c (h.proc_of_run hm)
  have hsaved : Thread.Saved j (⟨.idle, .op (.forkret k₀), 0⟩ : Thread κ) := by
    refine ⟨rfl, rfl, fun l hl => ?_⟩
    simpa [Thread.Needs, Yield.locks, Pos.Needs, Op.locks] using hl
  have hchildren : ∀ k np b,
      (((s.setThread i t).setThread j { pos := .op (.forkret k₀) }).threads k).pos.child =
        some (np, b) → (k = i ∧ np = j) ∨
        (k ≠ i ∧ k ≠ j ∧ (s.threads k).pos.child = some (np, b)) := by
    intro k np b hb
    by_cases hkj : k = j
    · subst hkj
      simp [Machine.setThread, Pos.child, Op.child] at hb
    · by_cases hki : k = i
      · subst hki
        simp only [Machine.setThread, Function.update_of_ne hkj, Function.update_self] at hb
        rw [hnew] at hb
        cases hb
        exact .inl ⟨rfl, rfl⟩
      · exact .inr ⟨hki, hkj, by simpa [Machine.setThread, hkj, hki] using hb⟩
  refine { h with wf := ?_, cpu := ?_, saved := ?_, child := ?_, children := ?_ }
  · intro k
    by_cases hkj : k = j
    · subst hkj
      simp [Machine.setThread, Thread.Wf, Pos.bounded, Op.bounded]
    · by_cases hki : k = i
      · subst hki
        simpa [Machine.setThread, hkj] using hwf
      · simpa [Machine.setThread, hkj, hki] using h.wf k
  · intro d
    by_cases hd : d = c
    · subst hd
      have hcpu := h.cpu d
      simp only [CpuOk, hm] at hcpu
      simp only [CpuOk, Machine.setThread, hm, Function.update_of_ne hji.symm,
        Function.update_self, hpark]
      exact ⟨hcpu.1, hneeds, hcpu.2.2⟩
    · apply (h.cpu d).congr
      intro k hk
      have hki : k ≠ i := by
        rintro rfl
        exact hd (h.eq_of_proc hm hk)
      have hkj : k ≠ j := by
        rintro rfl
        exact hoff d hk
      simp [Machine.setThread, hki, hkj]
  · intro k hk hidle
    have hki : k ≠ i := by
      rintro rfl
      exact hk c (h.proc_of_run hm)
    by_cases hkj : k = j
    · subst hkj
      simpa [Machine.setThread] using hsaved
    · simpa [Machine.setThread, hki, hkj] using h.saved k hk hidle
  · intro k np b hb
    rcases hchildren k np b hb with ⟨rfl, rfl⟩ | ⟨hki, hkj, hb'⟩
    · exact ⟨hused, fun _ => by simpa [Machine.setThread] using hsaved⟩
    · have hnj : np ≠ j := by
        rintro rfl
        exact hki (h.children _ _ _ _ _ hb' hold)
      have hni : np ≠ i := by
        rintro rfl
        exact h.not_child hm _ _ hb'
      simpa [Machine.setThread, hnj, hni] using h.child k np b hb'
  · intro k k' np b b' hb hb'
    rcases hchildren k np b hb with ⟨rfl, rfl⟩ | ⟨hki, hkj, hc⟩ <;>
      rcases hchildren k' _ b' hb' with ⟨rfl, hnp⟩ | ⟨hki', hkj', hc'⟩
    · rfl
    · exact (h.children _ _ _ _ _ hc' hold).symm
    · subst hnp
      exact h.children _ _ _ _ _ hc hold
    · exact h.children _ _ _ _ _ hc hc'

/-- The scheduler picks a process. -/
theorem pick (h : Placed s) (hm : (s.cpus c).mode = .test j)
    (hstate : (s.slots j).state = .RUNNABLE) :
    Placed ((s.setSlot j { s.slots j with state := .RUNNING }).setCpu c
      { s.cpus c with proc := some j, mode := .enter j }) := by
  have hcpu := h.cpu c
  simp only [CpuOk, hm] at hcpu
  have hoff := h.off (c := c) (j := j) (by rw [hcpu.2]; exact List.mem_singleton.mpr rfl)
    (by rw [hstate]; simp) (by rw [hcpu.1]; simp)
  have hne : ∀ i np b, (s.threads i).pos.child = some (np, b) → np ≠ j := by
    rintro i np b hb rfl
    rw [(h.child i np b hb).1] at hstate
    cases hstate
  constructor
  case owner =>
    intro k d
    by_cases hd : d = c
    · subst hd
      simpa [Machine.setSlot, Machine.setCpu] using h.owner k d
    · simpa [Machine.setSlot, Machine.setCpu, hd] using h.owner k d
  case nodup =>
    intro d
    by_cases hd : d = c
    · subst hd
      simpa [Machine.setSlot, Machine.setCpu] using h.nodup d
    · simpa [Machine.setSlot, Machine.setCpu, hd] using h.nodup d
  case wf => exact h.wf
  case cpu =>
    intro d
    by_cases hd : d = c
    · subst hd
      have hsaved := h.saved j hoff (by rw [hstate]; rfl)
      simpa [CpuOk, Machine.setSlot, Machine.setCpu, hcpu.2] using hsaved
    · simp only [Machine.setSlot, Machine.setCpu, Function.update_of_ne hd]
      apply (h.cpu d).congr
      intro k hk
      have hkj : k ≠ j := by
        rintro rfl
        exact hoff d hk
      simp [hkj]
  case single =>
    intro d d' k hd hd'
    by_cases hdc : d = c <;> by_cases hdc' : d' = c
    · rw [hdc, hdc']
    · subst hdc
      simp only [Machine.setSlot, Machine.setCpu, Function.update_self,
        Function.update_of_ne hdc', Option.some.injEq] at hd hd'
      exact absurd (hd ▸ hd') (hoff d')
    · subst hdc'
      simp only [Machine.setSlot, Machine.setCpu, Function.update_self,
        Function.update_of_ne hdc, Option.some.injEq] at hd hd'
      exact absurd (hd' ▸ hd) (hoff d)
    · simp only [Machine.setSlot, Machine.setCpu, Function.update_of_ne hdc,
        Function.update_of_ne hdc'] at hd hd'
      exact h.single d d' k hd hd'
  case running =>
    intro k hk
    by_cases hkj : k = j
    · subst hkj
      exact ⟨c, by simp [Machine.setCpu]⟩
    · obtain ⟨d, hd⟩ := h.running k (by simpa [Machine.setSlot, Machine.setCpu, hkj] using hk)
      have hdc : d ≠ c := by
        rintro rfl
        rw [hcpu.1] at hd
        cases hd
      exact ⟨d, by simpa [Machine.setSlot, Machine.setCpu, hdc] using hd⟩
  case saved =>
    intro k hk hidle
    have hkj : k ≠ j := by
      rintro rfl
      exact hk c (by simp [Machine.setCpu])
    refine h.saved k (fun d hd => ?_)
      (by simpa [Machine.setSlot, Machine.setCpu, hkj] using hidle)
    have hdc : d ≠ c := by
      rintro rfl
      rw [hcpu.1] at hd
      cases hd
    exact hk d (by simpa [Machine.setSlot, Machine.setCpu, hdc] using hd)
  case child =>
    intro k np b hb
    simpa [Machine.setSlot, Machine.setCpu, hne k np b hb] using h.child k np b hb
  case children => exact h.children

/-- The scheduler is done with a process. -/
theorem putBack (h : Placed s) (hm : (s.cpus c).mode = .back i) :
    Placed (s.setCpu c { s.cpus c with proc := none, mode := .unlock i }) := by
  have hcpu := h.cpu c
  simp only [CpuOk, hm] at hcpu
  obtain ⟨hproc, hheld, hidle, hsaved⟩ := hcpu
  have hother : ∀ d k, (s.cpus d).proc = some k → k ≠ i → d ≠ c := by
    rintro d k hd hk rfl
    rw [hproc, Option.some.injEq] at hd
    exact hk hd.symm
  constructor
  case owner =>
    intro k d
    by_cases hd : d = c
    · subst hd
      simpa [Machine.setCpu] using h.owner k d
    · simpa [Machine.setCpu, hd] using h.owner k d
  case nodup =>
    intro d
    by_cases hd : d = c
    · subst hd
      simpa [Machine.setCpu] using h.nodup d
    · simpa [Machine.setCpu, hd] using h.nodup d
  case wf => exact h.wf
  case cpu =>
    intro d
    by_cases hd : d = c
    · subst hd
      simpa [CpuOk, Machine.setCpu] using hheld
    · simpa [Machine.setCpu, hd] using h.cpu d
  case single =>
    intro d d' k hd hd'
    by_cases hdc : d = c
    · subst hdc
      simp [Machine.setCpu] at hd
    by_cases hdc' : d' = c
    · subst hdc'
      simp [Machine.setCpu] at hd'
    exact h.single d d' k (by simpa [Machine.setCpu, hdc] using hd)
      (by simpa [Machine.setCpu, hdc'] using hd')
  case running =>
    intro k hk
    obtain ⟨d, hd⟩ := h.running k hk
    have hki : k ≠ i := by
      rintro rfl
      rw [show (s.slots k).state = .RUNNING from hk] at hidle
      cases hidle
    exact ⟨d, by simpa [Machine.setCpu, hother d k hd hki] using hd⟩
  case saved =>
    intro k hk hst
    by_cases hki : k = i
    · subst hki
      exact hsaved
    · exact h.saved k
        (fun d hd => hk d (by simpa [Machine.setCpu, hother d k hd hki] using hd)) hst
  case child => exact h.child
  case children => exact h.children

theorem schedule (h : Placed s) {s' : Machine κ δ} {m : Mode} (hm : (s.cpus c).mode = m)
    (hstep : s.schedule c m = some (.ok s')) : Placed s' := by
  have hcpu := h.cpu c
  simp only [CpuOk, hm] at hcpu
  cases m with
  | scan j =>
      simp only [Machine.schedule] at hstep
      split at hstep
      · next hfree =>
          cases hstep
          apply h.take (by rw [hcpu.2]; simp) hfree
          · simp [Machine.take]
          · simp [Machine.take]
          · simpa [CpuOk, Machine.take] using hcpu
      · cases hstep
  | test j =>
      simp only [Machine.schedule] at hstep
      split at hstep
      · next hstate =>
          cases hstep
          exact h.pick hm hstate
      · cases hstep
        exact h.setCpu rfl rfl hcpu
  | enter j =>
      cases hstep
      refine h.setCpu rfl rfl ⟨hcpu.1, fun l hl => ?_, ?_⟩
      · rw [show _ = _ from hcpu.2.1, hcpu.2.2.2.2.2 l hl]
        exact List.mem_singleton.mpr rfl
      · rw [hcpu.2.2.2.1]
        exact hcpu.2.2.1
  | run i => cases hstep
  | leave i =>
      cases hstep
      exact h.setCpu rfl rfl hcpu
  | back i =>
      cases hstep
      exact h.putBack hm
  | unlock j =>
      cases hstep
      apply h.drop (by rw [hcpu.2]; exact List.mem_singleton.mpr rfl)
      · simp [Machine.drop]
      · simp [Machine.drop]
      · simpa [CpuOk, Machine.drop, hcpu.2] using hcpu.1

/-- A slot that other threads find SLEEPING, or leave in the state it has. -/
theorem wake (h : Placed s) (hm : (s.cpus c).mode = .run i) (hj : .proc j ∈ (s.cpus c).held)
    (hpark : (s.threads i).parked = false ∨ j ≠ i) {p : Slot}
    (hp : p.state = (s.slots j).state ∨
      (s.slots j).state = .SLEEPING ∧ p.state = .RUNNABLE) : Placed (s.setSlot j p) := by
  rcases hp with hp | ⟨hold, hp⟩
  · exact h.setSlot_same hp
  · have hc : (s.cpus c).proc ≠ some j := by
      rw [h.proc_of_run hm]
      rintro ⟨rfl⟩
      rcases hpark with hpark | hne
      · rw [h.state_of_run hm hpark] at hold
        cases hold
      · exact hne rfl
    have hoff := h.off hj (by rw [hold]; simp) hc
    apply h.setSlot hoff (by rw [hp]; simp)
    · exact fun _ => h.saved j hoff (by rw [hold]; rfl)
    · intro k b hb
      rw [(h.child k j b hb).1] at hold
      cases hold

theorem thread {instr : Instr κ} {t : Thread κ} {s' : Machine κ δ} (h : Placed s)
    (hm : (s.cpus c).mode = .run i)
    (heff : Effect s.slots i (s.threads i) t instr)
    (hstep : (s.setThread i t).exec c i instr = some (.ok s')) : Placed s' := by
  have hunparked := heff.calm
  obtain ⟨hwf, hneeds, -, heffect⟩ := heff
  have hheld : (∀ l, instr ≠ .acquire l) → ∀ k, t.Needs i k → k ∈ (s.cpus c).held := by
    intro hinstr k hk
    rcases hneeds k hk with hk' | hk'
    · exact h.held_of_needs hm hk'
    · exact absurd hk' (hinstr k)
  cases instr with
  | nop =>
      cases hstep
      exact h.setThread hm hwf (hheld (by simp)) heffect
  | acquire l =>
      simp only [Machine.exec, Machine.acquire] at hstep
      split at hstep
      · cases hstep
      · next hl =>
          split at hstep
          · next hfree =>
              cases hstep
              have htake : Placed ((s.take c l).setCpu c
                  { s.cpus c with held := l :: (s.cpus c).held }) := by
                have hcpu := h.cpu c
                simp only [CpuOk, hm] at hcpu
                refine h.take hl hfree (m := { s.cpus c with held := l :: (s.cpus c).held })
                  rfl rfl ?_
                simp only [CpuOk, hm]
                exact ⟨hcpu.1, fun k hk => List.mem_cons_of_mem _ (hcpu.2.1 k hk), hcpu.2.2⟩
              have heq : (s.take c l).setCpu c
                  { s.cpus c with held := l :: (s.cpus c).held } = s.take c l := by
                simp [Machine.take, Machine.setCpu]
              rw [heq] at htake
              apply htake.setThread (i := i) (c := c) _ hwf
              · intro k hk
                simp only [Machine.take, Function.update_self, List.mem_cons]
                rcases hneeds k hk with hk' | hk'
                · exact .inr (h.held_of_needs hm hk')
                · cases hk'
                  exact .inl rfl
              · exact heffect
              · simpa [Machine.take] using hm
          · cases hstep
  | release l =>
      simp only [Machine.exec, Machine.release] at hstep
      split at hstep
      · next hl =>
          cases hstep
          have hset := h.setThread hm hwf (hheld (by simp)) heffect.2
          have hcpu := hset.cpu c
          simp only [CpuOk, Machine.setThread, hm] at hcpu
          have hdrop := hset.drop (c := c) (l := l) (m :=
            { (s.setThread i t).cpus c with held := ((s.setThread i t).cpus c).held.erase l })
            hl rfl rfl (by
              simp only [CpuOk, Machine.setThread, hm]
              refine ⟨hcpu.1, fun k hk => ?_, hcpu.2.2⟩
              have hne : k ≠ l := by
                rintro rfl
                simp only [Function.update_self] at hk
                exact heffect.1 hk
              exact (h.nodup c).mem_erase_iff.mpr ⟨hne, hcpu.2.1 k hk⟩)
          have heq : ((s.setThread i t).drop c l).setCpu c { (s.setThread i t).cpus c with
              held := ((s.setThread i t).cpus c).held.erase l } =
              (s.setThread i t).drop c l := by
            simp [Machine.drop, Machine.setCpu]
          rwa [heq] at hdrop
      · cases hstep
  | update j u =>
      cases hstep
      have hcalm := hunparked (by simp) (by simp)
      clear hunparked
      have hset : (s.threads i).Keeps t → Placed (s.setThread i t) :=
        h.setThread hm hwf (hheld (by simp))
      cases u with
      | wakeup chan =>
          have hj := h.held_of_needs hm heffect.1
          have hcalm' : t.parked = false := by rw [heffect.2.1, hcalm]
          apply (hset heffect.2).wake hm hj (.inl (by simpa [Machine.setThread] using hcalm'))
          by_cases hsl : (s.slots j).state = .SLEEPING ∧ (s.slots j).chan = chan
          · exact .inr ⟨hsl.1, by simp [Update.apply, Machine.setThread, hsl]⟩
          · exact .inl (by simp [Update.apply, Machine.setThread, hsl])
      | kill =>
          have hj := h.held_of_needs hm heffect.1
          have hcalm' : t.parked = false := by rw [heffect.2.1, hcalm]
          apply (hset heffect.2).wake hm hj (.inl (by simpa [Machine.setThread] using hcalm'))
          by_cases hsl : (s.slots j).state = .SLEEPING
          · exact .inr ⟨hsl, by simp [Update.apply, Machine.setThread, hsl]⟩
          · exact .inl (by simp [Update.apply, Machine.setThread, hsl])
      | sleep chan =>
          obtain ⟨rfl, -, -, hpark, hchild⟩ := heffect
          exact h.park hm hwf (hheld (by simp)) hpark hchild rfl
      | clearChan => exact (hset heffect.2.2).setSlot_same rfl
      | yield =>
          obtain ⟨rfl, -, -, hpark, hchild⟩ := heffect
          exact h.park hm hwf (hheld (by simp)) hpark hchild rfl
      | exit status =>
          obtain ⟨rfl, -, -, hpark, hchild⟩ := heffect
          exact h.park hm hwf (hheld (by simp)) hpark hchild rfl
      | parent q => exact (hset heffect).setSlot_same rfl
      | ready =>
          obtain ⟨hj, hpark, hold, hnew⟩ := heffect
          obtain ⟨hused, hsaved⟩ := h.child i j true hold
          have hoff := h.off_of_used hused
          refine h.birth hm hwf (hheld (by simp)) hpark hoff (by simp [Update.apply])
            (fun _ => hsaved rfl) (fun k b hk hb => hk ?_) (.inl hnew)
          exact h.children _ _ _ _ _ hb hold
      | free =>
          obtain ⟨hj, hpark, hnew, hold⟩ := heffect
          have hj' := h.held_of_needs hm hj
          have hrun := h.state_of_run hm hcalm
          rcases hold with ⟨hzombie, -⟩ | hold
          · have hc : (s.cpus c).proc ≠ some j := by
              rw [h.proc_of_run hm]
              rintro ⟨rfl⟩
              rw [hzombie] at hrun
              cases hrun
            refine h.birth hm hwf (hheld (by simp)) hpark
              (h.off hj' (by rw [hzombie]; simp) hc) (by simp [Update.apply])
              (by simp [Update.apply, ProcState.idle]) (fun k b _ hb => ?_) (.inl hnew)
            rw [(h.child k j b hb).1] at hzombie
            cases hzombie
          · refine h.birth hm hwf (hheld (by simp)) hpark
              (h.off_of_used (h.child i j false hold).1) (by simp [Update.apply])
              (by simp [Update.apply, ProcState.idle]) (fun k b hk hb => hk ?_) (.inl hnew)
            exact h.children _ _ _ _ _ hb hold
  | alloc j =>
      cases hstep
      obtain ⟨hlt, hj, hpark, hunused, hold, hnew⟩ := heffect
      have hoff : ∀ d, (s.cpus d).proc ≠ some j := by
        intro d hd
        have hidle := ((h.cpu d).held_of_proc hd (by rw [hunused]; simp)).2
        rw [hunused] at hidle
        cases hidle
      have hbirth := h.birth (p := { s.slots j with pid := s.nextpid, state := .USED }) hm hwf
        (hheld (by simp)) hpark hoff (by simp) (by simp [ProcState.idle]) (fun k b _ hb => by
          rw [(h.child k j b hb).1] at hunused
          cases hunused) (.inr ⟨hnew, rfl⟩)
      exact { hbirth with }
  | spawn j k =>
      cases hstep
      exact h.spawn hm hwf (hheld (by simp)) heffect.1 heffect.2.1 heffect.2.2
  | swtch =>
      simp only [Machine.exec, Machine.sched] at hstep
      split at hstep
      · cases hstep
      · next hmem =>
          split at hstep
          · cases hstep
          · next hlen =>
              split at hstep
              · cases hstep
              · cases hstep
                have hone : (s.cpus c).held = [.proc i] := by
                  obtain ⟨l, hl⟩ := List.length_eq_one_iff.mp (not_not.mp hlen)
                  have hl' : (s.cpus c).held = [l] := hl
                  have hmem' : Lock.proc i ∈ (s.cpus c).held := not_not.mp hmem
                  rw [hl', List.mem_singleton] at hmem'
                  rw [hl', hmem']
                exact h.leave hm hwf hone (hheld (by simp)) heffect.1 heffect.2.1
                  heffect.2.2.1 heffect.2.2.2
  | panic msg => cases hstep

theorem timer (h : Placed s) (hm : (s.cpus c).mode = .run i) (hheld : (s.cpus c).held = [])
    (hidle : (s.threads i).yield = .idle) :
    Placed (s.setThread i { s.threads i with yield := .acquire }) := by
  have hnone : ∀ l, ¬ (s.threads i).pos.Needs i l := by
    intro l hl
    have hmem := h.held_of_needs hm (.inr hl)
    rw [hheld] at hmem
    cases hmem
  apply h.setThread hm
  · exact ⟨fun _ => hnone, (h.wf i).2⟩
  · intro k hk
    rcases hk with hk | hk
    · cases hk
    · exact absurd hk (hnone k)
  · exact ⟨by simp only [Thread.parked, hidle]; rfl, rfl⟩

theorem step (h : Placed s) {cl : Client κ δ ι} {a : Action ι} {s' : Machine κ δ}
    (hstep : s.step cl a = some (.ok s')) : Placed s' := by
  cases Machine.step_cases hstep with
  | thread hm hnext hexec =>
      rename_i c i x ok instr t data
      have hdata : Placed { s with data := data } := { h with }
      exact hdata.thread hm (Thread.next_effect (h.wf i) hnext) hexec
  | timer hm hheld hidle heq => exact heq ▸ h.timer hm hheld hidle
  | schedule hm hrun hsched => exact h.schedule hm hsched

theorem boot (k : κ) (data : δ) : Placed (boot k data) := by
  have hslots : ∀ i, ((Sched.boot k data).slots i).state = .UNUSED ∨
      ((Sched.boot k data).slots i).state = .RUNNABLE := by
    intro i
    by_cases hi : i = initproc
    · exact .inr (by simp [Sched.boot, hi])
    · exact .inl (by simp [Sched.boot, hi])
  constructor
  case owner => simp [Sched.boot]
  case nodup => simp [Sched.boot]
  case wf => simp [Sched.boot, Thread.Wf, Pos.bounded, Op.bounded]
  case cpu => simp [Sched.boot, CpuOk]
  case single => simp [Sched.boot]
  case running =>
    intro i hi
    rcases hslots i with hs | hs <;> rw [hs] at hi <;> cases hi
  case saved =>
    intro i _ _
    refine ⟨rfl, rfl, fun l hl => ?_⟩
    simpa [Sched.boot, Thread.Needs, Yield.locks, Pos.Needs, Op.locks] using hl
  case child => simp [Sched.boot, Pos.child, Op.child]
  case children => simp [Sched.boot, Pos.child, Op.child]

end Placed

theorem Reachable.placed {cl : Client κ δ ι} {A : Machine κ δ → Action ι → Prop}
    {s : Machine κ δ} (h : Reachable cl A s) : Placed s := by
  apply Transition.Reach.invariant _ _ h
  · rintro s ⟨k, data, rfl⟩
    exact Placed.boot k data
  · exact fun s a s' _ hstep hs => hs.step hstep

/-- No process is on two CPUs; one whose lock is free is RUNNING exactly when it is on a
CPU; and when the scheduler is about to resume one, no other CPU runs it or is still in
the swtch that left it. -/
theorem one_cpu_per_process {cl : Client κ δ ι} {A : Machine κ δ → Action ι → Prop}
    {s : Machine κ δ} (h : Reachable cl A s) :
    (∀ c c' i, (s.cpus c).proc = some i → (s.cpus c').proc = some i → c = c') ∧
    (∀ i, s.lock (.proc i) = none →
      ((s.slots i).state = .RUNNING ↔ ∃ c, (s.cpus c).proc = some i)) ∧
    ∀ c i, (s.cpus c).mode = .enter i → (s.threads i).parked = false ∧
      ∀ c', c' ≠ c → (s.cpus c').mode ≠ .enter i ∧ (s.cpus c').mode ≠ .run i ∧
        (s.cpus c').mode ≠ .leave i ∧ (s.cpus c').mode ≠ .back i := by
  have hs := h.placed
  refine ⟨hs.single, ?_, ?_⟩
  · intro i hfree
    constructor
    · exact hs.running i
    · rintro ⟨c, hc⟩
      by_contra hstate
      have hheld := ((hs.cpu c).held_of_proc hc hstate).1
      rw [(hs.owner _ c).mpr hheld] at hfree
      cases hfree
  · intro c i hm
    have hcpu := hs.cpu c
    simp only [CpuOk, hm] at hcpu
    refine ⟨hcpu.2.2.2.1, fun c' hc' => ?_⟩
    have hnot : (s.cpus c').proc ≠ some i := fun hp => hc' (hs.single _ _ _ hp hcpu.1)
    have hcpu' := hs.cpu c'
    refine ⟨?_, ?_, ?_, ?_⟩ <;> intro hm' <;> simp only [CpuOk, hm'] at hcpu' <;>
      exact hnot hcpu'.1

namespace PlacementWitness

/-- The first process runs on CPU 0 and has forked; CPU 1 is about to resume the child. -/
def resuming : Option (Machine Unit Unit) :=
  Transition.runAll (fun _ _ => true) (fun s => s.step anyClient) (boot () ())
    (steps 0 4 ++ [.step 0 (.fork () ()) true] ++ steps 0 14 ++ steps 1 5)

theorem resuming_isSome : resuming.isSome = true := by rfl

def resumed : Machine Unit Unit := resuming.get resuming_isSome

theorem one_cpu_per_process_two : (resumed.cpus 0).mode = .run 0 ∧
    (resumed.cpus 1).mode = .enter 1 ∧ (∀ c, (resumed.cpus c).proc = some 0 → c = 0) ∧
    (∀ c, (resumed.cpus c).proc = some 1 → c = 1) ∧
    ((resumed.slots 0).state = .RUNNING ↔ ∃ c, (resumed.cpus c).proc = some 0) ∧
    (resumed.threads 1).parked = false ∧ (resumed.cpus 0).mode ≠ .leave 1 := by
  have hreach : Reachable anyClient (fun _ _ => True) resumed :=
    Transition.Reach.runAll (fun _ _ _ => trivial) (.start ⟨(), (), rfl⟩)
      (Option.some_get resuming_isSome).symm
  have hmode : (resumed.cpus 1).mode = .enter 1 := by rfl
  obtain ⟨hsingle, hrunning, henter⟩ := one_cpu_per_process hreach
  obtain ⟨hparked, hother⟩ := henter 1 1 hmode
  exact ⟨by rfl, hmode, fun c hc => hsingle c 0 0 hc (by rfl),
    fun c hc => hsingle c 1 1 hc (by rfl), hrunning 0 (by rfl), hparked,
    (hother 0 (by decide)).2.2.1⟩

end PlacementWitness

end Xv6.Sched
