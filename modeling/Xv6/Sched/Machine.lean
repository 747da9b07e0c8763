/-
Any number of CPUs that run the scheduler and the kernel threads of the processes.
A step is one lock operation, one half of swtch, or the straight-line code between
two of them; a lock belongs to the CPU that acquired it.
-/
import Mathlib.Tactic.Ring
import Xv6.Lib.Transition
import Xv6.Sched.Thread

namespace Xv6.Sched

/-- What a CPU is doing: the scheduler at a slot, in swtch to a process, running its
thread, in swtch away from it after its context is saved, or back in the scheduler. -/
inductive Mode
  | scan (j : Nat)
  | test (j : Nat)
  | enter (j : Nat)
  | run (i : Nat)
  | leave (i : Nat)
  | back (i : Nat)
  | unlock (j : Nat)
deriving DecidableEq, Repr

/-- `struct cpu`; the length of `held` is `noff`. -/
structure Cpu where
  proc : Option Nat := none
  mode : Mode := .scan 0
  held : List Lock := []
deriving DecidableEq, Repr

structure Machine (κ δ : Type) where
  slots : Nat → Slot
  threads : Nat → Thread κ
  cpus : Nat → Cpu
  lock : Lock → Option Nat
  nextpid : Int
  data : δ

inductive Action (ι : Type)
  | step (c : Nat) (x : ι) (ok : Bool)
  | timer (c : Nat)
deriving DecidableEq, Repr

namespace Machine

variable {κ δ ι : Type} (s : Machine κ δ)

def setSlot (j : Nat) (p : Slot) : Machine κ δ :=
  { s with slots := Function.update s.slots j p }

def setThread (i : Nat) (t : Thread κ) : Machine κ δ :=
  { s with threads := Function.update s.threads i t }

def setCpu (c : Nat) (m : Cpu) : Machine κ δ :=
  { s with cpus := Function.update s.cpus c m }

def setMode (c : Nat) (m : Mode) : Machine κ δ := s.setCpu c { s.cpus c with mode := m }

def take (c : Nat) (l : Lock) : Machine κ δ :=
  { s with
    lock := Function.update s.lock l (some c)
    cpus := Function.update s.cpus c { s.cpus c with held := l :: (s.cpus c).held } }

def drop (c : Nat) (l : Lock) : Machine κ δ :=
  { s with
    lock := Function.update s.lock l none
    cpus := Function.update s.cpus c { s.cpus c with held := (s.cpus c).held.erase l } }

/-- `acquire` waits while another CPU holds the lock. -/
def acquire (c : Nat) (l : Lock) : Option (Except String (Machine κ δ)) :=
  if l ∈ (s.cpus c).held then some (.error "acquire")
  else if s.lock l = none then some (.ok (s.take c l)) else none

def release (c : Nat) (l : Lock) : Option (Except String (Machine κ δ)) :=
  if l ∈ (s.cpus c).held then some (.ok (s.drop c l)) else some (.error "release")

/-- `allocpid` and the state of the new process; `nextpid` is an int. -/
def alloc (j : Nat) : Machine κ δ :=
  { s.setSlot j { s.slots j with pid := s.nextpid, state := .USED } with
    nextpid := (s.nextpid + 1).bmod (2 ^ 32) }

/-- `sched` up to the point where the context of the process is saved. -/
def sched (c i : Nat) : Option (Except String (Machine κ δ)) :=
  if .proc i ∉ (s.cpus c).held then some (.error "sched p->lock")
  else if (s.cpus c).held.length ≠ 1 then some (.error "sched locks")
  else if (s.slots i).state = .RUNNING then some (.error "sched running")
  else some (.ok (s.setMode c (.leave i)))

def exec (c i : Nat) : Instr κ → Option (Except String (Machine κ δ))
  | .nop => some (.ok s)
  | .acquire l => s.acquire c l
  | .release l => s.release c l
  | .update j u => some (.ok (s.setSlot j (u.apply (s.slots j))))
  | .alloc j => some (.ok (s.alloc j))
  | .spawn j k => some (.ok (s.setThread j { pos := .op (.forkret k) }))
  | .swtch => s.sched c i
  | .panic msg => some (.error msg)

/-- The scheduler, and the switches. -/
def schedule (c : Nat) : Mode → Option (Except String (Machine κ δ))
  | .scan j =>
      if s.lock (.proc j) = none then some (.ok ((s.take c (.proc j)).setMode c (.test j)))
      else none
  | .test j =>
      if (s.slots j).state = .RUNNABLE then
        some (.ok ((s.setSlot j { s.slots j with state := .RUNNING }).setCpu c
          { s.cpus c with proc := some j, mode := .enter j }))
      else some (.ok (s.setMode c (.unlock j)))
  | .enter j => some (.ok (s.setMode c (.run j)))
  | .run _ => none
  | .leave i => some (.ok (s.setMode c (.back i)))
  | .back i => some (.ok (s.setCpu c { s.cpus c with proc := none, mode := .unlock i }))
  | .unlock j => some (.ok ((s.drop c (.proc j)).setMode c (.scan ((j + 1) % NPROC))))

def step (cl : Client κ δ ι) : Action ι → Option (Except String (Machine κ δ))
  | .step c x ok =>
      match (s.cpus c).mode with
      | .run i =>
          match (s.threads i).next cl s.slots s.data i x ok with
          | some (instr, t, data) => ({ s with data := data }.setThread i t).exec c i instr
          | none => none
      | m => s.schedule c m
  | .timer c =>
      match (s.cpus c).mode with
      | .run i =>
          if (s.cpus c).held = [] ∧ (s.threads i).yield = .idle then
            some (.ok (s.setThread i { s.threads i with yield := .acquire }))
          else none
      | _ => none

end Machine

variable {κ δ ι : Type}

/-- The machine after userinit: every CPU enters the scheduler, and the first process
is about to run. -/
def boot (k : κ) (data : δ) : Machine κ δ where
  slots := Function.update (fun _ => {}) initproc { state := .RUNNABLE, pid := 1 }
  threads _ := { pos := .op (.forkret k) }
  cpus _ := {}
  lock _ := none
  nextpid := 2
  data := data

/-- The most general code outside of kernel/proc.c: it makes any call at any time. -/
def anyClient : Client Unit Unit (Call Unit) where
  step _ _ _ _ call := some (call, ())

instance : Inhabited (Call Unit) := ⟨.goto ()⟩

/-- `n` steps of a CPU in which nothing is left to choose. -/
def steps [Inhabited ι] (c n : Nat) : List (Action ι) := List.replicate n (.step c default true)

/-- The states of the machine in all interleavings in which every action is allowed. -/
def Reachable (cl : Client κ δ ι) (allowed : Machine κ δ → Action ι → Prop) :
    Machine κ δ → Prop :=
  Transition.Reach (fun s => ∃ k data, s = boot k data) allowed fun s => s.step cl

/-- The ways in which a machine takes a step. -/
inductive StepCases (cl : Client κ δ ι) (s s' : Machine κ δ) : Action ι → Prop
  | thread {c i : Nat} {x : ι} {ok : Bool} {instr : Instr κ} {t : Thread κ} {data : δ}
      (hm : (s.cpus c).mode = .run i)
      (hnext : (s.threads i).next cl s.slots s.data i x ok = some (instr, t, data))
      (hexec : ({ s with data := data }.setThread i t).exec c i instr = some (.ok s')) :
      StepCases cl s s' (.step c x ok)
  | timer {c i : Nat} (hm : (s.cpus c).mode = .run i) (hheld : (s.cpus c).held = [])
      (hidle : (s.threads i).yield = .idle)
      (heq : s' = s.setThread i { s.threads i with yield := .acquire }) :
      StepCases cl s s' (.timer c)
  | schedule {c : Nat} {x : ι} {ok : Bool} {m : Mode} (hm : (s.cpus c).mode = m)
      (hrun : ∀ i, m ≠ .run i) (hstep : s.schedule c m = some (.ok s')) :
      StepCases cl s s' (.step c x ok)

theorem Machine.step_cases {cl : Client κ δ ι} {s s' : Machine κ δ} {a : Action ι}
    (hstep : s.step cl a = some (.ok s')) : StepCases cl s s' a := by
  cases a with
  | step c x ok =>
      simp only [Machine.step] at hstep
      split at hstep
      · next i hm =>
          split at hstep
          · next instr t data hnext => exact .thread hm hnext hstep
          · cases hstep
      · next hrun => exact .schedule rfl (fun i hi => hrun i hi) hstep
  | timer c =>
      simp only [Machine.step] at hstep
      split at hstep
      · next i hm =>
          split at hstep
          · next hcond =>
              cases hstep
              exact .timer hm hcond.1 hcond.2 rfl
          · cases hstep
      · cases hstep

/-- The ways in which an instruction of thread `i` is executed. -/
inductive ExecCases (s : Machine κ δ) (c i : Nat) : Instr κ → Machine κ δ → Prop
  | nop : ExecCases s c i .nop s
  | acquire {l : Lock} (hfree : s.lock l = none) : ExecCases s c i (.acquire l) (s.take c l)
  | release {l : Lock} : ExecCases s c i (.release l) (s.drop c l)
  | update {j : Nat} {u : Update} :
      ExecCases s c i (.update j u) (s.setSlot j (u.apply (s.slots j)))
  | alloc {j : Nat} : ExecCases s c i (.alloc j) (s.alloc j)
  | spawn {j : Nat} {k : κ} :
      ExecCases s c i (.spawn j k) (s.setThread j { pos := .op (.forkret k) })
  | swtch : ExecCases s c i .swtch (s.setMode c (.leave i))

theorem Machine.exec_cases {s s' : Machine κ δ} {c i : Nat} {instr : Instr κ}
    (h : s.exec c i instr = some (.ok s')) : ExecCases s c i instr s' := by
  cases instr with
  | nop | update j u | alloc j | spawn j k =>
      cases h
      constructor
  | panic msg => cases h
  | acquire l =>
      simp only [Machine.exec, Machine.acquire] at h
      split at h
      · cases h
      · split at h
        · next hfree =>
            cases h
            exact .acquire hfree
        · cases h
  | release l =>
      simp only [Machine.exec, Machine.release] at h
      split at h <;> cases h
      exact .release
  | swtch =>
      simp only [Machine.exec, Machine.sched] at h
      split at h
      · cases h
      · split at h
        · cases h
        · split at h <;> cases h
          exact .swtch

section frame

variable {s s' : Machine κ δ} {c i : Nat} {t : Thread κ} {instr : Instr κ}

/-- The threads after an instruction of thread `i`. -/
theorem Machine.exec_threads (h : (s.setThread i t).exec c i instr = some (.ok s')) :
    s'.threads = Function.update s.threads i t ∨ ∃ j k, instr = .spawn j k ∧
      s'.threads = Function.update (Function.update s.threads i t) j
        { pos := .op (.forkret k) } := by
  cases Machine.exec_cases h with
  | spawn => exact .inr ⟨_, _, rfl, rfl⟩
  | nop | acquire | release | update | alloc | swtch => exact .inl rfl

/-- The slots after an instruction of thread `i`. -/
theorem Machine.exec_slots (h : (s.setThread i t).exec c i instr = some (.ok s')) :
    s'.slots = s.slots ∨
      (∃ j u, instr = .update j u ∧ s'.slots = Function.update s.slots j (u.apply (s.slots j))) ∨
      ∃ j, instr = .alloc j ∧ s'.slots =
        Function.update s.slots j { s.slots j with pid := s.nextpid, state := .USED } := by
  cases Machine.exec_cases h with
  | update => exact .inr (.inl ⟨_, _, rfl, rfl⟩)
  | alloc => exact .inr (.inr ⟨_, rfl, rfl⟩)
  | nop | acquire | release | spawn | swtch => exact .inl rfl

/-- The other CPUs stay as they are. -/
theorem Machine.exec_cpus {d : Nat} (h : s.exec c i instr = some (.ok s')) (hd : d ≠ c) :
    s'.cpus d = s.cpus d := by
  cases Machine.exec_cases h with
  | acquire | release | swtch =>
      simp [Machine.take, Machine.drop, Machine.setMode, Machine.setCpu, hd]
  | nop | update | alloc | spawn => rfl

theorem Machine.schedule_cpus {d : Nat} {m : Mode} (h : s.schedule c m = some (.ok s'))
    (hd : d ≠ c) : s'.cpus d = s.cpus d := by
  cases m with
  | scan j =>
      simp only [Machine.schedule] at h
      split at h <;> cases h
      simp [Machine.take, Machine.setMode, Machine.setCpu, hd]
  | test j =>
      simp only [Machine.schedule] at h
      split at h <;> cases h
      · simp [Machine.setSlot, Machine.setCpu, hd]
      · simp [Machine.setMode, Machine.setCpu, hd]
  | enter j | leave j | back j =>
      cases h
      simp [Machine.setMode, Machine.setCpu, hd]
  | unlock j =>
      cases h
      simp [Machine.drop, Machine.setMode, Machine.setCpu, hd]
  | run j => cases h

/-- The scheduler changes no thread, and makes at most one RUNNABLE process RUNNING. -/
theorem Machine.schedule_frame {m : Mode} (h : s.schedule c m = some (.ok s')) :
    s'.threads = s.threads ∧ s'.data = s.data ∧ ∀ k, s'.slots k = s.slots k ∨
      (s.slots k).state = .RUNNABLE ∧ s'.slots k = { s.slots k with state := .RUNNING } := by
  cases m with
  | scan j =>
      simp only [Machine.schedule] at h
      split at h <;> cases h
      exact ⟨rfl, rfl, fun _ => .inl rfl⟩
  | test j =>
      simp only [Machine.schedule] at h
      split at h
      · next hstate =>
          cases h
          refine ⟨rfl, rfl, fun k => ?_⟩
          by_cases hk : k = j
          · subst hk
            exact .inr ⟨hstate, by simp [Machine.setSlot, Machine.setCpu]⟩
          · exact .inl (by simp [Machine.setSlot, Machine.setCpu, hk])
      · cases h
        exact ⟨rfl, rfl, fun _ => .inl rfl⟩
  | enter j | leave j | back j | unlock j =>
      cases h
      exact ⟨rfl, rfl, fun _ => .inl rfl⟩
  | run j => cases h

end frame

/-- A thread stays where it is, moves by its own code, or is set up by fork. -/
theorem Machine.pos_cases {cl : Client κ δ ι} {s s' : Machine κ δ} {a : Action ι}
    (hstep : s.step cl a = some (.ok s')) (p : Nat) :
    (s'.threads p).pos = (s.threads p).pos ∨
      (∃ c x ok instr t data, a = .step c x ok ∧ (s.cpus c).mode = .run p ∧
        s'.threads p = t ∧ (s.threads p).next cl s.slots s.data p x ok =
          some (instr, t, data) ∧
        ({ s with data := data }.setThread p t).exec c p instr = some (.ok s')) ∨
      ∃ k, s'.threads p = { pos := .op (.forkret k) } := by
  cases Machine.step_cases hstep with
  | schedule hm hrun hsched => exact .inl (by rw [(Machine.schedule_frame hsched).1])
  | timer hm hheld hidle heq =>
      rename_i c i
      subst heq
      by_cases hpi : p = i
      · subst hpi
        exact .inl (by simp [Machine.setThread])
      · exact .inl (by simp [Machine.setThread, hpi])
  | thread hm hnext hexec =>
      rename_i c i x ok instr t data
      rcases Machine.exec_threads hexec with heq | ⟨j, k, -, heq⟩
      · by_cases hpi : p = i
        · subst hpi
          exact .inr (.inl ⟨c, x, ok, instr, t, data, rfl, hm,
            by rw [heq]; exact Function.update_self .., hnext, hexec⟩)
        · exact .inl (by rw [heq, Function.update_of_ne hpi])
      · by_cases hpj : p = j
        · subst hpj
          exact .inr (.inr ⟨k, by rw [heq]; exact Function.update_self ..⟩)
        · by_cases hpi : p = i
          · subst hpi
            exact .inr (.inl ⟨c, x, ok, instr, t, data, rfl, hm, by
              rw [heq, Function.update_of_ne hpj]
              exact Function.update_self .., hnext, hexec⟩)
          · exact .inl (by rw [heq, Function.update_of_ne hpj, Function.update_of_ne hpi])

end Xv6.Sched
