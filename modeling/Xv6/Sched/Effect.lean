/-
What a thread needs at its position: the locks that it must hold, whether it has
already changed its state on the way to swtch, and the process that it is creating.
`next_effect` says what each instruction does to these.
-/
import Xv6.Sched.Thread

namespace Xv6.Sched

variable {κ δ ι : Type}

def Yield.locks (i : Nat) : Yield → List Lock
  | .idle | .acquire => []
  | .ready | .swtch | .release => [.proc i]

def Sub.locks (i : Nat) : Sub → List Lock
  | .sleepRelease .. | .sleepMark .. | .sleepSched .. | .sleepWoken .. | .sleepUnlock ..
  | .killedRead | .killedUnlock => [.proc i]
  | .wakeupTest _ j | .wakeupUnlock _ j => [.proc j]
  | .sleep .. | .sleepRelock .. | .wakeup .. | .killed => []

/-- The lock of the caller that sleep has given up. -/
def Sub.given : Sub → Option Lock
  | .sleepMark _ lk | .sleepSched _ lk | .sleepWoken _ lk | .sleepUnlock _ lk
  | .sleepRelock _ lk => some (.spin lk)
  | _ => none

def Return.locks : Return κ → List Lock
  | .client _ => []
  | _ => [.spin waitLock]

def Op.locks (i : Nat) : Op κ → List Lock
  | .client _ | .fork .. | .forkWait .. | .forkLock .. | .exit _ | .exitReturned | .wait ..
  | .kill .. => []
  | .forkret _ | .exitSched => [.proc i]
  | .forkTest j .. | .forkSkip j .. | .forkBuild j .. | .forkUndo j .. | .forkUnlock j ..
  | .forkReady j .. | .forkDone j .. | .killTest _ j _ | .killSkip _ j _
  | .killUnlock j _ => [.proc j]
  | .forkParent .. | .forkWaitUnlock .. | .exitReparent .. | .exitLock _ | .waitScan ..
  | .waitKilled .. | .waitReturn .. => [.spin waitLock]
  | .exitMark _ | .exitWaitUnlock => [.proc i, .spin waitLock]
  | .waitTest _ j _ | .waitSkip _ j _ | .waitUnlock j _ _ => [.proc j, .spin waitLock]

def Pos.Needs (i : Nat) (l : Lock) : Pos κ → Prop
  | .op o => l ∈ o.locks i
  | .sub c back => l ∈ c.locks i ∨ (l ∈ back.locks ∧ c.given ≠ some l)

/-- The thread cannot be here without this lock. -/
def Thread.Needs (i : Nat) (l : Lock) (t : Thread κ) : Prop :=
  l ∈ t.yield.locks i ∨ t.pos.Needs i l

def Op.bounded : Op κ → Bool
  | .forkTest j .. => decide (j < NPROC)
  | _ => true

/-- allocproc looks only at slots of the table. -/
def Pos.bounded : Pos κ → Bool
  | .op o => o.bounded
  | .sub .. => true

/-- A thread enters yield only where it needs no lock. -/
def Thread.Wf (i : Nat) (t : Thread κ) : Prop :=
  (t.yield ≠ .idle → ∀ l, ¬ t.pos.Needs i l) ∧ t.pos.bounded = true

def Sub.parked : Sub → Bool
  | .sleepSched .. => true
  | _ => false

def Op.parked : Op κ → Bool
  | .exitWaitUnlock | .exitSched => true
  | _ => false

def Pos.parked : Pos κ → Bool
  | .op o => o.parked
  | .sub c _ => c.parked

/-- The process has changed its state and is on its way to swtch. -/
def Thread.parked (t : Thread κ) : Bool := t.yield == .swtch || t.pos.parked

/-- The positions at which a thread goes on after swtch, or starts. -/
def Pos.resumes : Pos κ → Bool
  | .sub (.sleepWoken ..) _ | .op (.forkret _) | .op .exitReturned => true
  | _ => false

def Thread.resumes (t : Thread κ) : Bool :=
  t.yield == .release || t.yield == .idle && t.pos.resumes

def Op.child : Op κ → Option (Nat × Bool)
  | .forkBuild np .. => some (np, false)
  | .forkUnlock np .. | .forkWait np .. | .forkParent np .. | .forkWaitUnlock np ..
  | .forkLock np .. | .forkReady np .. => some (np, true)
  | _ => none

/-- The process that fork is creating, and whether its context is set up. -/
def Pos.child : Pos κ → Option (Nat × Bool)
  | .op o => o.child
  | .sub .. => none

/-- A step that neither parks nor resumes the thread, nor concerns a new process. -/
def Thread.Keeps (t t' : Thread κ) : Prop :=
  t'.parked = t.parked ∧ t'.pos.child = t.pos.child

/-- What an instruction of thread `i` does, apart from its effect on the machine. -/
def InstrEffect (slots : Nat → Slot) (i : Nat) (t t' : Thread κ) : Instr κ → Prop
  | .nop | .acquire _ | .panic _ | .update _ (.parent _) => t.Keeps t'
  | .release l => ¬ t'.Needs i l ∧ t.Keeps t'
  | .update j (.wakeup _) | .update j .kill => t.Needs i (.proc j) ∧ t.Keeps t'
  | .update j .clearChan => j = i ∧ t.Needs i (.proc i) ∧ t.Keeps t'
  | .update j (.sleep _) | .update j .yield | .update j (.exit _) =>
      j = i ∧ t.Needs i (.proc i) ∧ t.parked = false ∧ t'.parked = true ∧
        t'.pos.child = t.pos.child
  | .update j .ready => t.Needs i (.proc j) ∧ t'.parked = t.parked ∧
      t.pos.child = some (j, true) ∧ t'.pos.child = none
  | .update j .free => t.Needs i (.proc j) ∧ t'.parked = t.parked ∧ t'.pos.child = none ∧
      ((slots j).state = .ZOMBIE ∧ t.pos.child = none ∨ t.pos.child = some (j, false))
  | .alloc j => j < NPROC ∧ t.Needs i (.proc j) ∧ t'.parked = t.parked ∧
      (slots j).state = .UNUSED ∧ t.pos.child = none ∧ t'.pos.child = some (j, false)
  | .spawn j _ => t'.parked = t.parked ∧ t.pos.child = some (j, false) ∧
      t'.pos.child = some (j, true)
  | .swtch => t.parked = true ∧ t'.parked = false ∧ t'.resumes = true ∧
      t'.pos.child = t.pos.child

structure Effect (slots : Nat → Slot) (i : Nat) (t t' : Thread κ) (instr : Instr κ) :
    Prop where
  wf : t'.Wf i
  needs : ∀ l, t'.Needs i l → t.Needs i l ∨ instr = .acquire l
  parked : t.parked = true → instr = .swtch ∨ ∃ l, instr = .release l
  effect : InstrEffect slots i t t' instr

theorem Effect.calm {slots : Nat → Slot} {i : Nat} {t t' : Thread κ} {instr : Instr κ}
    (h : Effect slots i t t' instr) (hs : instr ≠ .swtch) (hr : ∀ l, instr ≠ .release l) :
    t.parked = false := by
  rw [← Bool.not_eq_true]
  intro hp
  rcases h.parked hp with h | ⟨l, h⟩
  · exact hs h
  · exact hr l h

@[simp] theorem Return.locks_op (back : Return κ) (i : Nat) :
    back.op.locks i = back.locks := by
  cases back <;> rfl

@[simp] theorem Return.child_op (back : Return κ) : back.op.child = none := by
  cases back <;> rfl

@[simp] theorem Return.bounded_op (back : Return κ) : back.op.bounded = true := by
  cases back <;> rfl

@[simp] theorem Return.parked_op (back : Return κ) : back.op.parked = false := by
  cases back <;> rfl

@[simp] theorem Return.proc_notMem_locks (back : Return κ) (j : Nat) :
    .proc j ∉ back.locks := by
  cases back <;> simp [Return.locks]

section next

variable {slots : Nat → Slot} {i : Nat} {instr : Instr κ} {p : Pos κ} {r r' : Int}

-- The positions are a finite table: each is checked against its row.
theorem Sub.next_effect {c : Sub} {back : Return κ}
    (h : c.next slots i back r = (instr, p, r')) :
    Effect slots i ⟨.idle, .sub c back, r⟩ ⟨.idle, p, r'⟩ instr := by
  cases c <;> simp only [Sub.next] at h <;> (try split at h) <;> (try split at h) <;>
    (obtain ⟨rfl, rfl, rfl⟩ := h) <;> constructor <;>
    simp +contextual [Thread.Wf, Thread.Needs, Pos.Needs, Yield.locks, Sub.locks, Sub.given,
      Thread.parked, Pos.parked, Pos.child, InstrEffect, Thread.Keeps, Sub.parked,
      Thread.resumes, Pos.resumes, Pos.bounded]
  case sleepRelock.needs lk => exact fun l _ => (em (Lock.spin lk = l)).symm

theorem Op.next_effect {o : Op κ} {b : Bool}
    (hbound : o.bounded = true)
    (h : o.next slots i b r = (instr, p, r')) :
    Effect slots i ⟨.idle, .op o, r⟩ ⟨.idle, p, r'⟩ instr := by
  cases o <;> simp only [Op.next] at h <;> (try split at h) <;> (try split at h) <;>
    (obtain ⟨rfl, rfl, rfl⟩ := h) <;> constructor <;>
    simp_all [Thread.Wf, Thread.Needs, Pos.Needs, Yield.locks, Sub.locks, Sub.given,
      Return.locks, Thread.parked, Pos.parked, Pos.child, InstrEffect, Thread.Keeps,
      Sub.parked, Op.locks, Op.parked, Op.child, Thread.resumes, Pos.resumes,
      Pos.bounded, Op.bounded]

theorem Call.next_effect {k : κ} {call : Call κ} {t : Thread κ}
    (h : call.next i r = (instr, t)) :
    Effect slots i ⟨.idle, .op (.client k), r⟩ t instr := by
  cases call <;> simp only [Call.next] at h <;> (try split at h) <;>
    (obtain ⟨rfl, rfl⟩ := h) <;> constructor <;>
    simp [Thread.Wf, Thread.Needs, Pos.Needs, Yield.locks, Sub.locks, Sub.given,
      Return.locks, Thread.parked, Pos.parked, Pos.child, InstrEffect, Thread.Keeps,
      Sub.parked, Op.locks, Op.parked, Op.child, Pos.bounded, Op.bounded]

variable {cl : Client κ δ ι} {data data' : δ} {x : ι} {ok : Bool} {t t' : Thread κ}

/-- The four kinds of code: yield, a subroutine, the client, and the rest. -/
inductive NextCases (cl : Client κ δ ι) (slots : Nat → Slot) (data : δ) (i : Nat) (x : ι)
    (ok : Bool) (t : Thread κ) : Instr κ → Thread κ → δ → Prop
  | acquire (h : t.yield = .acquire) :
      NextCases cl slots data i x ok t (.acquire (.proc i)) { t with yield := .ready } data
  | ready (h : t.yield = .ready) :
      NextCases cl slots data i x ok t (.update i .yield) { t with yield := .swtch } data
  | swtch (h : t.yield = .swtch) :
      NextCases cl slots data i x ok t .swtch { t with yield := .release } data
  | release (h : t.yield = .release) :
      NextCases cl slots data i x ok t (.release (.proc i)) { t with yield := .idle } data
  | sub {c : Sub} {back : Return κ} {instr : Instr κ} {p : Pos κ} {r : Int}
      (h : t.yield = .idle) (hpos : t.pos = .sub c back)
      (hnext : c.next slots i back t.ret = (instr, p, r)) :
      NextCases cl slots data i x ok t instr ⟨.idle, p, r⟩ data
  | client {k : κ} {call : Call κ} {data' : δ} (h : t.yield = .idle)
      (hpos : t.pos = .op (.client k)) (hnext : cl.step i k t.ret data x = some (call, data')) :
      NextCases cl slots data i x ok t (call.next i t.ret).1 (call.next i t.ret).2 data'
  | op {o : Op κ} {instr : Instr κ} {p : Pos κ} {r : Int} (h : t.yield = .idle)
      (hpos : t.pos = .op o) (hclient : ∀ k, o ≠ .client k)
      (hnext : o.next slots i ok t.ret = (instr, p, r)) :
      NextCases cl slots data i x ok t instr ⟨.idle, p, r⟩ data

theorem Thread.next_cases (h : t.next cl slots data i x ok = some (instr, t', data')) :
    NextCases cl slots data i x ok t instr t' data' := by
  obtain ⟨y, p, r⟩ := t
  cases y with
  | idle =>
      rcases p with o | ⟨c, back⟩
      · by_cases hk : ∃ k, o = .client k
        · obtain ⟨k, rfl⟩ := hk
          simp only [Thread.next] at h
          split at h
          · next call d hstep =>
              simp only [Option.some.injEq, Prod.mk.injEq] at h
              obtain ⟨rfl, rfl, rfl⟩ := h
              exact .client rfl rfl hstep
          · cases h
        · have hnext : Thread.next cl slots data i x ok ⟨.idle, .op o, r⟩ =
              some ((o.next slots i ok r).1, ⟨.idle, (o.next slots i ok r).2.1,
                (o.next slots i ok r).2.2⟩, data) := by
            cases o <;> first | rfl | exact absurd ⟨_, rfl⟩ hk
          rw [hnext] at h
          simp only [Option.some.injEq, Prod.mk.injEq] at h
          obtain ⟨rfl, rfl, rfl⟩ := h
          exact .op rfl rfl (fun k ho => hk ⟨k, ho⟩) rfl
      · simp only [Thread.next, Option.some.injEq, Prod.mk.injEq] at h
        obtain ⟨rfl, rfl, rfl⟩ := h
        exact .sub rfl rfl rfl
  | acquire =>
      cases h
      exact .acquire rfl
  | ready =>
      cases h
      exact .ready rfl
  | swtch =>
      cases h
      exact .swtch rfl
  | release =>
      cases h
      exact .release rfl

theorem Thread.next_effect (hwf : t.Wf i)
    (h : t.next cl slots data i x ok = some (instr, t', data')) :
    Effect slots i t t' instr := by
  -- Inside yield the position below needs no lock, so it is not parked either.
  have hpark : t.yield ≠ .idle → t.pos.parked = false := by
    intro hy
    have hnone := hwf.1 hy (.proc i)
    rcases hp : t.pos with o | ⟨c, back⟩ <;> rw [hp] at hnone
    · cases o <;> first | rfl | simp [Pos.Needs, Op.locks] at hnone
    · cases c <;> first | rfl | simp [Pos.Needs, Sub.locks] at hnone
  obtain ⟨y, p, r⟩ := t
  cases Thread.next_cases h with
  | sub hy hpos hnext =>
      cases hy
      cases hpos
      exact Sub.next_effect hnext
  | client hy hpos hnext =>
      cases hy
      cases hpos
      exact Call.next_effect rfl
  | op hy hpos hclient hnext =>
      cases hy
      cases hpos
      exact Op.next_effect hwf.2 hnext
  | acquire hy | ready hy | swtch hy | release hy =>
      cases hy
      have hnone := hwf.1 (by simp)
      have hbound := hwf.2
      have hp := hpark (by simp)
      constructor <;>
        simp_all [Thread.Wf, Thread.Needs, Yield.locks, InstrEffect, Thread.Keeps,
          Thread.parked, Thread.resumes]

end next

end Xv6.Sched
