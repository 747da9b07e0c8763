/-
push_off and pop_off of kernel/spinlock.c, and what calls them: acquire and release, and
the scheduler, sched, yield and sleep of kernel/proc.c.  Kernel threads run on any number
of CPUs; a thread that gave up its CPU may go on at another one.
-/
import Xv6.Lib.Transition
import Xv6.Sched.Thread

namespace Xv6.Spinlock

open Sched (Lock ProcState)

/-- What the code is made of.  `lock` is acquire behind push_off, `unlock` is release
before pop_off, and `sched` is the assignment to p->state with the call of sched. -/
inductive Instr
  | pushOff
  | popOff
  | lock (l : Lock)
  | unlock (l : Lock)
  | intr (on : Bool)
  | sched (st : ProcState)
  | wake (j : Nat)
  | dispatch (j : Nat)
deriving DecidableEq, Repr

def acquire (l : Lock) : List Instr := [.pushOff, .lock l]

def release (l : Lock) : List Instr := [.unlock l, .popOff]

def myproc : List Instr := [.pushOff, .popOff]

def yield (i : Nat) : List Instr :=
  myproc ++ acquire (.proc i) ++ myproc ++ [.sched .RUNNABLE] ++ release (.proc i)

def sleep (i : Nat) (lk : Lock) : List Instr :=
  myproc ++ acquire (.proc i) ++ release lk ++ myproc ++ [.sched .SLEEPING] ++
    release (.proc i) ++ acquire lk

/-- The body of the loop of wakeup, for a process that sleeps on the channel.  `me` is
the process of the caller. -/
def wakeup (me : Option Nat) (j : Nat) : List Instr :=
  if me = some j then myproc else myproc ++ acquire (.proc j) ++ [.wake j] ++ release (.proc j)

def forkret (i : Nat) : List Instr := myproc ++ release (.proc i)

/-- The body of the inner loop of scheduler. -/
def scan (j : Nat) : List Instr := acquire (.proc j) ++ [.dispatch j] ++ release (.proc j)

/-- `struct cpu`, and sstatus.SIE.  `pushes` and `pops` count the calls of push_off and
pop_off on this CPU; no code reads them. -/
structure Cpu where
  noff : Int := 0
  intena : Bool := false
  sie : Bool := false
  proc : Option Nat := none
  pushes : Nat := 0
  pops : Nat := 0
deriving DecidableEq, Repr

/-- A kernel thread: the code before it, whether it is in sched behind swtch, and its
variable intena there.  No code reads the rest: the push_offs it has not undone, the
locks it holds, and the interrupt state before the outermost of its push_offs. -/
structure Thread where
  code : List Instr := []
  inSched : Bool := false
  intena : Bool := false
  nest : Nat := 0
  held : List Lock := []
  before : Option Bool := none
deriving DecidableEq, Repr

structure Machine where
  cpus : Nat → Cpu
  threads : Nat → Thread
  schedulers : Nat → Thread
  locks : Lock → Option Nat
  state : Nat → ProcState

/-- `push_off`. -/
def Cpu.pushOff (m : Cpu) : Cpu :=
  { m with
    sie := false
    intena := if m.noff = 0 then m.sie else m.intena
    noff := m.noff + 1
    pushes := m.pushes + 1 }

/-- `pop_off`. -/
def Cpu.popOff (m : Cpu) : Except String Cpu :=
  if m.sie then .error "pop_off - interruptible"
  else if m.noff < 1 then .error "pop_off"
  else .ok { m with
    noff := m.noff - 1
    sie := if m.noff - 1 = 0 ∧ m.intena then true else m.sie
    pops := m.pops + 1 }

def Thread.pushed (t : Thread) (sie : Bool) : Thread :=
  { t with nest := t.nest + 1, before := if t.nest = 0 then some sie else t.before }

namespace Machine

variable (s : Machine)

/-- The thread that runs on a CPU: that of its process, or its scheduler. -/
def running (c : Nat) : Thread :=
  match (s.cpus c).proc with
  | some i => s.threads i
  | none => s.schedulers c

/-- A CPU and the thread on it after a step that does not switch. -/
def put (c : Nat) (m : Cpu) (t : Thread) : Machine :=
  match m.proc with
  | some i =>
      { s with cpus := Function.update s.cpus c m, threads := Function.update s.threads i t }
  | none =>
      { s with cpus := Function.update s.cpus c m,
               schedulers := Function.update s.schedulers c t }

def setState (j : Nat) (st : ProcState) : Machine :=
  { s with state := Function.update s.state j st }

def setLock (l : Lock) (owner : Option Nat) : Machine :=
  { s with locks := Function.update s.locks l owner }

/-- `sched` up to swtch, behind the assignment to the state of its process. -/
def sched (c i : Nat) (t : Thread) : Option (Except String Machine) :=
  let m := s.cpus c
  if s.locks (.proc i) ≠ some c then some (.error "sched p->lock")
  else if m.noff ≠ 1 then some (.error "sched locks")
  else if s.state i = .RUNNING then some (.error "sched running")
  else if m.sie then some (.error "sched interruptible")
  else some (.ok
    { s with
      threads := Function.update s.threads i { t with intena := m.intena, inSched := true }
      cpus := Function.update s.cpus c { m with proc := none } })

/-- One instruction on CPU `c`; `t` is the thread with this instruction behind it. -/
def exec (c : Nat) (t : Thread) : Instr → Option (Except String Machine)
  | .pushOff => some (.ok (s.put c (s.cpus c).pushOff (t.pushed (s.cpus c).sie)))
  | .popOff =>
      match (s.cpus c).popOff with
      | .error msg => some (.error msg)
      | .ok m => some (.ok (s.put c m { t with nest := t.nest - 1 }))
  | .lock l =>
      -- holding(lk), and the loop that waits for the lock
      if s.locks l = some c then some (.error "acquire")
      else if s.locks l = none then
        some (.ok ((s.setLock l (some c)).put c (s.cpus c) { t with held := l :: t.held }))
      else none
  | .unlock l =>
      if s.locks l = some c then
        some (.ok ((s.setLock l none).put c (s.cpus c) { t with held := t.held.erase l }))
      else some (.error "release")
  | .intr on => some (.ok (s.put c { s.cpus c with sie := on } t))
  | .sched st =>
      match (s.cpus c).proc with
      | some i => (s.setState i st).sched c i t
      | none => none
  | .wake j =>
      let st := if s.state j = .SLEEPING then .RUNNABLE else s.state j
      some (.ok ((s.setState j st).put c (s.cpus c) t))
  | .dispatch j =>
      if s.state j = .RUNNABLE then
        some (.ok
          { s.setState j .RUNNING with
            schedulers := Function.update s.schedulers c t
            cpus := Function.update s.cpus c { s.cpus c with proc := some j } })
      else some (.ok (s.put c (s.cpus c) t))

end Machine

/-- What a thread may call. -/
inductive Op
  | pushOff
  | popOff
  | acquire (l : Lock)
  | release (l : Lock)
  | sleep (lk : Lock)
  | yield
  | wakeup (j : Nat)
  | intr (on : Bool)
  | scan (j : Nat)
deriving DecidableEq, Repr

def Op.code (me : Option Nat) : Op → List Instr
  | .pushOff => [.pushOff]
  | .popOff => [.popOff]
  | .acquire l => Spinlock.acquire l
  | .release l => Spinlock.release l
  | .sleep lk => me.elim [] (Spinlock.sleep · lk)
  | .yield => me.elim [] Spinlock.yield
  | .wakeup j => Spinlock.wakeup me j
  | .intr on => [.intr on]
  | .scan j => Spinlock.scan j

/-- What an interrupt does: the timer makes a process yield, a device takes a lock or
wakes a process up. -/
inductive Handler
  | timer
  | device (l : Lock)
  | wakeup (j : Nat)
deriving DecidableEq, Repr

def Handler.code (me : Option Nat) : Handler → List Instr
  | .timer => me.elim [] Spinlock.yield
  | .device l => Spinlock.acquire l ++ Spinlock.release l
  | .wakeup j => Spinlock.wakeup me j

/-- A thread calls something, is interrupted, or executes an instruction. -/
inductive Action
  | call (c : Nat) (op : Op)
  | trap (c : Nat) (h : Handler)
  | step (c : Nat)
deriving DecidableEq, Repr

def Machine.step (s : Machine) : Action → Option (Except String Machine)
  | .call c op =>
      let t := s.running c
      if t.inSched = false ∧ t.code = [] then
        some (.ok (s.put c (s.cpus c) { t with code := op.code (s.cpus c).proc }))
      else none
  | .trap c h =>
      -- the hardware clears SIE, and the return from kerneltrap sets it again
      let t := s.running c
      if t.inSched = false ∧ (s.cpus c).sie = true then
        some (.ok (s.put c (s.cpus c) { t with
          code := .intr false :: (h.code (s.cpus c).proc ++ .intr true :: t.code) }))
      else none
  | .step c =>
      let t := s.running c
      if t.inSched then
        -- back from swtch: `mycpu()->intena = intena`
        some (.ok (s.put c { s.cpus c with intena := t.intena } { t with inSched := false }))
      else
        match t.code with
        | [] => none
        | instr :: code => s.exec c { t with code := code } instr

/-- Every CPU enters its scheduler; the processes that are there begin at forkret. -/
def boot (state : Nat → ProcState) : Machine where
  cpus _ := {}
  threads i := { code := forkret i, nest := 1, held := [.proc i] }
  schedulers _ := {}
  locks _ := none
  state := state

/-- The discipline of the callers.  A thread releases the locks that it holds, in any
order, and undoes the push_offs that it made; it goes to sleep with no lock but the one
it names, and yields with none; interrupts are switched outside of all push_offs. -/
def Op.Allowed (me : Option Nat) (t : Thread) : Op → Prop
  | .pushOff => True
  | .popOff => t.held.length < t.nest
  | .acquire l => l ∉ t.held
  | .release l => l ∈ t.held
  | .sleep lk => (∃ i, me = some i ∧ lk ≠ .proc i) ∧ t.held = [lk] ∧ t.nest = 1
  | .yield => me ≠ none ∧ t.nest = 0
  | .wakeup j => .proc j ∉ t.held
  | .intr _ => t.nest = 0
  | .scan _ => me = none ∧ t.nest = 0

def Allowed (s : Machine) : Action → Prop
  | .call c op => op.Allowed (s.cpus c).proc (s.running c)
  | .trap _ _ => True
  | .step _ => True

/-- The states in all interleavings of disciplined threads. -/
def Reachable : Machine → Prop :=
  Transition.Reach (fun s => ∃ state, s = boot state) Allowed Machine.step

end Xv6.Spinlock
