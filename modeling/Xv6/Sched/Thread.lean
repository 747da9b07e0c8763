/-
The code of kernel/proc.c as a kernel thread executes it.  A position says where a
thread is; `next` gives the lock operation, the switch or the piece of straight-line
code that it executes there, and the position after it.
-/
import Mathlib.Data.List.Basic
import Xv6.Param

namespace Xv6.Sched

/-- `enum procstate`. -/
inductive ProcState
  | UNUSED | USED | SLEEPING | RUNNABLE | RUNNING | ZOMBIE
deriving DecidableEq, Repr

/-- What a process sleeps on: a `struct proc`, or an address elsewhere. -/
inductive Chan
  | proc (i : Nat)
  | addr (n : Nat)
deriving DecidableEq, Repr

/-- The spinlocks: the `p->lock` of each slot, and all others by number. -/
inductive Lock
  | proc (i : Nat)
  | spin (n : Nat)
deriving DecidableEq, Repr

/-- The number of wait_lock. -/
def waitLock : Nat := 0

/-- The slot of the first process. -/
def initproc : Nat := 0

/-- `struct proc`: the fields that kernel/proc.c uses to schedule and collect. -/
structure Slot where
  state : ProcState := .UNUSED
  chan : Option Chan := none
  killed : Int := 0
  xstate : Int := 0
  pid : Int := 0
  parent : Option Nat := none
deriving DecidableEq, Repr

/-- The assignments to a slot between two lock operations. -/
inductive Update
  | wakeup (chan : Option Chan)
  | kill
  | sleep (chan : Chan)
  | clearChan
  | yield
  | exit (status : Int)
  | parent (q : Nat)
  | ready
  | free
deriving DecidableEq, Repr

def Update.apply : Update → Slot → Slot
  | .wakeup chan, p =>
      if p.state = .SLEEPING ∧ p.chan = chan then { p with state := .RUNNABLE } else p
  | .kill, p =>
      { p with killed := 1, state := if p.state = .SLEEPING then .RUNNABLE else p.state }
  | .sleep chan, p => { p with chan := some chan, state := .SLEEPING }
  | .clearChan, p => { p with chan := none }
  | .yield, p => { p with state := .RUNNABLE }
  | .exit status, p => { p with xstate := status, state := .ZOMBIE }
  | .parent q, p => { p with parent := some q }
  | .ready, p => { p with state := .RUNNABLE }
  | .free, _ => {}

/-- Where a thread is inside yield; a timer interrupt enters it at any point at
which the thread holds no lock. -/
inductive Yield
  | idle | acquire | ready | swtch | release
deriving DecidableEq, Repr

/-- Where a thread is inside sleep, wakeup or killed. -/
inductive Sub
  | sleep (chan : Chan) (lk : Nat)
  | sleepRelease (chan : Chan) (lk : Nat)
  | sleepMark (chan : Chan) (lk : Nat)
  | sleepSched (chan : Chan) (lk : Nat)
  | sleepWoken (chan : Chan) (lk : Nat)
  | sleepUnlock (chan : Chan) (lk : Nat)
  | sleepRelock (chan : Chan) (lk : Nat)
  | wakeup (chan : Option Chan) (j : Nat)
  | wakeupTest (chan : Option Chan) (j : Nat)
  | wakeupUnlock (chan : Option Chan) (j : Nat)
  | killed
  | killedRead
  | killedUnlock
deriving DecidableEq, Repr

/-- Where sleep, wakeup or killed returns to. -/
inductive Return (κ : Type)
  | client (k : κ)
  | exitReparent (status : Int) (j : Nat)
  | exitLock (status : Int)
  | waitKilled (addr : Nat) (k : κ)
  | waitAgain (addr : Nat) (k : κ)
deriving DecidableEq, Repr

/-- Where a thread is outside of sleep, wakeup and killed.  `client` is code outside
of kernel/proc.c; a call carries the place where its caller goes on. -/
inductive Op (κ : Type)
  | client (k : κ)
  | forkret (k : κ)
  | fork (j : Nat) (k child : κ)
  | forkTest (j : Nat) (k child : κ)
  | forkSkip (j : Nat) (k child : κ)
  | forkBuild (np : Nat) (k child : κ)
  | forkUndo (np : Nat) (k : κ)
  | forkUnlock (np : Nat) (pid : Int) (k : κ)
  | forkWait (np : Nat) (pid : Int) (k : κ)
  | forkParent (np : Nat) (pid : Int) (k : κ)
  | forkWaitUnlock (np : Nat) (pid : Int) (k : κ)
  | forkLock (np : Nat) (pid : Int) (k : κ)
  | forkReady (np : Nat) (pid : Int) (k : κ)
  | forkDone (np : Nat) (pid : Int) (k : κ)
  | exit (status : Int)
  | exitReparent (status : Int) (j : Nat)
  | exitLock (status : Int)
  | exitMark (status : Int)
  | exitWaitUnlock
  | exitSched
  | exitReturned
  | wait (addr : Nat) (k : κ)
  | waitScan (addr j : Nat) (havekids : Bool) (k : κ)
  | waitTest (addr j : Nat) (k : κ)
  | waitSkip (addr j : Nat) (k : κ)
  | waitKilled (addr : Nat) (k : κ)
  | waitUnlock (j : Nat) (r : Int) (k : κ)
  | waitReturn (r : Int) (k : κ)
  | kill (pid : Int) (j : Nat) (k : κ)
  | killTest (pid : Int) (j : Nat) (k : κ)
  | killSkip (pid : Int) (j : Nat) (k : κ)
  | killUnlock (j : Nat) (k : κ)
deriving DecidableEq, Repr

inductive Pos (κ : Type)
  | op (o : Op κ)
  | sub (c : Sub) (back : Return κ)
deriving DecidableEq, Repr

/-- A kernel thread: `ret` is what the last call returned. -/
structure Thread (κ : Type) where
  yield : Yield := .idle
  pos : Pos κ
  ret : Int := 0
deriving DecidableEq, Repr

/-- What a thread executes in one step. -/
inductive Instr (κ : Type)
  | nop
  | acquire (l : Lock)
  | release (l : Lock)
  | update (j : Nat) (u : Update)
  | alloc (j : Nat)
  | spawn (j : Nat) (k : κ)
  | swtch
  | panic (msg : String)
deriving DecidableEq, Repr

/-- What the code outside of kernel/proc.c asks for.  Its locks are the spinlocks
other than wait_lock, its channels are no process. -/
inductive Call (κ : Type)
  | goto (k : κ)
  | acquire (n : Nat) (k : κ)
  | release (n : Nat) (k : κ)
  | sleep (chan n : Nat) (k : κ)
  | wakeup (chan : Nat) (k : κ)
  | killed (k : κ)
  | yield (k : κ)
  | kill (pid : Int) (k : κ)
  | fork (k child : κ)
  | exit (status : Int)
  | wait (addr : Nat) (k : κ)
deriving DecidableEq, Repr

/-- The code outside of kernel/proc.c: from a place, the result of the last call, the
shared data and a choice of the environment to the next call and the data after it. -/
structure Client (κ δ ι : Type) where
  step : (i : Nat) → κ → (ret : Int) → δ → ι → Option (Call κ × δ)

variable {κ δ ι : Type}

/-- The position after a subroutine has returned. -/
def Return.op : Return κ → Op κ
  | .client k => .client k
  | .exitReparent status j => .exitReparent status j
  | .exitLock status => .exitLock status
  | .waitKilled addr k => .waitKilled addr k
  | .waitAgain addr k => .waitScan addr 0 false k

/-- The code of sleep, wakeup and killed. -/
def Sub.next (slots : Nat → Slot) (i : Nat) (back : Return κ) (ret : Int) :
    Sub → Instr κ × Pos κ × Int
  | .sleep chan lk => (.acquire (.proc i), .sub (.sleepRelease chan lk) back, ret)
  | .sleepRelease chan lk => (.release (.spin lk), .sub (.sleepMark chan lk) back, ret)
  | .sleepMark chan lk => (.update i (.sleep chan), .sub (.sleepSched chan lk) back, ret)
  | .sleepSched chan lk => (.swtch, .sub (.sleepWoken chan lk) back, ret)
  | .sleepWoken chan lk => (.update i .clearChan, .sub (.sleepUnlock chan lk) back, ret)
  | .sleepUnlock chan lk => (.release (.proc i), .sub (.sleepRelock chan lk) back, ret)
  | .sleepRelock _ lk => (.acquire (.spin lk), .op back.op, ret)
  | .wakeup chan j =>
      if j ≥ NPROC then (.nop, .op back.op, ret)
      else if j = i then (.nop, .sub (.wakeup chan (j + 1)) back, ret)
      else (.acquire (.proc j), .sub (.wakeupTest chan j) back, ret)
  | .wakeupTest chan j => (.update j (.wakeup chan), .sub (.wakeupUnlock chan j) back, ret)
  | .wakeupUnlock chan j => (.release (.proc j), .sub (.wakeup chan (j + 1)) back, ret)
  | .killed => (.acquire (.proc i), .sub .killedRead back, ret)
  | .killedRead => (.nop, .sub .killedUnlock back, (slots i).killed)
  | .killedUnlock => (.release (.proc i), .op back.op, ret)

/-- A call of the code outside of kernel/proc.c. -/
def Call.next (i : Nat) (ret : Int) : Call κ → Instr κ × Thread κ
  | .goto k => (.nop, { pos := .op (.client k), ret := ret })
  | .acquire n k => (.acquire (.spin (n + 1)), { pos := .op (.client k), ret := ret })
  | .release n k => (.release (.spin (n + 1)), { pos := .op (.client k), ret := ret })
  | .sleep chan n k =>
      (.nop, { pos := .sub (.sleep (.addr chan) (n + 1)) (.client k), ret := ret })
  | .wakeup chan k =>
      (.nop, { pos := .sub (.wakeup (some (.addr chan)) 0) (.client k), ret := ret })
  | .killed k => (.nop, { pos := .sub .killed (.client k), ret := ret })
  | .yield k => (.nop, { yield := .acquire, pos := .op (.client k), ret := ret })
  | .kill pid k => (.nop, { pos := .op (.kill pid 0 k), ret := ret })
  | .fork k child => (.nop, { pos := .op (.fork 0 k child), ret := ret })
  | .exit status =>
      if i = initproc then (.panic "init exiting", { pos := .op (.exit status), ret := ret })
      else (.nop, { pos := .op (.exit status), ret := ret })
  | .wait addr k => (.nop, { pos := .op (.wait addr k), ret := ret })

/-- The code of fork, exit, wait, kill and forkret.  `ok` says whether there is
memory for a new process, and whether the status could be copied out. -/
def Op.next (slots : Nat → Slot) (i : Nat) (ok : Bool) (ret : Int) :
    Op κ → Instr κ × Pos κ × Int
  | .client k => (.nop, .op (.client k), ret)
  | .forkret k => (.release (.proc i), .op (.client k), ret)
  | .fork j k child =>
      if j ≥ NPROC then (.nop, .op (.client k), -1)
      else (.acquire (.proc j), .op (.forkTest j k child), ret)
  | .forkTest j k child =>
      if (slots j).state = .UNUSED then (.alloc j, .op (.forkBuild j k child), ret)
      else (.nop, .op (.forkSkip j k child), ret)
  | .forkSkip j k child => (.release (.proc j), .op (.fork (j + 1) k child), ret)
  | .forkBuild np k child =>
      if ok then (.spawn np child, .op (.forkUnlock np (slots np).pid k), ret)
      else (.update np .free, .op (.forkUndo np k), ret)
  | .forkUndo np k => (.release (.proc np), .op (.client k), -1)
  | .forkUnlock np pid k => (.release (.proc np), .op (.forkWait np pid k), ret)
  | .forkWait np pid k => (.acquire (.spin waitLock), .op (.forkParent np pid k), ret)
  | .forkParent np pid k => (.update np (.parent i), .op (.forkWaitUnlock np pid k), ret)
  | .forkWaitUnlock np pid k => (.release (.spin waitLock), .op (.forkLock np pid k), ret)
  | .forkLock np pid k => (.acquire (.proc np), .op (.forkReady np pid k), ret)
  | .forkReady np pid k => (.update np .ready, .op (.forkDone np pid k), ret)
  | .forkDone np pid k => (.release (.proc np), .op (.client k), pid)
  | .exit status => (.acquire (.spin waitLock), .op (.exitReparent status 0), ret)
  | .exitReparent status j =>
      if j ≥ NPROC then
        (.nop, .sub (.wakeup ((slots i).parent.map .proc) 0) (.exitLock status), ret)
      else if (slots j).parent = some i then
        (.update j (.parent initproc),
          .sub (.wakeup (some (.proc initproc)) 0) (.exitReparent status (j + 1)), ret)
      else (.nop, .op (.exitReparent status (j + 1)), ret)
  | .exitLock status => (.acquire (.proc i), .op (.exitMark status), ret)
  | .exitMark status => (.update i (.exit status), .op .exitWaitUnlock, ret)
  | .exitWaitUnlock => (.release (.spin waitLock), .op .exitSched, ret)
  | .exitSched => (.swtch, .op .exitReturned, ret)
  | .exitReturned => (.panic "zombie exit", .op .exitReturned, ret)
  | .wait addr k => (.acquire (.spin waitLock), .op (.waitScan addr 0 false k), ret)
  | .waitScan addr j havekids k =>
      if j ≥ NPROC then
        if havekids then (.nop, .sub .killed (.waitKilled addr k), ret)
        else (.nop, .op (.waitReturn (-1) k), ret)
      else if (slots j).parent = some i then
        (.acquire (.proc j), .op (.waitTest addr j k), ret)
      else (.nop, .op (.waitScan addr (j + 1) havekids k), ret)
  | .waitTest addr j k =>
      if (slots j).state = .ZOMBIE then
        if addr ≠ 0 ∧ ok = false then (.nop, .op (.waitUnlock j (-1) k), ret)
        else (.update j .free, .op (.waitUnlock j (slots j).pid k), ret)
      else (.nop, .op (.waitSkip addr j k), ret)
  | .waitSkip addr j k => (.release (.proc j), .op (.waitScan addr (j + 1) true k), ret)
  | .waitKilled addr k =>
      if ret ≠ 0 then (.nop, .op (.waitReturn (-1) k), ret)
      else (.nop, .sub (.sleep (.proc i) waitLock) (.waitAgain addr k), ret)
  | .waitUnlock j r k => (.release (.proc j), .op (.waitReturn r k), ret)
  | .waitReturn r k => (.release (.spin waitLock), .op (.client k), r)
  | .kill pid j k =>
      if j ≥ NPROC then (.nop, .op (.client k), -1)
      else (.acquire (.proc j), .op (.killTest pid j k), ret)
  | .killTest pid j k =>
      if (slots j).pid = pid then (.update j .kill, .op (.killUnlock j k), ret)
      else (.nop, .op (.killSkip pid j k), ret)
  | .killSkip pid j k => (.release (.proc j), .op (.kill pid (j + 1) k), ret)
  | .killUnlock j k => (.release (.proc j), .op (.client k), 0)

/-- What the thread of process `i` does next. -/
def Thread.next (cl : Client κ δ ι) (slots : Nat → Slot) (data : δ) (i : Nat) (x : ι)
    (ok : Bool) (t : Thread κ) : Option (Instr κ × Thread κ × δ) :=
  match t.yield with
  | .acquire => some (.acquire (.proc i), { t with yield := .ready }, data)
  | .ready => some (.update i .yield, { t with yield := .swtch }, data)
  | .swtch => some (.swtch, { t with yield := .release }, data)
  | .release => some (.release (.proc i), { t with yield := .idle }, data)
  | .idle =>
      match t.pos with
      | .sub c back =>
          let (instr, pos, ret) := c.next slots i back t.ret
          some (instr, { t with pos := pos, ret := ret }, data)
      | .op (.client k) =>
          match cl.step i k t.ret data x with
          | some (call, data') =>
              let (instr, t') := call.next i t.ret
              some (instr, t', data')
          | none => none
      | .op o =>
          let (instr, pos, ret) := o.next slots i ok t.ret
          some (instr, { t with pos := pos, ret := ret }, data)

end Xv6.Sched
