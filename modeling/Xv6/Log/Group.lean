/-
Group commit of kernel/log.c: any number of processes call begin_op,
log_write and end_op.  One step is one critical section of log.lock, or one
stage of a commit, which runs without the lock.
-/
import Xv6.Lib.Transition
import Xv6.Log.Commit

namespace Xv6.Log

open Program Transition

/-- The next thing a committing process does. -/
inductive Stage
  | writeLog | writeHead | install | clear | erase | finish
deriving DecidableEq

/-- Where a process is.  `start` is inside begin_op before the lock is taken,
`sleeping` is asleep on `&log`; an operation carries a serial number and the
distinct blocks it has logged. -/
inductive Phase
  | idle
  | start
  | sleeping
  | inOp (op : Nat) (logged : List UInt32)
  | commit (stage : Stage)
deriving DecidableEq

/-- One call of log_write: which operation, in which transaction, which block.
Transactions are numbered in the order of their commits. -/
structure Event where
  op : Nat
  txn : Nat
  block : UInt32
deriving DecidableEq

/-- `struct log`, the device, the processes, and the history of the run: the
number of operations begun, every log_write, and the committed transactions. -/
structure Sys where
  outstanding : Int
  committing : Bool
  dev : Dev
  phase : Nat → Phase
  ops : Nat
  journal : List Event
  txns : List (List UInt32)

/-- The block numbers in `log.lh.block[0 .. n)`. -/
def LogHeader.listed (lh : LogHeader) : List UInt32 :=
  (List.range lh.n.toNat).map lh.block

def Sys.setPhase (s : Sys) (p : Nat) (ph : Phase) : Sys :=
  { s with phase := Function.update s.phase p ph }

/-- `wakeup(&log)`: every sleeper is about to retake the lock. -/
def Sys.wakeup (s : Sys) : Sys :=
  { s with phase := fun p =>
      if s.phase p = .sleeping then .start else s.phase p }

/-- The loop body of begin_op. -/
def beginOp (s : Sys) (p : Nat) : Sys :=
  if s.committing then s.setPhase p .sleeping
  else if s.dev.lh.n + (s.outstanding + 1) * MAXOPBLOCKS > LOGSIZE then
    -- this op might exhaust log space; wait for commit.
    s.setPhase p .sleeping
  else
    { s with outstanding := s.outstanding + 1, ops := s.ops + 1 }.setPhase p
      (.inOp s.ops [])

def endOp (s : Sys) (p : Nat) : Except String Sys :=
  let s := { s with outstanding := s.outstanding - 1 }
  if s.committing then .error "log.committing"
  else if s.outstanding = 0 then
    .ok ({ s with committing := true }.setPhase p (.commit .writeLog))
  else
    -- begin_op() may be waiting for log space.
    .ok (s.wakeup.setPhase p .idle)

/-- The slot where log_write stores the block: the first one that already
holds it, else the one after the last. -/
def absorb (lh : LogHeader) (b : UInt32) : Nat :=
  ((List.range lh.n.toNat).find? fun i => lh.block i = b).getD lh.n.toNat

/-- The header after log_write, and whether the block is new. -/
def addBlock (lh : LogHeader) (b : UInt32) : LogHeader :=
  let i := absorb lh b
  { n := if (i : Int) = lh.n then lh.n + 1 else lh.n
    block := Function.update lh.block i b }

def addPin (lh : LogHeader) (b : UInt32) (pins : Nat → Int) : Nat → Int :=
  if (absorb lh b : Int) = lh.n then
    Function.update pins b.toNat (pins b.toNat + 1)
  else pins

def logWrite (r : Region) (s : Sys) (p op : Nat) (logged : List UInt32)
    (b : UInt32) : Except String Sys :=
  if s.dev.lh.n ≥ LOGSIZE ∨ s.dev.lh.n ≥ (r.size : Int) - 1 then
    .error "too big a transaction"
  else if s.outstanding < 1 then .error "log_write outside of trans"
  else
    .ok ({ s with
      dev := { s.dev with
        lh := addBlock s.dev.lh b
        pins := addPin s.dev.lh b s.dev.pins }
      journal := ⟨op, s.txns.length, b⟩ :: s.journal }.setPhase p
        (.inOp op (if b ∈ logged then logged else b :: logged)))

/-- The device after one of the log's programs has run on it. -/
def runDev (prog : LogProg Unit) (s : Dev) : Dev :=
  match prog.run exec s with
  | .ok (_, s') => s'
  | .error e => nomatch e

/-- One stage of commit, and after the last one the end of end_op. -/
def commitStep (r : Region) (s : Sys) (p : Nat) : Stage → Sys
  | .writeLog =>
      if s.dev.lh.n > 0 then
        { s with dev := runDev (writeLog r) s.dev }.setPhase p (.commit .writeHead)
      else s.setPhase p (.commit .finish)
  | .writeHead =>
      { s with
        dev := runDev (writeHead r) s.dev
        txns := s.txns ++ [s.dev.lh.listed] }.setPhase p (.commit .install)
  | .install =>
      { s with dev := runDev (installTrans r false) s.dev }.setPhase p
        (.commit .clear)
  | .clear =>
      { s with dev := runDev clearHead s.dev }.setPhase p (.commit .erase)
  | .erase =>
      { s with dev := runDev (writeHead r) s.dev }.setPhase p (.commit .finish)
  | .finish => ({ s with committing := false }.wakeup).setPhase p .idle

inductive Act
  | call | acquire | write (b : UInt32) | endOp | commit
deriving DecidableEq

/-- What process `p` may do next.  log_write and end_op are called only inside
an operation. -/
def step (r : Region) (s : Sys) (a : Nat × Act) : Option (Except String Sys) :=
  match s.phase a.1, a.2 with
  | .idle, .call => some (.ok (s.setPhase a.1 .start))
  | .start, .acquire => some (.ok (beginOp s a.1))
  | .inOp op logged, .write b => some (logWrite r s a.1 op logged b)
  | .inOp _ _, .endOp => some (endOp s a.1)
  | .commit stage, .commit => some (.ok (commitStep r s a.1 stage))
  | _, _ => none

/-- After recovery: the header is empty and no operation is in progress. -/
structure Sys.Init (s : Sys) : Prop where
  outstanding : s.outstanding = 0
  committing : s.committing = false
  n : s.dev.lh.n = 0
  phase : ∀ p, s.phase p = .idle
  journal : s.journal = []
  txns : s.txns = []

/-- Every run, under a condition on the steps taken. -/
abbrev Runs (r : Region) (allowed : Sys → Nat × Act → Prop) : Sys → Prop :=
  Reach Sys.Init allowed (step r)

end Xv6.Log
