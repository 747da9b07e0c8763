/-
The memory of all processes together.  An operation takes the processes and pages
that it works on out of the pool, runs interleaved with the others command by
command, and puts back what it leaves.  Next to it stands the reference system,
in which every process has memory of its own.
-/
import Xv6.Lib.Pool
import Xv6.Lib.Transition
import Xv6.Vm.Process

namespace Xv6.Vm

open Bytes Program Interleave

structure Proc where
  pid : Nat
  mem : ProcMem
  deriving DecidableEq, Repr

/-- The operations on memory. -/
inductive Op
  | kalloc
  | kfree (f : Nat)
  | allocproc (pid : Nat) (unused : Bool)
  | freeproc (p : Proc)
  | uvmalloc (p : Proc) (newsz : Nat) (xperm : Pte)
  | uvmdealloc (p : Proc) (newsz : Nat)
  | uvmcopy (p c : Proc)
  | uvmclear (p : Proc) (v : Nat)
  | growproc (p : Proc) (n : Int)
  | fork (p : Proc) (pid : Nat) (unused : Bool)
  | exec (p : Proc) (file : Option ProgFile) (argv : List (List UInt8)) (scause : Nat)
  | userinit (pid : Nat) (initcode : List UInt8)
  | load (p : Proc) (va : Nat)
  | store (p : Proc) (va : Nat) (b : UInt8)
  | copyin (p : Proc) (srcva len : Nat)
  | copyout (p : Proc) (dstva : Nat) (src : List UInt8) (scause : Nat)

namespace Op

/-- The type of what an operation returns. -/
@[reducible] def Result : Op → Type
  | .kalloc => Nat
  | .kfree _ => Unit
  | .allocproc .. => Option ProcMem
  | .freeproc _ => Unit
  | .uvmalloc .. => Nat
  | .uvmdealloc .. => Nat
  | .uvmcopy .. => Int
  | .uvmclear .. => Unit
  | .growproc .. => Int × ProcMem
  | .fork .. => Option ProcMem
  | .exec .. => Option (ProcMem × ExecImage)
  | .userinit .. => ProcMem × Int
  | .load .. => Option UInt8
  | .store .. => Bool
  | .copyin .. => Int × List UInt8
  | .copyout .. => Int

def prog (K : Image) : (o : Op) → P o.Result
  | .kalloc => Prog.cmd .kalloc
  | .kfree f => Prog.cmd (.kfree f)
  | .allocproc _ unused => Vm.allocproc K unused
  | .freeproc p => Vm.freeproc p.mem
  | .uvmalloc p newsz xperm => Vm.uvmalloc p.mem.pagetable p.mem.sz newsz xperm
  | .uvmdealloc p newsz => Vm.uvmdealloc p.mem.pagetable p.mem.sz newsz
  | .uvmcopy p c => Vm.uvmcopy p.mem.pagetable c.mem.pagetable p.mem.sz
  | .uvmclear p v => Vm.uvmclear p.mem.pagetable (v * PGSIZE)
  | .growproc p n => Vm.growproc p.mem n
  | .fork p _ unused => Vm.fork K p.mem unused
  | .exec p file argv scause => Vm.exec K p.mem file argv scause
  | .userinit _ initcode => Vm.userinit K initcode
  | .load p va => userLoad p.mem.pagetable va
  | .store p va b => userStore p.mem.pagetable va b
  | .copyin p srcva len => Vm.copyin p.mem.pagetable srcva len
  | .copyout p dstva src scause => Vm.copyout p.mem.pagetable dstva src scause

/-- The processes that an operation works on. -/
def procs : Op → List Proc
  | .kalloc | .kfree _ | .allocproc .. | .userinit .. => []
  | .uvmcopy p c => [p, c]
  | .freeproc p | .uvmalloc p _ _ | .uvmdealloc p _ | .uvmclear p _ | .growproc p _
  | .fork p _ _ | .exec p _ _ _ | .load p _ | .store p _ _ | .copyin p _ _
  | .copyout p _ _ _ => [p]

/-- The page that a caller of kfree owns. -/
def frames : Op → List Nat
  | .kfree f => [f]
  | _ => []

/-- The identity of the process that an operation creates. -/
def newPids : Op → List Nat
  | .allocproc pid _ | .fork _ pid _ | .userinit pid _ => [pid]
  | _ => []

def pids (o : Op) : List Nat := o.procs.map Proc.pid ++ o.newPids

/-- Whether an operation may free the page tables that it works on. -/
def frees : Op → Bool
  | .freeproc _ | .exec .. => true
  | _ => false

/-- What the callers in the kernel promise. -/
def Ready : Op → Prop
  | .uvmalloc _ _ xperm => IsFlags xperm ∧ xperm.has PTE_COW = false
  | .uvmcopy _ c => c.mem.sz = 0
  | .uvmclear p v => v < pagesOf p.mem.sz
  | .exec _ _ _ scause | .copyout _ _ _ scause => scause ≠ 13
  | .userinit _ initcode => initcode.length < PGSIZE
  | _ => True

/-- The processes that are there afterwards. -/
def back : (o : Op) → o.Result → List Proc
  | .kalloc, _ | .kfree _, _ | .freeproc _, _ => []
  | .allocproc pid _, v => (v.map (Proc.mk pid)).toList
  | .uvmalloc p _ _, sz =>
      [if sz = (0 : Nat) then p else { p with mem := { p.mem with sz := sz } }]
  | .uvmdealloc p _, sz => [{ p with mem := { p.mem with sz := sz } }]
  | .uvmcopy p c, x =>
      [p, if x = (0 : Int) then { c with mem := { c.mem with sz := p.mem.sz } } else c]
  | .growproc p _, x => [{ p with mem := { p.mem with sz := x.2.sz } }]
  | .fork p pid _, v => p :: (v.map (Proc.mk pid)).toList
  | .exec p _ _ _, v => [match v with | none => p | some x => { p with mem := x.1 }]
  | .userinit pid _, x => [⟨pid, x.1⟩]
  | .uvmclear p _, _ | .load p _, _ | .store p _ _, _ | .copyin p _ _, _
  | .copyout p _ _ _, _ => [p]

/-- The pages of the kernel that are there afterwards. -/
def backFrames : (o : Op) → o.Result → List Nat
  | .kalloc, p => if p = (0 : Nat) then [] else [p]
  | _, _ => []

/-- Boot goes on only if the page of the first process was mapped. -/
def accepts : (o : Op) → o.Result → Bool
  | .userinit .., x => x.2 == 0
  | _, _ => true

end Op

/-- An operation that has returned. -/
abbrev Done := (o : Op) × o.Result

/-- The state of the memory system; `log` lists the operations that have returned,
the last one first. -/
structure Sys where
  k : Kmem
  nextpid : Nat
  procs : List Proc
  frames : List Nat
  busy : List (Task MemCmd Op.Result)
  log : List Done

inductive Action
  | start (o : Op)
  | run (i : Nat)
  | finish (i : Nat)

namespace Sys

def canStart (s : Sys) (o : Op) : Bool :=
  decide (o.procs.Subperm s.procs) && decide (o.frames.Subperm s.frames) &&
    o.newPids.all (· == s.nextpid)

def start (K : Image) (s : Sys) (o : Op) : Sys :=
  { s with
    nextpid := s.nextpid + o.newPids.length
    procs := s.procs.diff o.procs
    frames := s.frames.diff o.frames
    busy := ⟨o, o.prog K⟩ :: s.busy }

def finish (s : Sys) (i : Nat) (o : Op) (v : o.Result) : Sys :=
  { s with
    procs := o.back v ++ s.procs
    frames := o.backFrames v ++ s.frames
    busy := s.busy.eraseIdx i
    log := ⟨o, v⟩ :: s.log }

/-- One step of the system. -/
def step (K : Image) (s : Sys) : Action → Option (Except KErr Sys)
  | .start o => if s.canStart o then some (.ok (s.start K o)) else none
  | .run i =>
      match s.busy[i]? with
      | some ⟨o, .call c next⟩ =>
          match handler K _ c s.k with
          | .ok (answer, k') =>
              some (.ok { s with k := k', busy := s.busy.set i ⟨o, next answer⟩ })
          | .error e => some (.error e)
      | _ => none
  | .finish i =>
      match s.busy[i]? with
      | some ⟨o, .ret v⟩ => if o.accepts v then some (.ok (s.finish i o v)) else none
      | _ => none

/-- The system after kinit. -/
structure Booted (K : Image) (s : Sys) : Prop where
  kinit : ∃ k, k.Blank ∧ Vm.kinit K k = .ok ((), s.k)
  procs : s.procs = []
  frames : s.frames = []
  busy : s.busy = []
  log : s.log = []

def Allowed (_ : Sys) : Action → Prop
  | .start o => o.Ready
  | _ => True

/-- The states of the memory system in all interleavings. -/
def Reachable (K : Image) : Sys → Prop :=
  Transition.Reach (Booted K) Allowed (step K)

end Sys

/-- The memories of the processes in the reference system. -/
abbrev Eager := Nat → Option Mem

/-- What an operation that returns does in the reference system.  Here fork gives
the child pages of its own at once. -/
def Eager.Step (R : Eager) : (o : Op) → o.Result → Eager → Prop
  | .kalloc, _, R' | .kfree _, _, R' => R' = R
  | .allocproc pid _, v, R' =>
      R' = if v.isSome then Function.update R pid (some fun _ => none) else R
  | .freeproc p, _, R' => R' = Function.update R p.pid none
  | .uvmalloc p _ xperm, sz, R' => ∃ m, R p.pid = some m ∧
      R' = if sz = (0 : Nat) then R else Function.update R p.pid
        (some (m.alloc (pagesOf p.mem.sz) (pagesOf sz) xperm))
  | .uvmdealloc p _, sz, R' => ∃ m, R p.pid = some m ∧
      R' = Function.update R p.pid (some (m.dealloc (pagesOf sz)))
  | .uvmcopy p c, x, R' => ∃ m, R p.pid = some m ∧
      R' = if x = (0 : Int) then Function.update R c.pid (some m) else R
  | .uvmclear p v, _, R' => ∃ m, R p.pid = some m ∧
      R' = Function.update R p.pid (some (m.clear v))
  | .growproc p _, x, R' => ∃ m, R p.pid = some m ∧
      R' = Function.update R p.pid (some (m.resize p.mem.sz x.2.sz))
  | .fork p pid _, v, R' => ∃ m, R p.pid = some m ∧
      R' = if v.isSome then Function.update R pid (some m) else R
  | .exec p _ _ _, v, R' => match v with
      | none => R' = R
      | some _ => ∃ m, R' = Function.update R p.pid (some m)
  | .userinit pid _, _, R' => ∃ m, R' = Function.update R pid (some m)
  | .load p va, v, R' => ∃ m, R p.pid = some m ∧ v = m.load va ∧ R' = R
  | .store p va b, v, R' => ∃ m m', R p.pid = some m ∧ v = true ∧
      m.store va b = some m' ∧ R' = Function.update R p.pid (some m')
  | .copyin p srcva len, v, R' => ∃ m, R p.pid = some m ∧
      v = m.copyin len srcva len ∧ R' = R
  | .copyout p dstva src _, x, R' => ∃ m, R p.pid = some m ∧
      x = (Mem.copyout src.length dstva src m).1 ∧
      R' = Function.update R p.pid (some (Mem.copyout src.length dstva src m).2)

/-- The reference system after operations have returned. -/
inductive Eager.Runs : List Done → Eager → Prop
  | nil : Eager.Runs [] fun _ => none
  | cons {log : List Done} {R R' : Eager} {o : Op} {v : o.Result}
      (h : Eager.Runs log R) (hstep : R.Step o v R') : Eager.Runs (⟨o, v⟩ :: log) R'

end Xv6.Vm
