/-
fork of kernel/proc.c with the entry of the process table that it takes: when an allocation
fails it gives back the entry and every frame.
-/
import Xv6.Lib.Failure
import Xv6.Sched.Thread
import Xv6.Vm.CopyoutRange

namespace Xv6.Vm

open Bytes Program Interleave Refs Sched

/-- The fields of struct proc that fork, allocproc and freeproc use, apart from the saved
context and the lock.  Pointers are addresses, 0 for none. -/
structure Slot where
  state : ProcState
  chan : Nat
  killed : Int
  xstate : Int
  pid : Nat
  parent : Nat
  sz : Nat
  pagetable : Nat
  trapframe : Nat
  ofile : List Nat
  cwd : Nat
  name : List UInt8

/-- The process table with the next process number, and the reference counts of open files and
of inodes. -/
structure ProcTable where
  proc : List Slot
  nextpid : Nat
  fileRef : Nat → Nat
  inodeRef : Nat → Nat

/-- The fields that freeproc clears. -/
def Slot.freeproc (p : Slot) : Slot :=
  { p with
    trapframe := 0
    pagetable := 0
    sz := 0
    pid := 0
    parent := 0
    name := p.name.set 0 0
    chan := 0
    killed := 0
    xstate := 0
    state := .UNUSED }

def Slot.mem (p : Slot) : ProcMem := ⟨p.pagetable, p.sz, p.trapframe⟩

/-- `sizeof(struct trapframe)` and the offset of `a0` in it. -/
def TRAPFRAMESIZE : Nat := 288
def A0 : Nat := 112

/-- filedup of every open file. -/
def ProcTable.filedup (t : ProcTable) (ofile : List Nat) : ProcTable :=
  { t with fileRef := fun f => t.fileRef f + ofile.countP fun g => f != 0 && g == f }

def ProcTable.idup (t : ProcTable) (ip : Nat) : ProcTable :=
  { t with inodeRef := Function.update t.inodeRef ip (t.inodeRef ip + 1) }

/-- fork in the process `p`, which is at address `self`; allocproc, uvmcopy and freeproc work on
memory as in `fork`. -/
def forkProc (K : Image) (t : ProcTable) (self : Nat) (p : Slot) : P (Int × ProcTable) :=
  match t.proc.findIdx? fun q => q.state == .UNUSED with
  | none => pure (-1, t)
  | some i => do
      let np := { t.proc.getD i p with pid := t.nextpid, state := .USED }
      let t := { t with nextpid := t.nextpid + 1 }
      match ← fork K p.mem true with
      | none => pure (-1, { t with proc := t.proc.set i np.freeproc })
      | some child => do
          -- copy saved user registers, and let fork return 0 in the child
          let regs ← Prog.cmd (.peek p.trapframe 0 TRAPFRAMESIZE)
          Prog.cmd (.poke child.trapframe 0 regs)
          Prog.cmd (.poke child.trapframe A0 (List.replicate 8 0))
          let t := (t.filedup p.ofile).idup p.cwd
          let np := { np with
            sz := child.sz, pagetable := child.pagetable, trapframe := child.trapframe
            ofile := p.ofile, cwd := p.cwd, name := p.name, parent := self, state := .RUNNABLE }
          pure (np.pid, { t with proc := t.proc.set i np })

/-- A call of kalloc that finds no page. -/
def noPage : ∀ β : Type, MemCmd β → β → Prop
  | _, .kalloc, page => page = 0
  | _, _, _ => False

section failure

variable {K : Image}

theorem afterFail_stop {α : Type} (e : KErr) {Q : α → Prop} :
    (stop e : P α).AfterFail noPage Q := .call (fun x => nomatch x) fun x => nomatch x

/-- A call of kalloc whose failure is passed on. -/
theorem afterFail_kalloc {β : Type} {next : Nat → P β} {Q : β → Prop}
    (hzero : (next 0).Always Q) (hnext : ∀ page, (next page).AfterFail noPage Q) :
    (Prog.cmd MemCmd.kalloc >>= next).AfterFail noPage Q := by
  refine .call ?_ hnext
  rintro page rfl
  exact hzero

theorem afterFail_readPte {β : Type} {pte : PtePtr} {next : Pte → P β} {Q : β → Prop}
    (hnext : ∀ w, (next w).AfterFail noPage Q) :
    (Prog.cmd (.readPte pte) >>= next).AfterFail noPage Q :=
  .call (fun _ hfail => hfail.elim) hnext

/-- A command without an answer that matters. -/
theorem afterFail_do {β : Type} {c : MemCmd Unit} {next : Unit → P β} {Q : β → Prop}
    (hc : ∀ u, ¬ noPage _ c u) (hnext : ∀ u, (next u).AfterFail noPage Q) :
    (Prog.cmd c >>= next).AfterFail noPage Q :=
  .call (fun u hfail => absurd hfail (hc u)) hnext

/-- walk without allocation asks for no page. -/
theorem afterFail_walk_false (pagetable va : Nat) :
    (walk pagetable va false).AfterFail noPage fun _ => False := by
  have hfrom : ∀ level p, (walkFrom va false level p).AfterFail noPage fun _ => False := by
    intro level
    induction level with
    | zero => exact fun p => .pure _
    | succ level ih =>
        intro p
        rw [walkFrom]
        refine afterFail_readPte fun w => ?_
        split
        · exact ih _
        · exact .pure _
  rw [walk]
  split
  · exact afterFail_stop _
  · exact hfrom 2 pagetable

/-- walk returns 0 when it gets no page. -/
theorem afterFail_walk_true (pagetable va : Nat) :
    (walk pagetable va true).AfterFail noPage fun o => o = none := by
  have hfrom : ∀ level p, (walkFrom va true level p).AfterFail noPage fun o => o = none := by
    intro level
    induction level with
    | zero => exact fun p => .pure _
    | succ level ih =>
        intro p
        rw [walkFrom]
        refine afterFail_readPte fun w => ?_
        split
        · exact ih _
        · rw [if_neg (by decide)]
          refine afterFail_kalloc (.pure rfl) fun page => ?_
          split
          · exact .pure _
          · exact afterFail_do (fun _ => id) fun _ => afterFail_do (fun _ => id) fun _ => ih _
  rw [walk]
  split
  · exact afterFail_stop _
  · exact hfrom 2 pagetable

theorem afterFail_mappages (pagetable va size pa : Nat) (perm : Pte) :
    (mappages pagetable va size pa perm).AfterFail noPage fun r => r = -1 := by
  have hloop : ∀ n a q, (mapLoop pagetable perm n a q).AfterFail noPage fun r => r = -1 := by
    intro n
    induction n with
    | zero => exact fun a q => .pure _
    | succ n ih =>
        intro a q
        rw [mapLoop]
        refine Prog.AfterFail.bind (afterFail_walk_true pagetable a) ?_ ?_
        · rintro o rfl
          exact .pure rfl
        · rintro (_ | pte)
          · exact .pure _
          · exact afterFail_do (fun _ => id) fun _ => ih _ _
  rw [mappages]
  split
  · exact afterFail_stop _
  split
  · exact afterFail_stop _
  split
  · exact afterFail_stop _
  · exact hloop _ _ _

theorem afterFail_uvmunmap (pagetable va n : Nat) (doFree : Bool) :
    (uvmunmap pagetable va n doFree).AfterFail noPage fun _ => False := by
  have hone : ∀ a, (unmapOne pagetable a doFree).AfterFail noPage fun _ => False := by
    intro a
    rw [unmapOne]
    refine Prog.AfterFail.then (afterFail_walk_false pagetable a) ?_
    rintro (_ | pte)
    · exact afterFail_stop _
    refine afterFail_readPte fun w => ?_
    split
    · exact afterFail_stop _
    split
    · exact afterFail_stop _
    split
    · exact afterFail_do (fun _ => id) fun _ => .cmd fun _ => id
    · exact .cmd fun _ => id
  rw [uvmunmap]
  split
  · exact afterFail_stop _
  · exact .upto fun i => hone _

theorem afterFail_freewalkFrom (depth p : Nat) :
    (freewalkFrom depth p).AfterFail noPage fun _ => False := by
  induction depth generalizing p with
  | zero => exact afterFail_stop _
  | succ depth ih =>
      have hentry : ∀ i, (freeEntry (freewalkFrom depth) p i).AfterFail noPage
          fun _ => False := by
        intro i
        rw [freeEntry]
        refine afterFail_readPte fun w => ?_
        split
        · exact Prog.AfterFail.then (ih _) fun _ => .cmd fun _ => id
        split
        · exact afterFail_stop _
        · exact .pure _
      have hloop : (Prog.upto 512 (freeEntry (freewalkFrom depth) p)).AfterFail noPage
          fun _ => False := .upto hentry
      rw [freewalkFrom]
      exact Prog.AfterFail.then hloop fun _ => .cmd fun _ => id

theorem afterFail_uvmfree (pagetable sz : Nat) :
    (uvmfree pagetable sz).AfterFail noPage fun _ => False := by
  have hwalk := afterFail_freewalkFrom 3 pagetable
  rw [uvmfree, freewalk]
  by_cases hsz : sz > 0
  · rw [if_pos hsz]
    exact Prog.AfterFail.then (afterFail_uvmunmap ..) fun _ => hwalk
  · rw [if_neg hsz]
    exact hwalk

theorem afterFail_uvmfreeTable (pagetable : Nat) {Q : Nat → Prop} :
    (uvmfreeTable pagetable).AfterFail noPage Q := by
  have hfree := afterFail_uvmfree pagetable 0
  rw [uvmfreeTable]
  exact hfree.then fun _ => .pure _

theorem always_uvmfreeTable (pagetable : Nat) : (uvmfreeTable pagetable).Always fun p => p = 0 := by
  rw [uvmfreeTable]
  exact .last _ fun _ => .pure rfl

theorem afterFail_freeproc (p : ProcMem) : (freeproc p).AfterFail noPage fun _ => False := by
  rw [freeproc]
  refine afterFail_do (fun _ => id) fun _ => ?_
  rw [procFreepagetable]
  exact Prog.AfterFail.then (afterFail_uvmunmap ..) fun _ =>
    Prog.AfterFail.then (afterFail_uvmunmap ..) fun _ => afterFail_uvmfree ..

theorem afterFail_uvmcreate : uvmcreate.AfterFail noPage fun p => p = 0 := by
  rw [uvmcreate]
  refine afterFail_kalloc (.pure rfl) fun page => ?_
  split
  · exact .pure _
  · exact afterFail_do (fun _ => id) fun _ => .pure _

theorem afterFail_procPagetable (tf : Nat) :
    (procPagetable K tf).AfterFail noPage fun p => p = 0 := by
  rw [procPagetable]
  refine Prog.AfterFail.bind afterFail_uvmcreate ?_ fun p => ?_
  · rintro p rfl
    exact .pure rfl
  by_cases hp : p = 0
  · rw [if_pos hp]
    exact .pure _
  rw [if_neg hp]
  refine Prog.AfterFail.bind (afterFail_mappages ..) ?_ fun r => ?_
  · rintro r rfl
    exact always_uvmfreeTable p
  by_cases hr : r < 0
  · rw [if_pos hr]
    exact afterFail_uvmfreeTable p
  rw [if_neg hr]
  refine Prog.AfterFail.bind (afterFail_mappages ..) ?_ fun r => ?_
  · rintro r rfl
    exact .last _ fun _ => always_uvmfreeTable p
  by_cases hr : r < 0
  · rw [if_pos hr]
    exact Prog.AfterFail.then (afterFail_uvmunmap ..) fun _ => afterFail_uvmfreeTable p
  · rw [if_neg hr]
    exact .pure _

theorem afterFail_allocproc (unused : Bool) :
    (allocproc K unused).AfterFail noPage fun o => o = none := by
  rw [allocproc]
  split
  · exact .pure _
  refine afterFail_kalloc (.pure rfl) fun tf => ?_
  split
  · exact .pure _
  refine Prog.AfterFail.bind (afterFail_procPagetable tf) ?_ fun p => ?_
  · rintro p rfl
    exact .last _ fun _ => .pure rfl
  split
  · exact afterFail_do (fun _ => id) fun _ => .pure _
  · exact .pure _

theorem afterFail_uvmcopy (old new sz : Nat) :
    (uvmcopy old new sz).AfterFail noPage fun r => r = -1 := by
  have hprotect : ∀ pte w, (protectPage pte w).AfterFail noPage fun _ => False := by
    intro pte w
    rw [protectPage]
    split
    · exact .cmd fun _ => id
    · exact .pure _
  have hloop : ∀ c i, (copyLoop old new sz c i).AfterFail noPage fun r => r = -1 := by
    intro c
    induction c with
    | zero => exact fun i => .pure _
    | succ c ih =>
        intro i
        rw [copyLoop]
        split
        · refine Prog.AfterFail.then (afterFail_walk_false old i) ?_
          rintro (_ | pte)
          · exact afterFail_stop _
          refine afterFail_readPte fun w => ?_
          split
          · exact afterFail_stop _
          refine Prog.AfterFail.then (hprotect pte w) fun _ =>
            Prog.AfterFail.bind (afterFail_mappages ..) ?_ fun r => ?_
          · rintro r rfl
            exact .last _ fun _ => .pure rfl
          split
          · exact Prog.AfterFail.then (afterFail_uvmunmap ..) fun _ => .pure _
          · exact afterFail_do (fun _ => id) fun _ => ih _
        · exact .pure _
  exact hloop sz 0

theorem afterFail_fork (p : ProcMem) (unused : Bool) :
    (fork K p unused).AfterFail noPage fun o => o = none := by
  rw [fork]
  refine Prog.AfterFail.bind (afterFail_allocproc unused) ?_ ?_
  · rintro o rfl
    exact .pure rfl
  rintro (_ | np)
  · exact .pure _
  refine Prog.AfterFail.bind (afterFail_uvmcopy ..) ?_ fun r => ?_
  · rintro r rfl
    exact .last _ fun _ => .pure rfl
  split
  · exact Prog.AfterFail.then (afterFail_freeproc np) fun _ => .pure _
  · exact .pure _

/-- Whichever call of kalloc finds no page, fork returns -1. -/
theorem afterFail_forkProc (t : ProcTable) (self : Nat) (p : Slot) :
    (forkProc K t self p).AfterFail noPage fun x => x.1 = -1 := by
  rw [forkProc]
  split
  · exact .pure _
  refine Prog.AfterFail.bind (afterFail_fork p.mem true) ?_ ?_
  · rintro o rfl
    exact .pure rfl
  rintro (_ | child)
  · exact .pure _
  · exact Prog.AfterFail.then (.cmd fun _ => id) fun _ =>
      afterFail_do (fun _ => id) fun _ => afterFail_do (fun _ => id) fun _ => .pure _

end failure

/-- What a failed fork leaves: the table with a cleared entry at most, and memory as it was for
the allocator and for the parent. -/
structure NoTrace (K : Image) (t t' : ProcTable) (k k' : Kmem) (pagetable : Nat) : Prop where
  proc : t'.proc = t.proc ∨ ∃ i np, t.proc[i]? = some np ∧ np.state = .UNUSED ∧
    t'.proc = t.proc.set i np.freeproc
  files : t'.fileRef = t.fileRef
  inodes : t'.inodeRef = t.inodeRef
  free : freeFrames K k' = freeFrames K k
  counts : ∀ f, K.Frame f → k'.refCount (countIndex f) = k.refCount (countIndex f)
  bytes : ∀ va, userByte k'.mem pagetable va = userByte k.mem pagetable va
  writable : ∀ v, writableAt k'.mem pagetable v = writableAt k.mem pagetable v

section trace

variable {K : Image} {E : KErr → Prop} {k k' : Kmem} {S S' : Space} {F r : Multiset Atom}

/-- The counts only depend on the tables and the frames of the spaces. -/
theorem Inv.counts_eq (h : Inv K ({.space S} + F) k) (h' : Inv K ({.space S'} + F) k')
    (hrefs : S.SameRefs S') {f : Nat} (hf : K.Frame f) :
    k'.refCount (countIndex f) = k.refCount (countIndex f) := by
  have huse : ∀ t, t = .kernel ∨ t = .user → S'.use t f = S.use t f := by
    rintro t (rfl | rfl)
    · change refs nodeIx S'.node f = refs nodeIx S.node f
      rw [hrefs.1]
    · change refs userIx S'.frames f = refs userIx S.frames f
      rw [hrefs.2]
  rw [h.count f hf, h'.count f hf, total_add, total_add, total_add, total_add, total_space,
    total_space, total_space, total_space, huse _ (Or.inl rfl), huse _ (Or.inr rfl)]

theorem freeFrames_eq_of_counts
    (h : ∀ f, K.Frame f → k'.refCount (countIndex f) = k.refCount (countIndex f)) :
    freeFrames K k' = freeFrames K k := by
  ext f
  rw [mem_freeFrames, mem_freeFrames]
  exact and_congr_right fun hf => by rw [h f hf]

/-- What the user may write only depends on what the user sees. -/
theorem Space.Ok.writableAt_user (h : S.Ok K k) (v : Nat) :
    writableAt k.mem S.root v = true ↔
      ∃ u, S.user v = some u ∧ u.user = true ∧ u.write = true := by
  rw [h.writableAt_iff]
  constructor
  · rintro ⟨l, hl, hu, hw⟩
    refine ⟨l.view (S.data v), Space.user_eq_some.mpr ⟨h.lt_of_user hl hu, l, hl, rfl⟩, hu, ?_⟩
    simpa [Leaf.view] using hw
  · rintro ⟨u, hu, huser, hwrite⟩
    obtain ⟨-, l, hl, rfl⟩ := Space.user_eq_some.mp hu
    exact ⟨l, hl, huser, by simpa [Leaf.view] using hwrite⟩

theorem safe_peekPage {p off n : Nat} {d : Arr} (hr : Quiet r) :
    Safe (logic K) E (Prog.cmd (.peek p off n)) ({.page p d false} + r) fun _ r' =>
      r' = {.page p d false} + r := by
  apply safe_ok
  intro F s hinv
  refine ⟨Adm.of_quiet ((quiet_page p d false).add hr) rfl, ?_⟩
  obtain ⟨hframe, -, -⟩ := hinv.ok (.page p d false) (by simp)
  exact ⟨_, s, _, peekAt_ok hframe.inRam, hinv, rfl⟩

/-- fork with its entry of the process table. -/
theorem safe_forkProc (t : ProcTable) (self : Nat) {p : Slot} {m : Mem} {d : Arr}
    (hS : S.Is K p.mem m) :
    Safe (logic K) E (forkProc K t self p) ({.space S} + {.page p.trapframe d false}) fun x r' =>
      x.1 = -1 → ∃ S', r' = {.space S'} + {.page p.trapframe d false} ∧ S'.Is K p.mem m ∧
        S.SameRefs S' ∧ x.2.fileRef = t.fileRef ∧ x.2.inodeRef = t.inodeRef ∧
        (x.2.proc = t.proc ∨ ∃ i np, t.proc[i]? = some np ∧ np.state = .UNUSED ∧
          x.2.proc = t.proc.set i np.freeproc) := by
  rw [forkProc]
  cases hfind : t.proc.findIdx? fun q => q.state == .UNUSED with
  | none => exact Safe.pure fun _ => ⟨S, rfl, hS, ⟨rfl, rfl⟩, rfl, rfl, Or.inl rfl⟩
  | some i =>
      obtain ⟨hi, hstate, -⟩ := List.findIdx?_eq_some_iff_getElem.mp hfind
      apply Safe.bind (safe_fork hS (quiet_page p.trapframe d false))
      rintro o r' ⟨S', hS', hrefs, ⟨rfl, rfl⟩ | ⟨np, h, rfl, ⟨T, dc, hT, rfl⟩, rfl⟩⟩
      · refine Safe.pure fun _ => ⟨S', rfl, hS', hrefs, rfl, rfl, Or.inr ⟨i, t.proc[i],
          List.getElem?_eq_getElem hi, by simpa using hstate, ?_⟩⟩
        simp only [List.getD_eq_getElem?_getD, List.getElem?_eq_getElem hi, Option.getD_some]
        rfl
      · -- the registers are copied from the page of the parent to that of the child
        have hshuffle : ({Atom.space S'} + ({Atom.space T} + {Atom.page np.trapframe dc false} +
            ({Atom.token np.pagetable} + {Atom.page p.trapframe d false})) : Multiset Atom) =
            {Atom.page p.trapframe d false} + ({Atom.page np.trapframe dc false} +
              ({Atom.space S'} + ({Atom.space T} + {Atom.token np.pagetable}))) := by
          ac_rfl
        have hquiet : Quiet ({Atom.space S'} + ({Atom.space T} +
            {Atom.token np.pagetable})) :=
          (quiet_space S').add ((quiet_space T).add (quiet_token _))
        rw [hshuffle]
        apply Safe.bind (safe_peekPage ((quiet_page _ dc false).add hquiet))
        rintro regs r' rfl
        rw [add_left_comm]
        have hrest : Quiet ({Atom.page p.trapframe d false} + ({Atom.space S'} +
            ({Atom.space T} + {Atom.token np.pagetable}))) := (quiet_page _ d false).add hquiet
        apply Safe.bind (safe_poke_page hrest)
        rintro _ r' rfl
        apply Safe.bind (safe_poke_page hrest)
        rintro _ r' rfl
        refine Safe.pure fun hneg => ?_
        simp only at hneg
        omega

end trace

/-- A failing fork leaves no trace: whichever call of kalloc finds no page fork returns -1, fork
neither panics nor faults, and when it returns -1 everything is as before. -/
theorem fork_fails_without_trace {K : Image} {sys : Sys} (h : sys.Reachable K) {p : Proc}
    (hp : p ∈ sys.procs) (t : ProcTable) (self : Nat) {slot : Slot} (hslot : slot.mem = p.mem) :
    (forkProc K t self slot).AfterFail noPage (fun x => x.1 = -1) ∧
    ∃ r t' k', (forkProc K t self slot).run (handler K) sys.k = .ok ((r, t'), k') ∧
      (r = -1 → NoTrace K t t' sys.k k' p.mem.pagetable) := by
  refine ⟨afterFail_forkProc t self slot, ?_⟩
  obtain ⟨S, m, d, F, hS, hinv⟩ := h.share hp
  rw [← hslot] at hS hinv
  obtain ⟨x, k', r', hres, hinv', hpost⟩ := safe_returns (safe_forkProc t self hS) hinv
  refine ⟨x.1, x.2, k', hres, fun hneg => ?_⟩
  obtain ⟨S', rfl, hS', hrefs, hfiles, hinodes, hproc⟩ := hpost hneg
  have hroot : S'.root = S.root := hS'.root.trans hS.root.symm
  have hpt : S.root = p.mem.pagetable := hS.root.trans (congrArg ProcMem.pagetable hslot)
  rw [add_assoc] at hinv hinv'
  have hcounts := fun f (hf : K.Frame f) => hinv.counts_eq hinv' hrefs hf
  have hok := hinv.space_ok
  have hok' := hinv'.space_ok
  refine ⟨hproc, hfiles, hinodes, freeFrames_eq_of_counts hcounts, hcounts, ?_, ?_⟩
  · intro va
    rw [← hpt, hok.userByte, ← hroot, hok'.userByte, hS.user, hS'.user]
  · intro v
    rw [← hpt, Bool.eq_iff_iff, hok.writableAt_user, ← hroot, hok'.writableAt_user, hS.user,
      hS'.user]

section eager

variable {K : Image} {R : Eager} {sys : Sys} {p : Proc}

/-- The page table of a process at rest holds the memory that the process has in the reference
system. -/
theorem Sys.Ok.memory (h : sys.Ok K R) (hp : p ∈ sys.procs) :
    ∃ S m F, R p.pid = some m ∧ S.Is K p.mem m ∧ Inv K ({.space S} + F) sys.k := by
  obtain ⟨a, b, c, hledger⟩ := h.ledger
  obtain ⟨i, hi⟩ := List.mem_iff_getElem?.mp hp
  obtain ⟨a₁, a₂, ⟨m, hm, S, d, hS, rfl⟩, -, rfl⟩ := hledger.procs.get hi
  refine ⟨S, m, {.page p.mem.trapframe d false} + (a₂ + (c + (b + tokens sys.roots))), hm, hS, ?_⟩
  have hsum : c + ({.space S} + {.page p.mem.trapframe d false} + a₂ + (b + tokens sys.roots)) =
      {.space S} + ({.page p.mem.trapframe d false} +
        (a₂ + (c + (b + tokens sys.roots)))) := by
    ac_rfl
  rw [← hsum]
  exact hledger.inv

theorem Mem.isSome_store (m : Mem) (va : Nat) (b : UInt8) :
    (m.store va b).isSome = true ↔
      ∃ u, m (va / PGSIZE) = some u ∧ u.user = true ∧ u.write = true := by
  rw [Mem.store, Mem.write]
  cases hu : m (va / PGSIZE) with
  | none => simp
  | some u => by_cases hw : (u.user && u.write) = true <;> simp_all

end eager

/-- Copy-on-write fork refines eager fork: after every interleaving there is a run of the
reference system, with the same operations and the same results, in which every process reads the
same bytes and may read and write the same addresses. -/
theorem cow_fork_refines_eager_fork {K : Image} {sys : Sys} (h : sys.Reachable K) :
    ∃ R, Eager.Runs sys.log R ∧ ∀ p ∈ sys.procs, ∃ m, R p.pid = some m ∧
      (∀ va, userByte sys.k.mem p.mem.pagetable va = m.load va) ∧
      ∀ va b, writableAt sys.k.mem p.mem.pagetable (va / PGSIZE) = (m.store va b).isSome := by
  obtain ⟨R, hok⟩ := h.ok
  refine ⟨R, hok.runs, fun p hp => ?_⟩
  obtain ⟨S, m, F, hm, hS, hinv⟩ := hok.memory hp
  have hspace := hinv.space_ok
  refine ⟨m, hm, fun va => ?_, fun va b => ?_⟩
  · rw [← hS.root, hspace.userByte, hS.user]
  · rw [← hS.root, Bool.eq_iff_iff, hspace.writableAt_user, hS.user, Mem.isSome_store]

namespace ForkWitness

def slot : Slot where
  state := .RUNNING
  chan := 0
  killed := 0
  xstate := 0
  pid := 1
  parent := 0
  sz := Forked.parent.mem.sz
  pagetable := Forked.parent.mem.pagetable
  trapframe := Forked.parent.mem.trapframe
  ofile := [1, 0]
  cwd := 1
  name := [105, 0]

def procTable : ProcTable := ⟨[slot, slot.freeproc], 2, fun _ => 1, fun _ => 1⟩

theorem fork_without_trace_forked : ∃ r t' k',
    (forkProc Forked.image procTable 0 slot).run (handler Forked.image) Forked.sys.k =
      .ok ((r, t'), k') ∧
    (r = -1 → NoTrace Forked.image procTable t' Forked.sys.k k' Forked.parent.mem.pagetable) :=
  (fork_fails_without_trace Forked.sys_reachable Forked.parent_mem procTable 0 rfl).2

theorem cow_fork_refines_eager_fork_forked : ∃ R, Eager.Runs Forked.sys.log R ∧
    ∀ p ∈ Forked.sys.procs, ∃ m, R p.pid = some m ∧
      (∀ va, userByte Forked.sys.k.mem p.mem.pagetable va = m.load va) ∧
      ∀ va b, writableAt Forked.sys.k.mem p.mem.pagetable (va / PGSIZE) = (m.store va b).isSome :=
  cow_fork_refines_eager_fork Forked.sys_reachable

end ForkWitness

end Xv6.Vm
