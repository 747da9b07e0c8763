/-
The invariant of the memory system: the ledger is divided among the processes at
rest, the pages of the kernel and the running operations, and what the user of
every process at rest sees is the memory of the reference system.
-/
import Xv6.Vm.Exec
import Xv6.Vm.System

namespace Xv6.Vm

open Bytes Program Interleave

section contract

variable {K : Image} {R R' : Eager}

/-- The share of a process at rest. -/
def idleShare (K : Image) (R : Eager) (p : Proc) (a : Multiset Atom) : Prop :=
  ∃ m, R p.pid = some m ∧ Holding K p.mem m a

/-- The share of a page of the kernel. -/
def frameShare (f : Nat) (a : Multiset Atom) : Prop := ∃ d b, a = {.page f d b}

def tokens (xs : List Nat) : Multiset Atom := (xs : Multiset Nat).map .token

theorem tokens_append (xs ys : List Nat) : tokens (xs ++ ys) = tokens xs + tokens ys := by
  rw [tokens, ← Multiset.coe_add, Multiset.map_add]
  rfl

theorem tokens_perm {xs ys : List Nat} (h : xs.Perm ys) : tokens xs = tokens ys := by
  rw [tokens, Multiset.coe_eq_coe.mpr h]
  rfl

@[simp] theorem tokens_nil : tokens [] = 0 := rfl

@[simp] theorem tokens_singleton (x : Nat) : tokens [x] = {.token x} := rfl

namespace Op

def roots (o : Op) : List Nat := o.procs.map fun p => p.mem.pagetable

/-- The page tables that an operation works on and does not free. -/
def kept (o : Op) : List Nat := if o.frees then [] else o.roots

/-- The page tables that an operation may free. -/
def given (o : Op) : List Nat := if o.frees then o.roots else []

/-- The page tables that an operation hands over to the system. -/
def newRoots : (o : Op) → o.Result → List Nat
  | .allocproc .., v | .fork .., v => (v.map ProcMem.pagetable).toList
  | .userinit .., x => [x.1.pagetable]
  | .exec p _ _ _, v => [match v with | none => p.mem.pagetable | some x => x.1.pagetable]
  | _, _ => []

theorem kept_append_given (o : Op) : o.kept ++ o.given = o.roots := by
  unfold kept given
  cases o.frees <;> simp

/-- The page tables of the processes that an operation leaves. -/
theorem roots_back (o : Op) (v : o.Result) :
    ((o.back v).map fun p => p.mem.pagetable) = o.kept ++ o.newRoots v := by
  cases o with
  | allocproc pid unused => cases v <;> rfl
  | uvmalloc p newsz xperm =>
      simp only [back, kept, frees, roots, procs, newRoots]
      split <;> rfl
  | uvmcopy p c =>
      simp only [back, kept, frees, roots, procs, newRoots]
      split <;> rfl
  | fork p pid unused => cases v <;> rfl
  | exec p file argv scause => cases v <;> rfl
  | _ => rfl

/-- What an operation can stop the kernel with. -/
def Fails : Op → KErr → Prop
  | .store .., e => StoreError e
  | .copyout .., e | .userinit .., e => e = .fault 0
  | _, _ => False

end Op

/-- An operation returns as in the reference system and gives back the shares of
what it leaves. -/
def contract (K : Image) (R : Eager) : Contract Op.Result KErr (Multiset Atom) where
  errors := Op.Fails
  post o v a := Quiet a ∧ (o.accepts v = true → ∃ R' a₁ a₂, R.Step o v R' ∧
    Each (idleShare K R') (o.back v) a₁ ∧ Each frameShare (o.backFrames v) a₂ ∧
    a = a₁ + (a₂ + tokens (o.newRoots v)))

/-- The reference system changes only the processes of the operation. -/
theorem Eager.Step.other {o : Op} {v : o.Result} (h : R.Step o v R') {i : Nat}
    (hi : i ∉ o.pids) : R' i = R i := by
  have hupdate : ∀ {j : Nat} {x : Option Mem}, j ∈ o.pids →
      Function.update R j x i = R i := by
    intro j x hj
    apply Function.update_of_ne
    rintro rfl
    exact hi hj
  cases o with
  | kalloc | kfree f => rw [show R' = R from h]
  | allocproc pid unused =>
      rw [show R' = _ from h]
      split
      · exact hupdate (by simp [Op.pids, Op.newPids])
      · rfl
  | freeproc p =>
      rw [show R' = _ from h]
      exact hupdate (by simp [Op.pids, Op.procs])
  | uvmalloc p newsz xperm =>
      obtain ⟨m, -, rfl⟩ := h
      split
      · rfl
      · exact hupdate (by simp [Op.pids, Op.procs])
  | uvmcopy p c =>
      obtain ⟨m, -, rfl⟩ := h
      split
      · exact hupdate (by simp [Op.pids, Op.procs])
      · rfl
  | fork p pid unused =>
      obtain ⟨m, -, rfl⟩ := h
      split
      · exact hupdate (by simp [Op.pids, Op.newPids])
      · rfl
  | exec p file argv scause =>
      cases v with
      | none => rw [show R' = R from h]
      | some x =>
          obtain ⟨m, rfl⟩ := h
          exact hupdate (by simp [Op.pids, Op.procs])
  | userinit pid initcode =>
      obtain ⟨m, rfl⟩ := h
      exact hupdate (by simp [Op.pids, Op.newPids])
  | load p va | copyin p srcva len =>
      obtain ⟨m, -, -, rfl⟩ := h
      rfl
  | store p va b =>
      obtain ⟨m, m', -, -, -, rfl⟩ := h
      exact hupdate (by simp [Op.pids, Op.procs])
  | copyout p dstva src scause =>
      obtain ⟨m, -, -, rfl⟩ := h
      exact hupdate (by simp [Op.pids, Op.procs])
  | uvmdealloc p newsz | uvmclear p v | growproc p n =>
      obtain ⟨m, -, rfl⟩ := h
      exact hupdate (by simp [Op.pids, Op.procs])

end contract

section ops

variable {K : Image} {R : Eager} {a b : Multiset Atom}

theorem Each.singleton {ι : Type} {P : ι → Multiset Atom → Prop} {x : ι}
    (h : Each P [x] a) : P x a := by
  obtain ⟨c, d, hc, hd, rfl⟩ := h
  obtain rfl : d = 0 := hd
  rwa [add_zero]

theorem Each.of_one {ι : Type} {P : ι → Multiset Atom → Prop} {x : ι} (h : P x a) :
    Each P [x] a := by
  have hcons := Each.cons h (show Each P [] 0 from rfl)
  rwa [add_zero] at hcons

theorem quiet_each {ι : Type} {P : ι → Multiset Atom → Prop} {xs : List ι}
    (h : Each P xs a) (hP : ∀ x c, P x c → Quiet c) : Quiet a := by
  induction xs generalizing a with
  | nil =>
      obtain rfl : a = 0 := h
      exact quiet_zero
  | cons x xs ih =>
      obtain ⟨c, d, hc, hd, rfl⟩ := h
      exact (hP x c hc).add (ih hd)

theorem quiet_idle {xs : List Proc} (h : Each (idleShare K R) xs a) : Quiet a :=
  quiet_each h fun _ _ ⟨_, _, hh⟩ => hh.quiet

theorem quiet_frames {xs : List Nat} (h : Each frameShare xs a) : Quiet a :=
  quiet_each h fun x _ ⟨d, b, hc⟩ => hc ▸ quiet_page x d b

theorem quiet_tokens (xs : List Nat) : Quiet (tokens xs) := by
  intro x hx
  obtain ⟨y, -, rfl⟩ := Multiset.mem_map.mp hx
  rfl

/-- An operation that leaves these shares fulfils its contract. -/
theorem contract_post {o : Op} {v : o.Result} {T : Eager} (hstep : R.Step o v T)
    (ha : Each (idleShare K T) (o.back v) a) (hb : Each frameShare (o.backFrames v) b) :
    (contract K R).post o v (a + (b + tokens (o.newRoots v))) :=
  ⟨(quiet_idle ha).add ((quiet_frames hb).add (quiet_tokens _)),
    fun _ => ⟨T, a, b, hstep, ha, hb, rfl⟩⟩

/-- An operation that works on the memory of one process and keeps its page
table. -/
theorem safe_onProc {o : Op} {p : Proc} (hprocs : o.procs = [p]) (hframes : o.frames = [])
    (hfrees : o.frees = false) (hnew : ∀ v, o.backFrames v = [] ∧ o.newRoots v = [])
    (hsafe : ∀ S m r, R p.pid = some m → S.Is K p.mem m → Quiet r →
      Safe (logic K) o.Fails (o.prog K) ({.space S} + r) fun v r' => ∃ S' p' m' R',
        r' = {.space S'} + r ∧ o.back v = [p'] ∧ p'.mem.trapframe = p.mem.trapframe ∧
        S'.Is K p'.mem m' ∧ R.Step o v R' ∧ R' p'.pid = some m')
    (ha : Each (idleShare K R) o.procs a) (hb : Each frameShare o.frames b) :
    Safe (logic K) o.Fails (o.prog K) (a + (b + tokens o.given))
      ((contract K R).post o) := by
  rw [hprocs] at ha
  rw [hframes] at hb
  obtain rfl : b = 0 := hb
  obtain ⟨m, hm, S, d, hS, rfl⟩ := Each.singleton ha
  have hgiven : o.given = [] := by rw [Op.given, hfrees]; rfl
  rw [hgiven, tokens_nil, add_zero, add_zero]
  have hquiet := quiet_page p.mem.trapframe d false
  apply (hsafe S m _ hm hS hquiet).mono
  rintro v r' ⟨S', p', m', R', rfl, hback, htf, hS', hstep, hm'⟩
  have hidle : Each (idleShare K R') (o.back v)
      ({.space S'} + {.page p.mem.trapframe d false}) := by
    rw [hback, ← htf]
    exact Each.of_one ⟨m', hm', S', d, hS', rfl⟩
  have hnone : Each frameShare (o.backFrames v) 0 := by
    rw [(hnew v).1]
    rfl
  have hpost := contract_post hstep hidle hnone
  rwa [(hnew v).2, tokens_nil, add_zero, add_zero] at hpost

variable {o : Op}

/-- The program of an operation is safe with the shares of what it takes. -/
def Op.Safely (K : Image) (R : Eager) (o : Op) : Prop :=
  ∀ a b, Each (idleShare K R) o.procs a → Each frameShare o.frames b →
    Safe (logic K) o.Fails (o.prog K) (a + (b + tokens o.given)) ((contract K R).post o)

theorem safely_uvmalloc {p : Proc} {newsz : Nat} {xperm : Pte}
    (hready : (Op.uvmalloc p newsz xperm).Ready) :
    (Op.uvmalloc p newsz xperm).Safely K R := by
  intro a b
  apply safe_onProc (p := p) rfl rfl rfl fun v => ⟨rfl, rfl⟩
  intro S m r hm hS hr
  apply (safe_procAlloc hS hready.1 hready.2 hr).mono
  rintro sz r' ⟨S', rfl, ⟨rfl, hS'⟩ | ⟨hne, -, hS'⟩⟩
  · exact ⟨S', p, m, R, rfl, rfl, rfl, hS', ⟨m, hm, rfl⟩, hm⟩
  · refine ⟨S', { p with mem := { p.mem with sz := sz } }, _, _, rfl, ?_, rfl, hS',
      ⟨m, hm, rfl⟩, ?_⟩
    · simp only [Op.back, if_neg hne]
    · rw [if_neg hne, Function.update_self]

theorem safely_uvmdealloc {p : Proc} {newsz : Nat} : (Op.uvmdealloc p newsz).Safely K R := by
  intro a b
  apply safe_onProc (p := p) rfl rfl rfl fun v => ⟨rfl, rfl⟩
  intro S m r hm hS hr
  apply (safe_procDealloc hS hr).mono
  rintro sz r' ⟨S', rfl, -, hS'⟩
  exact ⟨S', { p with mem := { p.mem with sz := sz } }, _, _, rfl, rfl, rfl, hS',
    ⟨m, hm, rfl⟩, Function.update_self ..⟩

theorem safely_uvmclear {p : Proc} {v : Nat} (hready : (Op.uvmclear p v).Ready) :
    (Op.uvmclear p v).Safely K R := by
  intro a b
  apply safe_onProc (p := p) rfl rfl rfl fun v => ⟨rfl, rfl⟩
  intro S m r hm hS hr
  have hv : v < USERPAGES := lt_of_lt_of_le hready hS.shape.sized.1
  obtain ⟨l, hl⟩ : ∃ l, S.leaf v = some l := Option.ne_none_iff_exists'.mp
    (mt Space.page_eq_none.mpr ((hS.shape.sized.2 v hv).mpr hready))
  have hclear := safe_uvmclear (K := K) (E := (Op.uvmclear p v).Fails) hv hl hr
  rw [hS.root] at hclear
  apply hclear.mono
  rintro _ r' rfl
  refine ⟨_, p, m.clear v, _, rfl, rfl, rfl, ?_, ⟨m, hm, rfl⟩, Function.update_self ..⟩
  have huser : S.user v = some (l.view (S.data v)) :=
    Space.user_eq_some.mpr ⟨hv, l, hl, rfl⟩
  apply hS.evolves
  · refine ⟨rfl, fun u hu => S.page_setLeaf_of_ne _ _ (by omega), ?_⟩
    funext u
    rw [Mem.clear, ← hS.user]
    by_cases huv : u = v
    · subst huv
      have hl' : (S.setLeaf u (some l.kernelOnly) (S.data u)).leaf u =
          some l.kernelOnly := by simp [Space.setLeaf]
      rw [Function.update_self, huser, Space.user_of_lt hv, Space.view_of_leaf hl']
      simp only [Space.setLeaf, Function.update_self, Leaf.view_kernelOnly, Option.map_some]
    · rw [Function.update_of_ne huv]
      unfold Space.user
      rw [Space.view_congr (S.page_setLeaf_of_ne _ _ huv)]
  · intro u
    rw [Mem.clear]
    by_cases huv : u = v
    · subst huv
      rw [Function.update_self]
      simp
    · rw [Function.update_of_ne huv]

theorem safely_growproc {p : Proc} {n : Int} : (Op.growproc p n).Safely K R := by
  intro a b
  apply safe_onProc (p := p) rfl rfl rfl fun v => ⟨rfl, rfl⟩
  intro S m r hm hS hr
  apply (safe_growproc hS hr).mono
  rintro x r' ⟨S', rfl, hx, -, hS'⟩
  rw [hx] at hS'
  exact ⟨S', { p with mem := { p.mem with sz := x.2.sz } }, _, _, rfl, rfl, rfl, hS',
    ⟨m, hm, rfl⟩, Function.update_self ..⟩

theorem safely_load {p : Proc} {va : Nat} : (Op.load p va).Safely K R := by
  intro a b
  apply safe_onProc (p := p) rfl rfl rfl fun v => ⟨rfl, rfl⟩
  intro S m r hm hS hr
  have hload := safe_userLoad (K := K) (E := (Op.load p va).Fails) (S := S) (a := va) hr
  rw [hS.root, hS.user] at hload
  apply hload.mono
  rintro v r' ⟨rfl, rfl⟩
  exact ⟨S, p, m, R, rfl, rfl, rfl, hS, ⟨m, hm, rfl, rfl⟩, hm⟩

theorem safely_store {p : Proc} {va : Nat} {c : UInt8} : (Op.store p va c).Safely K R := by
  intro a b
  apply safe_onProc (p := p) rfl rfl rfl fun v => ⟨rfl, rfl⟩
  intro S m r hm hS hr
  have hstore := safe_userStore (K := K) (S := S) (a := va) (b := c) hr
  rw [hS.root, hS.user] at hstore
  apply hstore.mono
  rintro v r' ⟨rfl, S', m', rfl, hm', hS'⟩
  exact ⟨S', p, m', _, rfl, rfl, rfl, hS.evolves hS' fun u => Mem.write_pages hm',
    ⟨m, m', hm, rfl, hm', rfl⟩, Function.update_self ..⟩

theorem safely_copyin {p : Proc} {srcva len : Nat} : (Op.copyin p srcva len).Safely K R := by
  intro a b
  apply safe_onProc (p := p) rfl rfl rfl fun v => ⟨rfl, rfl⟩
  intro S m r hm hS hr
  have hcopy := safe_copyin (K := K) (E := (Op.copyin p srcva len).Fails) (S := S)
    (a := srcva) (n := len) hr
  rw [hS.root, hS.user] at hcopy
  apply hcopy.mono
  rintro v r' ⟨rfl, rfl⟩
  exact ⟨S, p, m, R, rfl, rfl, rfl, hS, ⟨m, hm, rfl, rfl⟩, hm⟩

theorem safely_copyout {p : Proc} {dstva scause : Nat} {src : List UInt8}
    (hready : (Op.copyout p dstva src scause).Ready) :
    (Op.copyout p dstva src scause).Safely K R := by
  intro a b
  apply safe_onProc (p := p) rfl rfl rfl fun v => ⟨rfl, rfl⟩
  intro S m r hm hS hr
  have hcopy := safe_copyoutLoop (K := K) (E := (Op.copyout p dstva src scause).Fails)
    (S := S) (n := src.length) (a := dstva) (d := src)
    (fun _ _ _ => Or.inl ⟨hready, rfl⟩) hr
  rw [hS.root, hS.user] at hcopy
  apply hcopy.mono
  rintro v r' ⟨S', rfl, rfl, hS', -⟩
  exact ⟨S', p, _, _, rfl, rfl, rfl, hS.evolves hS' fun u => Mem.copyout_pages,
    ⟨m, hm, rfl, rfl⟩, Function.update_self ..⟩

theorem safely_kalloc : Op.kalloc.Safely K R := by
  rintro a b ha hb
  obtain rfl : a = 0 := ha
  obtain rfl : b = 0 := hb
  change Safe (logic K) _ (Prog.cmd .kalloc) 0 _
  apply (safe_kalloc quiet_zero).mono
  rintro p r' (⟨rfl, rfl⟩ | ⟨hp, rfl⟩)
  · exact contract_post (o := .kalloc) (v := (0 : Nat)) (a := 0) (b := 0) rfl rfl rfl
  · have hframe : Each frameShare (Op.kalloc.backFrames p) {.page p (fun _ => 5) true} := by
      simp only [Op.backFrames, if_neg hp.ne_zero]
      exact Each.of_one ⟨_, _, rfl⟩
    have hpost := contract_post (K := K) (R := R) (o := .kalloc) (v := p) (a := 0) rfl rfl
      hframe
    rwa [zero_add] at hpost

theorem safely_kfree {f : Nat} : (Op.kfree f).Safely K R := by
  rintro a b ha hb
  obtain rfl : a = 0 := ha
  obtain ⟨d, fresh, rfl⟩ := Each.singleton hb
  rw [zero_add]
  apply (safe_kfree quiet_zero).mono
  rintro v r' rfl
  exact contract_post (o := .kfree f) (v := v) (a := 0) (b := 0) rfl rfl rfl

theorem safely_allocproc {pid : Nat} {unused : Bool} :
    (Op.allocproc pid unused).Safely K R := by
  rintro a b ha hb
  obtain rfl : a = 0 := ha
  obtain rfl : b = 0 := hb
  change Safe (logic K) _ (allocproc K unused) 0 _
  apply (safe_allocproc quiet_zero).mono
  rintro v r' (⟨rfl, rfl⟩ | ⟨S, tf, d, rfl, hS, rfl⟩)
  · exact contract_post (o := .allocproc pid unused) (v := none) (a := 0) (b := 0) rfl rfl rfl
  · have hidle : Each (idleShare K (Function.update R pid (some fun _ => none)))
        [⟨pid, ⟨S.root, 0, tf⟩⟩] ({.space S} + {.page tf d false}) :=
      Each.of_one ⟨_, Function.update_self .., S, d, hS.is_new, rfl⟩
    have hpost := contract_post (K := K) (R := R) (o := .allocproc pid unused)
      (v := some ⟨S.root, 0, tf⟩) (b := 0) rfl hidle rfl
    rwa [zero_add, add_assoc] at hpost

theorem safely_freeproc {p : Proc} : (Op.freeproc p).Safely K R := by
  rintro a b ha hb
  obtain ⟨m, hm, S, d, hS, rfl⟩ := Each.singleton ha
  obtain rfl : b = 0 := hb
  have hfree := safe_freeproc (K := K) (E := (Op.freeproc p).Fails) (S := S) (d := d)
    (b := false) hS.root.symm hS.shape quiet_zero
  have hshare : {Atom.space S} + {Atom.page p.mem.trapframe d false} +
      (0 + tokens (Op.freeproc p).given) = {Atom.space S} +
        ({Atom.page p.mem.trapframe d false} + ({Atom.token S.root} + 0)) := by
    rw [hS.root, zero_add, add_zero, add_assoc]
    rfl
  rw [hshare]
  apply hfree.mono
  rintro v r' rfl
  exact contract_post (o := .freeproc p) (v := v) (a := 0) (b := 0) rfl rfl rfl

theorem safely_uvmcopy {p c : Proc} (hready : (Op.uvmcopy p c).Ready)
    (hnodup : (Op.uvmcopy p c).pids.Nodup) : (Op.uvmcopy p c).Safely K R := by
  rintro a b ha hb
  obtain ⟨_, _, ⟨m, hm, S, d, hS, rfl⟩, hc, rfl⟩ := ha
  obtain ⟨mc, hmc, new, dc, hnew, rfl⟩ := Each.singleton hc
  obtain rfl : b = 0 := hb
  have hne : p.pid ≠ c.pid := by
    intro heq
    simp [Op.pids, Op.procs, Op.newPids, heq] at hnodup
  have hquiet : Quiet ({.page p.mem.trapframe d false} + {.page c.mem.trapframe dc false}) :=
    (quiet_page _ d false).add (quiet_page _ dc false)
  have hshare : {Atom.space S} + {Atom.page p.mem.trapframe d false} + ({Atom.space new} +
      {Atom.page c.mem.trapframe dc false}) + (0 + tokens (Op.uvmcopy p c).given) =
        {Atom.space S} + ({Atom.space new} + ({Atom.page p.mem.trapframe d false} +
          {Atom.page c.mem.trapframe dc false})) := by
    change _ + (0 + 0) = _
    rw [add_zero, add_zero]
    ac_rfl
  rw [hshare]
  apply (safe_procCopy hS hnew hready hquiet).mono
  rintro x r' ⟨S', new', rfl, hS', -, hcopied⟩
  have hback : ({Atom.space S'} + ({Atom.space new'} + ({Atom.page p.mem.trapframe d false} +
      {Atom.page c.mem.trapframe dc false})) : Multiset Atom) = {Atom.space S'} +
        {Atom.page p.mem.trapframe d false} + ({Atom.space new'} +
          {Atom.page c.mem.trapframe dc false}) + (0 + 0) := by
    rw [add_zero, add_zero]
    ac_rfl
  rw [hback]
  rcases hcopied with ⟨rfl, hnew'⟩ | ⟨rfl, hnew'⟩
  · apply contract_post (o := .uvmcopy p c) (v := (0 : Int))
      (T := Function.update R c.pid (some m)) ⟨m, hm, rfl⟩ ?_ rfl
    apply Each.cons
    · exact ⟨m, by rwa [Function.update_of_ne hne], S', d, hS', rfl⟩
    · exact Each.of_one ⟨m, Function.update_self .., new', dc, hnew', rfl⟩
  · apply contract_post (o := .uvmcopy p c) (v := (-1 : Int)) (T := R) ⟨m, hm, rfl⟩ ?_ rfl
    apply Each.cons
    · exact ⟨m, hm, S', d, hS', rfl⟩
    · exact Each.of_one ⟨mc, hmc, new', dc, hnew', rfl⟩

theorem safely_fork {p : Proc} {pid : Nat} {unused : Bool}
    (hnodup : (Op.fork p pid unused).pids.Nodup) : (Op.fork p pid unused).Safely K R := by
  rintro a b ha hb
  obtain ⟨m, hm, S, d, hS, rfl⟩ := Each.singleton ha
  obtain rfl : b = 0 := hb
  have hne : p.pid ≠ pid := by
    intro heq
    simp [Op.pids, Op.procs, Op.newPids, heq] at hnodup
  change Safe (logic K) _ (fork K p.mem unused) (_ + (0 + 0)) _
  rw [add_zero, add_zero]
  apply (safe_fork hS (quiet_page _ d false)).mono
  rintro v r' ⟨S', hS', -, ⟨rfl, rfl⟩ | ⟨np, h, rfl, hh, rfl⟩⟩
  · have hidle : Each (idleShare K R) [p] ({.space S'} + {.page p.mem.trapframe d false}) :=
      Each.of_one ⟨m, hm, S', d, hS', rfl⟩
    exact contract_post (o := .fork p pid unused) (v := none) (b := 0) ⟨m, hm, rfl⟩ hidle rfl
  · have hidle : Each (idleShare K (Function.update R pid (some m))) [p, ⟨pid, np⟩]
        (({.space S'} + {.page p.mem.trapframe d false}) + h) := by
      apply Each.cons
      · exact ⟨m, by rwa [Function.update_of_ne hne], S', d, hS', rfl⟩
      · exact Each.of_one ⟨m, Function.update_self .., hh⟩
    have hpost := contract_post (K := K) (R := R) (o := .fork p pid unused)
      (v := some np) (b := 0) ⟨m, hm, rfl⟩ hidle rfl
    have hback : {Atom.space S'} + (h + ({Atom.token np.pagetable} +
        {Atom.page p.mem.trapframe d false})) = ({Atom.space S'} +
          {Atom.page p.mem.trapframe d false}) + h + (0 + {Atom.token np.pagetable}) := by
      rw [zero_add]
      ac_rfl
    rw [hback]
    exact hpost

theorem safely_exec {p : Proc} {file : Option ProgFile} {argv : List (List UInt8)}
    {scause : Nat} : (Op.exec p file argv scause).Safely K R := by
  rintro a b ha hb
  obtain ⟨m, hm, S, d, hS, rfl⟩ := Each.singleton ha
  obtain rfl : b = 0 := hb
  have hshare : ∀ (T : Space) (x : Nat), ({Atom.space T} +
      {Atom.page p.mem.trapframe d false} + (0 + tokens [x]) : Multiset Atom) =
        {Atom.space T} + ({Atom.page p.mem.trapframe d false} + ({Atom.token x} + 0)) := by
    intro T x
    rw [zero_add, add_zero, add_assoc]
    rfl
  change Safe (logic K) (Op.exec p file argv scause).Fails (exec K p.mem file argv scause)
    ({.space S} + {.page p.mem.trapframe d false} + (0 + tokens [p.mem.pagetable])) _
  rw [hshare]
  apply (safe_exec hS quiet_zero).mono
  rintro v r' (⟨rfl, rfl⟩ | ⟨p', image, S', m', rfl, hS', htf, rfl⟩)
  · have hidle : Each (idleShare K R) [p] ({.space S} + {.page p.mem.trapframe d false}) :=
      Each.of_one ⟨m, hm, S, d, hS, rfl⟩
    rw [← hshare]
    exact contract_post (o := .exec p file argv scause) (v := none) rfl hidle rfl
  · have hidle : Each (idleShare K (Function.update R p.pid (some m')))
        [{ p with mem := p' }] ({.space S'} + {.page p.mem.trapframe d false}) := by
      rw [← htf]
      exact Each.of_one ⟨m', Function.update_self .., S', d, hS', rfl⟩
    rw [← hshare]
    exact contract_post (o := .exec p file argv scause) (v := some (p', image)) ⟨m', rfl⟩
      hidle rfl

theorem safely_userinit {pid : Nat} {initcode : List UInt8}
    (hready : (Op.userinit pid initcode).Ready) :
    (Op.userinit pid initcode).Safely K R := by
  rintro a b ha hb
  obtain rfl : a = 0 := ha
  obtain rfl : b = 0 := hb
  change Safe (logic K) _ (userinit K initcode) 0 _
  have hfault : (Op.userinit pid initcode).Fails (.fault 0) := rfl
  apply (safe_userinit hready hfault quiet_zero).mono
  rintro x r' ⟨hquiet, hx⟩
  refine ⟨hquiet, fun haccepts => ?_⟩
  obtain ⟨h, m, hh, rfl⟩ := hx (by simpa [Op.accepts] using haccepts)
  refine ⟨_, h, 0, ⟨m, rfl⟩, Each.of_one ⟨m, Function.update_self .., hh⟩, rfl, ?_⟩
  rw [zero_add, add_zero]
  rfl

theorem Op.safely (o : Op) (hready : o.Ready) (hnodup : o.pids.Nodup) : o.Safely K R := by
  cases o with
  | kalloc => exact safely_kalloc
  | kfree f => exact safely_kfree
  | allocproc pid unused => exact safely_allocproc
  | freeproc p => exact safely_freeproc
  | uvmalloc p newsz xperm => exact safely_uvmalloc hready
  | uvmdealloc p newsz => exact safely_uvmdealloc
  | uvmcopy p c => exact safely_uvmcopy hready hnodup
  | uvmclear p v => exact safely_uvmclear hready
  | growproc p n => exact safely_growproc
  | fork p pid unused => exact safely_fork hnodup
  | exec p file argv scause => exact safely_exec
  | userinit pid initcode => exact safely_userinit hready
  | load p va => exact safely_load
  | store p va b => exact safely_store
  | copyin p srcva len => exact safely_copyin
  | copyout p dstva src scause => exact safely_copyout hready

end ops

section reference

variable {K : Image} {R R' R₁ : Eager} {o : Op} {v : o.Result}

/-- What an operation does depends on the memories of its own processes only. -/
theorem Eager.Step.transfer (h : R.Step o v R₁) (hsame : ∀ i ∈ o.pids, R' i = R i) :
    ∃ R₁', R'.Step o v R₁' ∧ ∀ i ∈ o.pids, R₁' i = R₁ i := by
  have hupdate : ∀ (j : Nat) (x : Option Mem) (i : Nat), i ∈ o.pids →
      Function.update R' j x i = Function.update R j x i := by
    intro j x i hi
    by_cases hij : i = j
    · subst hij
      rw [Function.update_self, Function.update_self]
    · rw [Function.update_of_ne hij, Function.update_of_ne hij, hsame i hi]
  have hproc : ∀ {p : Proc} {m : Mem}, p ∈ o.procs → R p.pid = some m →
      R' p.pid = some m := by
    intro p m hp hm
    rw [hsame _ (List.mem_append_left _ (List.mem_map_of_mem hp)), hm]
  cases o with
  | kalloc | kfree f =>
      obtain rfl : R₁ = R := h
      exact ⟨R', rfl, hsame⟩
  | allocproc pid unused =>
      refine ⟨_, rfl, fun i hi => ?_⟩
      rw [show R₁ = _ from h]
      split
      · exact hupdate _ _ i hi
      · exact hsame i hi
  | freeproc p =>
      obtain rfl : R₁ = _ := h
      exact ⟨_, rfl, hupdate _ _⟩
  | uvmalloc p newsz xperm =>
      obtain ⟨m, hm, rfl⟩ := h
      refine ⟨_, ⟨m, hproc (by simp [Op.procs]) hm, rfl⟩, fun i hi => ?_⟩
      split
      · exact hsame i hi
      · exact hupdate _ _ i hi
  | uvmcopy p c =>
      obtain ⟨m, hm, rfl⟩ := h
      refine ⟨_, ⟨m, hproc (by simp [Op.procs]) hm, rfl⟩, fun i hi => ?_⟩
      split
      · exact hupdate _ _ i hi
      · exact hsame i hi
  | fork p pid unused =>
      obtain ⟨m, hm, rfl⟩ := h
      refine ⟨_, ⟨m, hproc (by simp [Op.procs]) hm, rfl⟩, fun i hi => ?_⟩
      split
      · exact hupdate _ _ i hi
      · exact hsame i hi
  | exec p file argv scause =>
      cases v with
      | none =>
          obtain rfl : R₁ = R := h
          exact ⟨R', rfl, hsame⟩
      | some x =>
          obtain ⟨m, rfl⟩ := h
          exact ⟨_, ⟨m, rfl⟩, hupdate _ _⟩
  | userinit pid initcode =>
      obtain ⟨m, rfl⟩ := h
      exact ⟨_, ⟨m, rfl⟩, hupdate _ _⟩
  | load p va | copyin p srcva len =>
      obtain ⟨m, hm, hv, rfl⟩ := h
      exact ⟨R', ⟨m, hproc (by simp [Op.procs]) hm, hv, rfl⟩, hsame⟩
  | store p va b =>
      obtain ⟨m, m', hm, hv, hm', rfl⟩ := h
      exact ⟨_, ⟨m, m', hproc (by simp [Op.procs]) hm, hv, hm', rfl⟩, hupdate _ _⟩
  | copyout p dstva src scause =>
      obtain ⟨m, hm, hv, rfl⟩ := h
      exact ⟨_, ⟨m, hproc (by simp [Op.procs]) hm, hv, rfl⟩, hupdate _ _⟩
  | uvmdealloc p newsz | uvmclear p v | growproc p n =>
      obtain ⟨m, hm, rfl⟩ := h
      exact ⟨_, ⟨m, hproc (by simp [Op.procs]) hm, rfl⟩, hupdate _ _⟩

/-- The processes that an operation leaves are among its own. -/
theorem Op.pids_back (o : Op) (v : o.Result) : ((o.back v).map Proc.pid).Sublist o.pids := by
  cases o with
  | allocproc pid unused => cases v <;> simp [Op.back, Op.pids, Op.procs, Op.newPids]
  | uvmalloc p newsz xperm =>
      simp only [Op.back, Op.pids, Op.procs, Op.newPids]
      split <;> simp
  | uvmcopy p c =>
      simp only [Op.back, Op.pids, Op.procs, Op.newPids]
      split <;> simp
  | fork p pid unused => cases v <;> simp [Op.back, Op.pids, Op.procs, Op.newPids]
  | exec p file argv scause => cases v <;> simp [Op.back, Op.pids, Op.procs, Op.newPids]
  | _ => simp [Op.back, Op.pids, Op.procs, Op.newPids]

theorem idleShare.congr {p : Proc} {a : Multiset Atom} (h : idleShare K R p a)
    (hsame : R' p.pid = R p.pid) : idleShare K R' p a := by
  obtain ⟨m, hm, hh⟩ := h
  exact ⟨m, hsame.trans hm, hh⟩

/-- A running operation does not notice what others do to other processes. -/
theorem share_congr {t : Task MemCmd Op.Result} {r : Multiset Atom}
    (h : t.Share (logic K) (contract K R) r) (hsame : ∀ i ∈ t.op.pids, R' i = R i) :
    t.Share (logic K) (contract K R') r := by
  apply Safe.mono h
  rintro v a ⟨hquiet, hpost⟩
  refine ⟨hquiet, fun haccepts => ?_⟩
  obtain ⟨R₁, a₁, a₂, hstep, ha₁, ha₂, rfl⟩ := hpost haccepts
  obtain ⟨R₁', hstep', hsame'⟩ := hstep.transfer hsame
  refine ⟨R₁', a₁, a₂, hstep', ha₁.mono fun p hp a ha => ha.congr ?_, ha₂, rfl⟩
  exact hsame' _ ((t.op.pids_back v).subset (List.mem_map_of_mem hp))

end reference

section system

variable {K : Image} {R : Eager} {s s' : Sys}

/-- The page tables of which the system knows that no running operation frees
them. -/
def Sys.roots (s : Sys) : List Nat :=
  (s.procs.map fun p => p.mem.pagetable) ++ (s.busy.map Task.op).flatMap Op.kept

/-- The processes at rest and those of running operations. -/
def Sys.pids (s : Sys) : List Nat :=
  s.procs.map Proc.pid ++ (s.busy.map Task.op).flatMap Op.pids

/-- The ledger of the whole system, divided among its parts. -/
structure Sys.Ledger (K : Image) (R : Eager) (s : Sys) (a b c : Multiset Atom) : Prop where
  procs : Each (idleShare K R) s.procs a
  frames : Each frameShare s.frames b
  busy : Each (Task.Share (logic K) (contract K R)) s.busy c
  inv : Inv K (c + (a + (b + tokens s.roots))) s.k

/-- The system agrees with the reference system. -/
structure Sys.Ok (K : Image) (s : Sys) (R : Eager) : Prop where
  ledger : ∃ a b c, s.Ledger K R a b c
  runs : Eager.Runs s.log R
  nodup : s.pids.Nodup
  fresh : ∀ i ∈ s.pids, i < s.nextpid

theorem Sys.Booted.ok (h : s.Booted K) : s.Ok K fun _ => none := by
  obtain ⟨k, hblank, hkinit⟩ := h.kinit
  obtain ⟨k', hrun, hinv⟩ := kinit_ok (K := K) hblank
  obtain rfl : s.k = k' := (Prod.mk.inj (Except.ok.inj (hkinit.symm.trans hrun))).2
  have hroots : s.roots = [] := by simp [Sys.roots, h.procs, h.busy]
  have hpids : s.pids = [] := by simp [Sys.pids, h.procs, h.busy]
  constructor
  case ledger =>
    refine ⟨0, 0, 0, ?_, ?_, ?_, ?_⟩
    · rw [h.procs]
      rfl
    · rw [h.frames]
      rfl
    · rw [h.busy]
      rfl
    · rw [hroots]
      exact hinv
  case runs =>
    rw [h.log]
    exact .nil
  case nodup =>
    rw [hpids]
    exact List.nodup_nil
  case fresh =>
    rw [hpids]
    intro i hi
    cases hi

/-- What an operation takes, next to what it leaves in the pool. -/
theorem perm_take {α : Type} [DecidableEq α] {xs ys : List α} (h : xs.Subperm ys) :
    ys.Perm (xs ++ ys.diff xs) :=
  (List.subperm_append_diff_self_of_count_le (List.subperm_ext_iff.mp h)).symm

theorem Op.newPids_nodup (o : Op) : o.newPids.Nodup := by
  cases o <;> simp [Op.newPids]

section start

variable {o : Op}

theorem Sys.start_pids (hprocs : o.procs.Subperm s.procs) :
    (s.start K o).pids.Perm (o.newPids ++ s.pids) := by
  have hmap := (perm_take hprocs).map Proc.pid
  rw [List.map_append] at hmap
  have hpids : (s.start K o).pids = (s.procs.diff o.procs).map Proc.pid ++
      ((o.procs.map Proc.pid ++ o.newPids) ++ (s.busy.map Task.op).flatMap Op.pids) := rfl
  have hold : s.pids = s.procs.map Proc.pid ++ (s.busy.map Task.op).flatMap Op.pids := rfl
  rw [hpids, hold, ← Multiset.coe_eq_coe]
  rw [← Multiset.coe_eq_coe] at hmap
  simp only [← Multiset.coe_add] at hmap ⊢
  rw [hmap]
  ac_rfl

theorem Sys.start_roots (hprocs : o.procs.Subperm s.procs) :
    tokens s.roots = tokens o.given + tokens (s.start K o).roots := by
  have hmap := (perm_take hprocs).map fun p => p.mem.pagetable
  rw [List.map_append] at hmap
  have hroots : (s.start K o).roots = ((s.procs.diff o.procs).map fun p =>
      p.mem.pagetable) ++ (o.kept ++ (s.busy.map Task.op).flatMap Op.kept) := rfl
  have hold : s.roots = (s.procs.map fun p => p.mem.pagetable) ++
      (s.busy.map Task.op).flatMap Op.kept := rfl
  have hsplit : tokens (o.procs.map fun p => p.mem.pagetable) =
      tokens o.kept + tokens o.given := by
    rw [← tokens_append, o.kept_append_given]
    rfl
  rw [hroots, hold, tokens_append, tokens_perm hmap]
  simp only [tokens_append, hsplit]
  ac_rfl

/-- An operation takes its share out of the pool. -/
theorem Sys.Ok.start (h : s.Ok K R) (hready : o.Ready) (hcan : s.canStart o = true) :
    (s.start K o).Ok K R := by
  simp only [Sys.canStart, Bool.and_eq_true, decide_eq_true_eq, List.all_eq_true,
    beq_iff_eq] at hcan
  obtain ⟨⟨hprocs, hframes⟩, hnew⟩ := hcan
  have hperm := Sys.start_pids (K := K) hprocs
  have hnodup : (s.start K o).pids.Nodup := by
    rw [hperm.nodup_iff, List.nodup_append']
    refine ⟨o.newPids_nodup, h.nodup, ?_⟩
    intro i hi hold
    have hlt := h.fresh i hold
    rw [hnew i hi] at hlt
    exact Nat.lt_irrefl _ hlt
  have hopids : o.pids.Nodup := by
    apply List.Nodup.sublist _ hnodup
    have hpids : (s.start K o).pids = (s.procs.diff o.procs).map Proc.pid ++
        (o.pids ++ (s.busy.map Task.op).flatMap Op.pids) := rfl
    rw [hpids]
    exact (List.sublist_append_left _ _).trans (List.sublist_append_right _ _)
  obtain ⟨a, b, c, hl⟩ := h.ledger
  obtain ⟨a₁, a₂, ha₁, ha₂, rfl⟩ := (hl.procs.perm (perm_take hprocs)).of_append
  obtain ⟨b₁, b₂, hb₁, hb₂, rfl⟩ := (hl.frames.perm (perm_take hframes)).of_append
  constructor
  case ledger =>
    refine ⟨a₂, b₂, a₁ + (b₁ + tokens o.given) + c, ha₂, hb₂, ?_, ?_⟩
    · exact Each.cons (o.safely hready hopids a₁ b₁ ha₁ hb₁) hl.busy
    · have hsum : a₁ + (b₁ + tokens o.given) + c + (a₂ + (b₂ + tokens (s.start K o).roots)) =
          c + (a₁ + a₂ + (b₁ + b₂ + tokens s.roots)) := by
        rw [Sys.start_roots (K := K) hprocs]
        ac_rfl
      rw [hsum]
      exact hl.inv
  case runs => exact h.runs
  case nodup => exact hnodup
  case fresh =>
    intro i hi
    have hnext : (s.start K o).nextpid = s.nextpid + o.newPids.length := rfl
    rw [hnext]
    rcases List.mem_append.mp (hperm.mem_iff.mp hi) with hnewi | hold
    · have hpos := List.length_pos_of_mem hnewi
      rw [hnew i hnewi]
      omega
    · have hlt := h.fresh i hold
      omega

end start

section run

variable {i : Nat} {o : Op}

/-- A step of a task does not change for which operation it runs. -/
theorem map_op_set {pool : List (Task MemCmd Op.Result)} {prog g : P o.Result}
    (h : pool[i]? = some ⟨o, prog⟩) : (pool.set i ⟨o, g⟩).map Task.op =
      pool.map Task.op := by
  apply List.ext_getElem?
  intro j
  rw [List.getElem?_map, List.getElem?_map]
  by_cases hij : i = j
  · subst hij
    rw [List.getElem?_set_self (List.getElem?_eq_some_iff.mp h).1, h]
    rfl
  · rw [List.getElem?_set_ne hij]

/-- One command of one running operation. -/
theorem Sys.Ok.run {β : Type} {c : MemCmd β} {next : β → P o.Result} (h : s.Ok K R)
    (ht : s.busy[i]? = some ⟨o, .call c next⟩) :
    match handler K _ c s.k with
    | .ok (answer, k') =>
        Sys.Ok K { s with k := k', busy := s.busy.set i ⟨o, next answer⟩ } R
    | .error e => o.Fails e := by
  obtain ⟨a, b, d, hl⟩ := h.ledger
  have hstep := hl.busy.step hl.inv ht
  have hexec : (logic K).exec _ c s.k = handler K _ c s.k := rfl
  rw [hexec] at hstep
  cases hrun : handler K _ c s.k with
  | error e =>
      simp only [hrun] at hstep
      exact hstep
  | ok out =>
      simp only [hrun] at hstep
      obtain ⟨d', hd', hinv'⟩ := hstep
      have hops := map_op_set (g := next out.1) ht
      constructor
      case ledger =>
        refine ⟨a, b, d', hl.procs, hl.frames, hd', ?_⟩
        simp only [Sys.roots, hops]
        exact hinv'
      case runs => exact h.runs
      case nodup =>
        simp only [Sys.pids, hops]
        exact h.nodup
      case fresh =>
        simp only [Sys.pids, hops]
        exact h.fresh

end run

section finish

variable {i : Nat} {o : Op} {v : o.Result}

/-- The operation that ends, next to the others. -/
theorem map_op_erase {pool : List (Task MemCmd Op.Result)} {prog : P o.Result}
    (h : pool[i]? = some ⟨o, prog⟩) :
    (pool.map Task.op).Perm (o :: (pool.eraseIdx i).map Task.op) := by
  obtain ⟨hi, hget⟩ := List.getElem?_eq_some_iff.mp h
  have hperm := (List.getElem_cons_eraseIdx_perm hi).symm.map Task.op
  rwa [List.map_cons, hget] at hperm

theorem Sys.finish_roots {prog : P o.Result} (ht : s.busy[i]? = some ⟨o, prog⟩) :
    tokens (s.finish i o v).roots = tokens (o.newRoots v) + tokens s.roots := by
  have hroots : (s.finish i o v).roots = ((o.back v ++ s.procs).map fun p =>
      p.mem.pagetable) ++ ((s.busy.eraseIdx i).map Task.op).flatMap Op.kept := rfl
  have hold : s.roots = (s.procs.map fun p => p.mem.pagetable) ++
      (s.busy.map Task.op).flatMap Op.kept := rfl
  have hperm := (map_op_erase ht).flatMap_right Op.kept
  rw [List.flatMap_cons] at hperm
  rw [hroots, hold, tokens_append (List.map _ s.procs), tokens_perm hperm, List.map_append,
    o.roots_back v]
  simp only [tokens_append]
  ac_rfl

theorem Sys.finish_pids {prog : P o.Result} (ht : s.busy[i]? = some ⟨o, prog⟩) :
    (s.finish i o v).pids.Subperm s.pids := by
  have hpids : (s.finish i o v).pids = (o.back v ++ s.procs).map Proc.pid ++
      ((s.busy.eraseIdx i).map Task.op).flatMap Op.pids := rfl
  have hold : s.pids = s.procs.map Proc.pid ++ (s.busy.map Task.op).flatMap Op.pids := rfl
  have hperm := (map_op_erase ht).flatMap_right Op.pids
  rw [List.flatMap_cons] at hperm
  rw [← Multiset.coe_eq_coe, ← Multiset.coe_add] at hperm
  rw [hpids, hold, ← Multiset.coe_le, List.map_append]
  simp only [← Multiset.coe_add]
  rw [hperm]
  have hback : ((o.back v).map Proc.pid : Multiset Nat) ≤ o.pids :=
    Multiset.coe_le.mpr (o.pids_back v).subperm
  calc _ = ((o.back v).map Proc.pid : Multiset Nat) + ((s.procs.map Proc.pid : Multiset Nat) +
        (((s.busy.eraseIdx i).map Task.op).flatMap Op.pids : Multiset Nat)) := by ac_rfl
    _ ≤ o.pids + ((s.procs.map Proc.pid : Multiset Nat) +
        (((s.busy.eraseIdx i).map Task.op).flatMap Op.pids : Multiset Nat)) := by gcongr
    _ = _ := by ac_rfl

/-- The processes of an operation are not those of another, nor at rest. -/
theorem Sys.Ok.apart {prog : P o.Result} (h : s.Ok K R)
    (ht : s.busy[i]? = some ⟨o, prog⟩) {j : Nat} (hj : j ∈ s.procs.map Proc.pid ∨
      j ∈ ((s.busy.eraseIdx i).map Task.op).flatMap Op.pids) : j ∉ o.pids := by
  have hperm := (map_op_erase ht).flatMap_right Op.pids
  rw [List.flatMap_cons] at hperm
  have hnodup : (s.procs.map Proc.pid ++ (o.pids ++
      ((s.busy.eraseIdx i).map Task.op).flatMap Op.pids)).Nodup :=
    ((hperm.append_left _).nodup_iff).mp h.nodup
  rw [List.nodup_append'] at hnodup
  obtain ⟨-, hrest, hdisj⟩ := hnodup
  rw [List.nodup_append'] at hrest
  intro hjo
  rcases hj with hj | hj
  · exact hdisj hj (List.mem_append_left _ hjo)
  · exact hrest.2.2 hjo hj

/-- An operation that has returned puts back what it leaves. -/
theorem Sys.Ok.finish (h : s.Ok K R) (ht : s.busy[i]? = some ⟨o, .ret v⟩)
    (haccepts : o.accepts v = true) : ∃ R', R.Step o v R' ∧ (s.finish i o v).Ok K R' := by
  obtain ⟨a, b, c, hl⟩ := h.ledger
  obtain ⟨e, c', ⟨-, hpost⟩, hc', hinv⟩ := hl.busy.finish hl.inv ht
  obtain ⟨R', a₁, a₂, hstep, ha₁, ha₂, rfl⟩ := hpost haccepts
  refine ⟨R', hstep, ?_⟩
  have hidle : Each (idleShare K R') s.procs a := hl.procs.mono fun p hp x hx =>
    hx.congr (hstep.other (h.apart ht (Or.inl (List.mem_map_of_mem hp))))
  have hbusy : Each (Task.Share (logic K) (contract K R')) (s.busy.eraseIdx i) c' := by
    apply hc'.mono
    intro t hmem x hx
    apply share_congr hx
    intro j hj
    apply hstep.other
    apply h.apart ht
    exact Or.inr (List.mem_flatMap.mpr ⟨t.op, List.mem_map_of_mem hmem, hj⟩)
  have hsub := Sys.finish_pids (v := v) ht
  constructor
  case ledger =>
    refine ⟨a₁ + a, a₂ + b, c', ha₁.append hidle, ha₂.append hl.frames, hbusy, ?_⟩
    rw [Sys.finish_roots ht]
    have hsum : c' + (a₁ + a + (a₂ + b + (tokens (o.newRoots v) + tokens s.roots))) =
        a₁ + (a₂ + tokens (o.newRoots v)) + (c' + (a + (b + tokens s.roots))) := by
      ac_rfl
    rw [hsum]
    exact hinv
  case runs => exact h.runs.cons hstep
  case nodup =>
    obtain ⟨l, hperm, hlist⟩ := hsub
    exact hperm.nodup_iff.mp (List.Nodup.sublist hlist h.nodup)
  case fresh => exact fun j hj => h.fresh j (hsub.subset hj)

end finish

/-- Every state of the memory system agrees with a run of the reference system. -/
theorem Sys.Reachable.ok (h : s.Reachable K) : ∃ R, s.Ok K R := by
  apply Transition.Reach.invariant (I := fun s => ∃ R, Sys.Ok K s R) _ _ h
  · exact fun s hs => ⟨_, hs.ok⟩
  · rintro s action s' hallowed hstep ⟨R, hok⟩
    cases action with
    | start o =>
        simp only [Sys.step] at hstep
        split at hstep
        · next hcan =>
            obtain rfl := Except.ok.inj (Option.some.inj hstep)
            exact ⟨R, hok.start hallowed hcan⟩
        · cases hstep
    | run i =>
        simp only [Sys.step] at hstep
        split at hstep
        · next o β c next ht =>
            have hrun := hok.run ht
            split at hstep
            · next answer k' hexec =>
                obtain rfl := Except.ok.inj (Option.some.inj hstep)
                rw [hexec] at hrun
                exact ⟨R, hrun⟩
            · cases Option.some.inj hstep
        · cases hstep
    | finish i =>
        simp only [Sys.step] at hstep
        split at hstep
        · next o v ht =>
            split at hstep
            · next haccepts =>
                obtain rfl := Except.ok.inj (Option.some.inj hstep)
                obtain ⟨R', -, hok'⟩ := hok.finish ht haccepts
                exact ⟨R', hok'⟩
            · cases hstep
        · cases hstep

end system

end Xv6.Vm
