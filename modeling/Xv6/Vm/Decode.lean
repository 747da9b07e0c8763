/-
Reading page tables off memory: the entry that the hardware finds for an address, and the
byte that user code sees there.  The spaces of the ledger are connected with memory here.
-/
import Xv6.Vm.SystemInv

namespace Xv6.Vm

open Bytes Program Interleave

/-- The entry that translation finds for an address below MAXVA, 0 if a table is missing. -/
def lookup (mem : Nat → Arr) (pagetable va : Nat) : Pte :=
  let top := loadPte (mem pagetable) (PX 2 va)
  if top.has PTE_V then
    let middle := loadPte (mem (PTE2PA top)) (PX 1 va)
    if middle.has PTE_V then loadPte (mem (PTE2PA middle)) (PX 0 va) else 0
  else 0

/-- The place of the entry of an address, if all tables on the way are there. -/
def slotAt (mem : Nat → Arr) (pagetable va : Nat) : Option PtePtr :=
  let top := loadPte (mem pagetable) (PX 2 va)
  if top.has PTE_V then
    let middle := loadPte (mem (PTE2PA top)) (PX 1 va)
    if middle.has PTE_V then some (PTE2PA middle, PX 0 va) else none
  else none

/-- The page that user code may use at an address. -/
def userPage (mem : Nat → Arr) (pagetable va : Nat) : Option Nat :=
  let w := lookup mem pagetable va
  if va < MAXVA ∧ w.has PTE_V ∧ w.has PTE_U then some (PTE2PA w) else none

/-- The byte at an address that user code may use. -/
def userByte (mem : Nat → Arr) (pagetable va : Nat) : Option UInt8 :=
  let w := lookup mem pagetable va
  if va < MAXVA ∧ w.has PTE_V ∧ w.has PTE_U then some (mem (PTE2PA w) (va % PGSIZE)) else none

theorem lookup_eq_slotAt (mem : Nat → Arr) (pagetable va : Nat) :
    lookup mem pagetable va =
      ((slotAt mem pagetable va).map fun pte => loadPte (mem pte.1) pte.2).getD 0 := by
  simp only [lookup, slotAt]
  by_cases htop : (loadPte (mem pagetable) (PX 2 va)).has PTE_V = true
  · simp only [htop, if_true]
    split <;> rfl
  · simp only [htop]
    rfl

theorem userByte_eq (mem : Nat → Arr) (pagetable va : Nat) :
    userByte mem pagetable va =
      (userPage mem pagetable va).map fun pa => mem pa (va % PGSIZE) := by
  simp only [userByte, userPage]
  split <;> rfl

theorem PX_congr {a b : Nat} (h : a / PGSIZE = b / PGSIZE) (level : Nat) :
    PX level a = PX level b := by
  have hdiv : ∀ x, x / 2 ^ (12 + 9 * level) = x / PGSIZE / 2 ^ (9 * level) := by
    intro x
    rw [pow_add, ← Nat.div_div_eq_div_mul]
    rfl
  rw [PX, PX, hdiv, hdiv, h]

variable {K : Image} {s s' : Kmem} {S : Space} {F : Multiset Atom} {va v : Nat} {l : Leaf}

section tables

variable {mem : Nat → Arr} (h : S.Table K mem)
include h

/-- The entry for the next table on the way to an address. -/
theorem Space.Table.load_node (level : Nat) {p : Nat}
    (hp : S.node (level + 1, entryIx (level + 2) va) = some p) :
    loadPte (mem p) (PX (level + 1) va) = encodeNode (S.node (level, entryIx (level + 1) va)) :=
  h.entries (level + 1) (entryIx (level + 1) va) p (by rwa [entryIx_div])

theorem Space.Table.load_leaf {p : Nat} (hp : S.node (0, entryIx 1 va) = some p) :
    loadPte (mem p) (PX 0 va) = encodeLeaf (S.leaf (va / PGSIZE)) :=
  h.entries 0 (entryIx 0 va) p (by rwa [entryIx_div])

theorem Space.Table.node_root (hva : va < MAXVA) : S.node (2, entryIx 3 va) = some S.root := by
  rw [entryIx_two_div hva]
  exact h.root

theorem Space.Table.node_below_none (level : Nat) (hlevel : level < 2)
    (hnone : S.node (level + 1, entryIx (level + 2) va) = none) :
    S.node (level, entryIx (level + 1) va) = none := by
  by_contra hsome
  obtain ⟨c, hc⟩ := Option.ne_none_iff_exists'.mp hsome
  obtain ⟨q, hq⟩ := h.parent _ _ c hc hlevel
  rw [entryIx_div, hnone] at hq
  cases hq

theorem Space.Table.leaf_none (hnone : S.node (0, entryIx 1 va) = none) :
    S.leaf (va / PGSIZE) = none := by
  by_contra hsome
  obtain ⟨l, hl⟩ := Option.ne_none_iff_exists'.mp hsome
  obtain ⟨q, hq⟩ := h.leafParent _ l hl
  rw [← entryIx_zero, entryIx_div, hnone] at hq
  cases hq

/-- Translation finds the slot of the space. -/
theorem Space.Table.slotAt (hva : va < MAXVA) : slotAt mem S.root va = S.slot va := by
  have hframe : ∀ x p, S.node x = some p → K.Frame p := fun x p hp => (h.dom x p hp).2
  simp only [Vm.slotAt, Space.slot]
  rw [h.load_node 1 (h.node_root hva)]
  cases hone : S.node (1, entryIx 2 va) with
  | none =>
      rw [h.node_below_none 0 (by decide) hone]
      rfl
  | some p =>
      have hp := hframe _ p hone
      simp only [has_encodeNode (K := K) (some p) fun q hq => Option.some.inj hq ▸ hp,
        PTE2PA_encodeNode hp, Option.isSome_some, if_true]
      rw [h.load_node 0 hone]
      cases hzero : S.node (0, entryIx 1 va) with
      | none => rfl
      | some q =>
          have hq := hframe _ q hzero
          simp only [has_encodeNode (K := K) (some q) fun c hc => Option.some.inj hc ▸ hq,
            PTE2PA_encodeNode hq, Option.isSome_some, if_true, Option.map_some]

theorem Space.Table.lookup (hva : va < MAXVA) :
    lookup mem S.root va = encodeLeaf (S.leaf (va / PGSIZE)) := by
  rw [lookup_eq_slotAt, h.slotAt hva, Space.slot]
  cases hzero : S.node (0, entryIx 1 va) with
  | none =>
      rw [h.leaf_none hzero]
      rfl
  | some q => exact h.load_leaf hzero

end tables

section spaces

variable (h : S.Ok K s)
include h

/-- The user pages of memory are those of the space. -/
theorem Space.Ok.userPage_eq (va : Nat) :
    userPage s.mem S.root va = if va / PGSIZE < USERPAGES then
      (S.leaf (va / PGSIZE)).bind fun l => if l.fl.has PTE_U then some l.pa else none
    else none := by
  simp only [Vm.userPage]
  by_cases hva : va < MAXVA
  · rw [h.table.lookup hva]
    cases hl : S.leaf (va / PGSIZE) with
    | none =>
        have hzero : ¬ (encodeLeaf none).has PTE_V = true := by decide
        rw [if_neg fun hand => hzero hand.2.1, Option.bind_none, ite_self]
    | some l =>
        have hV : (encodeLeaf (some l)).has PTE_V = l.fl.has PTE_V := h.has hl (by decide)
        have hU : (encodeLeaf (some l)).has PTE_U = l.fl.has PTE_U := h.has hl (by decide)
        simp only [hV, hU, h.valid hl, hva, true_and, Option.bind_some]
        by_cases huser : l.fl.has PTE_U = true
        · have hv := h.lt_of_user hl huser
          rw [if_pos huser, if_pos huser, if_pos hv, (h.user _ l hv hl).PTE2PA]
        · rw [if_neg huser, if_neg huser, ite_self]
  · have hbig : ¬ va / PGSIZE < USERPAGES := by
      simp only [USERPAGES, TRAPFRAME, TRAMPOLINE, MAXVA, PGSIZE] at hva ⊢
      omega
    rw [if_neg hbig, if_neg fun hand => hva hand.1]

theorem Space.Ok.userPage {pa : Nat} (hpa : userPage s.mem S.root va = some pa) :
    ∃ l, va / PGSIZE < USERPAGES ∧ S.leaf (va / PGSIZE) = some l ∧ l.fl.has PTE_U = true ∧
      l.pa = pa := by
  rw [h.userPage_eq] at hpa
  split at hpa
  · next hv =>
      obtain ⟨l, hl, hif⟩ := Option.bind_eq_some_iff.mp hpa
      split at hif
      · next huser => exact ⟨l, hv, hl, huser, Option.some.inj hif⟩
      · cases hif
  · cases hpa

/-- What user code sees at an address is the byte of the space. -/
theorem Space.Ok.userByte (va : Nat) : userByte s.mem S.root va = S.user.load va := by
  rw [userByte_eq, h.userPage_eq]
  by_cases hv : va / PGSIZE < USERPAGES
  · rw [if_pos hv]
    cases hl : S.leaf (va / PGSIZE) with
    | none =>
        rw [Mem.load, Space.user_eq_none.mpr (Or.inr hl)]
        rfl
    | some l =>
        have hsome := Space.user_eq_some.mpr ⟨hv, l, hl, rfl⟩
        rw [Mem.load, hsome]
        by_cases huser : l.fl.has PTE_U = true
        · simp only [Option.bind_some, huser, if_true, Option.map_some]
          rw [(h.user _ l hv hl).data]
          exact (if_pos huser).symm
        · simp only [Option.bind_some, huser]
          exact (if_neg huser).symm
  · rw [if_neg hv, Mem.load, Space.user_eq_none.mpr (Or.inl (by omega))]
    rfl

/-- The contents of the frame that the entry of a user page names. -/
theorem Space.Ok.frame_data (hv : v < USERPAGES) (hl : S.leaf v = some l) :
    s.mem (PTE2PA (encodeLeaf (some l))) = S.data v := by
  have hleaf := h.user v l hv hl
  rw [hleaf.PTE2PA]
  exact hleaf.data

theorem Space.Ok.lookup_eq {S' : Space} (h' : S'.Ok K s') (hroot : S'.root = S.root)
    (hva : va < MAXVA) (hleaf : S'.leaf (va / PGSIZE) = S.leaf (va / PGSIZE)) :
    lookup s'.mem S.root va = lookup s.mem S.root va := by
  rw [h.table.lookup hva, ← hroot, h'.table.lookup hva, hleaf]

end spaces

section reachable

theorem tokens_of_mem {x : Nat} {xs : List Nat} (h : x ∈ xs) :
    tokens xs = {.token x} + tokens (xs.erase x) := by
  rw [tokens_perm (List.perm_cons_erase h)]
  exact tokens_append [x] (xs.erase x)

/-- A process at rest owns its page table and its trapframe and may free the table; the ledger
has a space, a page and a token for them. -/
theorem Sys.Reachable.holding {sys : Sys} (h : sys.Reachable K) {p : Proc}
    (hp : p ∈ sys.procs) : ∃ S m d F, S.Is K p.mem m ∧
      Inv K ({.space S} + {.page p.mem.trapframe d false} +
        ({.token p.mem.pagetable} + F)) sys.k := by
  obtain ⟨R, hok⟩ := h.ok
  obtain ⟨a, b, c, hledger⟩ := hok.ledger
  obtain ⟨i, hi⟩ := List.mem_iff_getElem?.mp hp
  obtain ⟨a₁, a₂, ⟨m, -, S, d, hS, rfl⟩, -, rfl⟩ := hledger.procs.get hi
  have hroot : p.mem.pagetable ∈ sys.roots :=
    List.mem_append_left _ (List.mem_map.mpr ⟨p, hp, rfl⟩)
  generalize hrest : tokens (sys.roots.erase p.mem.pagetable) = rest
  refine ⟨S, m, d, a₂ + (c + (b + rest)), hS, ?_⟩
  have hinv := hledger.inv
  have hsum : c + ({.space S} + {.page p.mem.trapframe d false} + a₂ +
      (b + ({.token p.mem.pagetable} + rest))) = {.space S} +
        {.page p.mem.trapframe d false} +
          ({.token p.mem.pagetable} + (a₂ + (c + (b + rest)))) := by
    ac_rfl
  rwa [tokens_of_mem hroot, hrest, hsum] at hinv

theorem Sys.Reachable.share {sys : Sys} (h : sys.Reachable K) {p : Proc} (hp : p ∈ sys.procs) :
    ∃ S m d F, S.Is K p.mem m ∧
      Inv K ({.space S} + {.page p.mem.trapframe d false} + F) sys.k := by
  obtain ⟨S, m, d, F, hS, hinv⟩ := h.holding hp
  exact ⟨S, m, d, _, hS, hinv⟩

theorem Sys.Reachable.space {sys : Sys} (h : sys.Reachable K) {p : Proc} (hp : p ∈ sys.procs) :
    ∃ S m F, S.Is K p.mem m ∧ Inv K ({.space S} + F) sys.k := by
  obtain ⟨S, m, d, F, hS, hinv⟩ := h.share hp
  rw [add_assoc] at hinv
  exact ⟨S, m, _, hS, hinv⟩

end reachable

/-! Runs in which the answers of the commands are evaluated before the program goes on, for
concrete inputs. -/

section strict

universe u

variable {α : Type u} {β : Type}

def strict (n : Nat) (f : Nat → α) : α :=
  match n with
  | 0 => f 0
  | k + 1 => f (k + 1)

theorem strict_eq (n : Nat) (f : Nat → α) : strict n f = f n := by
  cases n <;> rfl

def MemCmd.strict : MemCmd β → β → (β → α) → α
  | .kalloc, p, f => Vm.strict p f
  | .readPte _, w, f => Vm.strict w.toNat fun n => f (BitVec.ofNat 64 n)
  | _, x, f => f x

theorem MemCmd.strict_eq (c : MemCmd β) (x : β) (f : β → α) : c.strict x f = f x := by
  cases c with
  | kalloc => exact Vm.strict_eq x f
  | readPte pte => rw [MemCmd.strict, Vm.strict_eq, BitVec.ofNat_toNat, BitVec.setWidth_eq]
  | _ => rfl

def runStrict (K : Image) : P β → Kmem → Except KErr (β × Kmem)
  | .ret value, s => .ok (value, s)
  | .call c next, s =>
      match handler K _ c s with
      | .ok (answer, s') => c.strict answer fun answer => runStrict K (next answer) s'
      | .error e => .error e

theorem runStrict_eq (K : Image) (p : P β) (s : Kmem) : runStrict K p s = p.run (handler K) s := by
  induction p generalizing s with
  | ret value => rfl
  | call c next ih =>
      simp only [runStrict, Prog.run, MemCmd.strict_eq, ih]
      cases handler K _ c s <;> rfl

def Sys.stepStrict (K : Image) (s : Sys) : Action → Option (Except KErr Sys)
  | .run i =>
      match s.busy[i]? with
      | some ⟨o, .call c next⟩ =>
          match handler K _ c s.k with
          | .ok (answer, k') => c.strict answer fun answer =>
              some (.ok { s with k := k', busy := s.busy.set i ⟨o, next answer⟩ })
          | .error e => some (.error e)
      | _ => none
  | a => s.step K a

theorem Sys.stepStrict_eq (K : Image) : Sys.stepStrict K = Sys.step K := by
  funext s a
  cases a with
  | run i =>
      cases hbusy : s.busy[i]? with
      | none => simp only [Sys.stepStrict, Sys.step, hbusy]
      | some t =>
          obtain ⟨o, p⟩ := t
          cases p with
          | ret value => simp only [Sys.stepStrict, Sys.step, hbusy]
          | call c next =>
              cases hrun : handler K _ c s.k <;>
                simp only [Sys.stepStrict, Sys.step, hbusy, hrun, MemCmd.strict_eq]
  | start o => rfl
  | finish i => rfl

end strict

/-! A kernel with sixteen free pages that has made its first process and forked it. -/

namespace Forked

def image : Image where
  end_ := PHYSTOP - 16 * PGSIZE
  trampoline := KERNBASE
  base_le_end := by decide
  end_le_phystop := by decide
  base_le_trampoline := by decide
  trampoline_lt_end := by decide
  trampoline_aligned := by decide

def blank : Kmem := ⟨fun _ _ => 0, fun _ => 0, 0, false, fun _ => none⟩

def boot : Sys where
  k := match kinit image blank with
    | .ok (_, k) => k
    | .error _ => blank
  nextpid := 1
  procs := []
  frames := []
  busy := []
  log := []

theorem boot_booted : boot.Booted image := by
  obtain ⟨k, hk, -⟩ := kinit_ok (K := image) (s := blank) ⟨fun _ => rfl, rfl, rfl⟩
  have hboot : boot.k = k := by
    simp only [boot, hk]
  exact ⟨⟨blank, ⟨fun _ => rfl, rfl, rfl⟩, by rw [hboot]; exact hk⟩, rfl, rfl, rfl, rfl⟩

def parent : Proc := ⟨1, ⟨0x87ffe000, PGSIZE, 0x87fff000⟩⟩

def child : Proc := ⟨2, ⟨0x87ff7000, PGSIZE, 0x87ff8000⟩⟩

def acts : List Action :=
  [.start (.userinit 1 [7])] ++ List.replicate 27 (.run 0) ++ [.finish 0] ++
    [.start (.fork parent 2 true)] ++ List.replicate 29 (.run 0) ++ [.finish 0]

def allowed (_ : Sys) : Action → Bool
  | .start (.userinit _ initcode) => decide (initcode.length < PGSIZE)
  | .start (.fork ..) | .run _ | .finish _ => true
  | _ => false

theorem allowed_ready (s : Sys) (a : Action) (h : allowed s a = true) : s.Allowed a := by
  cases a with
  | start o =>
      cases o with
      | userinit pid initcode =>
          exact show initcode.length < PGSIZE by
            simpa only [allowed, decide_eq_true_eq] using h
      | fork p pid unused => trivial
      | _ => cases h
  | run i => trivial
  | finish i => trivial

def final : Option Sys := Transition.runAll allowed (Sys.stepStrict image) boot acts

theorem final_isSome : final.isSome = true := by decide +kernel

def sys : Sys := final.get final_isSome

theorem sys_reachable : sys.Reachable image := by
  have hrun := (Option.some_get final_isSome).symm
  conv at hrun => lhs; rw [final, Sys.stepStrict_eq]
  exact Transition.Reach.runAll allowed_ready (.start boot_booted) hrun

theorem sys_procs : sys.procs = [parent, child] := by decide +kernel

theorem parent_mem : parent ∈ sys.procs := by
  rw [sys_procs]
  exact .head _

end Forked

end Xv6.Vm
