/-
Exceptions of user programs: for which of them usertrap of kernel/trap.c keeps the kernel alive.
-/
import Xv6.Vm.ForkSlot

namespace Xv6.Vm

open Bytes Program Interleave

/-- usertrap resumes the process or lets it exit with status -1, and the memory of the other
processes is as before. -/
def Survives (K : Image) (sys : Sys) (p : Proc) (scause stval : Nat) (killed isInit : Bool) :
    Prop :=
  ∃ e k, (usertrap p.mem.pagetable scause stval killed isInit).run (handler K) sys.k =
      .ok (e, k) ∧
    (e = .resumed ∨ e = .exited (-1)) ∧
    ∀ q ∈ sys.procs, q ≠ p → ∀ va,
      userByte k.mem q.mem.pagetable va = userByte sys.k.mem q.mem.pagetable va

/-- The exception is a store to a copy-on-write page of the user, with a free frame if the page is
shared; and the first process has not been killed. -/
structure Resolvable (K : Image) (k : Kmem) (pagetable scause stval : Nat)
    (killed isInit : Bool) : Prop where
  store : scause = 15
  user : writableAt k.mem pagetable (stval / PGSIZE) = true
  cow : cowAt k.mem pagetable (stval / PGSIZE) = true
  frame : sharedAt k pagetable (stval / PGSIZE) = true → 0 < (freeFrames K k).card
  notInit : ¬ (killed = true ∧ isInit = true)

section handler

variable {K : Image} {k : Kmem} {S : Space} {F : Multiset Atom} {l : Leaf} {va scause : Nat}

theorem PGROUNDDOWN_idem (va : Nat) : PGROUNDDOWN (PGROUNDDOWN va) = PGROUNDDOWN va := by
  simp only [PGROUNDDOWN, PGSIZE]
  omega

theorem PGROUNDDOWN_lt_MAXVA (va : Nat) : PGROUNDDOWN va < MAXVA ↔ va < MAXVA := by
  simp only [PGROUNDDOWN, PGSIZE, MAXVA]
  omega

/-- The handler only looks at the page of the address. -/
theorem cowFaultHandler_page (table : Nat) (va scause : Nat) :
    cowFaultHandler table (PGROUNDDOWN va) scause = cowFaultHandler table va scause := by
  have hge : PGROUNDDOWN va ≥ MAXVA ↔ va ≥ MAXVA := by
    rw [ge_iff_le, ge_iff_le, ← Nat.not_lt, ← Nat.not_lt, PGROUNDDOWN_lt_MAXVA]
  simp only [cowFaultHandler, PGROUNDDOWN_idem, hge]

/-- Beyond MAXVA walk panics. -/
theorem run_cowFaultHandler_high (hva : MAXVA ≤ va) (table : Nat) (x : Int × Kmem) :
    (cowFaultHandler table va scause).run (handler K) k ≠ .ok x := by
  have hhigh : PGROUNDDOWN va ≥ MAXVA := by
    have := PGROUNDDOWN_lt_MAXVA va
    omega
  rw [cowFaultHandler, walk, if_pos hhigh]
  intro h
  cases h

variable (h : Inv K ({.space S} + F) k)
include h

/-- When the handler does not find a copy-on-write page of the user it returns -1 or follows a
null pointer. -/
theorem run_cowFaultHandler_bad (scause : Nat) (hva : va < MAXVA)
    (hbad : ∀ l, S.leaf (va / PGSIZE) = some l →
      ¬ (l.fl.has PTE_U = true ∧ l.fl.has PTE_COW = true)) :
    (cowFaultHandler S.root va scause).run (handler K) k = .ok (-1, k) ∨
      (cowFaultHandler S.root va scause).run (handler K) k = .error (.fault 0) := by
  have hdown := (PGROUNDDOWN_lt_MAXVA va).mpr hva
  have hok := h.space_ok
  rw [cowFaultHandler, Prog.run_bind_ok (h.run_walk hdown)]
  cases hslot : S.slot (PGROUNDDOWN va) with
  | none => exact Or.inr rfl
  | some pte =>
      left
      have hread := h.run_readPte hdown hslot
      rw [PGROUNDDOWN_div] at hread
      have hflags : ((encodeLeaf (S.leaf (va / PGSIZE))).has PTE_COW &&
          (encodeLeaf (S.leaf (va / PGSIZE))).has PTE_V &&
            (encodeLeaf (S.leaf (va / PGSIZE))).has PTE_U) = false := by
        cases hl : S.leaf (va / PGSIZE) with
        | none => rfl
        | some l =>
            rw [hok.has hl (by decide), hok.has hl (by decide), hok.has hl (by decide)]
            have hnot := hbad l hl
            cases hu : l.fl.has PTE_U <;> cases hcow : l.fl.has PTE_COW <;> simp_all
      simp only [Prog.cmd_bind, Prog.run, hread]
      split_ifs with hzero hload hhigh hgood
      · rfl
      · rfl
      · rfl
      · rw [hflags] at hgood
        cases hgood
      · rfl

/-- A copy-on-write page is made private. -/
theorem run_cowFaultHandler_good (hl : S.leaf (va / PGSIZE) = some l)
    (hu : l.fl.has PTE_U = true) (hcow : l.fl.has PTE_COW = true)
    (hfree : l.Shared k → k.freelist ≠ 0) :
    ∃ k' S', (cowFaultHandler S.root va 15).run (handler K) k = .ok (0, k') ∧
      Inv K ({.space S'} + F) k' := by
  have hv := h.space_ok.lt_of_user hl hu
  have hdiv := PGROUNDDOWN_div va
  have hva : PGROUNDDOWN va < MAXVA := lt_MAXVA_of_page (by omega)
  obtain ⟨k', S', hrun, hinv, -⟩ := run_breakSharing h hva (PGROUNDDOWN_mod va)
    (by rwa [hdiv]) hu (Or.inr hcow) (fun _ => show (15 : Nat) ≠ 13 by decide) hfree
  have hhas : (encodeLeaf (some l)).has PTE_COW = true := by
    rw [h.space_ok.has hl (by decide)]
    exact hcow
  rw [breakSharing, if_pos hhas, cowFaultHandler_page] at hrun
  exact ⟨k', S', hrun, hinv⟩

/-- Without a frame for the copy of a shared page the kernel writes to address 0. -/
theorem run_cowFaultHandler_full (hl : S.leaf (va / PGSIZE) = some l)
    (hu : l.fl.has PTE_U = true) (hshared : l.Shared k) (hfree : k.freelist = 0) :
    (cowFaultHandler S.root va 15).run (handler K) k = .error (.fault 0) := by
  have hv := h.space_ok.lt_of_user hl hu
  have hdiv := PGROUNDDOWN_div va
  have hcount : ¬ k.refCount (countIndex l.pa) ≤ 1 := by
    have := hshared.2
    omega
  have hva : PGROUNDDOWN va < MAXVA := lt_MAXVA_of_page (by omega)
  obtain ⟨pte, hslot⟩ := h.slot_of_leaf (PGROUNDDOWN va) (by rwa [hdiv])
  rw [← cowFaultHandler_page, run_cowFaultHandler h hva (PGROUNDDOWN_mod va) (by rwa [hdiv])
    (by rwa [hdiv]) hu hshared.1 hslot, if_neg (by decide),
    update_copy_fault pte h hv hl (by omega) hfree]

/-- The handler makes a resolvable page private. -/
theorem Resolvable.run {killed isInit : Bool}
    (hres : Resolvable K k S.root 15 va killed isInit) :
    ∃ k' S', (cowFaultHandler S.root va 15).run (handler K) k = .ok (0, k') ∧
      Inv K ({.space S'} + F) k' := by
  have hok := h.space_ok
  obtain ⟨l, hl, hu, -⟩ := hok.writableAt_iff.mp hres.user
  have hv := hok.lt_of_user hl hu
  have hcow := hres.cow
  rw [hok.cowAt_eq hv hl] at hcow
  apply run_cowFaultHandler_good h hl hu hcow
  intro hshared hzero
  have hpos := hres.frame ((hok.sharedAt_iff hv hl).mpr hshared)
  have hcard := h.free.freelist_eq_zero.mp hzero
  omega

end handler

section usertrap

variable {K : Image} {sys : Sys} {p : Proc} {scause stval : Nat} {killed isInit : Bool}

/-- A store page fault that the handler resolves. -/
theorem run_usertrap_good {k k' : Kmem} {pagetable : Nat}
    (hrun : (cowFaultHandler pagetable stval 15).run (handler K) k = .ok (0, k'))
    (hinit : ¬ (killed = true ∧ isInit = true)) :
    (usertrap pagetable 15 stval killed isInit).run (handler K) k =
      .ok (if killed then .exited (-1) else .resumed, k') := by
  change (cowFaultHandler pagetable stval 15 >>= fun r =>
    if r = -1 then panic "cow1" else trapReturn killed isInit).run (handler K) k = _
  rw [Prog.run_bind_ok hrun]
  cases killed with
  | false => rfl
  | true =>
      cases isInit with
      | false => rfl
      | true => exact absurd ⟨rfl, rfl⟩ hinit

/-- usertrap does not return after an exception other than a store page fault that the handler
resolves. -/
theorem resolved_of_usertrap {k : Kmem} {pagetable : Nat} {x : TrapEnd × Kmem}
    (hcall : scause ≠ 8) (hdev : devintr scause = false)
    (hrun : (usertrap pagetable scause stval killed isInit).run (handler K) k = .ok x) :
    scause = 15 ∧ ¬ (killed = true ∧ isInit = true) ∧ ∃ r k', r ≠ -1 ∧
      (cowFaultHandler pagetable stval 15).run (handler K) k = .ok (r, k') := by
  rw [usertrap, if_neg hcall, if_neg (by rw [hdev]; decide)] at hrun
  by_cases hstore : scause = 15
  · subst hstore
    rw [if_pos rfl] at hrun
    cases hhandler : (cowFaultHandler pagetable stval 15).run (handler K) k with
    | error e =>
        rw [Prog.run_bind_error hhandler] at hrun
        cases hrun
    | ok y =>
        obtain ⟨r, k'⟩ := y
        rw [Prog.run_bind_ok hhandler] at hrun
        by_cases hneg : r = -1
        · rw [if_pos hneg] at hrun
          cases hrun
        · rw [if_neg hneg] at hrun
          refine ⟨rfl, ?_, r, k', hneg, rfl⟩
          rintro ⟨rfl, rfl⟩
          cases hrun
  · rw [if_neg hstore] at hrun
    cases hrun

end usertrap

/-- usertrap survives an exception exactly when it is a store to a copy-on-write page for which
there is memory: every other exception of a user program stops the kernel. -/
theorem usertrap_survives_iff {K : Image} {sys : Sys} (h : sys.Reachable K) {p : Proc}
    (hp : p ∈ sys.procs) {scause : Nat} (hcall : scause ≠ 8) (hdev : devintr scause = false)
    (stval : Nat) (killed isInit : Bool) :
    Survives K sys p scause stval killed isInit ↔
      Resolvable K sys.k p.mem.pagetable scause stval killed isInit := by
  obtain ⟨S, m, F, hS, hinv⟩ := h.space hp
  have hok := hinv.space_ok
  have hroot := hS.root
  constructor
  · rintro ⟨e, k, hrun, -, -⟩
    obtain ⟨hstore, hinit, r, k', hr, hhandler⟩ := resolved_of_usertrap hcall hdev hrun
    rw [← hroot] at hhandler ⊢
    have hva : stval < MAXVA := by
      by_contra hge
      exact run_cowFaultHandler_high (Nat.le_of_not_lt hge) _ _ hhandler
    have hgood : ∃ l, S.leaf (stval / PGSIZE) = some l ∧ l.fl.has PTE_U = true ∧
        l.fl.has PTE_COW = true := by
      by_contra hnone
      have hbad : ∀ l, S.leaf (stval / PGSIZE) = some l →
          ¬ (l.fl.has PTE_U = true ∧ l.fl.has PTE_COW = true) :=
        fun l hl hflags => hnone ⟨l, hl, hflags⟩
      rcases run_cowFaultHandler_bad hinv 15 hva hbad with hneg | hfault
      · rw [hneg] at hhandler
        exact hr (Prod.mk.inj (Except.ok.inj hhandler)).1.symm
      · rw [hfault] at hhandler
        cases hhandler
    obtain ⟨l, hl, hu, hcow⟩ := hgood
    have hv := hok.lt_of_user hl hu
    refine ⟨hstore, hok.writableAt_iff.mpr ⟨l, hl, hu, Or.inr hcow⟩, ?_, fun hshared => ?_, hinit⟩
    · rw [hok.cowAt_eq hv hl, hcow]
    · by_contra hcard
      have hfree : sys.k.freelist = 0 := hinv.free.freelist_eq_zero.mpr (by omega)
      rw [run_cowFaultHandler_full hinv hl hu ((hok.sharedAt_iff hv hl).mp hshared) hfree]
        at hhandler
      cases hhandler
  · intro hres
    obtain rfl := hres.store
    rw [← hroot] at hres
    obtain ⟨k, S', hrun, -⟩ := hres.run hinv
    refine ⟨_, k, run_usertrap_good (hroot ▸ hrun) hres.notInit, ?_, fun q hq hne va => ?_⟩
    · cases killed with
      | false => exact Or.inl rfl
      | true => exact Or.inr rfl
    · -- the run is the same one when the ledger is split at another process
      obtain ⟨S₂, T, m₂, m', F₂, hS₂, hT, hinv₂⟩ := h.spaces hp hq hne
      have hroots : S.root = S₂.root := hroot.trans hS₂.root.symm
      rw [hroots] at hres hrun
      obtain ⟨k₂, S₂', hrun₂, hinv₂'⟩ := hres.run hinv₂
      rw [hrun] at hrun₂
      obtain rfl : k = k₂ := (Prod.mk.inj (Except.ok.inj hrun₂)).2
      rw [← hT.root, hinv₂'.other_space.userByte, hinv₂.other_space.userByte]

namespace UsertrapWitness

/-- A load from an address that is not mapped. -/
theorem usertrap_panics : Forked.sys.Reachable Forked.image ∧ Forked.parent ∈ Forked.sys.procs ∧
    (usertrap Forked.parent.mem.pagetable 13 PGSIZE false false).run (handler Forked.image)
      Forked.sys.k = .error (.panic "cow2") :=
  ⟨Forked.sys_reachable, Forked.parent_mem, rfl⟩

/-- The load is not survived; a store to the shared page of the parent is. -/
theorem usertrap_survives_iff_store :
    ¬ Survives Forked.image Forked.sys Forked.parent 13 PGSIZE false false ∧
      Survives Forked.image Forked.sys Forked.parent 15 100 false false := by
  have hload := usertrap_survives_iff Forked.sys_reachable Forked.parent_mem
    (by decide : 13 ≠ 8) (by decide) PGSIZE false false
  have hstore := usertrap_survives_iff Forked.sys_reachable Forked.parent_mem
    (by decide : 15 ≠ 8) (by decide) 100 false false
  refine ⟨fun h => absurd (hload.mp h).store (by decide), hstore.mpr ?_⟩
  exact ⟨rfl, CopyoutWitness.shared_page.1, CopyoutWitness.shared_page.2.1,
    fun _ => CopyoutWitness.free_frame, by decide⟩

end UsertrapWitness

end Xv6.Vm
