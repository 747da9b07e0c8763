/-
The memory system between any two steps: the shape of the page tables of processes, and what the
running operations are about to do.
-/
import Xv6.Vm.ForkSlot

namespace Xv6.Vm

open Bytes Refs Program Interleave

section tasks

/-- The entry that a running operation is about to write in mappages. -/
def mapsNext (t : Task MemCmd Op.Result) : Option PtePtr :=
  match t.prog with
  | .ret _ => none
  | .call c _ => c.mapsAt

variable {K : Image} {R : Eager} {s : Kmem} {t : Task MemCmd Op.Result} {r : Multiset Atom}

theorem fresh_of_rests (h : Task.Rests (logic K) (contract K R) s t r) {pte : PtePtr}
    (hmaps : mapsNext t = some pte) : Pte.has (loadPte (s.mem pte.1) pte.2) PTE_V = false := by
  obtain ⟨o, prog⟩ := t
  cases prog with
  | ret value => cases hmaps
  | call c next => exact Adm.fresh h pte hmaps

end tasks

/-! ### The shape of an address space -/

/-- The valid entries of a page table are those of the pages below the size and of the two pages
at the top, and the pages below the size have frames of their own. -/
structure Shaped (k : Kmem) (p : ProcMem) : Prop where
  leaves : ∀ va, va < MAXVA → ((lookup k.mem p.pagetable va).has PTE_V = true ↔
    va < PGROUNDUP p.sz ∨ TRAPFRAME ≤ va)
  distinct : ∀ va va', va < PGROUNDUP p.sz → va' < PGROUNDUP p.sz →
    PTE2PA (lookup k.mem p.pagetable va) = PTE2PA (lookup k.mem p.pagetable va') →
    va / PGSIZE = va' / PGSIZE
  small : p.sz < TRAPFRAME

section shape

variable {K : Image} {k : Kmem} {S : Space} {F : Multiset Atom} {p : ProcMem} {m : Mem}

theorem lt_PGROUNDUP {sz va : Nat} : va < PGROUNDUP sz ↔ va / PGSIZE < pagesOf sz := by
  simp only [pagesOf, PGROUNDUP, PGSIZE]
  omega

theorem TRAPFRAME_le {va : Nat} : TRAPFRAME ≤ va ↔ USERPAGES ≤ va / PGSIZE := by
  rw [Nat.le_div_iff_mul_le (by decide), TRAPFRAME_eq]

theorem Space.Shape.leaf_isSome {n tf v : Nat} (h : S.Shape K n tf) (hv : v < USERPAGES + 2) :
    S.leaf v ≠ none ↔ v < n ∨ USERPAGES ≤ v := by
  by_cases huser : v < USERPAGES
  · have hsized := h.sized.2 v huser
    rw [ne_eq, Space.page_eq_none] at hsized
    rw [ne_eq, hsized]
    omega
  · have hhigh : v = USERPAGES ∨ v = USERPAGES + 1 := by omega
    refine iff_of_true ?_ (Or.inr (by omega))
    rcases hhigh with rfl | rfl
    · rw [h.trapframe]
      exact Option.some_ne_none _
    · rw [h.trampoline]
      exact Option.some_ne_none _

theorem Space.Ok.lookup_valid (h : S.Ok K k) {va : Nat} (hva : va < MAXVA) :
    (lookup k.mem S.root va).has PTE_V = true ↔ S.leaf (va / PGSIZE) ≠ none := by
  rw [h.table.lookup hva]
  cases hl : S.leaf (va / PGSIZE) with
  | none => exact iff_of_false (by decide) (fun hne => hne rfl)
  | some l =>
      rw [h.has hl (by decide)]
      exact iff_of_true (h.valid hl) (Option.some_ne_none l)

/-- The frame of a user page, in the entry and in the space. -/
theorem Space.Ok.frames_lookup (h : S.Ok K k) {va : Nat} (hv : va / PGSIZE < USERPAGES)
    (hleaf : S.leaf (va / PGSIZE) ≠ none) :
    S.frames (va / PGSIZE) = some (PTE2PA (lookup k.mem S.root va)) := by
  have hva : va < MAXVA := by
    have hmax : USERPAGES * PGSIZE ≤ MAXVA := by decide
    rw [Nat.div_lt_iff_lt_mul (by decide)] at hv
    omega
  obtain ⟨l, hl⟩ := Option.ne_none_iff_exists'.mp hleaf
  rw [h.table.lookup hva, hl, (h.user _ l hv hl).PTE2PA, Space.frames, hl]
  rfl

theorem Inv.shaped (h : Inv K ({.space S} + F) k) (hS : S.Is K p m) : Shaped k p := by
  have hok := h.space_ok
  have hshape := hS.shape
  have hroot := hS.root
  have hpages := hshape.sized.1
  refine ⟨fun va hva => ?_, fun va va' hlt hlt' heq => ?_, ?_⟩
  · have htop : va / PGSIZE < USERPAGES + 2 := by
      have hmax : MAXVA = (USERPAGES + 2) * PGSIZE := by decide
      rw [Nat.div_lt_iff_lt_mul (by decide)]
      omega
    rw [← hroot, hok.lookup_valid hva, hshape.leaf_isSome htop, lt_PGROUNDUP, TRAPFRAME_le]
  · rw [lt_PGROUNDUP] at hlt hlt'
    rw [← hroot] at heq
    have hleaf := (hshape.leaf_isSome (v := va / PGSIZE) (by omega)).mpr (Or.inl hlt)
    have hleaf' := (hshape.leaf_isSome (v := va' / PGSIZE) (by omega)).mpr (Or.inl hlt')
    have hframe := hok.frames_lookup (by omega) hleaf
    rw [heq] at hframe
    exact refs_inj (hok.inj _) (mem_userIx.mpr (by omega)) (mem_userIx.mpr (by omega)) hframe
      (hok.frames_lookup (by omega) hleaf')
  · calc p.sz ≤ pagesOf p.sz * PGSIZE := le_pagesOf_mul p.sz
      _ ≤ NFRAMES * PGSIZE := Nat.mul_le_mul_right _ (h.sized_le hshape.sized)
      _ < TRAPFRAME := by decide

end shape

/-- Operations other than a store in user mode do not panic. -/
theorem Op.Fails.not_panic {o : Op} {e : KErr} (h : o.Fails e)
    (hstore : ∀ p va b, o ≠ .store p va b) (msg : String) : e ≠ .panic msg := by
  rintro rfl
  cases o with
  | store p va b => exact hstore p va b rfl
  | copyout p dstva src scause => cases h
  | userinit pid initcode => cases h
  | _ => exact h

/-- In all states processes at rest have well-formed page tables; mappages of a running operation
is about to write an entry that is not valid; and only a store in user mode can panic. -/
theorem address_space_shape {K : Image} {sys : Sys} (h : sys.Reachable K) :
    (∀ p ∈ sys.procs, Shaped sys.k p.mem) ∧
    (∀ t ∈ sys.busy, ∀ pte, mapsNext t = some pte →
      (loadPte (sys.k.mem pte.1) pte.2).has PTE_V = false) ∧
    ∀ i e, Sys.step K sys (.run i) = some (.error e) → ∃ t, sys.busy[i]? = some t ∧
      ((∀ p va b, t.op ≠ .store p va b) → ∀ msg, e ≠ .panic msg) := by
  obtain ⟨R, hok⟩ := h.ok
  refine ⟨fun p hp => ?_, fun t ht pte hmaps => ?_, fun i e hstep => ?_⟩
  · obtain ⟨S, m, F, -, hS, hinv⟩ := hok.memory hp
    exact hinv.shaped hS
  · obtain ⟨a, b, c, hledger⟩ := hok.ledger
    obtain ⟨c', hrest, -⟩ := hledger.busy.rest hledger.inv
    obtain ⟨i, hi⟩ := List.mem_iff_getElem?.mp ht
    obtain ⟨x, y, hx, -, -⟩ := hrest.get hi
    exact fresh_of_rests hx hmaps
  · simp only [Sys.step] at hstep
    split at hstep
    · next o β c next ht =>
        have hrun := hok.run ht
        split at hstep
        · cases Option.some.inj hstep
        · next e' hexec =>
            obtain rfl := Except.error.inj (Option.some.inj hstep)
            simp only [hexec] at hrun
            exact ⟨_, ht, fun hstore => hrun.not_panic hstore⟩
    · cases hstep

namespace ShapeWitness

theorem address_space_shape_forked : (∀ p ∈ Forked.sys.procs, Shaped Forked.sys.k p.mem) ∧
    (∀ t ∈ Forked.sys.busy, ∀ pte, mapsNext t = some pte →
      (loadPte (Forked.sys.k.mem pte.1) pte.2).has PTE_V = false) ∧
    ∀ i e, Sys.step Forked.image Forked.sys (.run i) = some (.error e) →
      ∃ t, Forked.sys.busy[i]? = some t ∧
        ((∀ p va b, t.op ≠ .store p va b) → ∀ msg, e ≠ .panic msg) :=
  address_space_shape Forked.sys_reachable

end ShapeWitness

end Xv6.Vm
