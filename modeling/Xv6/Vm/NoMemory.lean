/-
A copy-on-write fault while the free list is empty.  kalloc_no_lock returns 0, and update
copies the page to that address without a test.
-/
import Xv6.Vm.Cow

namespace Xv6.Vm

open Bytes Program

variable {K : Image} {s : Kmem} {table va scause : Nat} {pte : PtePtr} {w : Pte}

/-- The page table maps the page of `va` with the entry `w`. -/
structure Maps (K : Image) (s : Kmem) (table va : Nat) (pte : PtePtr) (w : Pte) : Prop where
  walk : (walk table (PGROUNDDOWN va) false).run (handler K) s = .ok (some pte, s)
  read : readPteAt pte s = .ok (w, s)

/-- The entry of a user page that other page tables share. -/
structure SharedCow (s : Kmem) (w : Pte) : Prop where
  valid : w.has PTE_V = true
  user : w.has PTE_U = true
  cow : w.has PTE_COW = true
  frame : inRam (PTE2PA w) = true
  shared : 1 < s.refCount (countIndex (PTE2PA w))

theorem Maps.lt_MAXVA (h : Maps K s table va pte w) : va < MAXVA := by
  by_contra hge
  have hpage : PGROUNDDOWN va ≥ MAXVA := by
    simp only [PGROUNDDOWN, MAXVA, PGSIZE] at hge ⊢
    omega
  have hwalk := h.walk
  rw [Vm.walk, if_pos hpage] at hwalk
  cases hwalk

/-- The handler returns -1 without a change after a load page fault, and stops the kernel
after every other trap. -/
theorem run_cowFaultHandler_empty (h : Maps K s table va pte w) (hw : SharedCow s w)
    (hlock : s.locked = false) (hfree : s.freelist = 0) :
    (cowFaultHandler table va scause).run (handler K) s =
      if scause = 13 then .ok (-1, s) else .error (.fault 0) := by
  have hne : w ≠ 0 := by
    rintro rfl
    cases hw.valid
  have hread : handler K _ (.readPte pte) s = .ok (w, s) := h.read
  have hstop : handler K _ (.update table (PGROUNDDOWN va) pte (PTE2PA w) (PTE_FLAGS w)) s =
      .error (.fault 0) := update_fault pte hlock hw.frame hw.shared hfree
  rw [cowFaultHandler, Prog.run_bind_ok h.walk]
  simp only [Prog.cmd_bind, Prog.run, hread, if_neg hne]
  by_cases hcause : scause = 13
  · rw [if_pos hcause, if_pos hcause]
    rfl
  · rw [if_neg hcause, if_neg hcause, if_neg (Nat.not_le.mpr h.lt_MAXVA)]
    simp only [hw.cow, hw.valid, hw.user, Bool.and_self, if_true, Prog.run, hstop]

/-- For every page table and every shared copy-on-write page, with no free memory the fault
fails cleanly, with -1 and nothing changed, exactly when the last trap was a load page
fault. -/
theorem cow_fault_fails_cleanly (h : Maps K s table va pte w) (hw : SharedCow s w)
    (hlock : s.locked = false) (hfree : s.freelist = 0) :
    (cowFaultHandler table va scause).run (handler K) s = .ok (-1, s) ↔ scause = 13 := by
  rw [run_cowFaultHandler_empty h hw hlock hfree]
  constructor
  · intro hret
    by_contra hcause
    rw [if_neg hcause] at hret
    cases hret
  · exact fun hcause => if_pos hcause

namespace NoMemoryWitness

def image : Image where
  end_ := 0x80001000
  trampoline := 0x80000000
  base_le_end := by decide
  end_le_phystop := by decide
  base_le_trampoline := by decide
  trampoline_lt_end := by decide
  trampoline_aligned := by decide

def entry : Pte := PA2PTE 0x80004000 ||| PTE_V ||| PTE_R ||| PTE_U ||| PTE_COW

/-- A page table at 0x80001000 that maps page 0, and no free page. -/
def full : Kmem where
  mem p :=
    if p = 0x80001000 then storePte (fun _ => 0) 0 (PA2PTE 0x80002000 ||| PTE_V)
    else if p = 0x80002000 then storePte (fun _ => 0) 0 (PA2PTE 0x80003000 ||| PTE_V)
    else if p = 0x80003000 then storePte (fun _ => 0) 0 entry
    else fun _ => 0
  refCount _ := 2
  freelist := 0
  locked := false
  first _ := none

theorem full_maps : Maps image full 0x80001000 0 (0x80003000, 0) entry :=
  ⟨rfl, rfl⟩

theorem full_shared : SharedCow full entry :=
  ⟨by decide, by decide, by decide, by decide, by decide⟩

/-- A store page fault on a shared page without free memory. -/
theorem cow_fault_writes_null : Maps image full 0x80001000 0 (0x80003000, 0) entry ∧
    SharedCow full entry ∧ full.freelist = 0 ∧
    (cowFaultHandler 0x80001000 0 15).run (handler image) full = .error (.fault 0) :=
  ⟨full_maps, full_shared, rfl, run_cowFaultHandler_empty full_maps full_shared rfl rfl⟩

theorem cow_fault_fails_cleanly_load :
    (cowFaultHandler 0x80001000 0 13).run (handler image) full = .ok (-1, full) :=
  (cow_fault_fails_cleanly full_maps full_shared rfl rfl).mpr rfl

end NoMemoryWitness

end Xv6.Vm
