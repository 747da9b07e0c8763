/-
The physical page allocator of kernel/kalloc.c: pages with a reference count and
a free list that is threaded through the free pages themselves.  Each function
is one critical section of kmem.lock, except the two that run inside `update`.
-/
import Xv6.Vm.Riscv

namespace Xv6.Vm

open Bytes

/-- How the kernel stops: a call of `panic`, or an access to an address that the
kernel page table does not map. -/
inductive KErr
  | panic (msg : String)
  | fault (addr : Nat)
  deriving DecidableEq, Repr

/-- What the linker fixes: the first address after the kernel, and the physical
address of the trampoline page inside it. -/
structure Image where
  end_ : Nat
  trampoline : Nat
  base_le_end : KERNBASE ≤ end_
  end_le_phystop : end_ ≤ PHYSTOP
  base_le_trampoline : KERNBASE ≤ trampoline
  trampoline_lt_end : trampoline < end_
  trampoline_aligned : trampoline % PGSIZE = 0

/-- Physical memory by page address, the allocator's variables, and kmem.lock.
`first` is a history variable: the flags of the first entry that mappages made
for a page since its last allocation. -/
structure Kmem where
  mem : Nat → Arr
  refCount : Nat → Int
  freelist : Nat
  locked : Bool
  first : Nat → Option Pte

/-- Kernel code that runs without interference. -/
abbrev KM := StateT Kmem (Except KErr)

def stopWith {α : Type} (e : KErr) : KM α := fun _ => .error e

def acquire : KM Unit := fun s =>
  if s.locked then .error (.panic "acquire") else .ok ((), { s with locked := true })

def release : KM Unit := fun s =>
  if s.locked then .ok ((), { s with locked := false })
  else .error (.panic "release")

/-- The kernel maps RAM one to one and nothing at address 0. -/
def inRam (pa : Nat) : Bool := KERNBASE ≤ pa && pa < PHYSTOP

def readPage (pa : Nat) : KM Arr := fun s =>
  if inRam pa then .ok (s.mem pa, s) else .error (.fault pa)

def writePage (pa : Nat) (page : Arr) : KM Unit := fun s =>
  if inRam pa then .ok ((), { s with mem := Function.update s.mem pa page })
  else .error (.fault pa)

def memset (pa : Nat) (c : UInt8) : KM Unit := writePage pa fun _ => c

/-- The C index expression of ref_count. -/
def countIndex (pa : Nat) : Nat := (pa - KERNBASE) / PGSIZE

def getRefCount (pa : Nat) : KM Int := fun s =>
  if inRam pa then .ok (s.refCount (countIndex pa), s) else .error (.fault pa)

def setRefCount (pa : Nat) (count : Int) : KM Unit := fun s =>
  if inRam pa then
    .ok ((), { s with
      refCount := Function.update s.refCount (countIndex pa) count })
  else .error (.fault pa)

def updateRefCount (pa : Nat) (sign : Int) : KM Unit := do
  let count ← getRefCount pa
  if sign = 1 then setRefCount pa (count + 1)
  else if sign = 0 then setRefCount pa (count - 1)

/-- Fill a page with junk and put it at the head of the free list. -/
def pushFree (K : Image) (pa : Nat) : KM Unit := do
  if pa % PGSIZE ≠ 0 ∨ pa < K.end_ ∨ pa ≥ PHYSTOP then
    stopWith (.panic "kfree")
  memset pa 1
  let s ← get
  writePage pa (putLE 8 (s.mem pa) 0 s.freelist)
  modify fun s => { s with freelist := pa }

def kfree (K : Image) (pa : Nat) : KM Unit := do
  acquire
  if (← getRefCount pa) ≥ 1 then updateRefCount pa 0
  if (← getRefCount pa) = 0 then pushFree K pa
  release

def kfreeNoLock (K : Image) (pa : Nat) : KM Unit := do
  updateRefCount pa 0
  if (← getRefCount pa) = 0 then pushFree K pa

/-- Take the first free page, or 0; the next one is read from the page itself. -/
def kallocNoLock : KM Nat := do
  let r := (← get).freelist
  if r ≠ 0 then
    let page ← readPage r
    modify fun s => { s with freelist := getLE 8 page 0 }
    memset r 5
    setRefCount r 1
    modify fun s => { s with first := Function.update s.first r none }
  return r

def kalloc : KM Nat := do
  acquire
  let r ← kallocNoLock
  release
  return r

def lockUpdateRefCount (pa : Nat) (sign : Int) : KM Unit := do
  acquire
  updateRefCount pa sign
  release

/-- Free `n` pages from `p` on, in the order of the loop of freerange. -/
def freerange (K : Image) : Nat → Nat → KM Unit
  | 0, _ => pure ()
  | n + 1, p => do
      kfree K p
      freerange K n (p + PGSIZE)

def kinit (K : Image) : KM Unit :=
  freerange K ((PHYSTOP - PGROUNDUP K.end_) / PGSIZE) (PGROUNDUP K.end_)

end Xv6.Vm
