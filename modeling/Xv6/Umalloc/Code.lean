/-
The allocator of user/umalloc.c.  Memory is a map from the address of a header to the header;
an address is in bytes, and `p + n` of the source for a `Header *` is `p + 16 * n`.  The
addresses to which the allocator stores are recorded.
-/
import Mathlib.Tactic.Ring
import Xv6.Lib.Transition

namespace Xv6.Umalloc

open Transition

/-- `union header` -/
structure Header where
  ptr : Nat := 0
  size : Nat := 0

/-- The memory of the process, `freep`, the end of memory, and where the allocator has
stored.  A null pointer is 0. -/
structure Heap where
  mem : Nat → Header
  freep : Nat
  brk : Nat
  wrote : List Nat

inductive Stop
  | fuel
  | negative
deriving DecidableEq

/-- The memory of the machine: growproc gives each page of a process a page frame. -/
def USERTOP : Nat := 128 * 1024 * 1024

def unitsFor (nbytes : UInt32) : Nat := (nbytes.toNat + 16 - 1) / 16 + 1

namespace Heap

def next (h : Heap) (p : Nat) : Nat := (h.mem p).ptr

def size (h : Heap) (p : Nat) : Nat := (h.mem p).size

def setPtr (h : Heap) (p q : Nat) : Heap :=
  { h with mem := Function.update h.mem p { h.mem p with ptr := q }, wrote := p :: h.wrote }

def setSize (h : Heap) (p n : Nat) : Heap :=
  { h with mem := Function.update h.mem p { h.mem p with size := n }, wrote := p :: h.wrote }

/-- The loop of free. -/
def findPrev (h : Heap) (bp : Nat) : Nat → Nat → Option Nat
  | 0, _ => none
  | n + 1, p =>
      if bp > p ∧ bp < h.next p then some p
      else if p ≥ h.next p ∧ (bp > p ∨ bp < h.next p) then some p
      else h.findPrev bp n (h.next p)

/-- free puts the block `bp` after `p`: with the block above it... -/
def joinUpper (h : Heap) (p bp : Nat) : Heap :=
  if bp + 16 * h.size bp = h.next p then
    (h.setSize bp ((h.size bp + h.size (h.next p)) % 2 ^ 32)).setPtr bp (h.next (h.next p))
  else h.setPtr bp (h.next p)

/-- ... and with the one below it. -/
def joinLower (h : Heap) (p bp : Nat) : Heap :=
  if p + 16 * h.size p = bp then
    (h.setSize p ((h.size p + h.size bp) % 2 ^ 32)).setPtr p (h.next bp)
  else h.setPtr p bp

def free (h : Heap) (fuel ap : Nat) : Except Stop Heap :=
  let bp := ap - 16
  match h.findPrev bp fuel h.freep with
  | none => .error .fuel
  | some p => .ok { (h.joinUpper p bp).joinLower p bp with freep := p }

/-- Memory grows, if `grant` says so for its end. -/
def sbrk (h : Heap) (grant : Nat → Bool) (n : Nat) : Except Stop (Option Nat × Heap) :=
  if n ≥ 2 ^ 31 then .error .negative
  else if grant h.brk = true ∧ h.brk + n ≤ USERTOP then
    .ok (some h.brk, { h with brk := h.brk + n })
  else .ok (none, h)

def morecore (h : Heap) (grant : Nat → Bool) (fuel nu : Nat) :
    Except Stop (Option Nat × Heap) := do
  let nu := if nu < 4096 then 4096 else nu
  match ← h.sbrk grant (nu * 16) with
  | (none, h) => .ok (none, h)
  | (some p, h) =>
      let h ← (h.setSize p nu).free fuel (p + 16)
      .ok (some h.freep, h)

/-- malloc has found a block that is large enough. -/
def take (h : Heap) (nunits prevp p : Nat) : Option Nat × Heap :=
  if h.size p = nunits then
    (some (p + 16), { h.setPtr prevp (h.next p) with freep := prevp })
  else
    let p' := p + 16 * (h.size p - nunits)
    (some (p' + 16),
      { (h.setSize p (h.size p - nunits)).setSize p' nunits with freep := prevp })

/-- The loop of malloc. -/
def search (grant : Nat → Bool) (nunits : Nat) :
    Nat → Heap → Nat → Nat → Except Stop (Option Nat × Heap)
  | 0, _, _, _ => .error .fuel
  | n + 1, h, prevp, p =>
      if h.size p ≥ nunits then .ok (h.take nunits prevp p)
      else if p = h.freep then do
        match ← h.morecore grant n nunits with
        | (none, h) => .ok (none, h)
        | (some p, h) => search grant nunits n h p (h.next p)
      else search grant nunits n h p (h.next p)

def malloc (h : Heap) (base : Nat) (grant : Nat → Bool) (fuel : Nat) (nbytes : UInt32) :
    Except Stop (Option Nat × Heap) :=
  let h := if h.freep = 0 then { (h.setPtr base base).setSize base 0 with freep := base } else h
  search grant (unitsFor nbytes) fuel h h.freep (h.next h.freep)

end Heap

/-- The heap with the blocks of the program: what malloc has returned, for how many bytes. -/
structure Sys where
  heap : Heap
  live : List (Nat × UInt32)

/-- What the program does: it also stores to the blocks that it has. -/
inductive Call
  | malloc (nbytes : UInt32) (grant : Nat → Bool)
  | free (p : Nat)
  | store (a : Nat) (v : Header)

/-- More than the number of nodes that a loop can visit. -/
def Sys.fuel (s : Sys) : Nat := 2 * s.heap.brk + 8

def Sys.step (base : Nat) (s : Sys) : Call → Option (Except Stop Sys)
  | .malloc nbytes grant => some <| do
      let (p, h) ← { s.heap with wrote := [] }.malloc base grant s.fuel nbytes
      match p with
      | none => .ok { s with heap := h }
      | some p => .ok { heap := h, live := (p, nbytes) :: s.live }
  | .free p =>
      if p ∈ s.live.map Prod.fst then some <| do
        let h ← { s.heap with wrote := [] }.free s.fuel p
        .ok { heap := h, live := s.live.filter fun b => b.1 ≠ p }
      else none
  | .store a v =>
      if a % 16 = 0 ∧ ∃ b ∈ s.live, b.1 ≤ a ∧ a < b.1 + b.2.toNat then
        some (.ok { s with heap :=
          { s.heap with mem := Function.update s.heap.mem a v, wrote := [] } })
      else none

/-- Memory starts with the static data, `base` among it, and ends at `lo`. -/
structure Sys.Start (base lo : Nat) (s : Sys) : Prop where
  static : 0 < base ∧ base + 16 ≤ lo
  aligned : lo % 16 = 0
  brk : s.heap.brk = lo
  freep : s.heap.freep = 0
  live : s.live = []

def Sys.Run (base lo : Nat) : Sys → Prop :=
  Reach (Sys.Start base lo) (fun _ _ => True) (Sys.step base)

end Xv6.Umalloc
