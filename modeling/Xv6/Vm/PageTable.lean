/-
The user page tables of kernel/vm.c.  A function is a program whose commands are
the critical sections of kmem.lock and the single accesses to memory, so that
calls of several processes can be interleaved between any two commands.
-/
import Xv6.Lib.Program
import Xv6.Vm.Kalloc

namespace Xv6.Vm

open Bytes Program

/-- A pointer to a page-table entry: the page of the table and the index in it. -/
abbrev PtePtr := Nat × Nat

/-- The atomic steps of the memory code. -/
inductive MemCmd : Type → Type
  | kalloc : MemCmd Nat
  | kfree (pa : Nat) : MemCmd Unit
  -- the store *pte = 0 that follows the kfree of uvmunmap
  | clearPte (pte : PtePtr) : MemCmd Unit
  | lockUpdateRefCount (pa : Nat) (sign : Int) : MemCmd Unit
  | update (table va : Nat) (pte : PtePtr) (pa : Nat) (flags : Pte) : MemCmd Int
  | readPte (pte : PtePtr) : MemCmd Pte
  | writePte (pte : PtePtr) (w : Pte) : MemCmd Unit
  -- the store of mappages
  | mapPte (pte : PtePtr) (w : Pte) : MemCmd Unit
  | memset (pa : Nat) (c : UInt8) : MemCmd Unit
  | peek (pa off n : Nat) : MemCmd (List UInt8)
  | poke (pa off : Nat) (src : List UInt8) : MemCmd Unit
  | stop (e : KErr) : MemCmd Empty

abbrev P := Prog MemCmd

def stop {α : Type} (e : KErr) : P α := .call (.stop e) fun x => nomatch x

def panic {α : Type} (msg : String) : P α := stop (.panic msg)

/-- The descent of walk from a table of the given level. -/
def walkFrom (va : Nat) (alloc : Bool) : Nat → Nat → P (Option PtePtr)
  | 0, pagetable => pure (some (pagetable, PX 0 va))
  | level + 1, pagetable => do
      let pte := (pagetable, PX (level + 1) va)
      let w ← Prog.cmd (.readPte pte)
      if w.has PTE_V then
        walkFrom va alloc level (PTE2PA w)
      else if !alloc then
        pure none
      else do
        let page ← Prog.cmd .kalloc
        if page = 0 then
          pure none
        else do
          Prog.cmd (.memset page 0)
          Prog.cmd (.writePte pte (PA2PTE page ||| PTE_V))
          walkFrom va alloc level page

def walk (pagetable va : Nat) (alloc : Bool) : P (Option PtePtr) :=
  if va ≥ MAXVA then panic "walk" else walkFrom va alloc 2 pagetable

/-- The physical address of a user page, or 0. -/
def walkaddr (pagetable va : Nat) : P Nat :=
  if va ≥ MAXVA then
    pure 0
  else do
    match ← walk pagetable va false with
    | none => pure 0
    | some pte => do
        let w ← Prog.cmd (.readPte pte)
        if w.has PTE_V && w.has PTE_U then pure (PTE2PA w) else pure 0

/-- The loop of mappages, for this many pages. -/
def mapLoop (pagetable : Nat) (perm : Pte) : Nat → Nat → Nat → P Int
  | 0, _, _ => pure 0
  | n + 1, a, pa => do
      match ← walk pagetable a true with
      | none => pure (-1)
      | some pte => do
          Prog.cmd (.mapPte pte (PA2PTE pa ||| perm ||| PTE_V))
          mapLoop pagetable perm n (a + PGSIZE) (pa + PGSIZE)

def mappages (pagetable va size pa : Nat) (perm : Pte) : P Int :=
  if va % PGSIZE ≠ 0 then
    panic "mappages: va not aligned"
  else if size % PGSIZE ≠ 0 then
    panic "mappages: size not aligned"
  else if size = 0 then
    panic "mappages: size"
  else
    mapLoop pagetable perm (size / PGSIZE) va pa

/-- One iteration of uvmunmap. -/
def unmapOne (pagetable a : Nat) (doFree : Bool) : P Unit := do
  match ← walk pagetable a false with
  | none => panic "uvmunmap: walk"
  | some pte => do
      let w ← Prog.cmd (.readPte pte)
      if !w.has PTE_V then
        panic "uvmunmap: not mapped"
      else if PTE_FLAGS w = PTE_V then
        panic "uvmunmap: not a leaf"
      else if doFree then do
        Prog.cmd (.kfree (PTE2PA w))
        Prog.cmd (.clearPte pte)
      else
        Prog.cmd (.writePte pte 0)

def uvmunmap (pagetable va npages : Nat) (doFree : Bool) : P Unit :=
  if va % PGSIZE ≠ 0 then
    panic "uvmunmap: not aligned"
  else
    Prog.upto npages fun i => unmapOne pagetable (va + i * PGSIZE) doFree

def uvmcreate : P Nat := do
  let pagetable ← Prog.cmd .kalloc
  if pagetable = 0 then
    pure 0
  else do
    Prog.cmd (.memset pagetable 0)
    pure pagetable

/-- uvmfirst ignores the result of mappages, which is returned here. -/
def uvmfirst (pagetable : Nat) (src : List UInt8) : P Int :=
  if src.length ≥ PGSIZE then
    panic "uvmfirst: more than a page"
  else do
    let mem ← Prog.cmd .kalloc
    Prog.cmd (.memset mem 0)
    let r ← mappages pagetable 0 PGSIZE mem (PTE_W ||| PTE_R ||| PTE_X ||| PTE_U)
    Prog.cmd (.poke mem 0 src)
    pure r

def uvmdealloc (pagetable oldsz newsz : Nat) : P Nat :=
  if newsz ≥ oldsz then
    pure oldsz
  else if PGROUNDUP newsz < PGROUNDUP oldsz then do
    let npages := (PGROUNDUP oldsz - PGROUNDUP newsz) / PGSIZE
    uvmunmap pagetable (PGROUNDUP newsz) npages true
    pure newsz
  else
    pure newsz

/-- The loop of uvmalloc at address `a`; the first argument bounds the number of
iterations that are left. -/
def allocLoop (pagetable oldsz newsz : Nat) (xperm : Pte) : Nat → Nat → P Nat
  | 0, _ => pure newsz
  | n + 1, a =>
      if a < newsz then do
        let mem ← Prog.cmd .kalloc
        if mem = 0 then do
          let _ ← uvmdealloc pagetable a oldsz
          pure 0
        else do
          Prog.cmd (.memset mem 0)
          let r ← mappages pagetable a PGSIZE mem (PTE_R ||| PTE_U ||| xperm)
          if r ≠ 0 then do
            Prog.cmd (.kfree mem)
            let _ ← uvmdealloc pagetable a oldsz
            pure 0
          else
            allocLoop pagetable oldsz newsz xperm n (a + PGSIZE)
      else
        pure newsz

def uvmalloc (pagetable oldsz newsz : Nat) (xperm : Pte) : P Nat :=
  if newsz < oldsz then
    pure oldsz
  else
    allocLoop pagetable (PGROUNDUP oldsz) newsz xperm (newsz - PGROUNDUP oldsz)
      (PGROUNDUP oldsz)

/-- One iteration of freewalk, with the recursive call as an argument. -/
def freeEntry (free : Nat → P Unit) (pagetable i : Nat) : P Unit := do
  let pte ← Prog.cmd (.readPte (pagetable, i))
  if pte.has PTE_V && !pte.has (PTE_R ||| PTE_W ||| PTE_X) then do
    free (PTE2PA pte)
    Prog.cmd (.writePte (pagetable, i) 0)
  else if pte.has PTE_V then
    panic "freewalk: leaf"
  else
    pure ()

/-- The recursion of freewalk; the first argument is the number of levels that
can still be below.  A table tree is never deeper than the three levels of walk. -/
def freewalkFrom : Nat → Nat → P Unit
  | 0, pagetable => stop (.fault pagetable)
  | depth + 1, pagetable => do
      Prog.upto 512 (freeEntry (freewalkFrom depth) pagetable)
      Prog.cmd (.kfree pagetable)

def freewalk (pagetable : Nat) : P Unit := freewalkFrom 3 pagetable

def uvmfree (pagetable sz : Nat) : P Unit := do
  if sz > 0 then uvmunmap pagetable 0 (PGROUNDUP sz / PGSIZE) true
  freewalk pagetable

/-- The flags that uvmcopy gives to a page that was writable. -/
def cowFlags (flags : Pte) : Pte := flags &&& ~~~PTE_W ||| PTE_R ||| PTE_COW

/-- The flags that update gives to a page that is writable again. -/
def writableFlags (flags : Pte) : Pte := (flags ||| PTE_W) &&& ~~~PTE_COW

def cowFaultHandler (table va scause : Nat) : P Int := do
  match ← walk table (PGROUNDDOWN va) false with
  | none => stop (.fault 0)
  | some pte => do
      let w ← Prog.cmd (.readPte pte)
      if w = 0 then
        pure (-1)
      else if scause = 13 then
        pure (-1)
      else if va ≥ MAXVA then
        pure (-1)
      else if w.has PTE_COW && w.has PTE_V && w.has PTE_U then do
        let _ ← Prog.cmd
          (.update table (PGROUNDDOWN va) pte (PTE2PA w) (PTE_FLAGS w))
        pure 0
      else
        pure (-1)

/-- The flags of the child's entry in uvmcopy. -/
def shareFlags (w : Pte) : Pte :=
  if w.has PTE_W then cowFlags (PTE_FLAGS w) else PTE_FLAGS w

/-- The store to the parent's entry in uvmcopy. -/
def protectPage (pte : PtePtr) (w : Pte) : P Unit :=
  if w.has PTE_W then
    Prog.cmd (.writePte pte (PA2PTE (PTE2PA w) ||| cowFlags (PTE_FLAGS w)))
  else
    pure ()

/-- The loop of uvmcopy at address `i`; the first argument bounds the number of
iterations that are left. -/
def copyLoop (old new sz : Nat) : Nat → Nat → P Int
  | 0, _ => pure 0
  | n + 1, i =>
      if i < sz then do
        match ← walk old i false with
        | none => panic "uvmcopy: pte should exist"
        | some pte => do
            let w ← Prog.cmd (.readPte pte)
            if !w.has PTE_V then
              panic "uvmcopy: page not present"
            else do
              protectPage pte w
              let r ← mappages new i PGSIZE (PTE2PA w) (shareFlags w)
              if r ≠ 0 then do
                uvmunmap new 0 (i / PGSIZE) true
                pure (-1)
              else do
                Prog.cmd (.lockUpdateRefCount (PTE2PA w) 1)
                copyLoop old new sz n (i + PGSIZE)
      else
        pure 0

def uvmcopy (old new sz : Nat) : P Int := copyLoop old new sz sz 0

def uvmclear (pagetable va : Nat) : P Unit := do
  match ← walk pagetable va false with
  | none => panic "uvmclear"
  | some pte => do
      let w ← Prog.cmd (.readPte pte)
      Prog.cmd (.writePte pte (w &&& ~~~PTE_U))

/-- The part of copyout that calls the fault handler. -/
def breakSharing (pagetable va0 scause : Nat) (w : Pte) : P Int :=
  if w.has PTE_COW then cowFaultHandler pagetable va0 scause else pure 0

/-- One iteration of copyout, which writes a chunk into the page of `dstva`.  A
null entry pointer is dereferenced before it is checked. -/
def copyoutPage (pagetable scause dstva : Nat) (chunk : List UInt8) : P Int :=
  if PGROUNDDOWN dstva ≥ MAXVA then
    pure (-1)
  else do
    let va0 := PGROUNDDOWN dstva
    match ← walk pagetable va0 false with
    | none => stop (.fault 0)
    | some pte => do
        let w ← Prog.cmd (.readPte pte)
        let r ← breakSharing pagetable va0 scause w
        if r = -1 then
          pure (-1)
        else do
          let w ← Prog.cmd (.readPte pte)
          if !w.has PTE_V || !w.has PTE_U || !w.has PTE_W then
            pure (-1)
          else do
            Prog.cmd (.poke (PTE2PA w) (dstva - va0) chunk)
            pure 0

/-- The loop of copyout; the first argument bounds the number of iterations that
are left. -/
def copyoutLoop (pagetable scause : Nat) : Nat → Nat → List UInt8 → P Int
  | 0, _, _ => pure 0
  | n + 1, dstva, src =>
      if src.length = 0 then
        pure 0
      else do
        let len := min (PGSIZE - (dstva - PGROUNDDOWN dstva)) src.length
        let r ← copyoutPage pagetable scause dstva (src.take len)
        if r = -1 then
          pure (-1)
        else
          copyoutLoop pagetable scause n (PGROUNDDOWN dstva + PGSIZE) (src.drop len)

def copyout (pagetable dstva : Nat) (src : List UInt8) (scause : Nat) : P Int :=
  copyoutLoop pagetable scause src.length dstva src

/-- The loop of copyin; it also returns the bytes that reached the kernel. -/
def copyinLoop (pagetable : Nat) : Nat → Nat → Nat → P (Int × List UInt8)
  | 0, _, _ => pure (0, [])
  | n + 1, srcva, len =>
      if len = 0 then
        pure (0, [])
      else do
        let va0 := PGROUNDDOWN srcva
        let pa0 ← walkaddr pagetable va0
        if pa0 = 0 then
          pure (-1, [])
        else do
          let k := min (PGSIZE - (srcva - va0)) len
          let bytes ← Prog.cmd (.peek pa0 (srcva - va0) k)
          let (r, rest) ← copyinLoop pagetable n (va0 + PGSIZE) (len - k)
          pure (r, bytes ++ rest)

def copyin (pagetable srcva len : Nat) : P (Int × List UInt8) :=
  copyinLoop pagetable len srcva len

/-- The address translation of the hardware: the entry of the page, if the
tables have one. -/
def translate (pagetable va : Nat) : P (Option Pte) :=
  if va ≥ MAXVA then
    pure none
  else do
    match ← walk pagetable va false with
    | none => pure none
    | some pte => do
        let w ← Prog.cmd (.readPte pte)
        pure (if w.has PTE_V then some w else none)

/-- A load in user mode: the byte, or a page fault. -/
def userLoad (pagetable va : Nat) : P (Option UInt8) := do
  match ← translate pagetable va with
  | none => pure none
  | some w =>
      if w.has PTE_U && w.has PTE_R then do
        let bytes ← Prog.cmd (.peek (PTE2PA w) (va % PGSIZE) 1)
        pure bytes.head?
      else
        pure none

/-- One attempt of a store in user mode: done, or a page fault. -/
def tryStore (pagetable va : Nat) (b : UInt8) : P Bool := do
  match ← translate pagetable va with
  | none => pure false
  | some w =>
      if w.has PTE_U && w.has PTE_W then do
        Prog.cmd (.poke (PTE2PA w) (va % PGSIZE) [b])
        pure true
      else
        pure false

/-- A store in user mode.  A store page fault (cause 15) goes to the handler, as
in usertrap; when the handler succeeds the instruction is executed again. -/
def userStore (pagetable va : Nat) (b : UInt8) : P Bool := do
  if ← tryStore pagetable va b then
    pure true
  else do
    let r ← cowFaultHandler pagetable va 15
    if r = -1 then panic "cow1" else tryStore pagetable va b

section handler

variable (K : Image)

def readPteAt (pte : PtePtr) : KM Pte := do
  let page ← readPage pte.1
  return loadPte page pte.2

def writePteAt (pte : PtePtr) (w : Pte) : KM Unit := do
  let page ← readPage pte.1
  writePage pte.1 (storePte page pte.2 w)

/-- The store of mappages, which is the first mapping of a page if none was
recorded since the page was allocated. -/
def mapPteAt (pte : PtePtr) (w : Pte) : KM Unit := do
  writePteAt pte w
  modify fun s =>
    if s.first (PTE2PA w) = none then
      { s with first := Function.update s.first (PTE2PA w) (some (PTE_FLAGS w)) }
    else s

/-- `n` bytes of a page, from an offset on. -/
def peekBytes (page : Arr) (off n : Nat) : List UInt8 :=
  (List.range n).map fun i => page (off + i)

/-- A page with bytes stored at an offset. -/
def pokeBytes (page : Arr) (off : Nat) (src : List UInt8) : Arr :=
  blit page off (fun i => src.getD i 0) 0 src.length

def peekAt (pa off n : Nat) : KM (List UInt8) := do
  let page ← readPage pa
  return peekBytes page off n

def pokeAt (pa off : Nat) (src : List UInt8) : KM Unit := do
  let page ← readPage pa
  writePage pa (pokeBytes page off src)

/-- The meaning of the commands that mappages uses. -/
def baseHandler : Handler MemCmd Kmem KErr
  | _, .kalloc => kalloc
  | _, .kfree pa => kfree K pa
  | _, .clearPte pte => writePteAt pte 0
  | _, .lockUpdateRefCount pa sign => lockUpdateRefCount pa sign
  -- mappages does not call update, which would acquire the lock again
  | _, .update .. => stopWith (.panic "acquire")
  | _, .readPte pte => readPteAt pte
  | _, .writePte pte w => writePteAt pte w
  | _, .mapPte pte w => mapPteAt pte w
  | _, .memset pa c => memset pa c
  | _, .peek pa off n => peekAt pa off n
  | _, .poke pa off src => pokeAt pa off src
  | _, .stop e => stopWith e

/-- One critical section: with other references the page is copied to a new one,
without any it is made writable in place. -/
def update (table va : Nat) (_pte : PtePtr) (pa : Nat) (flags : Pte) : KM Int := do
  acquire
  if (← getRefCount pa) > 1 then
    let newPa ← kallocNoLock
    let page ← readPage pa
    writePage newPa page
    let _ ← (mappages table va PGSIZE newPa (writableFlags flags)).run (baseHandler K)
    kfreeNoLock K pa
  else if (← getRefCount pa) = 1 then
    let _ ← (mappages table va PGSIZE pa (writableFlags flags)).run (baseHandler K)
  release
  return 0

/-- The meaning of the commands. -/
def handler : Handler MemCmd Kmem KErr
  | _, .update table va pte pa flags => update K table va pte pa flags
  | _, c => baseHandler K _ c

end handler

end Xv6.Vm
