/-
The memory side of kernel/proc.c, kernel/exec.c and kernel/trap.c: creating,
growing, copying, replacing and freeing the address space of a process, and the
traps from user mode.  Registers, open files and the process table are left out.
-/
import Xv6.Param
import Xv6.Vm.PageTable

namespace Xv6.Vm

open Bytes Program

/-- The fields of struct proc that describe its memory. -/
structure ProcMem where
  pagetable : Nat
  sz : Nat
  trapframe : Nat
  deriving DecidableEq, Repr

def uvmfreeTable (pagetable : Nat) : P Nat := do
  uvmfree pagetable 0
  pure 0

def procPagetable (K : Image) (trapframe : Nat) : P Nat := do
  let pagetable ← uvmcreate
  if pagetable = 0 then
    pure 0
  else do
    let r ← mappages pagetable TRAMPOLINE PGSIZE K.trampoline (PTE_R ||| PTE_X)
    if r < 0 then
      uvmfreeTable pagetable
    else do
      let r ← mappages pagetable TRAPFRAME PGSIZE trapframe (PTE_R ||| PTE_W)
      if r < 0 then do
        uvmunmap pagetable TRAMPOLINE 1 false
        uvmfreeTable pagetable
      else
        pure pagetable

def procFreepagetable (pagetable sz : Nat) : P Unit := do
  uvmunmap pagetable TRAMPOLINE 1 false
  uvmunmap pagetable TRAPFRAME 1 false
  uvmfree pagetable sz

def freeproc (p : ProcMem) : P Unit := do
  Prog.cmd (.kfree p.trapframe)
  procFreepagetable p.pagetable p.sz

/-- The allocations of allocproc; `unused` says whether the process table has an
UNUSED entry.  When an allocation fails, freeproc frees what there is. -/
def allocproc (K : Image) (unused : Bool) : P (Option ProcMem) :=
  if !unused then
    pure none
  else do
    let trapframe ← Prog.cmd .kalloc
    if trapframe = 0 then
      pure none
    else do
      let pagetable ← procPagetable K trapframe
      if pagetable = 0 then do
        Prog.cmd (.kfree trapframe)
        pure none
      else
        pure (some ⟨pagetable, 0, trapframe⟩)

/-- The first process, with `initcode` in its only page, and the result of
mappages in uvmfirst. -/
def userinit (K : Image) (initcode : List UInt8) : P (ProcMem × Int) := do
  match ← allocproc K true with
  | none => stop (.fault 0)
  | some p => do
      let r ← uvmfirst p.pagetable initcode
      pure ({ p with sz := PGSIZE }, r)

/-- The sum of a size and a signed change, as an unsigned 64-bit word. -/
def addSize (sz : Nat) (n : Int) : Nat := (((sz : Int) + n) % 2 ^ 64).toNat

def growproc (p : ProcMem) (n : Int) : P (Int × ProcMem) :=
  if n > 0 then do
    let sz ← uvmalloc p.pagetable p.sz (addSize p.sz n) PTE_W
    if sz = 0 then pure (-1, p) else pure (0, { p with sz := sz })
  else if n < 0 then do
    let sz ← uvmdealloc p.pagetable p.sz (addSize p.sz n)
    pure (0, { p with sz := sz })
  else
    pure (0, p)

/-- The child, or nothing when fork fails. -/
def fork (K : Image) (p : ProcMem) (unused : Bool) : P (Option ProcMem) := do
  match ← allocproc K unused with
  | none => pure none
  | some np => do
      let r ← uvmcopy p.pagetable np.pagetable p.sz
      if r < 0 then do
        freeproc np
        pure none
      else
        pure (some { np with sz := p.sz })

/-- A program file: the bytes that readi finds at an offset, at most so many. -/
structure ProgFile where
  readi : Nat → Nat → List UInt8
  length_le : ∀ off n, (readi off n).length ≤ n

def bytesAt (bytes : List UInt8) : Arr := fun i => bytes.getD i 0

structure ElfHdr where
  magic : Nat
  entry : Nat
  phoff : Nat
  phnum : Nat

def ELF_MAGIC : Nat := 0x464C457F

/-- The fields of struct elfhdr that exec reads, at their offsets. -/
def ElfHdr.ofBytes (b : List UInt8) : ElfHdr where
  magic := getLE 4 (bytesAt b) 0
  entry := getLE 8 (bytesAt b) 24
  phoff := getLE 8 (bytesAt b) 32
  phnum := getLE 2 (bytesAt b) 56

structure ProgHdr where
  type : Nat
  flags : Nat
  off : Nat
  vaddr : Nat
  filesz : Nat
  memsz : Nat

def ELF_PROG_LOAD : Nat := 1

def ProgHdr.ofBytes (b : List UInt8) : ProgHdr where
  type := getLE 4 (bytesAt b) 0
  flags := getLE 4 (bytesAt b) 4
  off := getLE 8 (bytesAt b) 8
  vaddr := getLE 8 (bytesAt b) 16
  filesz := getLE 8 (bytesAt b) 32
  memsz := getLE 8 (bytesAt b) 40

def flags2perm (flags : Nat) : Pte :=
  (if flags % 2 = 1 then PTE_X else 0) ||| (if flags / 2 % 2 = 1 then PTE_W else 0)

/-- The loop of loadseg at `i`; the first argument bounds the iterations left. -/
def loadLoop (pagetable va : Nat) (file : ProgFile) (offset sz : Nat) :
    Nat → Nat → P Int
  | 0, _ => pure 0
  | k + 1, i =>
      if i < sz then do
        let pa ← walkaddr pagetable (va + i)
        if pa = 0 then
          panic "loadseg: address should exist"
        else do
          let n := min (sz - i) PGSIZE
          let bytes := file.readi ((offset + i) % 2 ^ 32) n
          Prog.cmd (.poke pa 0 bytes)
          if bytes.length ≠ n then
            pure (-1)
          else
            loadLoop pagetable va file offset sz k (i + PGSIZE)
      else
        pure 0

def loadseg (pagetable va : Nat) (file : ProgFile) (offset sz : Nat) : P Int :=
  loadLoop pagetable va file (offset % 2 ^ 32) (sz % 2 ^ 32) (sz % 2 ^ 32) 0

/-- What the loop over the program headers does with one of them: whether to go
on, and the size of the image after it. -/
def loadHeader (pagetable : Nat) (file : ProgFile) (off sz : Nat) : P (Bool × Nat) :=
  let b := file.readi (off % 2 ^ 32) 56
  let ph := ProgHdr.ofBytes b
  if b.length ≠ 56 then
    pure (false, sz)
  else if ph.type ≠ ELF_PROG_LOAD then
    pure (true, sz)
  else if ph.memsz < ph.filesz then
    pure (false, sz)
  else if ph.vaddr + ph.memsz ≥ 2 ^ 64 then
    pure (false, sz)
  else if ph.vaddr % PGSIZE ≠ 0 then
    pure (false, sz)
  else do
    let sz1 ← uvmalloc pagetable sz (ph.vaddr + ph.memsz) (flags2perm ph.flags)
    if sz1 = 0 then
      pure (false, sz)
    else do
      let r ← loadseg pagetable ph.vaddr file ph.off ph.filesz
      pure (decide (r ≥ 0), sz1)

def loadHeaders (pagetable : Nat) (file : ProgFile) :
    Nat → Nat → Nat → P (Bool × Nat)
  | 0, _, sz => pure (true, sz)
  | n + 1, off, sz => do
      let (ok, sz1) ← loadHeader pagetable file off sz
      if ok then loadHeaders pagetable file n (off + 56) sz1 else pure (false, sz1)

/-- Push the argument strings, from argument `argc` on; the stack pointer and the
addresses of the strings, or nothing. -/
def pushArgs (pagetable stackbase scause : Nat) :
    List (List UInt8) → Nat → Nat → P (Option (Nat × List Nat))
  | [], _, sp => pure (some (sp, []))
  | arg :: rest, argc, sp =>
      if argc ≥ MAXARG then
        pure none
      else do
        let sp := sp - (arg.length + 1)
        let sp := sp - sp % 16
        if sp < stackbase then
          pure none
        else do
          let r ← copyout pagetable sp (arg ++ [0]) scause
          if r < 0 then
            pure none
          else do
            match ← pushArgs pagetable stackbase scause rest (argc + 1) sp with
            | none => pure none
            | some (sp', addrs) => pure (some (sp', sp :: addrs))

/-- The eight bytes of a word. -/
def wordBytes (v : Nat) : List UInt8 :=
  (List.range 8).map fun i => UInt8.ofNat (v / 256 ^ i)

/-- The new image after a successful exec, with the values that go into the
trapframe. -/
structure ExecImage where
  sz : Nat
  argc : Nat
  sp : Nat
  entry : Nat

/-- The arguments of exec and the array of their addresses, below `sz`. -/
def pushStack (pagetable sz stackbase entry : Nat) (argv : List (List UInt8))
    (scause : Nat) : P (Except Nat ExecImage) := do
  match ← pushArgs pagetable stackbase scause argv 0 sz with
  | none => pure (.error sz)
  | some (sp, addrs) => do
      let sp := sp - (argv.length + 1) * 8
      let sp := sp - sp % 16
      if sp < stackbase then
        pure (.error sz)
      else do
        let ustack := (addrs ++ [0]).flatMap wordBytes
        let r ← copyout pagetable sp ustack scause
        if r < 0 then
          pure (.error sz)
        else
          pure (.ok ⟨sz, argv.length, sp, entry⟩)

/-- The stack of exec: the size of the image is rounded up, a guard page and the
stack are added and the arguments pushed.  On failure the size at that point. -/
def buildStack (pagetable sz0 entry : Nat) (argv : List (List UInt8))
    (scause : Nat) : P (Except Nat ExecImage) := do
  let sz := PGROUNDUP sz0
  let sz1 ← uvmalloc pagetable sz (sz + (USERSTACK + 1) * PGSIZE) PTE_W
  if sz1 = 0 then
    pure (.error sz)
  else do
    uvmclear pagetable (sz1 - (USERSTACK + 1) * PGSIZE)
    pushStack pagetable sz1 (sz1 - USERSTACK * PGSIZE) entry argv scause

/-- The path to `bad` in exec once there is a page table. -/
def execBad (pagetable sz : Nat) : P (Option (ProcMem × ExecImage)) := do
  procFreepagetable pagetable sz
  pure none

/-- The process after exec, or nothing when exec fails; `file` is what namei
finds. -/
def exec (K : Image) (p : ProcMem) (file : Option ProgFile)
    (argv : List (List UInt8)) (scause : Nat) : P (Option (ProcMem × ExecImage)) :=
  match file with
  | none => pure none
  | some file =>
      let b := file.readi 0 64
      let elf := ElfHdr.ofBytes b
      if b.length ≠ 64 then
        pure none
      else if elf.magic ≠ ELF_MAGIC then
        pure none
      else do
        let pagetable ← procPagetable K p.trapframe
        if pagetable = 0 then
          pure none
        else do
          let (ok, sz) ← loadHeaders pagetable file elf.phnum elf.phoff 0
          if !ok then
            execBad pagetable sz
          else do
            match ← buildStack pagetable sz elf.entry argv scause with
            | .error sz => execBad pagetable sz
            | .ok image => do
                procFreepagetable p.pagetable p.sz
                pure (some ({ p with pagetable := pagetable, sz := image.sz },
                  image))

/-- How a trap from user mode ends, as far as it is not a system call. -/
inductive TrapEnd
  | syscall
  | device
  | resumed
  | exited (status : Int)
  deriving DecidableEq, Repr

/-- The causes that devintr recognises. -/
def devintr (scause : Nat) : Bool :=
  scause == 0x8000000000000009 || scause == 0x8000000000000005

/-- The end of usertrap for an exception; exit does not let the first process
exit. -/
def trapReturn (killed isInit : Bool) : P TrapEnd :=
  if killed then
    if isInit then panic "init exiting" else pure (.exited (-1))
  else
    pure .resumed

def usertrap (pagetable scause stval : Nat) (killed isInit : Bool) : P TrapEnd :=
  if scause = 8 then
    pure .syscall
  else if devintr scause then
    pure .device
  else if scause = 15 then do
    let r ← cowFaultHandler pagetable stval scause
    -- the setkilled that follows in the source is not reached
    if r = -1 then panic "cow1" else trapReturn killed isInit
  else
    panic "cow2"

end Xv6.Vm
