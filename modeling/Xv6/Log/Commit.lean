/-
The redo log of kernel/log.c: commit, recovery, and the disk they leave
behind when the machine stops between two block writes.
-/
import Xv6.Lib.Bytes
import Xv6.Lib.Program
import Xv6.Param
import Mathlib.Data.List.Range

namespace Xv6

open Bytes Program

/-- A disk block; only the offsets below `BSIZE` are used. -/
abbrev Block := Arr

/-- A C `int` read from its 32-bit pattern. -/
def sint32 (v : Nat) : Int := if v < 2 ^ 31 then v else (v : Int) - 2 ^ 32

namespace Log

/-- `struct logheader`: the count and the array of home block numbers. -/
structure LogHeader where
  n : Int
  block : Nat → UInt32

/-- The home blocks that the header lists. -/
def LogHeader.blocks (lh : LogHeader) : List Nat :=
  (List.range lh.n.toNat).map fun i => (lh.block i).toNat

/-- Where the log lives: `log.start` and `log.size`. -/
structure Region where
  start : Nat
  size : Nat

/-- The block is the header block or one of the log's data blocks. -/
def Region.Mem (r : Region) (b : Nat) : Prop := r.start ≤ b ∧ b < r.start + r.size

instance (r : Region) (b : Nat) : Decidable (r.Mem b) := by
  unfold Region.Mem; infer_instance

/-- What survives a crash: the blocks, and which of them were ever written. -/
structure Disk where
  block : Nat → Block
  writes : List Nat

/-- The device as the log code sees it: the disk, the buffers that hold valid
data, the pins that keep buffers cached, and the in-memory log header. -/
structure Dev where
  disk : Disk
  cache : Nat → Option Block
  pins : Nat → Int
  lh : LogHeader

/-- The data a locked buffer for block `b` holds. -/
def Dev.view (s : Dev) (b : Nat) : Block := (s.cache b).getD (s.disk.block b)

/-- A read miss fills the buffer. -/
def Dev.fill (s : Dev) (b : Nat) : Dev :=
  { s with cache := Function.update s.cache b (some (s.view b)) }

/-- A locked buffer is changed to `data` and written to the disk. -/
def Dev.store (s : Dev) (b : Nat) (data : Block) : Dev :=
  { s with
    disk := ⟨Function.update s.disk.block b data, b :: s.disk.writes⟩
    cache := Function.update s.cache b (some data) }

def Dev.unpin (s : Dev) (b : Nat) : Dev :=
  { s with pins := Function.update s.pins b (s.pins b - 1) }

/-- The machine after a reboot: empty cache, zeroed memory. -/
def boot (d : Disk) : Dev :=
  { disk := d, cache := fun _ => none, pins := fun _ => 0, lh := ⟨0, fun _ => 0⟩ }

inductive LogCmd : Type → Type
  | getLh : LogCmd LogHeader
  | setLh (lh : LogHeader) : LogCmd Unit
  | bread (b : Nat) : LogCmd Block
  | bwrite (b : Nat) (data : Block) : LogCmd Unit
  | bunpin (b : Nat) : LogCmd Unit

/-- Only `bwrite` changes the disk. -/
def exec : Handler LogCmd Dev Empty
  | _, .getLh, s => .ok (s.lh, s)
  | _, .setLh lh, s => .ok ((), { s with lh := lh })
  | _, .bread b, s => .ok (s.view b, s.fill b)
  | _, .bwrite b data, s => .ok ((), s.store b data)
  | _, .bunpin b, s => .ok ((), s.unpin b)

abbrev LogProg := Prog LogCmd

/-! The header block: `n` at offset 0, `block[i]` at offset `4 + 4 * i`. -/

def headN (b : Block) : Int := sint32 (getLE 4 b 0)

def headBlock (b : Block) (i : Nat) : UInt32 := UInt32.ofNat (getLE 4 b (4 + 4 * i))

def putHeadBlocks (lh : LogHeader) : Nat → Block → Block
  | 0, b => b
  | i + 1, b => putLE 4 (putHeadBlocks lh i b) (4 + 4 * i) (lh.block i).toNat

/-- The header block after `hb->n = log.lh.n` and the copy loop. -/
def putHead (lh : LogHeader) (b : Block) : Block :=
  putHeadBlocks lh lh.n.toNat (putLE 4 b 0 (lh.n % 2 ^ 32).toNat)

@[simp] theorem Dev.view_fill (s : Dev) (b : Nat) : (s.fill b).view = s.view := by
  funext x
  by_cases hx : x = b
  · subst hx
    simp [Dev.fill, Dev.view]
  · simp [Dev.fill, Dev.view, Function.update_of_ne hx]

@[simp] theorem Dev.view_store (s : Dev) (b : Nat) (data : Block) :
    (s.store b data).view = Function.update s.view b data := by
  funext x
  by_cases hx : x = b
  · subst hx
    simp [Dev.store, Dev.view]
  · simp [Dev.store, Dev.view, Function.update_of_ne hx]

@[simp] theorem Dev.disk_fill (s : Dev) (b : Nat) : (s.fill b).disk = s.disk := rfl

@[simp] theorem Dev.lh_fill (s : Dev) (b : Nat) : (s.fill b).lh = s.lh := rfl

@[simp] theorem Dev.lh_store (s : Dev) (b : Nat) (data : Block) :
    (s.store b data).lh = s.lh := rfl

@[simp] theorem Dev.view_unpin (s : Dev) (b : Nat) : (s.unpin b).view = s.view := rfl

@[simp] theorem Dev.disk_unpin (s : Dev) (b : Nat) : (s.unpin b).disk = s.disk := rfl

@[simp] theorem Dev.lh_unpin (s : Dev) (b : Nat) : (s.unpin b).lh = s.lh := rfl

variable (r : Region)

/-- Copy committed blocks from log to their home location. -/
def installTrans (recovering : Bool) : LogProg Unit := do
  let lh ← Prog.cmd .getLh
  Prog.upto lh.n.toNat fun tail => do
    let lbuf ← Prog.cmd (.bread (r.start + tail + 1))
    let _ ← Prog.cmd (.bread (lh.block tail).toNat)
    Prog.cmd (.bwrite (lh.block tail).toNat lbuf)
    if recovering then pure () else Prog.cmd (.bunpin (lh.block tail).toNat)

/-- Read the log header from disk into the in-memory log header. -/
def readHead : LogProg Unit := do
  let buf ← Prog.cmd (.bread r.start)
  let lh ← Prog.cmd .getLh
  let n := headN buf
  Prog.cmd (.setLh
    ⟨n, fun i => if (i : Int) < n then headBlock buf i else lh.block i⟩)

/-- Write in-memory log header to disk.  This is the true point at which the
current transaction commits. -/
def writeHead : LogProg Unit := do
  let buf ← Prog.cmd (.bread r.start)
  let lh ← Prog.cmd .getLh
  Prog.cmd (.bwrite r.start (putHead lh buf))

/-- `log.lh.n = 0`. -/
def clearHead : LogProg Unit := do
  let lh ← Prog.cmd .getLh
  Prog.cmd (.setLh { lh with n := 0 })

def recoverFromLog : LogProg Unit := do
  readHead r
  installTrans r true
  clearHead
  writeHead r

/-- Copy modified blocks from cache to log. -/
def writeLog : LogProg Unit := do
  let lh ← Prog.cmd .getLh
  Prog.upto lh.n.toNat fun tail => do
    let _ ← Prog.cmd (.bread (r.start + tail + 1))
    let from_ ← Prog.cmd (.bread (lh.block tail).toNat)
    Prog.cmd (.bwrite (r.start + tail + 1) from_)

def commit : LogProg Unit := do
  let lh ← Prog.cmd .getLh
  if lh.n > 0 then do
    writeLog r
    writeHead r
    installTrans r false
    clearHead
    writeHead r
  else pure ()

end Log

end Xv6
