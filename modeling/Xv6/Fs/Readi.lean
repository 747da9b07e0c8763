/-
The read path of kernel/fs.c on an inode that is locked: balloc, bmap and readi over the
blocks of the disk as bread returns them.
-/
import Xv6.Fs.Layout

namespace Xv6.Fs

open Bytes

/-- The bit of block `b` in the bitmap. -/
def bitSet (disk : Blocks) (sb : Superblock) (b : Nat) : Bool :=
  (disk (BBLOCK b sb) (b % BPB / 8) &&& (1 <<< (b % 8).toUInt8)) ≠ 0

/-- Allocate a zeroed disk block, or return 0. -/
def balloc (disk : Blocks) (sb : Superblock) : Nat × Blocks :=
  match (List.range sb.size).find? fun b => !bitSet disk sb b with
  | none => (0, disk)
  | some b =>
      let bp := disk (BBLOCK b sb)
      let bp := Function.update bp (b % BPB / 8) (bp (b % BPB / 8) ||| (1 <<< (b % 8).toUInt8))
      (b, Function.update (Function.update disk (BBLOCK b sb) bp) b fun _ => 0)

def bmap (disk : Blocks) (sb : Superblock) (ip : Dinode) (bn : Nat) :
    Except String (Nat × Dinode × Blocks) :=
  if bn < NDIRECT then
    if ip.addrs bn = 0 then
      match balloc disk sb with
      | (0, disk) => .ok (0, ip, disk)
      | (addr, disk) =>
          .ok (addr, { ip with addrs := Function.update ip.addrs bn (UInt32.ofNat addr) }, disk)
    else .ok ((ip.addrs bn).toNat, ip, disk)
  else if bn - NDIRECT < NINDIRECT then
    let (ip, disk) := if ip.addrs NDIRECT = 0 then
        match balloc disk sb with
        | (addr, disk) => ({ ip with
            addrs := Function.update ip.addrs NDIRECT (UInt32.ofNat addr) }, disk)
      else (ip, disk)
    if ip.addrs NDIRECT = 0 then .ok (0, ip, disk)
    else
      let a := disk (ip.addrs NDIRECT).toNat
      if getLE 4 a (4 * (bn - NDIRECT)) = 0 then
        match balloc disk sb with
        | (0, disk) => .ok (0, ip, disk)
        | (addr, disk) => .ok (addr, ip,
            Function.update disk (ip.addrs NDIRECT).toNat (putLE 4 a (4 * (bn - NDIRECT)) addr))
      else .ok (getLE 4 a (4 * (bn - NDIRECT)), ip, disk)
  else .error "bmap: out of range"

/-- What readi returns: its result and the bytes that it has copied out, with the inode and the
disk after it. -/
structure Copied where
  tot : Int
  bytes : List UInt8
  ip : Dinode
  disk : Blocks

/-- The loop of readi: `n` bytes are left, `done` are copied; `copyout` says for each of the
copies whether it succeeds. -/
def readLoop (sb : Superblock) (copyout : Nat → Bool) :
    Nat → Blocks → Dinode → Nat → Nat → List UInt8 → Except String Copied
  | 0, disk, ip, _, _, done => .ok ⟨done.length, done, ip, disk⟩
  | fuel + 1, disk, ip, off, n, done => do
      if n = 0 then .ok ⟨done.length, done, ip, disk⟩
      else
        let (addr, ip, disk) ← bmap disk sb ip (off / BSIZE)
        if addr = 0 then .ok ⟨done.length, done, ip, disk⟩
        else
          let m := min n (BSIZE - off % BSIZE)
          if copyout done.length then
            readLoop sb copyout fuel disk ip (off + m) (n - m)
              (done ++ (List.range m).map fun i => disk addr (off % BSIZE + i))
          else .ok ⟨-1, done, ip, disk⟩

def readi (disk : Blocks) (sb : Superblock) (ip : Dinode) (copyout : Nat → Bool)
    (off n : UInt32) : Except String Copied :=
  if off > ip.size ∨ off + n < off then .ok ⟨0, [], ip, disk⟩
  else
    let n := if off + n > ip.size then ip.size - off else n
    readLoop sb copyout n.toNat disk ip off.toNat n.toNat []

/-- The inode as ilock reads it. -/
def readInode (disk : Blocks) (sb : Superblock) (inum : Nat) : Dinode :=
  getDinode (disk (IBLOCK inum sb)) (inum % IPB * DINODE)

end Xv6.Fs
