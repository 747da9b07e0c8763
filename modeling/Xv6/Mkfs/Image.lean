/-
mkfs/mkfs.c: the image that it builds, sector by sector.  rsect fails beyond the end of the
image, wsect makes the image longer; exit(1) and a failed assert are errors.
-/
import Xv6.Fs.Layout

namespace Xv6.Mkfs

open Bytes Fs

def FSSIZE : Nat := 2000
def NINODES : Nat := 200

def nbitmap : Nat := FSSIZE / BPB + 1
def ninodeblocks : Nat := NINODES / IPB + 1
def nlog : Nat := LOGSIZE
def nmeta : Nat := 2 + nlog + ninodeblocks + nbitmap

def sb : Superblock where
  magic := FSMAGIC
  size := FSSIZE
  nblocks := FSSIZE - nmeta
  ninodes := NINODES
  nlog := nlog
  logstart := 2
  inodestart := 2 + nlog
  bmapstart := 2 + nlog + ninodeblocks

/-- The bitmap with the blocks below `used` marked. -/
def bitmap (used : Nat) : Arr := fun j =>
  (List.range 8).foldl (fun x i => if 8 * j + i < used then x ||| (1 <<< i.toUInt8) else x) 0

/-- The image, of `nsect` sectors, with the next inode and the next block to hand out. -/
structure Image where
  disk : Blocks
  nsect : Nat
  freeinode : Nat
  freeblock : Nat

namespace Image

def rsect (im : Image) (sec : Nat) : Except String Arr :=
  if sec < im.nsect then .ok (im.disk sec) else .error "read"

def wsect (im : Image) (sec : Nat) (buf : Arr) : Image :=
  { im with disk := Function.update im.disk sec buf, nsect := max im.nsect (sec + 1) }

def rinode (im : Image) (inum : Nat) : Except String Dinode := do
  let buf ← im.rsect (IBLOCK inum sb)
  .ok (getDinode buf (inum % IPB * DINODE))

def winode (im : Image) (inum : Nat) (ip : Dinode) : Except String Image := do
  let buf ← im.rsect (IBLOCK inum sb)
  .ok (im.wsect (IBLOCK inum sb) (putDinode buf (inum % IPB * DINODE) ip))

def ialloc (im : Image) (type : Int16) : Except String (Nat × Image) := do
  let inum := im.freeinode
  let im ← { im with freeinode := inum + 1 }.winode inum { type := type, nlink := 1 }
  .ok (inum, im)

/-- The branches of iappend that find block `fbn` of the file, or take a new one. -/
def block (im : Image) (din : Dinode) (fbn : Nat) : Except String (Nat × Dinode × Image) :=
  if fbn < NDIRECT then
    if din.addrs fbn = 0 then
      let din := { din with
        addrs := Function.update din.addrs fbn (UInt32.ofNat im.freeblock) }
      .ok ((din.addrs fbn).toNat, din, { im with freeblock := im.freeblock + 1 })
    else .ok ((din.addrs fbn).toNat, din, im)
  else do
    let (din, im) := if din.addrs NDIRECT = 0 then
        ({ din with addrs := Function.update din.addrs NDIRECT (UInt32.ofNat im.freeblock) },
          { im with freeblock := im.freeblock + 1 })
      else (din, im)
    let indirect ← im.rsect (din.addrs NDIRECT).toNat
    if getLE 4 indirect (4 * (fbn - NDIRECT)) = 0 then
      let indirect := putLE 4 indirect (4 * (fbn - NDIRECT)) im.freeblock
      .ok (getLE 4 indirect (4 * (fbn - NDIRECT)), din,
        { im.wsect (din.addrs NDIRECT).toNat indirect with freeblock := im.freeblock + 1 })
    else .ok (getLE 4 indirect (4 * (fbn - NDIRECT)), din, im)

/-- The loop of iappend over the bytes that are left; `fuel` is at least their number. -/
def appendLoop : Nat → Image → Dinode → Nat → List UInt8 →
    Except String (Dinode × Nat × Image)
  | 0, im, din, off, _ => .ok (din, off, im)
  | _ + 1, im, din, off, [] => .ok (din, off, im)
  | n + 1, im, din, off, p => do
      let fbn := off / BSIZE
      if fbn < MAXFILE then
        let (x, din, im) ← im.block din fbn
        let n1 := min p.length ((fbn + 1) * BSIZE - off)
        let buf ← im.rsect x
        let im := im.wsect x (putBytes buf (off - fbn * BSIZE) (p.take n1))
        appendLoop n im din (off + n1) (p.drop n1)
      else .error "fbn < MAXFILE"

def iappend (im : Image) (inum : Nat) (p : List UInt8) : Except String Image := do
  let din ← im.rinode inum
  let (din, off, im) ← appendLoop p.length im din din.size.toNat p
  im.winode inum { din with size := UInt32.ofNat off }

/-- The first `used` blocks are in use. -/
def balloc (im : Image) (used : Nat) : Except String Image :=
  if used < BPB then .ok (im.wsect sb.bmapstart (bitmap used))
  else .error "used < BPB"

end Image

/-- The empty image with its superblock. -/
def empty : Image where
  disk b := if b = 1 then putSuperblock (fun _ => 0) sb else fun _ => 0
  nsect := FSSIZE
  freeinode := 1
  freeblock := nmeta

end Xv6.Mkfs
