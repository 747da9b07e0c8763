/-
The on-disk format of kernel/fs.h.  Integers are stored with the least significant byte
first, which is the byte order of the kernel and what mkfs converts to.
-/
import Xv6.Lib.Bytes
import Xv6.Param

namespace Xv6.Fs

open Bytes

def NDIRECT : Nat := 12
def NINDIRECT : Nat := BSIZE / 4
def MAXFILE : Nat := NDIRECT + NINDIRECT
def DIRSIZ : Nat := 14
def T_DIR : Int16 := 1
def T_FILE : Int16 := 2
def T_DEVICE : Int16 := 3

/-- `struct dinode`, which the in-memory inode repeats. -/
structure Dinode where
  type : Int16 := 0
  major : Int16 := 0
  minor : Int16 := 0
  nlink : Int16 := 0
  size : UInt32 := 0
  addrs : Nat → UInt32 := fun _ => 0

/-- `sizeof(struct dinode)`, inodes per block and bitmap bits per block. -/
def DINODE : Nat := 64
def IPB : Nat := BSIZE / DINODE
def BPB : Nat := BSIZE * 8

/-- The disk: blocks of bytes, of which the offsets below `BSIZE` are used. -/
abbrev Blocks := Nat → Arr

/-- `struct superblock` -/
structure Superblock where
  magic : Nat
  size : Nat
  nblocks : Nat
  ninodes : Nat
  nlog : Nat
  logstart : Nat
  inodestart : Nat
  bmapstart : Nat

def FSMAGIC : Nat := 0x10203040

/-- Block of inode `inum`, and block of the bit of block `b`. -/
def IBLOCK (inum : Nat) (sb : Superblock) : Nat := inum / IPB + sb.inodestart

def BBLOCK (b : Nat) (sb : Superblock) : Nat := b / BPB + sb.bmapstart

/-- `struct dirent` -/
structure Dirent where
  inum : UInt16
  name : List UInt8

/-- Store `k` ints from offset `o` on. -/
def putInts (f : Nat → Nat) (b : Arr) (o : Nat) : Nat → Arr
  | 0 => b
  | k + 1 => putLE 4 (putInts f b o k) (o + 4 * k) (f k)

/-- Store bytes from offset `o` on. -/
def putBytes (b : Arr) (o : Nat) (p : List UInt8) : Arr := fun j =>
  if o ≤ j then (p[j - o]?).getD (b j) else b j

def getShort (b : Arr) (o : Nat) : Int16 := (UInt16.ofNat (getLE 2 b o)).toInt16

def putShort (b : Arr) (o : Nat) (v : Int16) : Arr := putLE 2 b o v.toUInt16.toNat

def getInt (b : Arr) (o : Nat) : UInt32 := UInt32.ofNat (getLE 4 b o)

def getDinode (b : Arr) (o : Nat) : Dinode where
  type := getShort b o
  major := getShort b (o + 2)
  minor := getShort b (o + 4)
  nlink := getShort b (o + 6)
  size := getInt b (o + 8)
  addrs i := if i < NDIRECT + 1 then getInt b (o + 12 + 4 * i) else 0

def putDinode (b : Arr) (o : Nat) (d : Dinode) : Arr :=
  putInts (fun i => (d.addrs i).toNat)
    (putLE 4 (putShort (putShort (putShort (putShort b o d.type) (o + 2) d.major)
      (o + 4) d.minor) (o + 6) d.nlink) (o + 8) d.size.toNat)
    (o + 12) (NDIRECT + 1)

def getSuperblock (b : Arr) : Superblock where
  magic := getLE 4 b 0
  size := getLE 4 b 4
  nblocks := getLE 4 b 8
  ninodes := getLE 4 b 12
  nlog := getLE 4 b 16
  logstart := getLE 4 b 20
  inodestart := getLE 4 b 24
  bmapstart := getLE 4 b 28

/-- The words of the superblock in order. -/
def Superblock.words (sb : Superblock) : List Nat :=
  [sb.magic, sb.size, sb.nblocks, sb.ninodes, sb.nlog, sb.logstart, sb.inodestart, sb.bmapstart]

def putSuperblock (b : Arr) (sb : Superblock) : Arr :=
  putInts (fun i => sb.words.getD i 0) b 0 8

/-- The bytes of a directory entry; strncpy fills the name up with NULs. -/
def Dirent.bytes (de : Dirent) : List UInt8 :=
  [UInt8.ofNat de.inum.toNat, UInt8.ofNat (de.inum.toNat / 256)] ++
    (de.name ++ List.replicate (DIRSIZ - de.name.length) 0)

section ints

variable {f : Nat → Nat} {b : Arr} {o j k : Nat}

theorem putInts_of_disjoint (h : j < o ∨ o + 4 * k ≤ j) : putInts f b o k j = b j := by
  induction k with
  | zero => rfl
  | succ k ih =>
      rw [putInts, putLE_of_disjoint (by omega), ih (by omega)]

theorem getLE_putInts_of_disjoint {m o' : Nat} (h : o' + m ≤ o ∨ o + 4 * k ≤ o') :
    getLE m (putInts f b o k) o' = getLE m b o' :=
  getLE_congr fun j hlo hhi => putInts_of_disjoint (by omega)

theorem getLE_putInts {i : Nat} (hi : i < k) (hf : f i < 2 ^ 32) :
    getLE 4 (putInts f b o k) (o + 4 * i) = f i := by
  induction k with
  | zero => exact absurd hi (Nat.not_lt_zero _)
  | succ k ih =>
      rw [putInts]
      by_cases hik : i = k
      · rw [hik, getLE_putLE_self]
        exact Nat.mod_eq_of_lt (hik ▸ hf)
      · rw [getLE_putLE_of_disjoint (by omega)]
        exact ih (by omega)

theorem getInt_putInts {i : Nat} (hi : i < k) {v : Nat → UInt32} :
    getInt (putInts (fun i => (v i).toNat) b o k) (o + 4 * i) = v i := by
  rw [getInt, getLE_putInts hi (v i).toNat_lt, UInt32.ofNat_toNat]

theorem getShort_putShort (b : Arr) (o : Nat) (v : Int16) : getShort (putShort b o v) o = v := by
  have hlt : v.toUInt16.toNat < 256 ^ 2 := v.toUInt16.toNat_lt
  rw [getShort, putShort, getLE_putLE_self, Nat.mod_eq_of_lt hlt, UInt16.ofNat_toNat]
  rfl

theorem getShort_congr {c : Arr} (h : getLE 2 b o = getLE 2 c o) : getShort b o = getShort c o := by
  rw [getShort, getShort, h]

theorem getShort_putShort_of_disjoint {o' : Nat} {v : Int16} (h : o' + 2 ≤ o ∨ o + 2 ≤ o') :
    getShort (putShort b o v) o' = getShort b o' :=
  getShort_congr (getLE_putLE_of_disjoint h)

end ints

section dinodes

variable {b : Arr} {o : Nat} {d : Dinode}

theorem putDinode_of_disjoint {j : Nat} (h : j < o ∨ o + DINODE ≤ j) :
    putDinode b o d j = b j := by
  simp only [DINODE] at h
  rw [putDinode, putInts_of_disjoint (by simp only [NDIRECT]; omega),
    putLE_of_disjoint (by omega), putShort, putLE_of_disjoint (by omega), putShort,
    putLE_of_disjoint (by omega), putShort, putLE_of_disjoint (by omega), putShort,
    putLE_of_disjoint (by omega)]

/-- An inode is read back as it was stored. -/
theorem getDinode_putDinode (b : Arr) (o : Nat) (d : Dinode)
    (hd : ∀ i, NDIRECT < i → d.addrs i = 0) : getDinode (putDinode b o d) o = d := by
  have hshort : ∀ o', o' + 2 ≤ o + 8 → getShort (putDinode b o d) o' = getShort
      (putShort (putShort (putShort (putShort b o d.type) (o + 2) d.major)
        (o + 4) d.minor) (o + 6) d.nlink) o' := by
    intro o' ho'
    apply getShort_congr
    rw [putDinode, getLE_putInts_of_disjoint (by omega), getLE_putLE_of_disjoint (by omega)]
  have hsize : getInt (putDinode b o d) (o + 8) = d.size := by
    have hlt : d.size.toNat < 256 ^ 4 := d.size.toNat_lt
    rw [getInt, putDinode, getLE_putInts_of_disjoint (by omega), getLE_putLE_self,
      Nat.mod_eq_of_lt hlt, UInt32.ofNat_toNat]
  have haddrs : (fun i => if i < NDIRECT + 1 then getInt (putDinode b o d) (o + 12 + 4 * i)
      else 0) = d.addrs := by
    funext i
    by_cases hi : i < NDIRECT + 1
    · rw [if_pos hi, putDinode, getInt_putInts hi]
    · rw [if_neg hi]
      exact (hd i (by omega)).symm
  have htype : getShort (putDinode b o d) o = d.type := by
    rw [hshort o (by omega), getShort_putShort_of_disjoint (by omega),
      getShort_putShort_of_disjoint (by omega), getShort_putShort_of_disjoint (by omega),
      getShort_putShort]
  have hmajor : getShort (putDinode b o d) (o + 2) = d.major := by
    rw [hshort (o + 2) (by omega), getShort_putShort_of_disjoint (by omega),
      getShort_putShort_of_disjoint (by omega), getShort_putShort]
  have hminor : getShort (putDinode b o d) (o + 4) = d.minor := by
    rw [hshort (o + 4) (by omega), getShort_putShort_of_disjoint (by omega), getShort_putShort]
  have hnlink : getShort (putDinode b o d) (o + 6) = d.nlink := by
    rw [hshort (o + 6) (by omega), getShort_putShort]
  rw [getDinode, htype, hmajor, hminor, hnlink, hsize, haddrs]

theorem getDinode_congr {c : Arr} (h : ∀ j, o ≤ j → j < o + DINODE → b j = c j) :
    getDinode b o = getDinode c o := by
  have hLE : ∀ k m, k + m ≤ DINODE → getLE m b (o + k) = getLE m c (o + k) :=
    fun k m hk => getLE_congr fun j hlo hhi => h j (by omega) (by omega)
  have hint : ∀ k, k + 4 ≤ DINODE → getInt b (o + k) = getInt c (o + k) := by
    intro k hk
    rw [getInt, getInt, hLE k 4 hk]
  simp only [getDinode, Dinode.mk.injEq]
  simp only [DINODE] at hLE hint
  refine ⟨getShort_congr (hLE 0 2 (by omega)), getShort_congr (hLE 2 2 (by omega)),
    getShort_congr (hLE 4 2 (by omega)), getShort_congr (hLE 6 2 (by omega)),
    hint 8 (by omega), ?_⟩
  funext i
  split
  · next hi =>
      simp only [NDIRECT] at hi
      rw [Nat.add_assoc]
      exact hint (12 + 4 * i) (by omega)
  · rfl

end dinodes

theorem getSuperblock_putSuperblock (b : Arr) (sb : Superblock)
    (h : ∀ w ∈ sb.words, w < 2 ^ 32) : getSuperblock (putSuperblock b sb) = sb := by
  have hword : ∀ i, i < 8 → getLE 4 (putSuperblock b sb) (4 * i) = sb.words.getD i 0 := by
    intro i hi
    have hlt : sb.words.getD i 0 < 2 ^ 32 := by
      apply h
      have hlen : i < sb.words.length := hi
      rw [List.getD, List.getElem?_eq_getElem hlen]
      exact List.getElem_mem hlen
    have hget := getLE_putInts (b := b) (o := 0) (f := fun i => sb.words.getD i 0) hi hlt
    rwa [Nat.zero_add] at hget
  simp only [getSuperblock, hword 0 (by omega), hword 1 (by omega), hword 2 (by omega),
    hword 3 (by omega), hword 4 (by omega), hword 5 (by omega), hword 6 (by omega),
    hword 7 (by omega)]
  rfl

end Xv6.Fs
