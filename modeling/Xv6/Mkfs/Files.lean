/-
The inodes of the image and the bytes of their files, from one ialloc or iappend to the next.
-/
import Xv6.Fs.Readi
import Xv6.Mkfs.Append

namespace Xv6.Mkfs

open Bytes Fs Outcome

variable {im im' : Image} {owner owner' : Nat → Option Use} {inum other m : Nat}
  {d : Dinode} {w p : List UInt8} {content : Nat → List UInt8} {types : Nat → Int16}

/-- The inodes that there is room for. -/
def inodes : Nat := ninodeblocks * IPB

theorem IBLOCK_bounds (h : inum < inodes) : 1 < IBLOCK inum sb ∧ IBLOCK inum sb < nmeta := by
  simp only [inodes, ninodeblocks, NINODES, IPB, BSIZE, DINODE] at h
  simp only [IBLOCK, IPB, BSIZE, DINODE, sb, nmeta, nlog, LOGSIZE, ninodeblocks, NINODES, nbitmap,
    FSSIZE, BPB]
  omega

theorem Sound.rsect (hs : Sound im owner) {a : Nat} (ha : a < nmeta) :
    im.rsect a = .ok (im.disk a) := by
  have hlow := hs.low
  have htop := hs.top
  have hsect := hs.nsect
  exact if_pos (by omega)

theorem Sound.rinode (hs : Sound im owner) (h : inum < inodes) :
    im.rinode inum = .ok (readInode im.disk sb inum) := by
  rw [Image.rinode, hs.rsect (IBLOCK_bounds h).2]
  rfl

/-- The image after winode. -/
def setInode (im : Image) (inum : Nat) (d : Dinode) : Image :=
  im.wsect (IBLOCK inum sb)
    (putDinode (im.disk (IBLOCK inum sb)) (inum % IPB * DINODE) d)

theorem Sound.winode (hs : Sound im owner) (h : inum < inodes) :
    im.winode inum d = .ok (setInode im inum d) := by
  rw [Image.winode, hs.rsect (IBLOCK_bounds h).2]
  rfl

theorem setInode_disk (h : inum < inodes) {a : Nat} (ha : nmeta ≤ a) :
    (setInode im inum d).disk a = im.disk a := by
  have hblock := IBLOCK_bounds h
  exact Function.update_of_ne (by omega) ..

theorem readInode_setInode_self (im : Image) (inum : Nat) (hd : ∀ i, NDIRECT < i → d.addrs i = 0) :
    readInode (setInode im inum d).disk sb inum = d := by
  simp only [readInode, setInode, Image.wsect, Function.update_self]
  exact getDinode_putDinode _ _ d hd

/-- The other inodes do not change, in the same block or not. -/
theorem readInode_setInode_of_ne (im : Image) (d : Dinode) (hne : other ≠ inum) :
    readInode (setInode im inum d).disk sb other = readInode im.disk sb other := by
  unfold readInode setInode Image.wsect
  by_cases hblock : IBLOCK other sb = IBLOCK inum sb
  · simp only [hblock, Function.update_self]
    apply getDinode_congr
    intro j hlo hhi
    apply putDinode_of_disjoint
    simp only [IBLOCK, IPB, BSIZE, DINODE] at hblock hlo hhi ⊢
    omega
  · simp only [Function.update_of_ne hblock]

theorem Sound.setInode (hs : Sound im owner) (h : inum < inodes) :
    Sound (setInode im inum d) owner where
  nsect := by
    have hblock := IBLOCK_bounds h
    have hlow := hs.low
    have htop := hs.top
    have hsect := hs.nsect
    simp only [Mkfs.setInode, Image.wsect]
    omega
  low := hs.low
  top := hs.top
  owns := hs.owns
  zero a ha := by
    have hlow := hs.low
    change im.freeblock ≤ a at ha
    rw [setInode_disk h (by omega)]
    exact hs.zero a ha

/-- A file does not depend on the blocks below its own. -/
theorem FileAt.above (hf : FileAt im owner inum d m w)
    (hdisk : ∀ a, nmeta ≤ a → im'.disk a = im.disk a) (hfree : im'.freeblock = im.freeblock) :
    FileAt im' owner inum d m w := by
  have howned : ∀ {a u}, Owned im owner a u → Owned im' owner a u := by
    intro a u h
    exact ⟨h.owns, h.low, hfree ▸ h.taken⟩
  have hcases : ∀ bn, bn < m → bn < NDIRECT ∨ NDIRECT < m := fun bn hbn => by omega
  have hblock : ∀ bn, (bn < NDIRECT ∨ NDIRECT < m) →
      blockOf im'.disk d bn = blockOf im.disk d bn := by
    intro bn hbn
    exact blockOf_congr (hbn.imp_right fun hm => hdisk _ (hf.ind hm).1.low)
  refine ⟨hf.room, hf.max, fun bn hbn => ?_, hf.direct, fun hm => ⟨howned (hf.ind hm).1, ?_⟩,
    hf.noind, fun k v hk => ?_, hf.addrs⟩
  · rw [hblock bn (hcases bn hbn)]
    exact howned (hf.data bn hbn)
  · intro bn hbn hmax
    rw [hblock bn (.inr hm)]
    exact (hf.ind hm).2 bn hbn hmax
  · have hused := hf.data_used hk
    rw [hblock _ (hcases _ hused), hdisk _ (hf.data _ hused).low]
    exact hf.bytes k v hk

/-- Inode `inum` of the image, with its type and the bytes of its file. -/
structure Stored (im : Image) (owner : Nat → Option Use) (inum : Nat) (type : Int16)
    (w : List UInt8) : Prop where
  file : FileAt im owner inum (readInode im.disk sb inum) (blocksFor w.length) w
  size : (readInode im.disk sb inum).size.toNat = w.length
  type : (readInode im.disk sb inum).type = type
  nlink : (readInode im.disk sb inum).nlink = 1

/-- The image holds the files `content`. -/
structure Holds (im : Image) (owner : Nat → Option Use) (content : Nat → List UInt8)
    (types : Nat → Int16) : Prop where
  sound : Sound im owner
  first : 0 < im.freeinode
  inodes : im.freeinode ≤ inodes
  super : im.disk 1 = putSuperblock (fun _ => 0) sb
  stored : ∀ inum, 0 < inum → inum < im.freeinode →
    Stored im owner inum (types inum) (content inum)

theorem holds_empty : Holds empty (fun _ => none) (fun _ => []) (fun _ => 0) where
  sound := by
    refine ⟨rfl, Nat.le_refl _, by decide, nofun, fun a ha => ?_⟩
    have hpos : 1 < nmeta := by decide
    change nmeta ≤ a at ha
    exact if_neg (by omega)
  first := Nat.one_pos
  inodes := by decide
  super := rfl
  stored inum h h' := by
    change inum < 1 at h'
    omega

theorem fileAt_nil (im : Image) (owner : Nat → Option Use) (inum : Nat) (type : Int16) :
    FileAt im owner inum { type := type, nlink := 1 } 0 [] where
  room := Nat.zero_le _
  max := Nat.zero_le _
  data _ h := absurd h (Nat.not_lt_zero _)
  direct _ _ _ := rfl
  ind h := absurd h (Nat.not_lt_zero _)
  noind _ := rfl
  bytes _ _ h := nomatch h
  addrs _ _ := rfl

/-- A file whose inode is not the one that is written. -/
theorem Stored.setInode_of_ne {type : Int16} (h : Stored im owner inum type w)
    (hlt : other < Mkfs.inodes) (hne : inum ≠ other) :
    Stored (setInode im other d) owner inum type w := by
  have hinode := readInode_setInode_of_ne im d hne
  refine ⟨?_, ?_, ?_, ?_⟩
  · rw [hinode]
    exact h.file.above (fun a ha => setInode_disk hlt ha) rfl
  · rw [hinode, h.size]
  · rw [hinode, h.type]
  · rw [hinode, h.nlink]

theorem setInode_super (h : inum < inodes) : (setInode im inum d).disk 1 = im.disk 1 := by
  have hne : 1 ≠ IBLOCK inum sb := Nat.ne_of_lt (IBLOCK_bounds h).1
  simp only [setInode, Image.wsect, Function.update_of_ne hne]

theorem Holds.ialloc (hh : Holds im owner content types) (type : Int16)
    (hroom : im.freeinode < Mkfs.inodes) : ∃ im',
    im.ialloc type = .ok (im.freeinode, im') ∧ im'.freeinode = im.freeinode + 1 ∧
      im'.freeblock = im.freeblock ∧
      Holds im' owner (Function.update content im.freeinode [])
        (Function.update types im.freeinode type) := by
  have hs : Sound { im with freeinode := im.freeinode + 1 } owner :=
    ⟨hh.sound.nsect, hh.sound.low, hh.sound.top, hh.sound.owns, hh.sound.zero⟩
  refine ⟨setInode { im with freeinode := im.freeinode + 1 } im.freeinode
    { type := type, nlink := 1 }, by rw [Image.ialloc, hs.winode hroom]; rfl, rfl, rfl, ?_⟩
  refine ⟨hs.setInode hroom, Nat.succ_pos _, hroom, ?_, fun inum hpos hlt => ?_⟩
  · rw [setInode_super hroom]
    exact hh.super
  · by_cases heq : inum = im.freeinode
    · subst heq
      simp only [Function.update_self]
      have hinode := readInode_setInode_self { im with freeinode := im.freeinode + 1 } im.freeinode
        (d := { type := type, nlink := 1 }) (fun _ _ => rfl)
      refine ⟨?_, ?_, ?_, ?_⟩
      · rw [hinode]
        exact fileAt_nil ..
      · rw [hinode]
        rfl
      · rw [hinode]
      · rw [hinode]
    · simp only [Function.update_of_ne heq]
      change inum < im.freeinode + 1 at hlt
      have hold := hh.stored inum hpos (by omega)
      have hold' : Stored { im with freeinode := im.freeinode + 1 } owner inum (types inum)
          (content inum) :=
        ⟨hold.file.above (fun _ _ => rfl) rfl, hold.size, hold.type, hold.nlink⟩
      exact hold'.setInode_of_ne hroom heq

theorem Holds.kept (hh : Holds im owner content types) (hg : Grows im im' owner owner' inum)
    (hne : other ≠ inum) (hpos : 0 < other) (hlt : other < im.freeinode) :
    Stored im' owner' other (types other) (content other) := by
  have hold := hh.stored other hpos hlt
  have hinode : readInode im'.disk sb other = readInode im.disk sb other := by
    have hblock := IBLOCK_bounds (Nat.lt_of_lt_of_le hlt hh.inodes)
    have hlow := hh.sound.low
    rw [readInode, readInode, hg.disk _ (by omega)]
    intro u hu
    have howns := hh.sound.owns _ u hu
    omega
  exact ⟨hinode ▸ hold.file.grows hg hne, hinode ▸ hold.size, hinode ▸ hold.type,
    hinode ▸ hold.nlink⟩

theorem Holds.iappend (hh : Holds im owner content types) (hpos : 0 < inum)
    (hlt : inum < im.freeinode) (h : im.iappend inum p = .ok im') :
    im'.freeinode = im.freeinode ∧
      ∃ owner', Holds im' owner' (Function.update content inum (content inum ++ p)) types := by
  have hroom := Nat.lt_of_lt_of_le hlt hh.inodes
  have hstored := hh.stored inum hpos hlt
  unfold Image.iappend at h
  rw [hh.sound.rinode hroom] at h
  change (im.appendLoop p.length (readInode im.disk sb inum) _ p >>= _) = _ at h
  rw [hstored.size] at h
  obtain ⟨⟨d', off', im₁⟩, hloop, h⟩ := ok_of_bind h
  obtain ⟨owner', m', hs, hg, hf, ht, rfl, htype, hnlink⟩ :=
    appendLoop_ok p.length hh.sound hstored.file rfl (Nat.le_refl _) hloop
  simp only [hs.winode hroom] at h
  cases h
  refine ⟨hg.freeinode, owner', hs.setInode hroom, ?_, ?_, ?_, fun other hpos' hlt' => ?_⟩
  · exact hg.freeinode.symm ▸ hh.first
  · exact hg.freeinode.symm ▸ hh.inodes
  · have hone : ∀ u, owner 1 ≠ some u := by
      intro u hu
      have howns := (hh.sound.owns 1 u hu).1
      exact absurd howns (by decide)
    have hfree : 1 < im.freeblock := Nat.lt_of_lt_of_le (by decide) hh.sound.low
    rw [setInode_super hroom, hg.disk 1 hfree fun u hu => absurd hu (hone u)]
    exact hh.super
  · change other < im₁.freeinode at hlt'
    rw [hg.freeinode] at hlt'
    by_cases heq : other = inum
    · subst heq
      rw [Function.update_self]
      have hinode := readInode_setInode_self im₁ other
        (d := { d' with size := UInt32.ofNat (content other ++ p).length }) hf.addrs
      refine ⟨?_, ?_, ?_, ?_⟩
      · rw [hinode, ← ht]
        have hsize : FileAt im₁ owner' other
            { d' with size := UInt32.ofNat (content other ++ p).length } m' (content other ++ p) :=
          ⟨hf.room, hf.max, hf.data, hf.direct, hf.ind, hf.noind, hf.bytes, hf.addrs⟩
        exact hsize.above (fun a ha => setInode_disk hroom ha) rfl
      · rw [hinode]
        have hmax := Nat.le_trans hf.room (Nat.mul_le_mul_right BSIZE hf.max)
        simp only [MAXFILE, NDIRECT, NINDIRECT, BSIZE] at hmax
        exact UInt32.toNat_ofNat_of_lt' (by simp only [UInt32.size]; omega)
      · rw [hinode]
        exact htype.trans hstored.type
      · rw [hinode]
        exact hnlink.trans hstored.nlink
    · rw [Function.update_of_ne heq]
      exact (hh.kept hg heq hpos' hlt').setInode_of_ne hroom heq

/-- iappend succeeds as long as the file is not too long and there are blocks left. -/
theorem Holds.iappend_succeeds (hh : Holds im owner content types) (hpos : 0 < inum)
    (hlt : inum < im.freeinode) (hmax : (content inum ++ p).length ≤ MAXFILE * BSIZE)
    (hfree : im.freeblock + newBlocks (blocksFor (content inum).length)
      (blocksFor (content inum ++ p).length) ≤ FSSIZE) :
    ∃ im', im.iappend inum p = .ok im' ∧
      im'.freeblock = im.freeblock + newBlocks (blocksFor (content inum).length)
        (blocksFor (content inum ++ p).length) := by
  have hroom := Nat.lt_of_lt_of_le hlt hh.inodes
  have hstored := hh.stored inum hpos hlt
  obtain ⟨⟨d', off', im₁⟩, hloop, hfb⟩ :=
    appendLoop_succeeds p.length hh.sound hstored.file rfl (Nat.le_refl _) hmax hfree
  obtain ⟨owner', m', hs, -⟩ :=
    appendLoop_ok p.length hh.sound hstored.file rfl (Nat.le_refl _) hloop
  refine ⟨setInode im₁ inum { d' with size := UInt32.ofNat off' }, ?_, hfb⟩
  rw [← hstored.size] at hloop
  rw [Image.iappend, hh.sound.rinode hroom]
  change (im.appendLoop p.length (readInode im.disk sb inum) _ p >>= _) = _
  rw [hloop]
  exact hs.winode hroom

end Xv6.Mkfs
