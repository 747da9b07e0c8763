/-
The image that mkfs leaves is consistent, unless there are too many files or the root directory
just fills its blocks.
-/
import Mathlib.Data.List.Basic
import Xv6.Mkfs.Main

namespace Xv6.Mkfs

open Bytes Fs Outcome

variable {im im' : Image} {owner owner' : Nat → Option Use} {inum m n : Nat} {d : Dinode}
  {w : List UInt8} {content : Nat → List UInt8} {types : Nat → Int16} {f : Input}
  {files : List Input}

/-- What the blocks of the image are used for. -/
def Refers (im : Image) (a : Nat) : Use → Prop
  | .data inum bn => 0 < inum ∧ inum < im.freeinode ∧ bn < MAXFILE ∧
      (bn < NDIRECT ∨ (readInode im.disk sb inum).addrs NDIRECT ≠ 0) ∧
      blockOf im.disk (readInode im.disk sb inum) bn = a ∧ a ≠ 0
  | .indirect inum => 0 < inum ∧ inum < im.freeinode ∧
      ((readInode im.disk sb inum).addrs NDIRECT).toNat = a ∧ a ≠ 0

/-- Byte `k` of the file `inum`. -/
def byteAt (im : Image) (inum k : Nat) : UInt8 :=
  im.disk (blockOf im.disk (readInode im.disk sb inum) (k / BSIZE)) (k % BSIZE)

/-- A consistent image of `files`; ialloc gives out the inodes in order, the first one to the
root directory. -/
structure Consistent (files : List Input) (im : Image) : Prop where
  numbers : ∀ inum, inum < im.freeinode → inum < sb.ninodes
  inodes : ∀ i f, files[i]? = some f → i + 2 < im.freeinode ∧
    (readInode im.disk sb (i + 2)).type = T_FILE ∧ (readInode im.disk sb (i + 2)).nlink = 1 ∧
    (readInode im.disk sb (i + 2)).size.toNat = f.bytes.length
  root : (readInode im.disk sb ROOTINO).type = T_DIR ∧ (readInode im.disk sb ROOTINO).nlink = 1
  blocks : ∀ inum, 0 < inum → inum < im.freeinode → ∀ bn,
    bn * BSIZE < (readInode im.disk sb inum).size.toNat →
      blockOf im.disk (readInode im.disk sb inum) bn ≠ 0
  distinct : ∀ a u v, Refers im a u → Refers im a v → u = v
  range : ∀ a u, Refers im a u → nmeta ≤ a ∧ a < FSSIZE
  bitmap : ∀ b, b < sb.size → (bitSet im.disk sb b = true ↔ b < im.freeblock)
  entries : ((entries files).flatMap Dirent.bytes).length ≤
      (readInode im.disk sb ROOTINO).size.toNat ∧
    ∀ k v, ((entries files).flatMap Dirent.bytes)[k]? = some v → byteAt im ROOTINO k = v

section bits

theorem bitmap_byte : ∀ k : Fin 9, ∀ t : Fin 8,
    decide ((((List.range 8).foldl (fun x i => if i < k.val then x ||| (1 <<< i.toUInt8) else x)
      (0 : UInt8)) &&& (1 <<< t.val.toUInt8)) ≠ 0) = decide (t.val < k.val) := by
  decide +kernel

theorem bitmap_eq (used j : Nat) : bitmap used j =
    (List.range 8).foldl (fun x i => if i < min 8 (used - 8 * j) then x ||| (1 <<< i.toUInt8)
      else x) 0 := by
  unfold bitmap
  apply List.foldl_ext
  intro x i hi
  have hlt := List.mem_range.mp hi
  have hiff : 8 * j + i < used ↔ i < min 8 (used - 8 * j) := by omega
  simp only [hiff]

theorem bitmap_bit (used b : Nat) :
    ((bitmap used (b / 8) &&& (1 <<< (b % 8).toUInt8)) ≠ 0) ↔ b < used := by
  have hbit := bitmap_byte ⟨min 8 (used - 8 * (b / 8)), by omega⟩ ⟨b % 8, by omega⟩
  rw [decide_eq_decide] at hbit
  rw [bitmap_eq, hbit]
  simp only
  omega

end bits

/-- The image that main leaves, with the files in it. -/
structure Final (im : Image) (owner : Nat → Option Use) (content : Nat → List UInt8) : Prop where
  sound : Sound im owner
  first : 0 < im.freeinode
  file : ∀ inum, 0 < inum → inum < im.freeinode →
    FileAt im owner inum (readInode im.disk sb inum) (blocksFor (content inum).length)
      (content inum)

section final

variable (hf : Final im owner content)
include hf

/-- A block that is referred to is taken for just that. -/
theorem Final.refers {a : Nat} {u : Use} (h : Refers im a u) : Owned im owner a u := by
  cases u with
  | data inum bn =>
      obtain ⟨hpos, hlt, hmax, hcase, rfl, hne⟩ := h
      have hfile := hf.file inum hpos hlt
      apply hfile.data
      by_contra hge
      rcases Nat.lt_or_ge bn NDIRECT with hd | hd
      · rw [blockOf, if_pos hd, hfile.direct bn (by omega) hd] at hne
        exact hne rfl
      · have hind := hcase.resolve_left (by omega)
        have hm : NDIRECT < blocksFor (content inum).length := by
          by_contra hle
          exact hind (hfile.noind (by omega))
        exact hne ((hfile.ind hm).2 bn (by omega) hmax)
  | indirect inum =>
      obtain ⟨hpos, hlt, rfl, hne⟩ := h
      have hfile := hf.file inum hpos hlt
      apply (hfile.ind ?_).1
      by_contra hle
      rw [hfile.noind (by omega)] at hne
      exact hne rfl

theorem Final.block_ne_zero (hpos : 0 < inum) (hlt : inum < im.freeinode) {bn : Nat}
    (hbn : bn < blocksFor (content inum).length) :
    blockOf im.disk (readInode im.disk sb inum) bn ≠ 0 :=
  (hf.file inum hpos hlt).addr_ne_zero bn hbn

end final

theorem bmapstart_bounds : sb.bmapstart < nmeta := by decide

theorem readInode_bitmap {buf : Arr} (h : inum < inodes) :
    readInode (im.wsect sb.bmapstart buf).disk sb inum = readInode im.disk sb inum := by
  have hne : IBLOCK inum sb ≠ sb.bmapstart := by
    simp only [inodes, ninodeblocks, NINODES, IPB, BSIZE, DINODE] at h
    simp only [IBLOCK, IPB, BSIZE, DINODE, sb, nlog, LOGSIZE, ninodeblocks, NINODES]
    omega
  simp only [readInode, Image.wsect, Function.update_of_ne hne]

/-- The image after the loop and after the last two writes of main. -/
theorem Built.final {root : List UInt8} (hb : Built im root files)
    (him : im' = (setInode im 1 (rounded (readInode im.disk sb 1))).wsect sb.bmapstart
      (Mkfs.bitmap im.freeblock)) :
    ∃ owner content, Final im' owner content ∧ content 1 = root ∧
      (readInode im'.disk sb 1).type = T_DIR ∧ (readInode im'.disk sb 1).nlink = 1 ∧
      (readInode im'.disk sb 1).size.toNat = (root.length / BSIZE + 1) * BSIZE ∧
      ∀ i f, files[i]? = some f → content (i + 2) = f.bytes ∧
        (readInode im'.disk sb (i + 2)).type = T_FILE ∧
        (readInode im'.disk sb (i + 2)).nlink = 1 ∧
        (readInode im'.disk sb (i + 2)).size.toNat = f.bytes.length := by
  obtain ⟨hfree, owner, content, types, hh, hroot, htype, hfiles⟩ := hb
  have hone : 1 < inodes := by decide
  have hroom := hh.inodes
  have hst := hh.stored 1 Nat.one_pos (by omega)
  have hdisk : ∀ a, nmeta ≤ a → im'.disk a = im.disk a := by
    intro a ha
    have hlow := bmapstart_bounds
    have hne : a ≠ sb.bmapstart := by omega
    rw [him]
    simp only [Image.wsect, Function.update_of_ne hne]
    exact setInode_disk hone ha
  have hinode : readInode im'.disk sb 1 = rounded (readInode im.disk sb 1) := by
    rw [him, readInode_bitmap hone]
    exact readInode_setInode_self im 1 hst.file.addrs
  have hinodes : ∀ inum, inum ≠ 1 → inum < im.freeinode →
      readInode im'.disk sb inum = readInode im.disk sb inum := by
    intro inum hne hlt
    rw [him, readInode_bitmap (by omega)]
    exact readInode_setInode_of_ne im _ hne
  have hfb : im'.freeblock = im.freeblock := by
    rw [him]
    rfl
  have hfi : im'.freeinode = im.freeinode := by
    rw [him]
    rfl
  refine ⟨owner, content, ⟨?_, by omega, fun inum hpos hlt => ?_⟩, hroot, ?_, ?_, ?_, ?_⟩
  · have hs := hh.sound.setInode (d := rounded (readInode im.disk sb 1)) hone
    have hlow := bmapstart_bounds
    have htop := hh.sound.top
    have hlow' := hh.sound.low
    refine ⟨?_, hfb ▸ hh.sound.low, hfb ▸ hh.sound.top, fun a u hu => hfb ▸ hh.sound.owns a u hu,
      fun a ha => ?_⟩
    · have hsect := hs.nsect
      rw [him]
      simp only [Image.wsect]
      omega
    · rw [hfb] at ha
      rw [hdisk a (by omega)]
      exact hh.sound.zero a ha
  · rw [hfi] at hlt
    have hfile := (hh.stored inum hpos hlt).file.above hdisk hfb
    by_cases heq : inum = 1
    · subst heq
      rw [hinode]
      exact ⟨hfile.room, hfile.max, hfile.data, hfile.direct, hfile.ind, hfile.noind, hfile.bytes,
        hfile.addrs⟩
    · rw [hinodes inum heq hlt]
      exact hfile
  · rw [hinode]
    exact hst.type.trans htype
  · rw [hinode]
    exact hst.nlink
  · rw [hinode, ← hroot]
    have hmax := Nat.le_trans hst.file.room (Nat.mul_le_mul_right BSIZE hst.file.max)
    change (UInt32.ofNat _).toNat = _
    rw [hst.size]
    simp only [MAXFILE, NDIRECT, NINDIRECT, BSIZE] at hmax ⊢
    exact UInt32.toNat_ofNat_of_lt' (by simp only [UInt32.size]; omega)
  · intro i f hf
    obtain ⟨hbytes, htype'⟩ := hfiles i f hf
    have hlt := (List.getElem?_eq_some_iff.mp hf).1
    have hst' := hh.stored (i + 2) (by omega) (by omega)
    rw [hinodes (i + 2) (by omega) (by omega)]
    exact ⟨hbytes, hst'.type.trans htype', hst'.nlink, hst'.size.trans (by rw [hbytes])⟩

theorem blocksFor_of_lt {bn k : Nat} (h : bn * BSIZE < k) : bn < blocksFor k := by
  simp only [blocksFor, BSIZE] at h ⊢
  omega

section success

theorem blocksFor_mono {j k : Nat} (h : j ≤ k) : blocksFor j ≤ blocksFor k :=
  Nat.div_le_div_right (Nat.add_le_add_right h _)

theorem chunks_succeed (l : List (List UInt8)) : ∀ {im : Image} {owner : Nat → Option Use}
    {content : Nat → List UInt8}, Holds im owner content types → 0 < inum →
    inum < im.freeinode → (content inum ++ l.flatten).length ≤ MAXFILE * BSIZE →
    im.freeblock + newBlocks (blocksFor (content inum).length)
      (blocksFor (content inum ++ l.flatten).length) ≤ FSSIZE →
    ∃ im', l.foldlM (fun im buf => im.iappend inum buf) im = .ok im' ∧
      im'.freeblock = im.freeblock + newBlocks (blocksFor (content inum).length)
        (blocksFor (content inum ++ l.flatten).length) := by
  induction l with
  | nil =>
      intro im owner content _ _ _ _ _
      rw [List.flatten_nil, List.append_nil, newBlocks_self]
      exact ⟨im, rfl, rfl⟩
  | cons p l ih =>
      intro im owner content hh hpos hlt hmax hfree
      have happend : content inum ++ (p :: l).flatten = (content inum ++ p) ++ l.flatten := by
        rw [List.flatten_cons, List.append_assoc]
      rw [happend] at hmax hfree ⊢
      have hle : (content inum ++ p).length ≤ ((content inum ++ p) ++ l.flatten).length := by
        simp only [List.length_append]
        omega
      have hfirst : (content inum).length ≤ (content inum ++ p).length := by
        rw [List.length_append]
        omega
      have hsum := newBlocks_add (blocksFor_mono hfirst) (blocksFor_mono hle)
      obtain ⟨im₁, happ, hfb⟩ := hh.iappend_succeeds hpos hlt (Nat.le_trans hle hmax) (by omega)
      obtain ⟨hfi, owner₁, hh₁⟩ := hh.iappend hpos hlt happ
      obtain ⟨im₂, hloop, hfb₂⟩ := ih hh₁ hpos (hfi.symm ▸ hlt)
        (by rwa [Function.update_self]) (by rw [Function.update_self]; omega)
      rw [Function.update_self] at hfb₂
      refine ⟨im₂, ?_, by omega⟩
      rw [List.foldlM_cons, happ]
      exact hloop

/-- A file that main can take. -/
structure Fits (f : Input) : Prop where
  name : f.shortname.length ≤ DIRSIZ
  slash : 47 ∉ f.stripped
  opened : f.reads ≠ none
  size : f.bytes.length ≤ MAXFILE * BSIZE

theorem addFile_succeeds {root : List UInt8} {done : List Input} (hb : Built im root done)
    (hroom : im.freeinode < inodes) (hfits : Fits f) (hmax : root.length + 16 ≤ MAXFILE * BSIZE)
    (hfree : im.freeblock + newBlocks (blocksFor root.length) (blocksFor (root.length + 16)) +
      newBlocks 0 (blocksFor f.bytes.length) ≤ FSSIZE) :
    ∃ im', addFile 1 im f = .ok im' ∧ im'.freeblock = im.freeblock +
      newBlocks (blocksFor root.length) (blocksFor (root.length + 16)) +
      newBlocks 0 (blocksFor f.bytes.length) := by
  obtain ⟨hfi, owner, content, types, hh, rfl, -, -⟩ := hb
  obtain ⟨im₁, hi, hfi₁, hfb₁, hh₁⟩ := hh.ialloc T_FILE hroom
  have hne : 1 ≠ im.freeinode := by omega
  have hlen : (content 1 ++ Dirent.bytes ⟨UInt16.ofNat im.freeinode, f.shortname⟩).length =
      (content 1).length + 16 := by
    rw [List.length_append, Dirent.bytes_length hfits.name]
  obtain ⟨im₂, happ, hfb₂⟩ := hh₁.iappend_succeeds Nat.one_pos (by omega)
    (p := Dirent.bytes ⟨UInt16.ofNat im.freeinode, f.shortname⟩)
    (by rwa [Function.update_of_ne hne, hlen])
    (by rw [Function.update_of_ne hne, hlen]; omega)
  obtain ⟨hfi₂, owner₂, hh₂⟩ := hh₁.iappend Nat.one_pos (by omega) happ
  rw [Function.update_of_ne hne, hlen] at hfb₂
  have hempty : Function.update (Function.update content im.freeinode []) 1
      (Function.update content im.freeinode [] 1 ++
        Dirent.bytes ⟨UInt16.ofNat im.freeinode, f.shortname⟩) im.freeinode = [] := by
    rw [Function.update_of_ne (Ne.symm hne), Function.update_self]
  obtain ⟨im₃, hloop, hfb₃⟩ := chunks_succeed f.chunks hh₂ (by omega : 0 < im.freeinode)
    (by omega) (by rw [hempty]; exact hfits.size) (by
      rw [hempty]
      change _ + newBlocks 0 (blocksFor f.bytes.length) ≤ _
      omega)
  rw [hempty] at hfb₃
  change _ = _ + newBlocks 0 (blocksFor f.bytes.length) at hfb₃
  refine ⟨im₃, ?_, by omega⟩
  rw [addFile, if_neg hfits.slash, if_neg hfits.opened, if_pos hfits.name, hi]
  change (im₁.iappend 1 _ >>= _) = _
  rw [happ]
  exact hloop

theorem files_succeed (files : List Input) : ∀ {im : Image} {root : List UInt8}
    {done : List Input}, Built im root done → (done ++ files).length + 2 ≤ inodes →
    (∀ f ∈ files, Fits f) → root.length + 16 * files.length ≤ MAXFILE * BSIZE →
    im.freeblock + newBlocks (blocksFor root.length) (blocksFor (root.length + 16 * files.length)) +
      (files.map fun f => newBlocks 0 (blocksFor f.bytes.length)).sum ≤ FSSIZE →
    ∃ im', files.foldlM (addFile 1) im = .ok im' := by
  induction files with
  | nil => exact fun _ _ _ _ _ => ⟨_, rfl⟩
  | cons f files ih =>
      intro im root done hb hlen hfits hmax hfree
      rw [List.length_append, List.length_cons] at hlen
      rw [List.map_cons, List.sum_cons, List.length_cons] at hfree
      rw [List.length_cons] at hmax
      have hfi := hb.freeinode
      have hname := (hfits f (.head _)).name
      have hmid : blocksFor (root.length + 16) ≤
          blocksFor (root.length + 16 * (files.length + 1)) := blocksFor_mono (by omega)
      have hsum := newBlocks_add (blocksFor_mono (Nat.le_add_right root.length 16)) hmid
      obtain ⟨im₁, hadd, hfb⟩ := addFile_succeeds hb (by omega) (hfits f (.head _)) (by omega)
        (by omega)
      have hb₁ := addFile_ok hb (by omega) hadd
      have hroot : (root ++ Dirent.bytes ⟨UInt16.ofNat (done.length + 2), f.shortname⟩).length =
          root.length + 16 := by
        rw [List.length_append, Dirent.bytes_length hname]
      have hrest : root.length + 16 + 16 * files.length =
          root.length + 16 * (files.length + 1) := by
        omega
      obtain ⟨im₂, hloop⟩ := ih hb₁
        (by simp only [List.length_append, List.length_singleton]; omega)
        (fun g hg => hfits g (.tail _ hg)) (by omega) (by rw [hroot, hrest]; omega)
      refine ⟨im₂, ?_⟩
      rw [List.foldlM_cons, hadd]
      exact hloop

theorem Built.iappend_succeeds {root p : List UInt8} (hb : Built im root [])
    (hmax : (root ++ p).length ≤ MAXFILE * BSIZE)
    (hfree : im.freeblock + newBlocks (blocksFor root.length) (blocksFor (root ++ p).length) ≤
      FSSIZE) : ∃ im', im.iappend 1 p = .ok im' ∧ im'.freeblock =
        im.freeblock + newBlocks (blocksFor root.length) (blocksFor (root ++ p).length) := by
  obtain ⟨hfi, owner, content, types, hh, rfl, -, -⟩ := hb
  rw [List.length_nil] at hfi
  exact hh.iappend_succeeds Nat.one_pos (by omega) hmax hfree

/-- main comes to its end if the files fit, with the blocks of the root directory. -/
theorem main_succeeds (hlen : files.length + 2 ≤ inodes) (hfits : ∀ f ∈ files, Fits f)
    (hfree : nmeta + newBlocks 0 (blocksFor (16 * (files.length + 2))) +
      (files.map fun f => newBlocks 0 (blocksFor f.bytes.length)).sum ≤ FSSIZE) :
    ∃ im, main files = .ok im := by
  have hroom : files.length + 2 ≤ 208 := hlen
  obtain ⟨im₀, hi, -, hfb₀, -⟩ := holds_empty.ialloc T_DIR (by decide)
  obtain ⟨-, hb₀⟩ := built_root hi
  change im₀.freeblock = nmeta at hfb₀
  have hsplit := newBlocks_add (m := 0) (Nat.zero_le (blocksFor 32))
    (blocksFor_mono (show 32 ≤ 16 * (files.length + 2) by omega))
  have hfirst : newBlocks 0 (blocksFor 32) = 1 := by decide
  obtain ⟨im₁, happ₁, hfb₁⟩ := hb₀.iappend_succeeds (p := Dirent.bytes ⟨1, [46]⟩) (by decide)
    (by rw [hfb₀]; decide)
  have hb₁ := hb₀.iappend happ₁
  obtain ⟨im₂, happ₂, hfb₂⟩ := hb₁.iappend_succeeds (p := Dirent.bytes ⟨1, [46, 46]⟩) (by decide)
    (by rw [hfb₁, hfb₀]; decide)
  have hb₂ := hb₁.iappend happ₂
  have hused : im₂.freeblock = nmeta + 1 := by
    rw [hfb₂, hfb₁, hfb₀]
    rfl
  have hstart : ([] ++ Dirent.bytes ⟨1, [46]⟩ ++ Dirent.bytes ⟨1, [46, 46]⟩).length = 32 := rfl
  have hall : 32 + 16 * files.length = 16 * (files.length + 2) := by omega
  obtain ⟨im₃, hloop⟩ := files_succeed files hb₂ (by rwa [List.nil_append]) hfits
    (by
      rw [hstart]
      simp only [MAXFILE, NDIRECT, NINDIRECT, BSIZE]
      omega)
    (by
      rw [hstart, hall]
      omega)
  obtain ⟨owner, content, types, hh, -⟩ := (files_ok files hb₂ (by rwa [List.nil_append])
    hloop).holds
  have htop := hh.sound.top
  have hone : 1 < inodes := by decide
  refine ⟨(setInode im₃ 1 (rounded (readInode im₃.disk sb 1))).wsect sb.bmapstart
    (Mkfs.bitmap im₃.freeblock), ?_⟩
  unfold main
  rw [hi]
  change (im₀.iappend 1 (Dirent.bytes ⟨1, [46]⟩) >>= _) = _
  rw [happ₁]
  change (im₁.iappend 1 (Dirent.bytes ⟨1, [46, 46]⟩) >>= _) = _
  rw [happ₂]
  change (files.foldlM (addFile 1) im₂ >>= _) = _
  rw [hloop]
  change (im₃.rinode 1 >>= _) = _
  rw [hh.sound.rinode hone]
  change (im₃.winode 1 (rounded (readInode im₃.disk sb 1)) >>= _) = _
  rw [hh.sound.winode hone]
  exact if_pos (Nat.lt_of_le_of_lt htop (by decide))

end success

/-- A root directory that just fills its blocks gets a size of one block more. -/
theorem root_past_end (h : main files = .ok im) (hnum : files.length + 2 ≤ NINODES)
    (hmod : (files.length + 2) % 64 = 0) :
    blockOf im.disk (readInode im.disk sb ROOTINO) ((files.length + 2) / 64) = 0 ∧
      (files.length + 2) / 64 * BSIZE < (readInode im.disk sb ROOTINO).size.toNat := by
  obtain ⟨im₀, hb, him⟩ := main_built h (Nat.le_trans hnum (by decide))
  obtain ⟨owner, content, hf, hroot, -, -, hsize, -⟩ := hb.final him
  have hfree := main_freeinode h
  have hlen := entries_length (main_names h)
  have hfile := hf.file 1 Nat.one_pos (by omega)
  simp only [NINODES] at hnum
  have hm : blocksFor (content 1).length = (files.length + 2) / 64 := by
    rw [hroot, hlen]
    simp only [blocksFor, BSIZE]
    omega
  have hd : (files.length + 2) / 64 < NDIRECT := by
    simp only [NDIRECT]
    omega
  constructor
  · change blockOf im.disk (readInode im.disk sb 1) _ = 0
    rw [blockOf, if_pos hd, hfile.direct _ (by omega) hd]
    rfl
  · change _ < (readInode im.disk sb 1).size.toNat
    rw [hsize, hlen]
    simp only [BSIZE]
    omega

/-- An image that main made is consistent just if its inodes are below the last one and the root
directory has room left in its last block. -/
theorem main_consistent_iff (h : main files = .ok im) : Consistent files im ↔
    files.length + 2 ≤ NINODES ∧ (files.length + 2) % 64 ≠ 0 := by
  have hfree := main_freeinode h
  constructor
  · intro hc
    have hnum : files.length + 2 ≤ NINODES := by
      have hlast := hc.numbers (files.length + 1) (by omega)
      exact hlast
    refine ⟨hnum, fun hmod => ?_⟩
    -- The block after the last one of the directory is below its size.
    obtain ⟨hzero, hbelow⟩ := root_past_end h hnum hmod
    exact hc.blocks 1 Nat.one_pos (by omega) _ hbelow hzero
  · rintro ⟨hnum, hmod⟩
    obtain ⟨im₀, hb, him⟩ := main_built h (Nat.le_trans hnum (by decide))
    obtain ⟨owner, content, hf, hroot, htype, hnlink, hsize, hfiles⟩ := hb.final him
    have hlen := entries_length (main_names h)
    refine ⟨fun inum hlt => ?_, fun i f hi => ?_, ⟨htype, hnlink⟩, fun inum hpos hlt bn hbn => ?_,
      fun a u v hu hv => (hf.refers hu).unique (hf.refers hv), fun a u hu => ?_, fun b hb' => ?_,
      ?_, fun k v hk => ?_⟩
    · exact Nat.lt_of_lt_of_le (hfree ▸ hlt) hnum
    · have hlt := (List.getElem?_eq_some_iff.mp hi).1
      exact ⟨by omega, (hfiles i f hi).2⟩
    · apply hf.block_ne_zero hpos hlt
      by_cases heq : inum = 1
      · subst heq
        rw [hsize, hlen] at hbn
        rw [hroot, hlen]
        simp only [blocksFor, BSIZE] at hbn ⊢
        omega
      · obtain ⟨i, rfl⟩ : ∃ i, inum = i + 2 := ⟨inum - 2, by omega⟩
        have hi : files[i]? = some (files.get ⟨i, by omega⟩) := List.getElem?_eq_getElem _
        obtain ⟨hbytes, -, -, hsize'⟩ := hfiles i _ hi
        rw [hsize', ← hbytes] at hbn
        exact blocksFor_of_lt hbn
    · have howned := hf.refers hu
      exact ⟨howned.low, Nat.lt_of_lt_of_le howned.taken hf.sound.top⟩
    · have hblock : BBLOCK b sb = sb.bmapstart := by
        simp only [sb, FSSIZE] at hb'
        simp only [BBLOCK, BPB, BSIZE]
        omega
      have hbit : b % BPB = b := by
        simp only [sb, FSSIZE] at hb'
        simp only [BPB, BSIZE]
        omega
      have hbyte : im.disk sb.bmapstart = Mkfs.bitmap im₀.freeblock := by
        rw [him]
        simp only [Image.wsect, Function.update_self]
      rw [bitSet, decide_eq_true_iff, hblock, hbit, hbyte, bitmap_bit, him]
      rfl
    · change _ ≤ (readInode im.disk sb 1).size.toNat
      rw [hsize]
      simp only [BSIZE]
      omega
    · rw [← hroot] at hk
      exact (hf.file 1 Nat.one_pos (by omega)).bytes k v hk

namespace MkfsWitness

/-- An empty file. -/
def plain (name : List UInt8) : Input := ⟨name, some []⟩

/-- A file of two blocks and one of two bytes. -/
def two : List Input := [⟨[97], some [List.replicate 1024 1, [2]]⟩, ⟨[98], some [[3, 4]]⟩]

theorem main_consistent_two : ∃ im, main two = .ok im ∧ Consistent two im := by
  have hfits : ∀ f ∈ two, Fits f := by
    intro f hf
    rcases List.mem_pair.mp hf with rfl | rfl
    · exact ⟨by decide, by decide, nofun, by decide +kernel⟩
    · exact ⟨by decide, by decide, nofun, by decide⟩
  obtain ⟨im, him⟩ := main_succeeds (by decide) hfits (by decide +kernel)
  exact ⟨im, him, (main_consistent_iff him).mpr (by decide)⟩

/-- As many files as leave no room in the one block of the root directory. -/
def full : List Input := (List.range 62).map fun i => plain [97, UInt8.ofNat (48 + i)]

theorem full_fits : ∀ f ∈ full, Fits f := by
  have hall : ∀ f ∈ full, f.shortname.length ≤ DIRSIZ ∧ 47 ∉ f.stripped ∧ f.reads ≠ none ∧
      f.bytes.length ≤ MAXFILE * BSIZE := by
    decide +kernel
  intro f hf
  obtain ⟨hname, hslash, hopened, hsize⟩ := hall f hf
  exact ⟨hname, hslash, hopened, hsize⟩

/-- The directory is two blocks long, and has one. -/
theorem main_full_inconsistent : (full.map Input.shortname).Nodup ∧
    (∀ f ∈ full, f.shortname.length ≤ DIRSIZ) ∧
    ∃ im, main full = .ok im ∧ ¬ Consistent full im := by
  obtain ⟨im, him⟩ := main_succeeds (by decide +kernel) full_fits (by decide +kernel)
  refine ⟨by decide +kernel, fun f hf => (full_fits f hf).name, im, him, fun hc => ?_⟩
  obtain ⟨hzero, hbelow⟩ := root_past_end him (by decide +kernel) (by decide +kernel)
  have hfree := main_freeinode him
  exact hc.blocks ROOTINO Nat.one_pos (by rw [hfree]; exact Nat.lt_add_left _ (by decide)) _ hbelow
    hzero

end MkfsWitness

end Xv6.Mkfs
