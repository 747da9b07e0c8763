/-
What mkfs writes the kernel reads back: readi on the inodes of the image.
-/
import Xv6.Lib.Transition
import Xv6.Mkfs.Files

namespace Xv6.Mkfs

open Bytes Fs Outcome Transition

variable {im : Image} {owner : Nat → Option Use} {inum m : Nat} {d : Dinode}
  {w : List UInt8} {content : Nat → List UInt8} {types : Nat → Int16}

/-- bmap finds the blocks of the file, without allocating any. -/
theorem FileAt.bmap (hf : FileAt im owner inum d m w) {bn : Nat} (hbn : bn < m) :
    Fs.bmap im.disk sb d bn = .ok (blockOf im.disk d bn, d, im.disk) := by
  have hne := hf.addr_ne_zero bn hbn
  have hmax := hf.max
  unfold Fs.bmap blockOf at *
  by_cases hd : bn < NDIRECT
  · simp only [if_pos hd] at hne ⊢
    rw [if_neg]
    intro hzero
    rw [hzero] at hne
    exact hne rfl
  · have hind : d.addrs NDIRECT ≠ 0 := by
      intro hzero
      have howned := (hf.ind (by omega)).1.ne_zero
      rw [hzero] at howned
      exact howned rfl
    have hlt : bn - NDIRECT < NINDIRECT := by
      simp only [MAXFILE] at hmax
      omega
    simp only [if_neg hd] at hne ⊢
    rw [if_pos hlt, if_neg hind, if_neg hind, if_neg hne]

/-- The bytes of one block of the file. -/
theorem FileAt.chunk (hf : FileAt im owner inum d m w) {off k : Nat} (hk : off + k ≤ w.length)
    (hblock : off % BSIZE + k ≤ BSIZE) :
    ((List.range k).map fun i => im.disk (blockOf im.disk d (off / BSIZE)) (off % BSIZE + i)) =
      (w.drop off).take k := by
  apply List.ext_getElem?
  intro i
  by_cases hi : i < k
  · have hlt : off + i < w.length := by omega
    have hbyte := hf.bytes (off + i) _ (List.getElem?_eq_getElem hlt)
    have hdiv : (off + i) / BSIZE = off / BSIZE := by
      simp only [BSIZE] at hblock ⊢
      omega
    have hmod : (off + i) % BSIZE = off % BSIZE + i := by
      simp only [BSIZE] at hblock ⊢
      omega
    rw [hdiv, hmod] at hbyte
    rw [List.getElem?_take_of_lt hi, List.getElem?_drop, List.getElem?_map,
      List.getElem?_range hi, List.getElem?_eq_getElem hlt, Option.map_some, hbyte]
  · rw [List.getElem?_eq_none (by simpa using Nat.le_of_not_lt hi),
      List.getElem?_eq_none (by simp only [List.length_take]; omega)]

/-- The loop of readi copies the rest. -/
theorem FileAt.readLoop (hf : FileAt im owner inum d m w) (fuel : Nat) :
    ∀ (off n : Nat) (done : List UInt8), n ≤ fuel → off + n ≤ w.length →
      Fs.readLoop sb (fun _ => true) fuel im.disk d off n done =
        .ok ⟨(done.length + n : Nat), done ++ (w.drop off).take n, d, im.disk⟩ := by
  induction fuel with
  | zero =>
      intro off n done hn _
      obtain rfl := Nat.le_zero.mp hn
      rw [Fs.readLoop, List.take_zero, List.append_nil, Nat.add_zero]
  | succ fuel ih =>
      intro off n done hn hlen
      rw [Fs.readLoop]
      by_cases hzero : n = 0
      · subst hzero
        rw [if_pos rfl, List.take_zero, List.append_nil, Nat.add_zero]
      · rw [if_neg hzero]
        have hroom := hf.room
        have hbn : off / BSIZE < m := by
          apply Nat.div_lt_of_lt_mul
          rw [Nat.mul_comm]
          omega
        rw [hf.bmap hbn]
        change (if blockOf im.disk d (off / BSIZE) = 0 then _ else _) = _
        rw [if_neg (hf.addr_ne_zero _ hbn)]
        obtain ⟨k, hk⟩ : ∃ k, min n (BSIZE - off % BSIZE) = k := ⟨_, rfl⟩
        have hmod := Nat.mod_lt off (show 0 < BSIZE by decide)
        simp only [hk, if_true]
        rw [hf.chunk (by omega) (by omega), ih _ _ _ (by omega) (by omega)]
        have htake : (w.drop off).take n =
            (w.drop off).take k ++ (w.drop (off + k)).take (n - k) := by
          have hsum : n = k + (n - k) := by omega
          conv => lhs; rw [hsum, List.take_add, List.drop_drop]
        have hcount : (done ++ (w.drop off).take k).length + (n - k) = done.length + n := by
          rw [List.length_append, List.length_take, List.length_drop]
          omega
        rw [hcount, htake, List.append_assoc]

/-- The kernel reads the superblock that mkfs wrote. -/
theorem Holds.getSuperblock (hh : Holds im owner content types) :
    Fs.getSuperblock (im.disk 1) = sb := by
  rw [hh.super]
  exact getSuperblock_putSuperblock _ sb (by decide)

/-- What readi copies, in terms of the file alone. -/
def readBytes (w : List UInt8) (off n : UInt32) : List UInt8 :=
  if off.toNat + n.toNat < 2 ^ 32 then (w.drop off.toNat).take n.toNat else []

theorem Stored.readi {type : Int16} (hst : Stored im owner inum type w) (off n : UInt32) :
    Fs.readi im.disk sb (readInode im.disk sb inum) (fun _ => true) off n =
      .ok ⟨(readBytes w off n).length, readBytes w off n, readInode im.disk sb inum,
        im.disk⟩ := by
  have hsize := hst.size
  have hoff := off.toNat_lt
  have hn := n.toNat_lt
  have hadd : (off + n).toNat = (off.toNat + n.toNat) % 2 ^ 32 := UInt32.toNat_add ..
  unfold Fs.readi readBytes
  simp only [gt_iff_lt, UInt32.lt_iff_toNat_lt, hsize, hadd]
  by_cases hover : off.toNat + n.toNat < 2 ^ 32
  · rw [if_pos hover, Nat.mod_eq_of_lt hover]
    by_cases hend : w.length < off.toNat
    · rw [if_pos (.inl hend), List.drop_eq_nil_of_le (by omega), List.take_nil]
      rfl
    · rw [if_neg (by omega)]
      by_cases hclip : w.length < off.toNat + n.toNat
      · have hsub : ((readInode im.disk sb inum).size - off).toNat = w.length - off.toNat := by
          rw [UInt32.toNat_sub_of_le _ _ (UInt32.le_iff_toNat_le.mpr (by omega)), hsize]
        rw [if_pos hclip, hsub, hst.file.readLoop _ _ _ _ (Nat.le_refl _) (by omega)]
        have htake : (w.drop off.toNat).take (w.length - off.toNat) =
            (w.drop off.toNat).take n.toNat := by
          rw [List.take_of_length_le (by rw [List.length_drop]),
            List.take_of_length_le (by rw [List.length_drop]; omega)]
        rw [← htake]
        simp only [List.length_nil, Nat.zero_add, List.nil_append, List.length_take,
          List.length_drop, Nat.min_self]
      · rw [if_neg hclip, hst.file.readLoop _ _ _ _ (Nat.le_refl _) (by omega)]
        have hlen : ((w.drop off.toNat).take n.toNat).length = n.toNat := by
          rw [List.length_take, List.length_drop]
          omega
        rw [hlen]
        simp only [List.length_nil, Nat.zero_add, List.nil_append]
  · rw [if_neg hover, if_pos]
    · rfl
    · right
      omega

/-- The calls that make files. -/
inductive Op
  | ialloc (type : Int16)
  | iappend (inum : Nat) (p : List UInt8)

/-- The image, and the bytes that were given to iappend for each of the inodes. -/
structure Written where
  image : Image
  content : Nat → List UInt8

def Written.init : Written := ⟨empty, fun _ => []⟩

/-- A call; mkfs may die in it. -/
def Written.step (s : Written) : Op → Option (Except String Written)
  | .ialloc type => some do
      let (inum, im) ← s.image.ialloc type
      .ok ⟨im, Function.update s.content inum []⟩
  | .iappend inum p => some do
      let im ← s.image.iappend inum p
      .ok ⟨im, Function.update s.content inum (s.content inum ++ p)⟩

/-- ialloc has an inode left, and iappend gets an inode that it returned. -/
def Written.Allowed (s : Written) : Op → Prop
  | .ialloc _ => s.image.freeinode < inodes
  | .iappend inum _ => 0 < inum ∧ inum < s.image.freeinode

def Written.Run (s : Written) : Prop :=
  Reach (· = Written.init) (fun s op => s.Allowed op) (fun s op => s.step op) s

theorem step_iappend {s s' : Written} {p : List UInt8}
    (h : s.step (.iappend inum p) = some (.ok s')) : ∃ im', s.image.iappend inum p = .ok im' ∧
      s' = ⟨im', Function.update s.content inum (s.content inum ++ p)⟩ := by
  obtain ⟨im', hi, h⟩ := ok_of_bind (Option.some.inj h)
  exact ⟨im', hi, (Except.ok.inj h).symm⟩

theorem step_holds {s s' : Written} {op : Op} (hh : Holds s.image owner s.content types)
    (hop : s.Allowed op) (h : s.step op = some (.ok s')) :
    ∃ owner' types', Holds s'.image owner' s'.content types' := by
  cases op with
  | ialloc type =>
      obtain ⟨im', hi, -, -, hh'⟩ := hh.ialloc type hop
      simp only [Written.step, hi] at h
      cases h
      exact ⟨_, _, hh'⟩
  | iappend inum p =>
      obtain ⟨im', hi, rfl⟩ := step_iappend h
      obtain ⟨-, owner', hh'⟩ := hh.iappend hop.1 hop.2 hi
      exact ⟨owner', types, hh'⟩

theorem run_holds {s : Written} (h : s.Run) :
    ∃ owner types, Holds s.image owner s.content types := by
  induction h with
  | start h => exact h ▸ ⟨_, _, holds_empty⟩
  | next _ hop hstep ih =>
      obtain ⟨owner, types, hh⟩ := ih
      exact step_holds hh hop hstep

/-- What the kernel reads from an inode of the image. -/
def Written.read (s : Written) (inum : Nat) (off n : UInt32) : Except String (Int × List UInt8) :=
  let sb := getSuperblock (s.image.disk 1)
  (readi s.image.disk sb (readInode s.image.disk sb inum) (fun _ => true) off n).map
    fun r => (r.tot, r.bytes)

theorem read_eq {s : Written} (hh : Holds s.image owner s.content types) (hpos : 0 < inum)
    (hlt : inum < s.image.freeinode) (off n : UInt32) :
    s.read inum off n = .ok ((readBytes (s.content inum) off n).length,
      readBytes (s.content inum) off n) := by
  unfold Written.read
  simp only [hh.getSuperblock, (hh.stored inum hpos hlt).readi]
  rfl

/-- What mkfs writes the kernel reads back, at any offset and for any length that does not
overflow.  iappend succeeds as long as there are blocks left for the file, and what is read from
the other inodes stays the same. -/
theorem readi_reads_back {s : Written} (h : s.Run) (hpos : 0 < inum)
    (hlt : inum < s.image.freeinode) :
    (∀ off n : UInt32, off.toNat + n.toNat < 2 ^ 32 → s.read inum off n =
      .ok ((((s.content inum).drop off.toNat).take n.toNat).length,
        ((s.content inum).drop off.toNat).take n.toNat)) ∧
    (∀ p, (s.content inum ++ p).length ≤ MAXFILE * BSIZE →
      s.image.freeblock + newBlocks (blocksFor (s.content inum).length)
        (blocksFor (s.content inum ++ p).length) ≤ FSSIZE →
      ∃ s', s.step (.iappend inum p) = some (.ok s')) ∧
    (∀ p s', s.step (.iappend inum p) = some (.ok s') → s'.content inum = s.content inum ++ p ∧
      ∀ other, other ≠ inum → 0 < other → other < s.image.freeinode →
        ∀ off n, s'.read other off n = s.read other off n) := by
  obtain ⟨owner, types, hh⟩ := run_holds h
  refine ⟨fun off n hover => ?_, fun p hmax hfree => ?_, fun p s' hstep => ?_⟩
  · rw [read_eq hh hpos hlt, readBytes, if_pos hover]
  · obtain ⟨im', hi, -⟩ := hh.iappend_succeeds hpos hlt hmax hfree
    refine ⟨⟨im', Function.update s.content inum (s.content inum ++ p)⟩, ?_⟩
    simp only [Written.step, hi]
    rfl
  · obtain ⟨im', hi, rfl⟩ := step_iappend hstep
    obtain ⟨hfree, owner', hh'⟩ := hh.iappend hpos hlt hi
    refine ⟨Function.update_self .., fun other hne hpos' hlt' off n => ?_⟩
    have hread := read_eq (s := ⟨im', Function.update s.content inum (s.content inum ++ p)⟩) hh'
      hpos' (hfree.symm ▸ hlt') off n
    rw [hread, read_eq hh hpos' hlt']
    simp only [Function.update_of_ne hne]

namespace ReadWitness

def ops : List Op := [.ialloc T_DIR, .ialloc T_FILE, .iappend 2 [7, 8, 9]]

def allowed (s : Written) : Op → Bool
  | .ialloc _ => decide (s.image.freeinode < inodes)
  | .iappend inum _ => decide (0 < inum ∧ inum < s.image.freeinode)

def final : Option Written := runAll allowed Written.step Written.init ops

theorem final_isSome : final.isSome := by rfl

theorem final_run : (final.get final_isSome).Run := by
  refine Reach.runAll (fun s op h => ?_) (.start rfl) (Option.some_get final_isSome).symm
  cases op with
  | ialloc _ => exact of_decide_eq_true (p := s.image.freeinode < inodes) h
  | iappend inum _ => exact of_decide_eq_true (p := 0 < inum ∧ inum < s.image.freeinode) h

theorem readi_reads_back_tail : (final.get final_isSome).read 2 1 5 = .ok (2, [8, 9]) := by
  have hcontent : (final.get final_isSome).content 2 = [7, 8, 9] := by decide +kernel
  have hread := (readi_reads_back final_run (show 0 < 2 by decide) (by decide +kernel)).1 1 5
    (by decide)
  rw [hread, hcontent]
  rfl

/-- More inodes than there is room for: the one after the last goes over a file. -/
def many : List Op :=
  [.ialloc T_DIR, .iappend 1 [1]] ++ List.replicate 223 (.ialloc T_FILE)

def overrun : Option Written := runAll (fun _ _ => true) Written.step Written.init many

theorem overrun_isSome : overrun.isSome := by rfl

/-- An offset and a length whose sum overflows read nothing, and so many inodes that they do
not fit go over the first file. -/
theorem readi_wraps_and_overruns :
    ((final.get final_isSome).content 2 = [7, 8, 9] ∧
      (final.get final_isSome).read 2 1 4294967295 = .ok (0, [])) ∧
    ((overrun.get overrun_isSome).content 1 = [1] ∧
      (overrun.get overrun_isSome).read 1 0 1 = .ok (1, [2])) := by
  decide +kernel

end ReadWitness

end Xv6.Mkfs
