/-
main of mkfs/mkfs.c, and the image that it leaves.
-/
import Xv6.Mkfs.Files

namespace Xv6.Mkfs

open Bytes Fs Outcome

/-- A file on the command line: its argument, and what the calls of read return, in order, if
it can be opened. -/
structure Input where
  arg : List UInt8
  reads : Option (List (List UInt8))

namespace Input

/-- The argument without "user/". -/
def stripped (f : Input) : List UInt8 :=
  if f.arg.take 5 = [117, 115, 101, 114, 47] then f.arg.drop 5 else f.arg

/-- The name in the file system: without a leading '_'. -/
def shortname (f : Input) : List UInt8 :=
  if f.stripped.head? = some 95 then f.stripped.tail else f.stripped

/-- The buffers that the loop over read appends: it ends at the first one that is empty. -/
def chunks (f : Input) : List (List UInt8) :=
  (f.reads.getD []).takeWhile (· ≠ [])

def bytes (f : Input) : List UInt8 := f.chunks.flatten

end Input

/-- One round of the loop over the arguments. -/
def addFile (rootino : Nat) (im : Image) (f : Input) : Except String Image :=
  if 47 ∈ f.stripped then .error "index(shortname, '/') == 0"
  else if f.reads = none then .error "open"
  else if f.shortname.length ≤ DIRSIZ then do
    let (inum, im) ← im.ialloc T_FILE
    let im ← im.iappend rootino (Dirent.bytes ⟨UInt16.ofNat inum, f.shortname⟩)
    f.chunks.foldlM (fun im buf => im.iappend inum buf) im
  else .error "strlen(shortname) <= DIRSIZ"

def main (files : List Input) : Except String Image := do
  let (rootino, im) ← empty.ialloc T_DIR
  if rootino = ROOTINO then
    let im ← im.iappend rootino (Dirent.bytes ⟨UInt16.ofNat rootino, [46]⟩)
    let im ← im.iappend rootino (Dirent.bytes ⟨UInt16.ofNat rootino, [46, 46]⟩)
    let im ← files.foldlM (addFile rootino) im
    let din ← im.rinode rootino
    -- The size of the root directory is rounded up to whole blocks.
    let off := (din.size.toNat / BSIZE + 1) * BSIZE
    let im ← im.winode rootino { din with size := UInt32.ofNat off }
    im.balloc im.freeblock
  else .error "rootino == ROOTINO"

variable {im im' : Image} {owner owner' : Nat → Option Use} {inum m n : Nat} {d : Dinode}
  {w : List UInt8} {content : Nat → List UInt8} {types : Nat → Int16} {f : Input}
  {files : List Input}

/-- The entries of the root directory, from inode `n` on. -/
def entriesFrom (n : Nat) : List Input → List Dirent
  | [] => []
  | f :: files => ⟨UInt16.ofNat n, f.shortname⟩ :: entriesFrom (n + 1) files

/-- What the root directory lists: ".", ".." and every file. -/
def entries (files : List Input) : List Dirent :=
  [⟨1, [46]⟩, ⟨1, [46, 46]⟩] ++ entriesFrom 2 files

/-- Between two rounds: the root directory holds `root`, and the files from inode 2 on are
`done`. -/
structure Built (im : Image) (root : List UInt8) (done : List Input) : Prop where
  freeinode : im.freeinode = done.length + 2
  holds : ∃ owner content types, Holds im owner content types ∧ content 1 = root ∧
    types 1 = T_DIR ∧ ∀ i f, done[i]? = some f → content (i + 2) = f.bytes ∧ types (i + 2) = T_FILE

/-- The loop over read. -/
theorem chunks_ok (l : List (List UInt8)) : ∀ {im im' : Image} {owner : Nat → Option Use}
    {content : Nat → List UInt8}, Holds im owner content types → 0 < inum →
    inum < im.freeinode → l.foldlM (fun im buf => im.iappend inum buf) im = .ok im' →
    im'.freeinode = im.freeinode ∧ ∃ owner',
      Holds im' owner' (Function.update content inum (content inum ++ l.flatten)) types := by
  induction l with
  | nil =>
      intro im im' owner content hh _ _ h
      cases h
      rw [List.flatten_nil, List.append_nil, Function.update_eq_self]
      exact ⟨rfl, owner, hh⟩
  | cons p l ih =>
      intro im im' owner content hh hpos hlt h
      rw [List.foldlM_cons] at h
      obtain ⟨im₁, happ, h⟩ := ok_of_bind h
      obtain ⟨hfree₁, owner₁, hh₁⟩ := hh.iappend hpos hlt happ
      obtain ⟨hfree₂, owner₂, hh₂⟩ := ih hh₁ hpos (hfree₁.symm ▸ hlt) h
      rw [Function.update_self, Function.update_idem, List.append_assoc] at hh₂
      exact ⟨hfree₂.trans hfree₁, owner₂, hh₂⟩

theorem addFile_ok {root : List UInt8} {done : List Input} (hb : Built im root done)
    (hroom : im.freeinode < inodes) (h : addFile 1 im f = .ok im') :
    Built im' (root ++ Dirent.bytes ⟨UInt16.ofNat (done.length + 2), f.shortname⟩)
      (done ++ [f]) := by
  obtain ⟨hfree, owner, content, types, hh, hroot, htype, hdone⟩ := hb
  unfold addFile at h
  split_ifs at h
  obtain ⟨im₁, hi, hfree₁, -, hh₁⟩ := hh.ialloc T_FILE hroom
  rw [hi] at h
  change (im₁.iappend 1 _ >>= _) = _ at h
  obtain ⟨im₂, happ, h⟩ := ok_of_bind h
  obtain ⟨hfree₂, owner₂, hh₂⟩ := hh₁.iappend Nat.one_pos (by omega) happ
  obtain ⟨hfree₃, owner₃, hh₃⟩ := chunks_ok f.chunks hh₂ (by omega) (by omega) h
  refine ⟨?_, owner₃, _, _, hh₃, ?_, ?_, fun i g hg => ?_⟩
  · rw [List.length_append, List.length_singleton]
    omega
  · have hne : 1 ≠ im.freeinode := by omega
    rw [Function.update_of_ne hne, Function.update_self, Function.update_of_ne hne, hroot, hfree]
  · have hne : 1 ≠ im.freeinode := by omega
    rw [Function.update_of_ne hne, htype]
  · by_cases hi : i < done.length
    · rw [List.getElem?_append_left hi] at hg
      have hne : i + 2 ≠ im.freeinode := by omega
      have hone : i + 2 ≠ 1 := by omega
      simp only [Function.update_of_ne hne, Function.update_of_ne hone]
      exact hdone i g hg
    · have hlt := (List.getElem?_eq_some_iff.mp hg).1
      rw [List.length_append, List.length_singleton] at hlt
      obtain rfl : i = done.length := by omega
      rw [List.getElem?_concat_length] at hg
      cases hg
      have hone : im.freeinode ≠ 1 := by omega
      rw [← hfree]
      simp only [Function.update_self, Function.update_of_ne hone, List.nil_append]
      exact ⟨rfl, trivial⟩

/-- The loop over the arguments. -/
theorem files_ok (files : List Input) : ∀ {im im' : Image} {root : List UInt8}
    {done : List Input}, Built im root done → (done ++ files).length + 2 ≤ inodes →
    files.foldlM (addFile 1) im = .ok im' →
    Built im' (root ++ (entriesFrom (done.length + 2) files).flatMap Dirent.bytes)
      (done ++ files) := by
  induction files with
  | nil =>
      intro im im' root done hb _ h
      cases h
      rw [List.append_nil, entriesFrom, List.flatMap_nil, List.append_nil]
      exact hb
  | cons f files ih =>
      intro im im' root done hb hlen h
      rw [List.foldlM_cons] at h
      obtain ⟨im₁, hadd, h⟩ := ok_of_bind h
      rw [List.length_append, List.length_cons] at hlen
      have hfree := hb.freeinode
      have hb₁ := addFile_ok hb (by omega) hadd
      have hb₂ := ih hb₁ (by simp only [List.length_append, List.length_singleton]; omega) h
      rw [List.length_append, List.length_singleton] at hb₂
      rw [entriesFrom, List.flatMap_cons]
      simp only [List.append_assoc, List.singleton_append] at hb₂ ⊢
      exact hb₂

/-- The root directory after the loop, as main leaves it. -/
def rounded (d : Dinode) : Dinode :=
  { d with size := UInt32.ofNat ((d.size.toNat / BSIZE + 1) * BSIZE) }

theorem built_root (h : empty.ialloc T_DIR = .ok (inum, im)) : inum = 1 ∧ Built im [] [] := by
  obtain ⟨im₁, hi, hfree, -, hh⟩ := holds_empty.ialloc T_DIR (by decide)
  rw [hi] at h
  cases h
  refine ⟨rfl, hfree, _, _, _, hh, Function.update_self .., Function.update_self .., ?_⟩
  intro i f hf
  cases hf

theorem Built.iappend {root p : List UInt8} (hb : Built im root [])
    (h : im.iappend 1 p = .ok im') : Built im' (root ++ p) [] := by
  obtain ⟨hfree, owner, content, types, hh, rfl, htype, -⟩ := hb
  rw [List.length_nil] at hfree
  obtain ⟨hfree', owner', hh'⟩ := hh.iappend Nat.one_pos (by omega) h
  refine ⟨hfree'.trans hfree, owner', _, types, hh', Function.update_self .., htype, ?_⟩
  intro i f hf
  cases hf

/-- What main does after the loop. -/
theorem main_built (h : main files = .ok im') (hn : files.length + 2 ≤ inodes) :
    ∃ im, Built im ((entries files).flatMap Dirent.bytes) files ∧
      im' = (setInode im 1 (rounded (readInode im.disk sb 1))).wsect sb.bmapstart
        (bitmap im.freeblock) := by
  unfold main at h
  obtain ⟨⟨rootino, im₀⟩, hi, h⟩ := ok_of_bind h
  obtain ⟨rfl, hb₀⟩ := built_root hi
  simp only [ROOTINO, if_true] at h
  obtain ⟨im₁, happ₁, h⟩ := ok_of_bind h
  obtain ⟨im₂, happ₂, h⟩ := ok_of_bind h
  obtain ⟨im₃, hloop, h⟩ := ok_of_bind h
  have hb₃ := files_ok files ((hb₀.iappend happ₁).iappend happ₂)
    (by rwa [List.nil_append]) hloop
  obtain ⟨owner, content, types, hh, -⟩ := hb₃.holds
  have hone : 1 < inodes := by decide
  rw [hh.sound.rinode hone] at h
  change (im₃.winode 1 (rounded (readInode im₃.disk sb 1)) >>= _) = _ at h
  rw [hh.sound.winode hone] at h
  change Image.balloc _ im₃.freeblock = _ at h
  unfold Image.balloc at h
  split at h
  · cases h
    exact ⟨im₃, hb₃, rfl⟩
  · cases h

theorem Dirent.bytes_length {de : Dirent} (h : de.name.length ≤ DIRSIZ) :
    de.bytes.length = 16 := by
  simp only [DIRSIZ] at h
  simp only [Dirent.bytes, DIRSIZ, List.length_append, List.length_cons, List.length_nil,
    List.length_replicate]
  omega

section counts

/-- mkfs gives out one inode for each file, whatever the image holds. -/
theorem winode_freeinode (h : im.winode inum d = .ok im') : im'.freeinode = im.freeinode := by
  obtain ⟨buf, -, h⟩ := ok_of_bind h
  cases h
  rfl

theorem ialloc_freeinode {type : Int16} (h : im.ialloc type = .ok (inum, im')) :
    im'.freeinode = im.freeinode + 1 := by
  obtain ⟨im₁, hw, h⟩ := ok_of_bind h
  cases h
  exact winode_freeinode hw

theorem block_freeinode {fbn x : Nat} {d' : Dinode} (h : im.block d fbn = .ok (x, d', im')) :
    im'.freeinode = im.freeinode := by
  unfold Image.block at h
  split_ifs at h
  · cases h
    rfl
  · cases h
    rfl
  all_goals
    obtain ⟨indirect, -, h⟩ := ok_of_bind h
    split_ifs at h
    all_goals
      cases h
      rfl

theorem appendLoop_freeinode (n : Nat) : ∀ {im im' : Image} {d d' : Dinode} {off off' : Nat}
    {p : List UInt8}, im.appendLoop n d off p = .ok (d', off', im') →
    im'.freeinode = im.freeinode := by
  induction n with
  | zero =>
      intro im im' d d' off off' p h
      cases h
      rfl
  | succ n ih =>
      intro im im' d d' off off' p h
      cases p with
      | nil =>
          cases h
          rfl
      | cons b p =>
          simp only [Image.appendLoop] at h
          split at h
          next =>
            obtain ⟨⟨x, d₁, im₁⟩, hblock, h⟩ := ok_of_bind h
            obtain ⟨buf, -, h⟩ := ok_of_bind h
            rw [ih h]
            change im₁.freeinode = _
            exact block_freeinode hblock
          next => cases h

theorem iappend_freeinode {p : List UInt8} (h : im.iappend inum p = .ok im') :
    im'.freeinode = im.freeinode := by
  obtain ⟨d, -, h⟩ := ok_of_bind h
  obtain ⟨⟨d', off', im₁⟩, hloop, h⟩ := ok_of_bind h
  exact (winode_freeinode h).trans (appendLoop_freeinode _ hloop)

theorem foldlM_iappend_freeinode (l : List (List UInt8)) : ∀ {im im' : Image},
    l.foldlM (fun im buf => im.iappend inum buf) im = .ok im' →
    im'.freeinode = im.freeinode := by
  induction l with
  | nil =>
      intro im im' h
      cases h
      rfl
  | cons p l ih =>
      intro im im' h
      rw [List.foldlM_cons] at h
      obtain ⟨im₁, happ, h⟩ := ok_of_bind h
      exact (ih h).trans (iappend_freeinode happ)

theorem addFile_freeinode {rootino : Nat} (h : addFile rootino im f = .ok im') :
    im'.freeinode = im.freeinode + 1 := by
  unfold addFile at h
  split_ifs at h
  obtain ⟨⟨inum, im₁⟩, hi, h⟩ := ok_of_bind h
  obtain ⟨im₂, happ, h⟩ := ok_of_bind h
  rw [foldlM_iappend_freeinode _ h, iappend_freeinode happ, ialloc_freeinode hi]

theorem files_freeinode {rootino : Nat} (files : List Input) : ∀ {im im' : Image},
    files.foldlM (addFile rootino) im = .ok im' →
    im'.freeinode = im.freeinode + files.length := by
  induction files with
  | nil =>
      intro im im' h
      cases h
      rfl
  | cons f files ih =>
      intro im im' h
      rw [List.foldlM_cons] at h
      obtain ⟨im₁, hadd, h⟩ := ok_of_bind h
      rw [ih h, addFile_freeinode hadd, List.length_cons]
      omega

theorem main_freeinode (h : main files = .ok im) : im.freeinode = files.length + 2 := by
  unfold main at h
  obtain ⟨⟨rootino, im₀⟩, hi, h⟩ := ok_of_bind h
  simp only at h
  split at h
  next =>
    obtain ⟨im₁, happ₁, h⟩ := ok_of_bind h
    obtain ⟨im₂, happ₂, h⟩ := ok_of_bind h
    obtain ⟨im₃, hloop, h⟩ := ok_of_bind h
    obtain ⟨din, -, h⟩ := ok_of_bind h
    obtain ⟨im₄, hw, h⟩ := ok_of_bind h
    unfold Image.balloc at h
    split at h
    · cases h
      have hcount := files_freeinode files hloop
      rw [iappend_freeinode happ₂, iappend_freeinode happ₁, ialloc_freeinode hi] at hcount
      change im₄.freeinode = _
      rw [winode_freeinode hw, hcount]
      change 1 + 1 + files.length = _
      omega
    · cases h
  next => cases h

end counts

/-- The names that main accepts. -/
theorem addFile_name {rootino : Nat} (h : addFile rootino im f = .ok im') :
    f.shortname.length ≤ DIRSIZ := by
  unfold addFile at h
  split_ifs at h with _ _ hlen
  exact hlen

theorem files_names {rootino : Nat} (files : List Input) : ∀ {im im' : Image},
    files.foldlM (addFile rootino) im = .ok im' → ∀ f ∈ files, f.shortname.length ≤ DIRSIZ := by
  induction files with
  | nil => exact fun _ _ h => nomatch h
  | cons f files ih =>
      intro im im' h g hg
      rw [List.foldlM_cons] at h
      obtain ⟨im₁, hadd, h⟩ := ok_of_bind h
      rcases List.mem_cons.mp hg with rfl | hg
      · exact addFile_name hadd
      · exact ih h g hg

theorem main_names (h : main files = .ok im) : ∀ f ∈ files, f.shortname.length ≤ DIRSIZ := by
  unfold main at h
  obtain ⟨⟨rootino, im₀⟩, hi, h⟩ := ok_of_bind h
  simp only at h
  split at h
  next =>
    obtain ⟨im₁, -, h⟩ := ok_of_bind h
    obtain ⟨im₂, -, h⟩ := ok_of_bind h
    obtain ⟨im₃, hloop, h⟩ := ok_of_bind h
    exact files_names files hloop
  next => cases h

theorem entriesFrom_length (files : List Input) : ∀ n,
    (∀ f ∈ files, f.shortname.length ≤ DIRSIZ) →
    ((entriesFrom n files).flatMap Dirent.bytes).length = 16 * files.length := by
  induction files with
  | nil => exact fun _ _ => rfl
  | cons f files ih =>
      intro n h
      rw [entriesFrom, List.flatMap_cons, List.length_append, ih _ fun g hg => h g (.tail _ hg),
        Dirent.bytes_length (h f (.head _)), List.length_cons]
      omega

theorem entries_length (h : ∀ f ∈ files, f.shortname.length ≤ DIRSIZ) :
    ((entries files).flatMap Dirent.bytes).length = 16 * (files.length + 2) := by
  have hrest := entriesFrom_length files 2 h
  rw [entries, List.flatMap_append, List.length_append, hrest]
  change 32 + _ = _
  omega

end Xv6.Mkfs
