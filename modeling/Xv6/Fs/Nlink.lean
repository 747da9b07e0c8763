/-
Link counts: create, link and unlink of kernel/sysfile.c on a disk of FSSIZE blocks.  nlink is a
short that sys_link increments without a test, and there is room for more names than it can count.
-/
import Xv6.Fs.Namex
import Xv6.Fs.Writei
import Xv6.Lib.Outcome
import Xv6.Lib.Transition
import Xv6.Mkfs.Image

namespace Xv6.Fs

open Bytes Outcome Transition

/-- dirlink needs a new block for this name. -/
def Dir.needsBlock (d : Dir) (name : List UInt8) : Bool :=
  match d.dirlookup name, d.scan "dirlink read" (fun de => de.inum = 0) 0 with
  | .ok none, .ok none => d.size % BSIZE = 0 ∧ d.size + DIRENT ≤ MAXFILE * BSIZE
  | _, _ => false

/-- bmap allocates block `bn` of a directory, and before it the indirect block if it has to: whether
it succeeds, the free blocks after it, and whether there is an indirect block. -/
def grow (free : Nat) (ind : Bool) (bn : Nat) : Bool × Nat × Bool :=
  if bn < NDIRECT ∨ ind = true then (0 < free, free - 1, ind)
  else (1 < free, free - 2, 0 < free)

/-- The inodes, whether they have an indirect block, and the number of free blocks. -/
structure Filesys where
  node : Nat → Node
  ind : Nat → Bool
  free : Nat

namespace Filesys

def setDir (s : Filesys) (i : Nat) (d : Dir) : Filesys :=
  { s with node := Function.update s.node i { toDir := d, nlink := (s.node i).nlink } }

def setNlink (s : Filesys) (i : Nat) (n : Int16) : Filesys :=
  { s with node := Function.update s.node i { s.node i with nlink := n } }

def dirlink (s : Filesys) (dp : Nat) (name : List UInt8) (inum : UInt16) :
    Except String (Int × Filesys) :=
  let d := (s.node dp).toDir
  let g := grow s.free (s.ind dp) (d.size / BSIZE)
  d.dirlink name inum g.1 >>= fun x =>
  let s' := s.setDir dp x.2
  if d.needsBlock name then
    .ok (x.1, { s' with free := g.2.1, ind := Function.update s.ind dp g.2.2 })
  else .ok (x.1, s')

/-- The last reference to an inode is dropped; without links it is freed with its blocks. -/
def iput (s : Filesys) (i : Nat) : Filesys :=
  if (s.node i).nlink = 0 then
    { node := Function.update s.node i { s.node i with type := 0, size := 0 }
      ind := Function.update s.ind i false
      free := s.free + spans (s.node i).size + (s.ind i).toNat }
  else s

/-- sys_link of the inode `ip`; `dp` is what nameiparent returns for the new name. -/
def link (s : Filesys) (ip : Nat) (dp : Option Nat) (name : List UInt8) :
    Except String (Int × Filesys) :=
  if (s.node ip).type = T_DIR then .ok (-1, s)
  else
    let s' := s.setNlink ip ((s.node ip).nlink + 1)
    match dp with
    | none => .ok (-1, s'.setNlink ip ((s'.node ip).nlink - 1))
    | some dp =>
        s'.dirlink dp name (UInt16.ofNat ip) >>= fun x =>
        if x.1 < 0 then .ok (-1, x.2.setNlink ip ((x.2.node ip).nlink - 1)) else .ok (0, x.2)

def isdirempty (d : Dir) : Bool :=
  (List.range d.count).all fun j => j < 2 ∨ (d.slot j).inum = 0

/-- The names "." and "..". -/
def DOT : List UInt8 := [46]
def DOTDOT : List UInt8 := [46, 46]

def unlink (s : Filesys) (dp : Nat) (name : List UInt8) : Except String (Int × Filesys) :=
  if namecmp name DOT = 0 ∨ namecmp name DOTDOT = 0 then .ok (-1, s)
  else
    (s.node dp).dirlookup name >>= fun found =>
    match found with
    | none => .ok (-1, s)
    | some (_, inum) =>
        let ip := inum.toNat
        if (s.node ip).nlink < 1 then .error "unlink: nlink < 1"
        else if (s.node ip).type = T_DIR ∧ isdirempty (s.node ip).toDir = false then .ok (-1, s)
        else
          (s.node dp).toDir.unlink name false >>= fun x =>
          let s := s.setDir dp x.2
          let s := if (s.node ip).type = T_DIR then s.setNlink dp ((s.node dp).nlink - 1) else s
          let s := s.setNlink ip ((s.node ip).nlink - 1)
          .ok (0, s.iput ip)

def ialloc (s : Filesys) : Option Nat :=
  (List.range Mkfs.NINODES).find? fun i => i ≠ 0 ∧ (s.node i).type = 0

/-- The inode is taken back when a later step fails. -/
def fail (s : Filesys) (ip : Nat) : Int × Filesys := (-1, (s.setNlink ip 0).iput ip)

/-- create, for a file or a directory; an existing file is opened. -/
def create (s : Filesys) (dp : Nat) (name : List UInt8) (type : Int16) :
    Except String (Int × Filesys) :=
  (s.node dp).dirlookup name >>= fun found =>
  match found with
  | some (_, inum) =>
      let old := (s.node inum.toNat).type
      if type = T_FILE ∧ (old = T_FILE ∨ old = T_DEVICE) then .ok (Int.ofNat inum.toNat, s)
      else .ok (-1, s)
  | none =>
      match s.ialloc with
      | none => .ok (-1, s)
      | some ip =>
          let s := s.setDir ip { (s.node ip).toDir with type := type }
          let s := s.setNlink ip 1
          if type = T_DIR then
            s.dirlink ip DOT (UInt16.ofNat ip) >>= fun x =>
            if x.1 < 0 then .ok (x.2.fail ip)
            else
              x.2.dirlink ip DOTDOT (UInt16.ofNat dp) >>= fun x =>
              if x.1 < 0 then .ok (x.2.fail ip)
              else
                x.2.dirlink dp name (UInt16.ofNat ip) >>= fun x =>
                if x.1 < 0 then .ok (x.2.fail ip)
                else .ok (Int.ofNat ip, x.2.setNlink dp ((x.2.node dp).nlink + 1))
          else
            s.dirlink dp name (UInt16.ofNat ip) >>= fun x =>
            if x.1 < 0 then .ok (x.2.fail ip) else .ok (Int.ofNat ip, x.2)

end Filesys

inductive Op
  | create (dp : Nat) (name : List UInt8) (type : Int16)
  | link (ip : Nat) (dp : Option Nat) (name : List UInt8)
  | unlink (dp : Nat) (name : List UInt8)

/-- The arguments are what namei and nameiparent return: inodes in use, and directories. -/
def Op.Allowed (s : Filesys) : Op → Prop
  | create dp _ type => (s.node dp).type = T_DIR ∧ (type = T_DIR ∨ type = T_FILE ∨ type = T_DEVICE)
  | link ip dp _ => (s.node ip).type ≠ 0 ∧ ∀ d ∈ dp, (s.node d).type = T_DIR
  | unlink dp _ => (s.node dp).type = T_DIR

def Filesys.step (s : Filesys) : Op → Option (Except String Filesys)
  | .create dp name type => some ((s.create dp name type).map Prod.snd)
  | .link ip dp name => some ((s.link ip dp name).map Prod.snd)
  | .unlink dp name => some ((s.unlink dp name).map Prod.snd)

/-- The file "f" of a fresh disk. -/
def FILE : List UInt8 := [102]

/-- What mkfs makes for one empty file: the root directory has one block of those that the boot
block, the superblock, the log, the inodes and the bitmap leave. -/
structure Fresh (s : Filesys) : Prop where
  root : (s.node ROOTINO).toDir.Ok
  size : (s.node ROOTINO).size = BSIZE
  names : ∀ k, (s.node ROOTINO).find k =
    if k = Filesys.DOT ∨ k = Filesys.DOTDOT then some 1 else if k = FILE then some 2 else none
  file : (s.node 2).type = T_FILE ∧ (s.node 2).nlink = 1 ∧ (s.node 2).size = 0
  rest : ∀ i, i ≠ ROOTINO → i ≠ 2 → (s.node i).type = 0 ∧ (s.node i).size = 0
  ind : ∀ i, s.ind i = false
  free : s.free = Mkfs.FSSIZE - Mkfs.nmeta - 1

def Reachable : Filesys → Prop := Reach Fresh Op.Allowed Filesys.step

/-! ### One call of sys_link -/

/-- dirlink fails with the directory as it was, or returns 0. -/
theorem Dir.dirlink_result {d d' : Dir} {name : List UInt8} {inum : UInt16} {alloc : Bool} {r : Int}
    (h : d.dirlink name inum alloc = .ok (r, d')) : (r = -1 ∧ d' = d) ∨ r = 0 := by
  unfold Dir.dirlink at h
  cases hlookup : d.dirlookup name with
  | error e => rw [hlookup] at h; cases h
  | ok found =>
      rw [hlookup] at h
      cases found with
      | some x =>
          cases h
          exact .inl ⟨rfl, rfl⟩
      | none =>
          change (d.scan _ _ 0 >>= _) = _ at h
          cases hscan : d.scan "dirlink read" (fun de => de.inum = 0) 0 with
          | error e => rw [hscan] at h; cases h
          | ok x =>
              rw [hscan] at h
              simp only [bind, Except.bind] at h
              split at h
              · cases h
                exact .inl ⟨rfl, rfl⟩
              · cases h
                exact .inr rfl

/-- When dirlink succeeds: the name is new, and there is a free slot or room for another one. -/
theorem Dir.Ok.dirlink_iff {d : Dir} (h : d.Ok) {inum : UInt16} (hinum : inum ≠ 0)
    (name : List UInt8) (alloc : Bool) :
    ∃ r d', d.dirlink name inum alloc = .ok (r, d') ∧ (d'.Ok ∧ (r = 0 ∨ r = -1)) ∧
      (r = 0 ↔ d.dirlookup name = .ok none ∧ (d.HasFree ∨ d.Room alloc)) := by
  rw [Dir.dirlookup_eq_none_iff h]
  by_cases hfind : d.find (key name) = none
  · by_cases hfree : d.HasFree
    · obtain ⟨d', hlink, -, hok, -⟩ := Dir.dirlink_free h hfind hinum hfree alloc
      exact ⟨0, d', hlink, ⟨hok, .inl rfl⟩, iff_of_true rfl ⟨hfind, .inl hfree⟩⟩
    · by_cases hroom : d.Room alloc
      · obtain ⟨d', hlink, -, hok, -⟩ := Dir.dirlink_grow h hfind hinum hfree hroom
        exact ⟨0, d', hlink, ⟨hok, .inl rfl⟩, iff_of_true rfl ⟨hfind, .inr hroom⟩⟩
      · exact ⟨-1, d, Dir.dirlink_noRoom h hfind hfree hroom inum, ⟨h, .inr rfl⟩,
          iff_of_false (by decide) fun hcan => hcan.2.elim hfree hroom⟩
  · exact ⟨-1, d, Dir.dirlink_present h hfind inum alloc, ⟨h, .inr rfl⟩,
      iff_of_false (by decide) fun hcan => hfind hcan.1⟩

/-- The directory of an inode that has just been allocated. -/
theorem Dir.ok_of_size_zero {d : Dir} (htype : d.type = T_DIR) (hsize : d.size = 0) : d.Ok where
  type := htype
  size := by rw [hsize]; rfl
  small := by rw [hsize]; exact Nat.zero_le _
  distinct i j hi := by
    simp only [Dir.count, hsize, Nat.zero_div] at hi
    omega

namespace Filesys

variable {s s' : Filesys} {dp : Nat} {name : List UInt8} {inum : UInt16} {r : Int}

theorem node_setDir_self (s : Filesys) (i : Nat) : (s.setDir i (s.node i).toDir).node = s.node :=
  Function.update_eq_self _ _

theorem nlink_setDir (s : Filesys) (i : Nat) (d : Dir) (j : Nat) :
    ((s.setDir i d).node j).nlink = (s.node j).nlink := by
  by_cases hj : j = i
  · rw [hj]
    simp [setDir]
  · simp [setDir, hj]

/-- dirlink changes no link count, and when it fails no inode. -/
theorem dirlink_result (h : s.dirlink dp name inum = .ok (r, s')) :
    ((r = -1 ∧ s'.node = s.node) ∨ r = 0) ∧ ∀ i, (s'.node i).nlink = (s.node i).nlink := by
  obtain ⟨⟨r', d'⟩, hdir, h⟩ := ok_of_bind h
  have hs' : r = r' ∧ s'.node = (s.setDir dp d').node := by
    split at h <;> cases h <;> exact ⟨rfl, rfl⟩
  obtain ⟨rfl, hnode⟩ := hs'
  refine ⟨?_, fun i => by rw [hnode, nlink_setDir]⟩
  rcases Dir.dirlink_result hdir with ⟨hr, rfl⟩ | hr
  · exact .inl ⟨hr, by rw [hnode, node_setDir_self]⟩
  · exact .inr hr

/-- The increment of sys_link is undone when it fails. -/
theorem node_setNlink_back {ip : Nat} {s₁ : Filesys}
    (h : s₁.node = (s.setNlink ip ((s.node ip).nlink + 1)).node) :
    (s₁.setNlink ip ((s₁.node ip).nlink - 1)).node = s.node := by
  simp [setNlink, h]

/-- What sys_link returns, and what it leaves. -/
theorem link_result {ip : Nat} {dp : Option Nat} (h : s.link ip dp name = .ok (r, s')) :
    (r = -1 ∧ s'.node = s.node) ∨ (r = 0 ∧ (s'.node ip).nlink = (s.node ip).nlink + 1) := by
  unfold link at h
  split at h
  · cases h
    exact .inl ⟨rfl, rfl⟩
  · dsimp only at h
    split at h
    · cases h
      exact .inl ⟨rfl, node_setNlink_back rfl⟩
    · obtain ⟨⟨r', s₁⟩, hlink, h⟩ := ok_of_bind h
      obtain ⟨hfail, hnlink⟩ := dirlink_result hlink
      split at h
      · next hneg =>
          cases h
          rcases hfail with ⟨-, hnode⟩ | hzero
          · exact .inl ⟨rfl, node_setNlink_back hnode⟩
          · simp only at hneg
            omega
      · cases h
        refine .inr ⟨rfl, ?_⟩
        rw [hnlink ip]
        simp [setNlink]

/-- dirlink returns on a well-formed directory. -/
theorem dirlink_ok (h : (s.node dp).toDir.Ok) (hinum : inum ≠ 0) (name : List UInt8) :
    ∃ r s' d', s.dirlink dp name inum = .ok (r, s') ∧ s'.node = (s.setDir dp d').node ∧
      (d'.Ok ∧ (r = 0 ∨ r = -1)) ∧
      (r = 0 ↔ (s.node dp).dirlookup name = .ok none ∧ ((s.node dp).HasFree ∨
        (s.node dp).Room (grow s.free (s.ind dp) ((s.node dp).size / BSIZE)).1)) := by
  obtain ⟨r, d', hlink, hok, hiff⟩ := h.dirlink_iff hinum name
    (grow s.free (s.ind dp) ((s.node dp).size / BSIZE)).1
  simp only [dirlink, hlink]
  change ∃ r s' d'', (if (s.node dp).needsBlock name then _ else _) = _ ∧ _
  split
  · exact ⟨r, _, d', rfl, rfl, hok, hiff⟩
  · exact ⟨r, _, d', rfl, rfl, hok, hiff⟩

theorem toDir_setNlink (s : Filesys) (i : Nat) (n : Int16) (j : Nat) :
    ((s.setNlink i n).node j).toDir = (s.node j).toDir := by
  by_cases hj : j = i
  · rw [hj]
    simp [setNlink]
  · simp [setNlink, hj]

/-- The condition for sys_link to succeed, in the state before it: the file is no directory, the
parent of the new name exists, and it does not have the name but has a place for it. -/
def Linkable (s : Filesys) (ip : Nat) (dp : Option Nat) (name : List UInt8) : Prop :=
  (s.node ip).type ≠ T_DIR ∧ ∃ d ∈ dp, (s.node d).dirlookup name = .ok none ∧
    ((s.node d).HasFree ∨
      (s.node d).Room (grow s.free (s.ind d) ((s.node d).size / BSIZE)).1)

theorem link_ok {ip : Nat} {dp : Option Nat} (hdir : ∀ d ∈ dp, (s.node d).toDir.Ok)
    (hip : UInt16.ofNat ip ≠ 0) (name : List UInt8) :
    ∃ r s', s.link ip dp name = .ok (r, s') ∧ (r = 0 ↔ s.Linkable ip dp name) := by
  unfold link
  by_cases htype : (s.node ip).type = T_DIR
  · rw [if_pos htype]
    exact ⟨-1, s, rfl, iff_of_false (by decide) fun h => h.1 htype⟩
  rw [if_neg htype]
  dsimp only
  cases dp with
  | none => exact ⟨-1, _, rfl, iff_of_false (by decide) fun ⟨_, _, h, _⟩ => by cases h⟩
  | some d =>
      generalize hs₁ : s.setNlink ip ((s.node ip).nlink + 1) = s₁
      have hsame : (s₁.node d).toDir = (s.node d).toDir := by rw [← hs₁, toDir_setNlink]
      have hfree : s₁.free = s.free ∧ s₁.ind = s.ind := by rw [← hs₁]; exact ⟨rfl, rfl⟩
      obtain ⟨r, s₂, -, hlink, -, ⟨-, hr⟩, hiff⟩ :=
        dirlink_ok (s := s₁) (hsame ▸ hdir d rfl) hip name
      rw [hsame, hfree.1, hfree.2] at hiff
      have hcan : r = 0 ↔ s.Linkable ip (some d) name := by
        rw [hiff]
        exact ⟨fun h => ⟨htype, d, rfl, h⟩, fun ⟨_, d', hd, h⟩ => Option.some.inj hd ▸ h⟩
      simp only [hlink]
      rcases hr with rfl | rfl
      · exact ⟨0, s₂, rfl, hcan⟩
      · exact ⟨-1, _, rfl, hcan⟩

/-! ### Well-formed states -/

/-- Directories are well formed, free inodes are empty, and the number of an inode in use fits an
entry. -/
structure WellFormed (s : Filesys) : Prop where
  dirs : ∀ i, (s.node i).type = T_DIR → (s.node i).toDir.Ok
  idle : ∀ i, (s.node i).type = 0 → (s.node i).size = 0
  inums : ∀ i, (s.node i).type ≠ 0 → UInt16.ofNat i ≠ 0

namespace WellFormed

theorem congr (h : WellFormed s) (heq : ∀ i, (s'.node i).toDir = (s.node i).toDir) :
    WellFormed s' := by
  refine ⟨fun i => ?_, fun i => ?_, fun i => ?_⟩
  · rw [heq]
    exact h.dirs i
  · rw [heq]
    exact h.idle i
  · rw [heq]
    exact h.inums i

theorem setNlink (h : WellFormed s) (i : Nat) (n : Int16) : WellFormed (s.setNlink i n) :=
  h.congr (toDir_setNlink s i n)

theorem setDir (h : WellFormed s) {i : Nat} {d : Dir} (hdir : d.type = T_DIR → d.Ok)
    (hidle : d.type = 0 → d.size = 0) (hinum : d.type ≠ 0 → UInt16.ofNat i ≠ 0) :
    WellFormed (s.setDir i d) := by
  have hself : ((s.setDir i d).node i).toDir = d := by simp [Filesys.setDir]
  have hother : ∀ j, j ≠ i → (s.setDir i d).node j = s.node j :=
    fun j hj => Function.update_of_ne hj _ _
  refine ⟨fun j => ?_, fun j => ?_, fun j => ?_⟩ <;> by_cases hj : j = i
  · rw [hj, hself]
    exact hdir
  · rw [hother j hj]
    exact h.dirs j
  · rw [hj, hself]
    exact hidle
  · rw [hother j hj]
    exact h.idle j
  · rw [hj, hself]
    exact hinum
  · rw [hother j hj]
    exact h.inums j

theorem setDir_ok (h : WellFormed s) (hdp : (s.node dp).type = T_DIR) {d : Dir} (hok : d.Ok) :
    WellFormed (s.setDir dp d) := by
  refine h.setDir (fun _ => hok) (fun hzero => ?_) fun _ => h.inums dp (by rw [hdp]; decide)
  rw [hok.type] at hzero
  cases hzero

theorem iput (h : WellFormed s) (i : Nat) : WellFormed (s.iput i) := by
  unfold Filesys.iput
  split
  · refine (h.setDir (i := i) (d := { (s.node i).toDir with type := 0, size := 0 })
      (fun hdir => by cases hdir) (fun _ => rfl) fun hne => absurd rfl hne).congr fun j => ?_
    by_cases hj : j = i <;> simp [Filesys.setDir, hj]
  · exact h

/-- dirlink keeps the directory well formed, and the types. -/
theorem dirlink (h : WellFormed s) (hdp : (s.node dp).type = T_DIR) (hinum : inum ≠ 0)
    (name : List UInt8) : Ensures (s.dirlink dp name inum) fun x =>
      WellFormed x.2 ∧ ∀ i, (x.2.node i).type = (s.node i).type := by
  obtain ⟨r, s', d', hlink, hnode, ⟨hok, -⟩, -⟩ := dirlink_ok (h.dirs dp hdp) hinum name
  rw [hlink]
  refine .ok ⟨(h.setDir_ok hdp hok).congr fun i => by rw [hnode], fun i => ?_⟩
  rw [hnode]
  by_cases hi : i = dp
  · simp [Filesys.setDir, hi, hok.type, hdp]
  · simp [Filesys.setDir, hi]

theorem link (h : WellFormed s) {ip : Nat} {dp : Option Nat} (hip : (s.node ip).type ≠ 0)
    (hdp : ∀ d ∈ dp, (s.node d).type = T_DIR) (name : List UInt8) :
    Ensures (s.link ip dp name) fun x => WellFormed x.2 := by
  refine .ite (fun _ => .ok h) fun _ => ?_
  have h₁ := h.setNlink ip ((s.node ip).nlink + 1)
  cases dp with
  | none => exact .ok (h₁.setNlink ..)
  | some d =>
      have hdir : ((s.setNlink ip ((s.node ip).nlink + 1)).node d).type = T_DIR := by
        rw [toDir_setNlink]
        exact hdp d rfl
      refine (h₁.dirlink hdir (h.inums ip hip) name).bind fun x hx => ?_
      exact .ite (fun _ => .ok (hx.1.setNlink ..)) fun _ => .ok hx.1

theorem unlink (h : WellFormed s) (hdp : (s.node dp).type = T_DIR) (name : List UInt8) :
    Ensures (s.unlink dp name) fun x => WellFormed x.2 := by
  refine .ite (fun _ => .ok h) fun _ => .bind (P := fun _ => True) (fun _ _ => trivial) ?_
  rintro (_ | ⟨off, ip⟩) -
  · exact .ok h
  · refine .ite (fun _ => .error) fun _ => .ite (fun _ => .ok h) fun _ => ?_
    refine .bind (P := fun x => x.2.Ok) ?_ fun x hx => .ok (.iput (.setNlink ?_ ..) _)
    · rcases (h.dirs dp hdp).unlink name false with ⟨hfail, -⟩ | ⟨-, d', hunlink, hok, -⟩
      · rw [hfail]
        exact .ok (h.dirs dp hdp)
      · rw [hunlink]
        exact .ok hok
    · have hset := h.setDir_ok hdp hx
      split
      · exact hset.setNlink ..
      · exact hset

theorem create (h : WellFormed s) (hdp : (s.node dp).type = T_DIR) (name : List UInt8)
    (type : Int16) : Ensures (s.create dp name type) fun x => WellFormed x.2 := by
  refine .bind (P := fun _ => True) (fun _ _ => trivial) ?_
  rintro (_ | ⟨off, ip⟩) -
  · cases hialloc : s.ialloc with
    | none => exact .ok h
    | some ip =>
        obtain ⟨⟨hne, hfree⟩, hlt⟩ : (ip ≠ 0 ∧ (s.node ip).type = 0) ∧ ip < Mkfs.NINODES := by
          have hfind := hialloc
          rw [ialloc] at hfind
          exact ⟨by simpa using List.find?_some hfind,
            List.mem_range.mp (List.mem_of_find?_eq_some hfind)⟩
        have hip : UInt16.ofNat ip ≠ 0 := by
          intro hzero
          have := congrArg UInt16.toNat hzero
          rw [UInt16.toNat_ofNat', Nat.mod_eq_of_lt (Nat.lt_trans hlt (by decide))] at this
          exact hne this
        -- The new inode, with its type and its link.
        have hother : dp ≠ ip := by
          rintro rfl
          rw [hdp] at hfree
          cases hfree
        generalize hs₁ : (s.setDir ip { (s.node ip).toDir with type := type }).setNlink ip 1 = s₁
        have h₁ : WellFormed s₁ := by
          rw [← hs₁]
          refine WellFormed.setNlink ?_ ip 1
          exact h.setDir (fun hdir => Dir.ok_of_size_zero hdir (h.idle ip hfree))
            (fun _ => h.idle ip hfree) fun _ => hip
        have hdp₁ : (s₁.node dp).type = T_DIR := by
          rw [← hs₁, toDir_setNlink]
          simpa [Filesys.setDir, hother] using hdp
        have hip₁ : (s₁.node ip).type = type := by
          rw [← hs₁, toDir_setNlink]
          simp [Filesys.setDir]
        have hfail : ∀ t, WellFormed t → WellFormed (t.fail ip).2 :=
          fun t ht => (ht.setNlink ip 0).iput ip
        have hdpNum : UInt16.ofNat dp ≠ 0 := h.inums dp (by rw [hdp]; decide)
        simp only [hs₁]
        refine .ite (fun hdir => ?_) fun _ => ?_
        · refine (h₁.dirlink (hip₁.trans hdir) hip DOT).bind fun x ⟨h₂, hkeep₂⟩ => ?_
          refine .ite (fun _ => .ok (hfail _ h₂)) fun _ => ?_
          refine (h₂.dirlink ((hkeep₂ ip).trans (hip₁.trans hdir)) hdpNum DOTDOT).bind
            fun y ⟨h₃, hkeep₃⟩ => ?_
          refine .ite (fun _ => .ok (hfail _ h₃)) fun _ => ?_
          refine (h₃.dirlink ((hkeep₃ dp).trans ((hkeep₂ dp).trans hdp₁)) hip name).bind
            fun z ⟨h₄, _⟩ => ?_
          exact .ite (fun _ => .ok (hfail _ h₄)) fun _ => .ok (h₄.setNlink ..)
        · refine (h₁.dirlink hdp₁ hip name).bind fun x ⟨h₂, _⟩ => ?_
          exact .ite (fun _ => .ok (hfail _ h₂)) fun _ => .ok h₂
  · exact .ite (fun _ => .ok h) fun _ => .ok h

theorem of_fresh (h : Fresh s) : WellFormed s := by
  have hcases : ∀ i, i = ROOTINO ∨ i = 2 ∨ (s.node i).type = 0 ∧ (s.node i).size = 0 := by
    intro i
    by_cases hroot : i = ROOTINO
    · exact .inl hroot
    · by_cases hfile : i = 2
      · exact .inr (.inl hfile)
      · exact .inr (.inr (h.rest i hroot hfile))
  refine ⟨fun i htype => ?_, fun i htype => ?_, fun i htype => ?_⟩ <;>
    obtain rfl | rfl | ⟨hzero, hsize⟩ := hcases i
  · exact h.root
  · rw [h.file.1] at htype
    cases htype
  · rw [hzero] at htype
    cases htype
  · rw [h.root.type] at htype
    cases htype
  · exact h.file.2.2
  · exact hsize
  · decide
  · decide
  · exact absurd hzero htype

end WellFormed

theorem Reachable.wellFormed (h : Reachable s) : WellFormed s := by
  refine Reach.invariant (fun _ => .of_fresh) (fun s op s' hallowed hstep hs => ?_) h
  have hresult : ∀ {x : Except String (Int × Filesys)}, Ensures x (fun y => WellFormed y.2) →
      some (x.map Prod.snd) = some (.ok s') → WellFormed s' := by
    intro x hx heq
    cases x with
    | error e => cases heq
    | ok y =>
        cases heq
        exact hx y rfl
  cases op with
  | create dp name type => exact hresult (hs.create hallowed.1 name type) hstep
  | link ip dp name => exact hresult (hs.link hallowed.1 hallowed.2 name) hstep
  | unlink dp name => exact hresult (hs.unlink hallowed name) hstep

end Filesys

/-- A short counts on up to its maximum. -/
theorem toInt_succ (n : Int16) :
    (n + 1).toInt = if n.toInt < 32767 then n.toInt + 1 else -32768 := by
  have hlo := n.le_toInt
  have hhi := n.toInt_lt
  have hone : (1 : Int16).toInt = 1 := rfl
  rw [Int16.toInt_add, hone, Int.bmod_def]
  split <;> split <;> omega

/-- sys_link returns 0 exactly when the new name can be stored.  It counts the name, and fails
without a change to any inode otherwise, if and only if the count is below the maximum of a short
(and not negative already) where the name can be stored. -/
theorem link_counts_iff (s : Filesys) (hs : Reachable s) (ip : Nat) (dp : Option Nat)
    (name : List UInt8) (hop : (Op.link ip dp name).Allowed s) :
    ∃ r s', s.link ip dp name = .ok (r, s') ∧ (r = 0 ↔ s.Linkable ip dp name) ∧
      (((r = 0 → 0 < (s'.node ip).nlink.toInt ∧
            (s'.node ip).nlink.toInt = (s.node ip).nlink.toInt + 1) ∧
          (r ≠ 0 → r = -1 ∧ s'.node = s.node)) ↔
        (s.Linkable ip dp name →
          0 ≤ (s.node ip).nlink.toInt ∧ (s.node ip).nlink.toInt < 32767)) := by
  have hwf := Filesys.Reachable.wellFormed hs
  obtain ⟨r, s', hlink, hcan⟩ := Filesys.link_ok (fun d hd => hwf.dirs d (hop.2 d hd))
    (hwf.inums ip hop.1) name
  refine ⟨r, s', hlink, hcan, ?_⟩
  rw [← hcan]
  rcases Filesys.link_result hlink with ⟨rfl, hnode⟩ | ⟨rfl, hnlink⟩
  · exact iff_of_true ⟨fun h => absurd h (by decide), fun _ => ⟨rfl, hnode⟩⟩
      fun h => absurd h (by decide)
  · have hhi := (s.node ip).nlink.toInt_lt
    have hlo := (s.node ip).nlink.le_toInt
    rw [hnlink, toInt_succ]
    simp only [true_implies, ne_eq, not_true, false_implies, and_true]
    split <;> omega

/-! ### Filling a directory with names -/

/-- Different names of three letters. -/
def nm (i : Nat) : List UInt8 :=
  [UInt8.ofNat (97 + i % 26), UInt8.ofNat (97 + i / 26 % 26), UInt8.ofNat (97 + i / 676)]

/-- The number of such names. -/
def NAMES : Nat := 26 ^ 3

theorem key_nm {i : Nat} (hi : i < NAMES) : key (nm i) = nm i := by
  have hne : ∀ n, n < 256 → 0 < n → UInt8.ofNat n ≠ 0 := by
    intro n hn hpos h0
    have h := congrArg UInt8.toNat h0
    rw [UInt8.toNat_ofNat', Nat.mod_eq_of_lt hn] at h
    exact absurd h (by change n ≠ 0; omega)
  have h₁ := hne (97 + i % 26) (by omega) (by omega)
  have h₂ := hne (97 + i / 26 % 26) (by omega) (by omega)
  have h₃ := hne (97 + i / 676) (by simp only [NAMES] at hi; omega) (by omega)
  unfold nm
  generalize UInt8.ofNat (97 + i % 26) = a at h₁
  generalize UInt8.ofNat (97 + i / 26 % 26) = b at h₂
  generalize UInt8.ofNat (97 + i / 676) = c at h₃
  simp [key, keyOf, DIRSIZ, h₁, h₂, h₃]

theorem nm_inj {i j : Nat} (hi : i < NAMES) (hj : j < NAMES) (h : nm i = nm j) : i = j := by
  have hbyte : ∀ m n, m < 256 → n < 256 → UInt8.ofNat m = UInt8.ofNat n → m = n := by
    intro m n hm hn h
    have h' := congrArg UInt8.toNat h
    rwa [UInt8.toNat_ofNat', UInt8.toNat_ofNat', Nat.mod_eq_of_lt hm, Nat.mod_eq_of_lt hn] at h'
  simp only [nm, List.cons.injEq, and_true] at h
  simp only [NAMES] at hi hj
  have h₁ := hbyte _ _ (by omega) (by omega) h.1
  have h₂ := hbyte _ _ (by omega) (by omega) h.2.1
  have h₃ := hbyte _ _ (by omega) (by omega) h.2.2
  omega

/-- The number of blocks of an inode. -/
def Filesys.blocks (s : Filesys) (i : Nat) : Nat := spans (s.node i).size + (s.ind i).toNat

/-- A new entry lies in the last block, or in a new one. -/
theorem spans_succ {n : Nat} (h : n % DIRENT = 0) :
    spans (n + DIRENT) = if n % BSIZE = 0 then spans n + 1 else spans n := by
  by_cases hn : n % BSIZE = 0
  · rw [if_pos hn]
    simp only [spans, DIRENT, BSIZE] at h hn ⊢
    omega
  · rw [if_neg hn]
    simp only [spans, DIRENT, BSIZE] at h hn ⊢
    omega

namespace Filesys

variable {s : Filesys} {dp : Nat} {name : List UInt8} {inum : UInt16}

/-- `s'` is `s` with one more name in the directory `dp`, for which blocks went from the free ones
to the directory. -/
structure Adds (s s' : Filesys) (dp : Nat) (name : List UInt8) (inum : UInt16) : Prop where
  ok : (s'.node dp).toDir.Ok
  find : ∀ k, (s'.node dp).find k = if key name = k then some inum else (s.node dp).find k
  size : (s'.node dp).size ≤ (s.node dp).size + DIRENT
  blocks : s'.free + s'.blocks dp = s.free + s.blocks dp
  nlink : ∀ i, (s'.node i).nlink = (s.node i).nlink
  node : ∀ i, i ≠ dp → s'.node i = s.node i
  ind : ∀ i, i ≠ dp → s'.ind i = s.ind i

/-- Only the directory and its indirect block have changed. -/
theorem Adds.of_setDir {s' : Filesys} {d : Dir} (hnode : s'.node = (s.setDir dp d).node)
    (hind : ∀ i, i ≠ dp → s'.ind i = s.ind i) (hok : d.Ok)
    (hfind : ∀ k, d.find k = if key name = k then some inum else (s.node dp).find k)
    (hsize : d.size ≤ (s.node dp).size + DIRENT)
    (hblocks : s'.free + (spans d.size + (s'.ind dp).toNat) = s.free + s.blocks dp) :
    Adds s s' dp name inum := by
  have hdp : (s'.node dp).toDir = d := by
    rw [hnode]
    simp [setDir]
  refine ⟨?_, ?_, ?_, ?_, fun i => ?_, fun i hi => ?_, hind⟩
  · rw [hdp]
    exact hok
  · rw [hdp]
    exact hfind
  · rw [hdp]
    exact hsize
  · rw [Filesys.blocks, hdp]
    exact hblocks
  · rw [hnode]
    exact nlink_setDir s dp d i
  · rw [hnode]
    exact Function.update_of_ne hi _ _

/-- A new block costs one free block, and another one when it is the first one that the indirect
block lists. -/
theorem grow_free {free : Nat} (ind : Bool) (bn : Nat) (hfree : 2 ≤ free) :
    (grow free ind bn).1 = true ∧
      (grow free ind bn).2.1 + (1 + (grow free ind bn).2.2.toNat) = free + ind.toNat := by
  rw [grow]
  split
  · exact ⟨decide_eq_true (by omega), by simp only; omega⟩
  · next hind =>
      have hno : ind = false := Bool.eq_false_iff.mpr fun h => hind (.inr h)
      have hpos : 0 < free := by omega
      refine ⟨decide_eq_true (by omega), ?_⟩
      simp only [hno, decide_eq_true hpos, Bool.toNat_true, Bool.toNat_false]
      omega

/-- With two free blocks and below the maximal size dirlink adds a new name. -/
theorem dirlink_adds (s : Filesys) (dp : Nat) (name : List UInt8) (inum : UInt16)
    (hok : (s.node dp).toDir.Ok) (hfind : (s.node dp).find (key name) = none)
    (hinum : inum ≠ 0) (hsize : (s.node dp).size + DIRENT ≤ MAXFILE * BSIZE) (hfree : 2 ≤ s.free) :
    ∃ s', s.dirlink dp name inum = .ok (0, s') ∧ Adds s s' dp name inum := by
  have hlookup := Dir.dirlookup_none hok.type hok.size hfind
  obtain ⟨halloc, hgrow⟩ := grow_free (s.ind dp) ((s.node dp).size / BSIZE) hfree
  generalize hg : grow s.free (s.ind dp) ((s.node dp).size / BSIZE) = g at halloc hgrow
  by_cases hhas : (s.node dp).toDir.HasFree
  · obtain ⟨d', hlink, hsize', hok', hfind'⟩ := Dir.dirlink_free hok hfind hinum hhas g.1
    obtain ⟨j, -, -, hscan⟩ := Dir.scan_free hok.size hhas
    have hneeds : (s.node dp).toDir.needsBlock name = false := by
      rw [Dir.needsBlock, hlookup, hscan]
    refine ⟨s.setDir dp d', ?_, .of_setDir rfl (fun _ _ => rfl) hok' hfind' ?_ ?_⟩
    · simp only [dirlink, hg, hlink, hneeds]
      rfl
    · rw [hsize']
      exact Nat.le_add_right _ _
    · rw [hsize']
      rfl
  · have hscan := Dir.scan_full hok.size hhas
    obtain ⟨d', hlink, hsize', hok', hfind'⟩ :=
      Dir.dirlink_grow hok hfind hinum hhas ⟨hsize, fun _ => halloc⟩
    have hspans := spans_succ hok.size
    by_cases hnew : (s.node dp).size % BSIZE = 0
    · have hneeds : (s.node dp).toDir.needsBlock name = true := by
        rw [Dir.needsBlock, hlookup, hscan]
        exact decide_eq_true ⟨hnew, hsize⟩
      refine ⟨{ s.setDir dp d' with free := g.2.1, ind := Function.update s.ind dp g.2.2 }, ?_,
        .of_setDir rfl (fun i hi => Function.update_of_ne hi _ _) hok' hfind' (Nat.le_of_eq hsize')
        ?_⟩
      · simp only [dirlink, hg, hlink, hneeds]
        rfl
      · simp only [Function.update_self, blocks]
        rw [hsize', hspans, if_pos hnew]
        omega
    · have hneeds : (s.node dp).toDir.needsBlock name = false := by
        rw [Dir.needsBlock, hlookup, hscan]
        exact decide_eq_false fun h => hnew h.1
      refine ⟨s.setDir dp d', ?_,
        .of_setDir rfl (fun _ _ => rfl) hok' hfind' (Nat.le_of_eq hsize') ?_⟩
      · simp only [dirlink, hg, hlink, hneeds]
        rfl
      · rw [hsize', hspans, if_neg hnew]
        rfl

/-- A directory that has room for the names from `k` on, and a file to link. -/
structure Filling (s : Filesys) (f dp k : Nat) : Prop where
  file : (s.node f).type = T_FILE
  inum : f < 2 ^ 16 ∧ f ≠ 0
  ne : f ≠ dp
  ok : (s.node dp).toDir.Ok
  fresh : ∀ i, k ≤ i → i < NAMES → (s.node dp).find (nm i) = none
  size : (s.node dp).size ≤ BSIZE + DIRENT * (k + 1)
  blocks : 300 ≤ s.free + s.blocks dp

variable {f k : Nat}

theorem nlink_setNlink_of_ne {i j : Nat} (h : j ≠ i) (s : Filesys) (n : Int16) :
    (s.setNlink i n).node j = s.node j := Function.update_of_ne h _ _

theorem blocks_le (h : (s.node dp).toDir.Ok) : s.blocks dp ≤ 269 := by
  have hspans : spans (s.node dp).size ≤ MAXFILE := spans_le h.small
  have hind : (s.ind dp).toNat ≤ 1 := Bool.toNat_le _
  simp only [MAXFILE, NDIRECT, NINDIRECT, BSIZE] at hspans
  simp only [Filesys.blocks]
  omega

/-- There are more blocks free than a directory can take. -/
theorem Filling.free (h : Filling s f dp k) : 2 ≤ s.free := by
  have hle := blocks_le h.ok
  have hblocks := h.blocks
  omega

/-- One more name for the file. -/
theorem Filling.link (h : Filling s f dp k) (hk : k < 17000) :
    ∃ s', s.link f (some dp) (nm k) = .ok (0, s') ∧ Filling s' f dp (k + 1) ∧
      (s'.node f).nlink = (s.node f).nlink + 1 ∧
      s'.free + s'.blocks dp = s.free + s.blocks dp ∧
      ∀ i, i ≠ dp → (s'.node i).toDir = (s.node i).toDir ∧ s'.ind i = s.ind i := by
  have hkn : k < NAMES := by
    simp only [NAMES]
    omega
  have hne := h.ne
  generalize hs₁ : s.setNlink f ((s.node f).nlink + 1) = s₁
  have hdir : (s₁.node dp).toDir = (s.node dp).toDir := by rw [← hs₁, toDir_setNlink]
  have hsize : (s₁.node dp).size + DIRENT ≤ MAXFILE * BSIZE := by
    have hsize := h.size
    rw [hdir]
    simp only [DIRENT, MAXFILE, NDIRECT, NINDIRECT, BSIZE] at hsize ⊢
    omega
  have hinum : UInt16.ofNat f ≠ 0 := by
    intro h0
    have h' := congrArg UInt16.toNat h0
    rw [UInt16.toNat_ofNat', Nat.mod_eq_of_lt h.inum.1] at h'
    exact h.inum.2 h'
  have hfind : (s₁.node dp).find (key (nm k)) = none := by
    rw [key_nm hkn, hdir]
    exact h.fresh k (Nat.le_refl k) hkn
  have hfree₁ : s₁.free = s.free := by rw [← hs₁]; rfl
  have hind₁ : s₁.ind = s.ind := by rw [← hs₁]; rfl
  have hblocks₁ : s₁.blocks dp = s.blocks dp := by rw [Filesys.blocks, Filesys.blocks, hdir, hind₁]
  obtain ⟨s', hlink, hadds⟩ :=
    s₁.dirlink_adds dp (nm k) _ (hdir ▸ h.ok) hfind hinum hsize (hfree₁ ▸ h.free)
  have hf : s'.node f = s₁.node f := hadds.node f hne
  have hsize' := hadds.size
  have htype : ((s₁.node f).toDir) = (s.node f).toDir := by rw [← hs₁, toDir_setNlink]
  refine ⟨s', ?_, ?_, ?_, ?_, fun i hi => ?_⟩
  · have hnotdir : (s.node f).type ≠ T_DIR := by
      rw [h.file]
      decide
    simp only [Filesys.link, if_neg hnotdir, hs₁, hlink]
    rfl
  · refine ⟨?_, h.inum, hne, hadds.ok, fun i hi hin => ?_, ?_, ?_⟩
    · rw [hf, htype]
      exact h.file
    · rw [hadds.find, key_nm hkn, if_neg fun heq => by have := nm_inj hkn hin heq; omega, hdir]
      exact h.fresh i (by omega) hin
    · rw [hdir] at hsize'
      have hsize := h.size
      simp only [DIRENT] at hsize hsize' ⊢
      omega
    · rw [hadds.blocks, hfree₁, hblocks₁]
      exact h.blocks
  · rw [hadds.nlink f, ← hs₁]
    simp [setNlink]
  · rw [hadds.blocks, hfree₁, hblocks₁]
  · rw [hadds.node i hi, ← hs₁, toDir_setNlink, hadds.ind i hi, hind₁]
    exact ⟨rfl, rfl⟩

/-- `m` more names. -/
theorem Filling.run (h : Filling s f dp k) (hs : Reachable s) (m : Nat) (hm : k + m ≤ 17000)
    (hn : (s.node f).nlink.toInt + m ≤ 32767) :
    ∃ s', Reachable s' ∧ Filling s' f dp (k + m) ∧
      (s'.node f).nlink.toInt = (s.node f).nlink.toInt + m ∧
      s'.free + s'.blocks dp = s.free + s.blocks dp ∧
      ∀ i, i ≠ dp → (s'.node i).toDir = (s.node i).toDir ∧ s'.ind i = s.ind i := by
  induction m with
  | zero => exact ⟨s, hs, h, (Int.add_zero _).symm, rfl, fun i _ => ⟨rfl, rfl⟩⟩
  | succ m ih =>
      obtain ⟨s₁, hs₁, h₁, hn₁, hblocks₁, hrest₁⟩ := ih (by omega) (by omega)
      obtain ⟨s₂, hlink, h₂, hn₂, hblocks₂, hrest₂⟩ := h₁.link (by omega)
      refine ⟨s₂, ?_, h₂, ?_, hblocks₂.trans hblocks₁, fun i hi => ?_⟩
      · refine Reach.next (a := .link f (some dp) (nm (k + m))) hs₁ ?_ ?_
        · refine ⟨?_, fun d hd => ?_⟩
          · rw [h₁.file]
            decide
          · obtain rfl := Option.some.inj hd
            exact h₁.ok.type
        · simp only [Filesys.step, hlink]
          rfl
      · rw [hn₂, toInt_succ, if_pos (by omega), hn₁]
        omega
      · exact ⟨(hrest₂ i hi).1.trans (hrest₁ i hi).1, (hrest₂ i hi).2.trans (hrest₁ i hi).2⟩

/-- A name of three letters is none of the names of a fresh directory. -/
theorem nm_ne {i : Nat} {l : List UInt8} (h : l.length ≠ 3) : l ≠ nm i := by
  rintro rfl
  exact h rfl

/-- The directory "d". -/
def SUBDIR : List UInt8 := [100]

theorem ialloc_fresh (h : Fresh s) : s.ialloc = some 3 := by
  have hroot : (s.node 1).type = T_DIR := h.root.type
  rw [ialloc, List.find?_range_eq_some]
  refine ⟨decide_eq_true ⟨by decide, (h.rest 3 (by decide) (by decide)).1⟩,
    List.mem_range.mpr (by decide), fun j hj => ?_⟩
  obtain rfl | rfl | rfl : j = 0 ∨ j = 1 ∨ j = 2 := by omega
  · rfl
  · simp [hroot, T_DIR]
  · simp [h.file.1, T_FILE]

theorem find_of_size_zero {d : Dir} (hsize : d.size = 0) (k : List UInt8) : d.find k = none := by
  rw [Dir.find_eq_none]
  intro j hj
  simp only [Dir.count, hsize, Nat.zero_div] at hj
  omega

/-- mkdir of "d" on a fresh disk: two directories with room for names, and the file with one
link. -/
theorem create_fresh (h : Fresh s) :
    ∃ s', s.create ROOTINO SUBDIR T_DIR = .ok (3, s') ∧ Filling s' 2 ROOTINO 0 ∧
      Filling s' 2 3 0 ∧ (s'.node 2).nlink = 1 ∧
      s'.free + s'.blocks ROOTINO + s'.blocks 3 = 1954 := by
  have hlookup : (s.node ROOTINO).dirlookup SUBDIR = .ok none :=
    Dir.dirlookup_none h.root.type h.root.size (by rw [h.names]; rfl)
  -- The new inode, with its type and its link.
  generalize hs₁ : (s.setDir 3 { (s.node 3).toDir with type := T_DIR }).setNlink 3 1 = s₁
  have hdir₁ : (s₁.node 3).toDir = { (s.node 3).toDir with type := T_DIR } := by
    rw [← hs₁, toDir_setNlink]
    simp [setDir]
  have hother₁ : ∀ i, i ≠ 3 → s₁.node i = s.node i := by
    intro i hi
    rw [← hs₁, nlink_setNlink_of_ne hi]
    exact Function.update_of_ne hi _ _
  have hsize₁ : (s₁.node 3).size = 0 := by
    rw [hdir₁]
    exact (h.rest 3 (by decide) (by decide)).2
  have htype₁ : (s₁.node 3).type = T_DIR := by rw [hdir₁]
  have hfree₁ : s₁.free = 1953 := by
    rw [← hs₁]
    exact h.free
  have hind₁ : ∀ i, s₁.ind i = false := by
    rw [← hs₁]
    exact h.ind
  have hblocks₁ : s₁.blocks 3 = 0 := by
    rw [blocks, hsize₁, hind₁]
    rfl
  have hok₁ := Dir.ok_of_size_zero htype₁ hsize₁
  obtain ⟨s₂, hlink₂, h₂⟩ :=
    s₁.dirlink_adds 3 DOT 3 hok₁ (find_of_size_zero hsize₁ _) (by decide)
      (by rw [hsize₁]; decide) (by rw [hfree₁]; decide)
  have hle₂ := blocks_le h₂.ok
  have hblocks₂ := h₂.blocks
  have hsize₂ := h₂.size
  rw [hsize₁] at hsize₂
  obtain ⟨s₃, hlink₃, h₃⟩ :=
    s₂.dirlink_adds 3 DOTDOT 1 h₂.ok
      (by rw [h₂.find, find_of_size_zero hsize₁]; rfl) (by decide)
      (by simp only [DIRENT, MAXFILE, NDIRECT, NINDIRECT, BSIZE] at hsize₂ ⊢; omega) (by omega)
  have hle₃ := blocks_le h₃.ok
  have hblocks₃ := h₃.blocks
  have hsize₃ := h₃.size
  have hroot₃ : s₃.node ROOTINO = s.node ROOTINO := by
    rw [h₃.node _ (by decide), h₂.node _ (by decide), hother₁ _ (by decide)]
  have hrootBlocks : s₃.blocks ROOTINO = 1 := by
    rw [blocks, hroot₃, h₃.ind _ (by decide), h₂.ind _ (by decide), hind₁, h.size]
    rfl
  obtain ⟨s₄, hlink₄, h₄⟩ :=
    s₃.dirlink_adds ROOTINO SUBDIR 3 (hroot₃ ▸ h.root)
      (by rw [hroot₃, h.names]; rfl) (by decide) (by rw [hroot₃, h.size]; decide) (by omega)
  have hle₄ := blocks_le h₄.ok
  have hblocks₄ := h₄.blocks
  have hsize₄ := h₄.size
  rw [hroot₃, h.size] at hsize₄
  have h₃₄ : s₄.node 3 = s₃.node 3 := h₄.node 3 (by decide)
  have hblocks₃₄ : s₄.blocks 3 = s₃.blocks 3 := by
    rw [blocks, blocks, h₃₄, h₄.ind 3 (by decide)]
  have hfile : s₄.node 2 = s.node 2 := by
    rw [h₄.node 2 (by decide), h₃.node 2 (by decide), h₂.node 2 (by decide),
      hother₁ 2 (by decide)]
  generalize hs₅ : s₄.setNlink ROOTINO ((s₄.node ROOTINO).nlink + 1) = s₅
  have hdir₅ : ∀ i, (s₅.node i).toDir = (s₄.node i).toDir := by
    intro i
    rw [← hs₅, toDir_setNlink]
  have hfree₅ : s₅.free = s₄.free := by rw [← hs₅]; rfl
  have hblocks₅ : ∀ i, s₅.blocks i = s₄.blocks i := by
    intro i
    rw [blocks, blocks, hdir₅, ← hs₅]
    rfl
  have hfile₅ : (s₅.node 2).type = T_FILE := by
    rw [hdir₅, hfile]
    exact h.file.1
  refine ⟨s₅, ?_, ?_, ?_, ?_, ?_⟩
  · simp only [create, hlookup]
    change (match s.ialloc with | none => _ | some ip => _) = _
    rw [ialloc_fresh h]
    simp only [hs₁, if_true]
    change (s₁.dirlink 3 DOT 3 >>= _) = _
    rw [hlink₂]
    change (s₂.dirlink 3 DOTDOT 1 >>= _) = _
    rw [hlink₃]
    change (s₃.dirlink ROOTINO SUBDIR 3 >>= _) = _
    rw [hlink₄]
    change Except.ok (3, s₄.setNlink ROOTINO ((s₄.node ROOTINO).nlink + 1)) = _
    rw [hs₅]
  · refine ⟨hfile₅, by decide, by decide, by rw [hdir₅]; exact h₄.ok, fun i _ hi => ?_, ?_, ?_⟩
    · rw [hdir₅, h₄.find, hroot₃, h.names]
      rw [if_neg (nm_ne (by decide)), if_neg (fun hor => hor.elim
        (fun h => nm_ne (by decide) h.symm) fun h => nm_ne (by decide) h.symm),
        if_neg fun h => nm_ne (by decide) h.symm]
    · rw [hdir₅]
      exact hsize₄
    · rw [hfree₅, hblocks₅]
      omega
  · refine ⟨hfile₅, by decide, by decide, by rw [hdir₅, h₃₄]; exact h₃.ok, fun i _ hi => ?_, ?_, ?_⟩
    · rw [hdir₅, h₃₄, h₃.find, h₂.find, find_of_size_zero hsize₁]
      rw [if_neg (nm_ne (by decide)), if_neg (nm_ne (by decide))]
    · rw [hdir₅, h₃₄]
      simp only [DIRENT, BSIZE] at hsize₂ hsize₃ ⊢
      omega
    · rw [hfree₅, hblocks₅]
      omega
  · rw [← hs₅, nlink_setNlink_of_ne (by decide), hfile]
    exact h.file.2.1
  · rw [hfree₅, hblocks₅, hblocks₅]
    omega

end Filesys

namespace NlinkWitness

open Filesys

variable {d : Dir}

/-- An entry is put into a free slot. -/
theorem exists_put (j : Nat) (name : List UInt8) (inum : UInt16) (h : d.Ok) (hj : j < d.count)
    (hzero : (d.slot j).inum = 0) (hinum : inum ≠ 0)
    (habsent : d.find (key name) = none) :
    ∃ d' : Dir, d'.Ok ∧ d'.size = d.size ∧ (∀ m, m ≠ j → d'.slot m = d.slot m) ∧
      ∀ k, d'.find k = if key name = k then some inum else d.find k := by
  obtain ⟨d', hwrite⟩ := Dir.writei_slot h hj false ⟨inum, strncpy DIRSIZ name⟩
  have hstored := Dir.stored_of_writei h (Nat.le_of_lt hj) (length_strncpy _ _) hwrite
  obtain ⟨hok, hfind⟩ := hstored.link h hinum (fun _ => hzero) habsent
  refine ⟨d', hok, ?_, hstored.other, hfind⟩
  have hsize := hstored.size
  have hcount := Dir.count_mul h.size
  simp only [DIRENT] at hsize hcount
  omega

/-- The root directory of a fresh disk: one block, of which three entries are in use. -/
theorem exists_root : ∃ d : Dir, d.Ok ∧ d.size = BSIZE ∧ ∀ k, d.find k =
    if k = DOT ∨ k = DOTDOT then some 1 else if k = FILE then some 2 else none := by
  have hzero : ∀ j, (Dir.slot { size := BSIZE, data := fun _ => 0 } j).inum = 0 := by
    intro j
    simp only [Dir.slot, Dir.dirent, getLE_zero]
    rfl
  have hok : Dir.Ok { size := BSIZE, data := fun _ => 0 } :=
    ⟨rfl, rfl, by decide, fun i j _ _ k hi => absurd (hzero i) hi.1⟩
  have hnone : ∀ k, Dir.find { size := BSIZE, data := fun _ => 0 } k = none := by
    intro k
    rw [Dir.find_eq_none]
    exact fun j _ huses => huses.1 (hzero j)
  have hcount : ∀ d : Dir, d.size = BSIZE → d.count = 64 := by
    intro d hd
    rw [Dir.count, hd]
    rfl
  obtain ⟨d₁, hok₁, hsize₁, hslot₁, hfind₁⟩ := exists_put 0 DOT 1 hok
    (by rw [hcount _ rfl]; decide) (hzero 0) (by decide) (hnone _)
  obtain ⟨d₂, hok₂, hsize₂, hslot₂, hfind₂⟩ := exists_put 1 DOTDOT 1 hok₁
    (by rw [hcount _ hsize₁]; decide) (by rw [hslot₁ 1 (by decide)]; exact hzero 1) (by decide)
    (by rw [hfind₁, hnone]; rfl)
  obtain ⟨d₃, hok₃, hsize₃, -, hfind₃⟩ := exists_put 2 FILE 2 hok₂
    (by rw [hcount _ (hsize₂.trans hsize₁)]; decide)
    (by rw [hslot₂ 2 (by decide), hslot₁ 2 (by decide)]; exact hzero 2) (by decide)
    (by rw [hfind₂, hfind₁, hnone]; rfl)
  refine ⟨d₃, hok₃, hsize₃.trans (hsize₂.trans hsize₁), fun k => ?_⟩
  rw [hfind₃, hfind₂, hfind₁, hnone]
  have hkeys : key FILE = FILE ∧ key DOTDOT = DOTDOT ∧ key DOT = DOT := ⟨rfl, rfl, rfl⟩
  rw [hkeys.1, hkeys.2.1, hkeys.2.2]
  by_cases hdot : k = DOT
  · rw [hdot]
    rfl
  by_cases hdotdot : k = DOTDOT
  · rw [hdotdot]
    rfl
  by_cases hfile : k = FILE
  · rw [hfile]
    rfl
  · rw [if_neg (Ne.symm hfile), if_neg (Ne.symm hdotdot), if_neg (Ne.symm hdot),
      if_neg fun hor => hor.elim hdot hdotdot, if_neg hfile]

theorem exists_fresh : ∃ s, Fresh s := by
  obtain ⟨d, hok, hsize, hfind⟩ := exists_root
  refine ⟨{ node := fun i => if i = ROOTINO then { toDir := d, nlink := 1 } else
    { type := if i = 2 then T_FILE else 0, size := 0, data := fun _ => 0, nlink := 1 }
            ind := fun _ => false
            free := Mkfs.FSSIZE - Mkfs.nmeta - 1 }, ?_⟩
  refine ⟨hok, hsize, hfind, ⟨rfl, rfl, rfl⟩, fun i h₁ h₂ => ?_, fun _ => rfl, rfl⟩
  simp only [if_neg h₁, if_neg h₂]
  exact ⟨trivial, trivial⟩

/-- The first link to the file of a fresh disk: there is room in the root directory. -/
theorem link_counts_iff_fresh :
    ∃ s s', Reachable s ∧ s.link 2 (some ROOTINO) (nm 0) = .ok (0, s') ∧
      (s.node 2).nlink.toInt = 1 ∧ (s'.node 2).nlink.toInt = 2 := by
  obtain ⟨s, hfresh⟩ := exists_fresh
  have hs : Reachable s := .start hfresh
  have hone : (s.node 2).nlink.toInt = 1 := by
    rw [hfresh.file.2.1]
    rfl
  obtain ⟨r, s', hlink, hcan, hiff⟩ := link_counts_iff s hs 2 (some ROOTINO) (nm 0)
    ⟨by rw [hfresh.file.1]; decide, fun d hd => Option.some.inj hd ▸ hfresh.root.type⟩
  have hlinkable : s.Linkable 2 (some ROOTINO) (nm 0) := by
    refine ⟨by rw [hfresh.file.1]; decide, ROOTINO, rfl, ?_, .inr ?_⟩
    · exact Dir.dirlookup_none hfresh.root.type hfresh.root.size (by rw [hfresh.names]; rfl)
    · rw [hfresh.free, hfresh.ind, hfresh.size, Dir.Room, hfresh.size]
      decide
  obtain rfl := hcan.mpr hlinkable
  have hcounts := (hiff.mpr fun _ => by omega).1 rfl
  exact ⟨s, s', hs, hlink, hone, by omega⟩

/-- 17000 names in the root directory and 15766 in another one are as many as nlink can count.  The
next sys_link succeeds, and leaves nlink negative. -/
theorem link_overflows :
    ∃ s s', Reachable s ∧ (s.node 2).nlink.toInt = 32767 ∧
      s.link 2 (some 3) (nm 15766) = .ok (0, s') ∧ (s'.node 2).nlink.toInt = -32768 := by
  obtain ⟨s₀, hfresh⟩ := exists_fresh
  obtain ⟨s₁, hcreate, hroot, hdir, hnlink, hblocks⟩ := create_fresh hfresh
  have hs₁ : Reachable s₁ := by
    refine Reach.next (a := .create ROOTINO SUBDIR T_DIR) (.start hfresh)
      ⟨hfresh.root.type, .inl rfl⟩ ?_
    simp only [Filesys.step, hcreate]
    rfl
  have hone : (s₁.node 2).nlink.toInt = 1 := by
    rw [hnlink]
    rfl
  obtain ⟨s₂, hs₂, hroot₂, hnlink₂, hblocks₂, hrest₂⟩ :=
    hroot.run hs₁ 17000 (Nat.le_refl _) (by rw [hone]; decide)
  obtain ⟨hdir₂, hind₂⟩ := hrest₂ 3 (by decide)
  have hdirBlocks : s₂.blocks 3 = s₁.blocks 3 := by rw [blocks, blocks, hdir₂, hind₂]
  have hle := blocks_le hroot₂.ok
  have hfill : Filling s₂ 2 3 0 := by
    refine ⟨hroot₂.file, by decide, by decide, hdir₂ ▸ hdir.ok, ?_, hdir₂ ▸ hdir.size, ?_⟩
    · rw [hdir₂]
      exact hdir.fresh
    · omega
  obtain ⟨s₃, hs₃, hfill₃, hnlink₃, -⟩ := hfill.run hs₂ 15766 (by decide)
    (by rw [hnlink₂, hone]; decide)
  have hfull : (s₃.node 2).nlink.toInt = 32767 := by
    rw [hnlink₃, hnlink₂, hone]
    rfl
  obtain ⟨s₄, hlink, -, hnlink₄, -⟩ := hfill₃.link (by decide)
  refine ⟨s₃, s₄, hs₃, hfull, hlink, ?_⟩
  rw [hnlink₄, toInt_succ, hfull]
  rfl

end NlinkWitness

end Xv6.Fs
