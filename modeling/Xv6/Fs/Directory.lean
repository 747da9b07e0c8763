/-
Directories of kernel/fs.c: an inode whose content is an array of 16-byte entries.  A name is
stored without a terminator when it fills its 14 bytes, and slots are reused in any order.
-/
import Xv6.Fs.Layout
import Mathlib.Data.List.Basic

namespace Xv6.Fs

open Bytes

/-- `sizeof(struct dirent)` -/
def DIRENT : Nat := 16

/-- strncmp of two strings; the end of a list reads as NUL. -/
def strncmp : Nat → List UInt8 → List UInt8 → Int
  | 0, _, _ => 0
  | n + 1, p, q =>
      if p.headD 0 ≠ 0 ∧ p.headD 0 = q.headD 0 then strncmp n p.tail q.tail
      else (p.headD 0).toNat - (q.headD 0).toNat

/-- The `n` bytes that strncpy stores. -/
def strncpy : Nat → List UInt8 → List UInt8
  | 0, _ => []
  | n + 1, t =>
      if t.headD 0 = 0 then 0 :: List.replicate n 0 else t.headD 0 :: strncpy n t.tail

def namecmp (s t : List UInt8) : Int := strncmp DIRSIZ s t

/-- The inode of a directory, with the bytes of its blocks. -/
structure Dir where
  type : Int16 := T_DIR
  size : Nat
  data : Arr

/-- Store a directory entry. -/
def putDirent (b : Arr) (off : Nat) (de : Dirent) : Arr :=
  putBytes (putLE 2 b off de.inum.toNat) (off + 2) de.name

namespace Dir

/-- The entry at an offset. -/
def dirent (d : Dir) (off : Nat) : Dirent where
  inum := UInt16.ofNat (getLE 2 d.data off)
  name := (List.range DIRSIZ).map fun j => d.data (off + 2 + j)

/-- readi of one entry; `none` when fewer bytes are left. -/
def readi (d : Dir) (off : Nat) : Option Dirent :=
  if off + DIRENT ≤ d.size then some (d.dirent off) else none

/-- writei of one entry; `none` when it does not return 16.  A block below the end of the file is
allocated, and `alloc` says what balloc answers for a new one. -/
def writei (d : Dir) (alloc : Bool) (off : Nat) (de : Dirent) : Option Dir :=
  if d.size < off then none
  else if MAXFILE * BSIZE < off + DIRENT then none
  else if d.size ≤ off / BSIZE * BSIZE ∧ alloc = false then none
  else some { d with size := max d.size (off + DIRENT), data := putDirent d.data off de }

/-- The loop over the entries from `off` on, up to the first one with `p`. -/
def scan (d : Dir) (msg : String) (p : Dirent → Bool) (off : Nat) :
    Except String (Option (Nat × Dirent)) :=
  if off < d.size then
    match d.readi off with
    | none => .error msg
    | some de => if p de then .ok (some (off, de)) else d.scan msg p (off + DIRENT)
  else .ok none
termination_by d.size - off
decreasing_by simp only [DIRENT]; omega

/-- The offset and the inode number of the entry with this name. -/
def dirlookup (d : Dir) (name : List UInt8) : Except String (Option (Nat × UInt16)) :=
  if d.type ≠ T_DIR then .error "dirlookup not DIR"
  else do
    let found ← d.scan "dirlookup read" (fun de => de.inum ≠ 0 ∧ namecmp name de.name = 0) 0
    return found.map fun x => (x.1, x.2.inum)

def dirlink (d : Dir) (name : List UInt8) (inum : UInt16) (alloc : Bool) :
    Except String (Int × Dir) := do
  match ← d.dirlookup name with
  | some _ => return (-1, d)
  | none =>
      let found ← d.scan "dirlink read" (fun de => de.inum = 0) 0
      -- Without a free entry the loop leaves `off` at the end of the file.
      let off := (found.map Prod.fst).getD d.size
      match d.writei alloc off ⟨inum, strncpy DIRSIZ name⟩ with
      | none => return (-1, d)
      | some d' => return (0, d')

/-- What sys_unlink does to the directory. -/
def unlink (d : Dir) (name : List UInt8) (alloc : Bool) : Except String (Int × Dir) := do
  match ← d.dirlookup name with
  | none => return (-1, d)
  | some (off, _) =>
      match d.writei alloc off ⟨0, List.replicate DIRSIZ 0⟩ with
      | none => .error "unlink: writei"
      | some d' => return (0, d')

end Dir

/-! ### Names -/

/-- The name that a string stands for in a directory of `n`-byte names. -/
def keyOf (n : Nat) (s : List UInt8) : List UInt8 := (s.take n).takeWhile (· ≠ 0)

/-- The first `DIRSIZ` bytes up to NUL. -/
def key (s : List UInt8) : List UInt8 := keyOf DIRSIZ s

theorem keyOf_succ (n : Nat) (s : List UInt8) :
    keyOf (n + 1) s = if s.headD 0 = 0 then [] else s.headD 0 :: keyOf n s.tail := by
  cases s with
  | nil => simp [keyOf]
  | cons b s =>
      by_cases hb : b = 0
      · simp [keyOf, hb]
      · simp [keyOf, hb]

/-- strncmp answers 0 exactly for the same name. -/
theorem strncmp_eq_zero {n : Nat} {p q : List UInt8} :
    strncmp n p q = 0 ↔ keyOf n p = keyOf n q := by
  induction n generalizing p q with
  | zero => simp [strncmp, keyOf]
  | succ n ih =>
      rw [strncmp, keyOf_succ, keyOf_succ]
      generalize p.headD 0 = a, q.headD 0 = b
      by_cases hab : a = b
      · subst hab
        by_cases ha : a = 0
        · simp [ha]
        · simp [ha, ih]
      · have hne : (a.toNat : Int) - b.toNat ≠ 0 := by
          intro h
          exact hab (UInt8.toNat_inj.mp (by omega))
        rw [if_neg (fun h => hab h.2)]
        refine iff_of_false hne fun h => hab ?_
        split at h <;> split at h <;> simp_all

theorem keyOf_strncpy (n : Nat) (t : List UInt8) : keyOf n (strncpy n t) = keyOf n t := by
  induction n generalizing t with
  | zero => rfl
  | succ n ih =>
      rw [strncpy, keyOf_succ n t]
      split
      · rw [keyOf_succ, List.headD_cons, if_pos rfl]
      · next h => rw [keyOf_succ, List.headD_cons, if_neg h, List.tail_cons, ih]

theorem length_strncpy (n : Nat) (t : List UInt8) : (strncpy n t).length = n := by
  induction n generalizing t with
  | zero => rfl
  | succ n ih =>
      rw [strncpy]
      split
      · rw [List.length_cons, List.length_replicate]
      · rw [List.length_cons, ih]

/-! ### Entries -/

theorem dirent_congr {d d' : Dir} {off : Nat}
    (h : ∀ j, off ≤ j → j < off + DIRENT → d'.data j = d.data j) :
    d'.dirent off = d.dirent off := by
  simp only [DIRENT] at h
  have hinum : getLE 2 d'.data off = getLE 2 d.data off :=
    getLE_congr fun j hj hj' => h j hj (by omega)
  have hname : (List.range DIRSIZ).map (fun j => d'.data (off + 2 + j)) =
      (List.range DIRSIZ).map (fun j => d.data (off + 2 + j)) := by
    apply List.map_congr_left
    intro j hj
    have hj' := List.mem_range.mp hj
    simp only [DIRSIZ] at hj'
    exact h _ (by omega) (by omega)
  simp only [Dir.dirent, hinum, hname]

section put

variable {b : Arr} {off : Nat} {de : Dirent}

/-- An entry is stored in its own bytes. -/
theorem putDirent_of_disjoint (hde : de.name.length = DIRSIZ) {j : Nat}
    (h : j < off ∨ off + DIRENT ≤ j) : putDirent b off de j = b j := by
  simp only [DIRSIZ] at hde
  simp only [DIRENT] at h
  have hint : putLE 2 b off de.inum.toNat j = b j := putLE_of_disjoint (by omega)
  simp only [putDirent, putBytes]
  split
  · next hj =>
      rw [List.getElem?_eq_none (by omega), Option.getD_none, hint]
  · exact hint

/-- An entry is read back. -/
theorem dirent_putDirent (hde : de.name.length = DIRSIZ) {d : Dir}
    (h : d.data = putDirent b off de) : d.dirent off = de := by
  have hinum : UInt16.ofNat (getLE 2 d.data off) = de.inum := by
    have hget : getLE 2 d.data off = getLE 2 (putLE 2 b off de.inum.toNat) off := by
      apply getLE_congr
      intro j hj hj'
      rw [h]
      simp only [putDirent, putBytes]
      rw [if_neg (by omega)]
    have hlt : de.inum.toNat < 256 ^ 2 := de.inum.toNat_lt
    rw [hget, getLE_putLE_self, Nat.mod_eq_of_lt hlt, UInt16.ofNat_toNat]
  have hname : (List.range DIRSIZ).map (fun j => d.data (off + 2 + j)) = de.name := by
    apply List.ext_getElem
    · rw [List.length_map, List.length_range, hde]
    · intro j hj hj'
      rw [List.getElem_map, List.getElem_range, h]
      simp only [putDirent, putBytes]
      rw [if_pos (by omega), Nat.add_sub_cancel_left, List.getElem?_eq_getElem hj',
        Option.getD_some]
  cases de
  simp only [Dir.dirent] at hinum hname ⊢
  rw [hinum, hname]

end put

namespace Dir

/-- The number of entries. -/
def count (d : Dir) : Nat := d.size / DIRENT

def slot (d : Dir) (j : Nat) : Dirent := d.dirent (DIRENT * j)

/-- Entry `j` is in use for the name `k`. -/
def Uses (d : Dir) (k : List UInt8) (j : Nat) : Prop :=
  (d.slot j).inum ≠ 0 ∧ key (d.slot j).name = k

instance (d : Dir) (k : List UInt8) (j : Nat) : Decidable (d.Uses k j) :=
  inferInstanceAs (Decidable (_ ∧ _))

/-- The map that a directory stands for. -/
def find (d : Dir) (k : List UInt8) : Option UInt16 :=
  ((List.range d.count).find? fun j => d.Uses k j).map fun j => (d.slot j).inum

/-- No two entries in use have the same name. -/
def Distinct (d : Dir) : Prop :=
  ∀ i j, i < d.count → j < d.count → ∀ k, d.Uses k i → d.Uses k j → i = j

/-- A directory that the kernel's functions can work on. -/
structure Ok (d : Dir) : Prop where
  type : d.type = T_DIR
  size : d.size % DIRENT = 0
  small : d.size ≤ MAXFILE * BSIZE
  distinct : d.Distinct

variable {d d' : Dir} {k : List UInt8} {i : UInt16} {j : Nat}

theorem count_mul (h : d.size % DIRENT = 0) : DIRENT * d.count = d.size :=
  Nat.mul_div_cancel' (Nat.dvd_of_mod_eq_zero h)

theorem find_eq_none : d.find k = none ↔ ∀ j < d.count, ¬ d.Uses k j := by
  simp [find]

theorem uses_of_find? (h : ((List.range d.count).find? fun j => d.Uses k j) = some j) :
    j < d.count ∧ d.Uses k j := by
  have hmem := List.mem_of_find?_eq_some h
  have huses := List.find?_some h
  exact ⟨List.mem_range.mp hmem, of_decide_eq_true huses⟩

theorem find_of_uses (h : d.Distinct) (hj : j < d.count) (huses : d.Uses k j) :
    d.find k = some (d.slot j).inum := by
  cases hfind : (List.range d.count).find? fun j => d.Uses k j with
  | none =>
      have hnone := List.find?_eq_none.mp hfind j (List.mem_range.mpr hj)
      exact absurd (decide_eq_true huses) hnone
  | some m =>
      obtain ⟨hm, huses'⟩ := uses_of_find? hfind
      rw [find, hfind, h m j hm hj k huses' huses]
      rfl

/-- A name is found at the entry that is in use for it. -/
theorem find_eq_some (h : d.Distinct) :
    d.find k = some i ↔ ∃ j < d.count, d.Uses k j ∧ (d.slot j).inum = i := by
  constructor
  · intro hfind
    obtain ⟨j, hj, hi⟩ := Option.map_eq_some_iff.mp hfind
    exact ⟨j, (uses_of_find? hj).1, (uses_of_find? hj).2, hi⟩
  · rintro ⟨j, hj, huses, rfl⟩
    exact find_of_uses h hj huses

/-- The loop over the entries finds the first one with `p`. -/
theorem scan_eq (h : d.size % DIRENT = 0) (msg : String) (p : Dirent → Bool) (m j : Nat)
    (hj : j + m = d.count) :
    d.scan msg p (DIRENT * j) = .ok (((List.range' j m).find? fun j => p (d.slot j)).map
      fun j => (DIRENT * j, d.slot j)) := by
  have hsize := count_mul h
  induction m generalizing j with
  | zero =>
      rw [scan, if_neg (by simp only [DIRENT] at hsize ⊢; omega)]
      rfl
  | succ m ih =>
      have hlt : DIRENT * j + DIRENT ≤ d.size := by simp only [DIRENT] at hsize ⊢; omega
      have hread : d.readi (DIRENT * j) = some (d.slot j) := if_pos hlt
      rw [scan, if_pos (by simp only [DIRENT] at hlt ⊢; omega), hread, List.range'_succ,
        List.find?_cons]
      cases hp : p (d.slot j) with
      | true => simp [hp]
      | false =>
          simp only [hp, Bool.false_eq_true, if_false]
          rw [← Nat.mul_succ, ih (j + 1) (by omega)]

theorem scan_zero (h : d.size % DIRENT = 0) (msg : String) (p : Dirent → Bool) :
    d.scan msg p 0 = .ok (((List.range d.count).find? fun j => p (d.slot j)).map
      fun j => (DIRENT * j, d.slot j)) := by
  rw [List.range_eq_range', ← d.scan_eq h msg p d.count 0 (Nat.zero_add _), Nat.mul_zero]

/-- dirlookup reads the map, and reports the offset of an entry in use. -/
theorem dirlookup_eq (htype : d.type = T_DIR) (h : d.size % DIRENT = 0) (name : List UInt8) :
    d.dirlookup name = .ok (((List.range d.count).find? fun j => d.Uses (key name) j).map
      fun j => (DIRENT * j, (d.slot j).inum)) := by
  have hp : ∀ j, decide ((d.slot j).inum ≠ 0 ∧ namecmp name (d.slot j).name = 0) =
      decide (d.Uses (key name) j) := by
    intro j
    refine decide_eq_decide.mpr (and_congr_right fun _ => ?_)
    rw [namecmp, strncmp_eq_zero, eq_comm]
    rfl
  rw [dirlookup, if_neg (not_not.mpr htype), scan_zero h]
  simp only [hp]
  change Except.ok _ = _
  rw [Option.map_map]
  rfl

theorem dirlookup_none (htype : d.type = T_DIR) (h : d.size % DIRENT = 0) {name : List UInt8}
    (hfind : d.find (key name) = none) : d.dirlookup name = .ok none := by
  rw [dirlookup_eq htype h]
  have hnone := Option.map_eq_none_iff.mp hfind
  rw [hnone]
  rfl

theorem dirlookup_some (htype : d.type = T_DIR) (h : d.size % DIRENT = 0) {name : List UInt8}
    (hfind : d.find (key name) = some i) :
    ∃ j < d.count, d.Uses (key name) j ∧ (d.slot j).inum = i ∧
      d.dirlookup name = .ok (some (DIRENT * j, i)) := by
  obtain ⟨j, hj, hi⟩ := Option.map_eq_some_iff.mp hfind
  refine ⟨j, (uses_of_find? hj).1, (uses_of_find? hj).2, hi, ?_⟩
  rw [dirlookup_eq htype h, hj, ← hi]
  rfl

theorem exists_found_iff {name : List UInt8} :
    (∃ off, (((List.range d.count).find? fun j => d.Uses (key name) j).map
      fun j => (DIRENT * j, (d.slot j).inum)) = some (off, i)) ↔ d.find (key name) = some i := by
  simp only [find, Option.map_eq_some_iff, Prod.mk.injEq]
  constructor
  · rintro ⟨off, j, hj, -, hi⟩
    exact ⟨j, hj, hi⟩
  · rintro ⟨j, hj, hi⟩
    exact ⟨_, j, hj, rfl, hi⟩

theorem exists_dirlookup_iff (h : d.Ok) {name : List UInt8} :
    (∃ off, d.dirlookup name = .ok (some (off, i))) ↔ d.find (key name) = some i := by
  rw [dirlookup_eq h.type h.size, ← exists_found_iff]
  simp only [Except.ok.injEq]

theorem dirlookup_eq_none_iff (h : d.Ok) {name : List UInt8} :
    d.dirlookup name = .ok none ↔ d.find (key name) = none := by
  rw [dirlookup_eq h.type h.size, Except.ok.injEq, Option.map_eq_none_iff, find,
    Option.map_eq_none_iff]

/-! ### Stores -/

/-- Entry `j`, or the one after the last, has been overwritten by `de`. -/
structure Stored (d d' : Dir) (j : Nat) (de : Dirent) : Prop where
  within : j ≤ d.count
  type : d'.type = d.type
  size : d'.size = max d.size (DIRENT * j + DIRENT)
  small : d'.size ≤ MAXFILE * BSIZE
  self : d'.slot j = de
  other : ∀ m, m ≠ j → d'.slot m = d.slot m

variable {de : Dirent} {alloc : Bool}

/-- A write that succeeds stores the entry. -/
theorem stored_of_writei (h : d.Ok) (hj : j ≤ d.count) (hde : de.name.length = DIRSIZ)
    (hwrite : d.writei alloc (DIRENT * j) de = some d') : Stored d d' j de := by
  have hsize := count_mul h.size
  unfold writei at hwrite
  split at hwrite
  · cases hwrite
  split at hwrite
  · cases hwrite
  split at hwrite
  · cases hwrite
  next hroom _ =>
    obtain rfl := Option.some.inj hwrite
    refine ⟨hj, rfl, rfl, max_le h.small (Nat.le_of_not_lt hroom), dirent_putDirent hde rfl, ?_⟩
    intro m hm
    apply dirent_congr
    intro x hx hx'
    apply putDirent_of_disjoint hde
    simp only [DIRENT] at hx hx' ⊢
    omega

/-- An entry of the directory can be overwritten whether or not there are free blocks. -/
theorem writei_slot (h : d.Ok) (hj : j < d.count) (alloc : Bool) (de : Dirent) :
    ∃ d', d.writei alloc (DIRENT * j) de = some d' := by
  have hsize := count_mul h.size
  have hsmall := h.small
  have hend : DIRENT * j + DIRENT ≤ d.size := by simp only [DIRENT] at hsize ⊢; omega
  have hblock := Nat.div_mul_le_self (DIRENT * j) BSIZE
  have hpos : 0 < DIRENT := by decide
  rw [writei, if_neg (by omega), if_neg (by omega), if_neg (by omega)]
  exact ⟨_, rfl⟩

/-- The directory can grow by an entry: it is not at the maximal size of a file, and balloc finds
a block if a new one is needed. -/
def Room (d : Dir) (alloc : Bool) : Prop :=
  d.size + DIRENT ≤ MAXFILE * BSIZE ∧ (d.size % BSIZE = 0 → alloc = true)

theorem block_le_iff (n : Nat) : n ≤ n / BSIZE * BSIZE ↔ n % BSIZE = 0 := by
  have := Nat.div_add_mod' n BSIZE
  omega

theorem writei_end (d : Dir) (alloc : Bool) (de : Dirent) :
    (d.Room alloc ∧ ∃ d', d.writei alloc d.size de = some d') ∨
      (¬ d.Room alloc ∧ d.writei alloc d.size de = none) := by
  unfold writei Room
  simp only [Nat.lt_irrefl, if_false, block_le_iff]
  split
  · next h => exact .inr ⟨fun hroom => by omega, rfl⟩
  · split
    · next h => exact .inr ⟨fun hroom => by simp [hroom.2 h.1] at h, rfl⟩
    · next h h' =>
        refine .inl ⟨⟨Nat.le_of_not_lt h, fun hmod => ?_⟩, _, rfl⟩
        cases alloc with
        | true => rfl
        | false => exact absurd ⟨hmod, rfl⟩ h'

namespace Stored

theorem count (h : Stored d d' j de) (hd : d.size % DIRENT = 0) :
    d'.count = max d.count (j + 1) := by
  have hsize := count_mul hd
  have hsize' := h.size
  simp only [Dir.count, DIRENT] at hsize hsize' ⊢
  omega

theorem size_mod (h : Stored d d' j de) (hd : d.size % DIRENT = 0) : d'.size % DIRENT = 0 := by
  have hsize := h.size
  simp only [DIRENT] at hd hsize ⊢
  omega

theorem uses (h : Stored d d' j de) (k : List UInt8) (m : Nat) :
    d'.Uses k m ↔ if m = j then de.inum ≠ 0 ∧ key de.name = k else d.Uses k m := by
  unfold Uses
  split
  · next hm => rw [hm, h.self]
  · next hm => rw [h.other m hm]

/-- An entry other than the one stored was there before. -/
theorem lt_count (h : Stored d d' j de) (hd : d.size % DIRENT = 0) {m : Nat}
    (hm : m < d'.count) (hne : m ≠ j) : m < d.count := by
  have hcount := h.count hd
  have hwithin := h.within
  omega

variable {name : List UInt8} {inum : UInt16}

/-- A new name is added in a slot that is not in use. -/
theorem link (h : Stored d d' j ⟨inum, strncpy DIRSIZ name⟩) (hd : d.Ok) (hinum : inum ≠ 0)
    (hfree : j < d.count → (d.slot j).inum = 0) (habsent : d.find (key name) = none) :
    d'.Ok ∧ ∀ k, d'.find k = if key name = k then some inum else d.find k := by
  have hkey : key (strncpy DIRSIZ name) = key name := keyOf_strncpy _ _
  have habsent' := find_eq_none.mp habsent
  have huses : ∀ k m, d'.Uses k m ↔ if m = j then key name = k else d.Uses k m := by
    intro k m
    rw [h.uses, hkey]
    simp only [hinum, ne_eq, not_false_eq_true, true_and]
  -- The name is new, so no other entry is in use for it.
  have hother : ∀ {m}, m < d'.count → m ≠ j → ¬ d'.Uses (key name) m := by
    intro m hm hmj
    rw [huses, if_neg hmj]
    exact habsent' m (h.lt_count hd.size hm hmj)
  have hjcount : j < d'.count := by rw [h.count hd.size]; omega
  have hdistinct : d'.Distinct := by
    intro a b ha hb k hak hbk
    by_cases haj : a = j <;> by_cases hbj : b = j
    · rw [haj, hbj]
    · rw [huses, if_pos haj] at hak
      rw [← hak] at hbk
      exact absurd hbk (hother hb hbj)
    · rw [huses, if_pos hbj] at hbk
      rw [← hbk] at hak
      exact absurd hak (hother ha haj)
    · rw [huses, if_neg haj] at hak
      rw [huses, if_neg hbj] at hbk
      exact hd.distinct a b (h.lt_count hd.size ha haj) (h.lt_count hd.size hb hbj) k hak hbk
  refine ⟨⟨h.type.trans hd.type, h.size_mod hd.size, h.small, hdistinct⟩, fun k => ?_⟩
  split
  · next hk =>
      have hj : d'.Uses k j := by rw [huses, if_pos rfl, hk]
      rw [find_of_uses hdistinct hjcount hj, h.self]
  · next hk =>
      apply Option.ext
      intro i
      rw [find_eq_some hdistinct, find_eq_some hd.distinct]
      constructor
      · rintro ⟨m, hm, hum, hi⟩
        have hmj : m ≠ j := by
          rintro rfl
          rw [huses, if_pos rfl] at hum
          exact hk hum
        rw [huses, if_neg hmj] at hum
        exact ⟨m, h.lt_count hd.size hm hmj, hum, by rw [← hi, h.other m hmj]⟩
      · rintro ⟨m, hm, hum, hi⟩
        have hmj : m ≠ j := by
          rintro rfl
          exact hum.1 (hfree hm)
        refine ⟨m, by rw [h.count hd.size]; omega, ?_, by rw [h.other m hmj, hi]⟩
        rw [huses, if_neg hmj]
        exact hum

/-- The entry of a name is cleared. -/
theorem unlink (h : Stored d d' j ⟨0, List.replicate DIRSIZ 0⟩) (hd : d.Ok) (hj : j < d.count)
    (hname : d.Uses (key name) j) :
    d'.Ok ∧ ∀ k, d'.find k = if key name = k then none else d.find k := by
  have huses : ∀ k m, d'.Uses k m ↔ m ≠ j ∧ d.Uses k m := by
    intro k m
    rw [h.uses]
    by_cases hm : m = j <;> simp [hm]
  have hcount : d'.count = d.count := by rw [h.count hd.size]; omega
  have hdistinct : d'.Distinct := by
    intro a b ha hb k hak hbk
    rw [hcount] at ha hb
    exact hd.distinct a b ha hb k ((huses k a).mp hak).2 ((huses k b).mp hbk).2
  refine ⟨⟨h.type.trans hd.type, h.size_mod hd.size, h.small, hdistinct⟩, fun k => ?_⟩
  split
  · next hk =>
      rw [find_eq_none]
      intro m hm hum
      obtain ⟨hmj, hum⟩ := (huses k m).mp hum
      rw [hcount] at hm
      exact hmj (hd.distinct m j hm hj k hum (hk ▸ hname))
  · next hk =>
      apply Option.ext
      intro i
      rw [find_eq_some hdistinct, find_eq_some hd.distinct, hcount]
      constructor
      · rintro ⟨m, hm, hum, hi⟩
        obtain ⟨hmj, hum⟩ := (huses k m).mp hum
        exact ⟨m, hm, hum, by rw [← hi, h.other m hmj]⟩
      · rintro ⟨m, hm, hum, hi⟩
        have hmj : m ≠ j := by
          rintro rfl
          exact hk (hname.2.symm.trans hum.2)
        exact ⟨m, hm, (huses k m).mpr ⟨hmj, hum⟩, by rw [h.other m hmj, hi]⟩

end Stored

/-! ### The operations -/

variable {name : List UInt8} {inum : UInt16}

theorem dirlink_present (h : d.Ok) (hfind : d.find (key name) ≠ none) (inum : UInt16)
    (alloc : Bool) : d.dirlink name inum alloc = .ok (-1, d) := by
  obtain ⟨i, hi⟩ := Option.ne_none_iff_exists'.mp hfind
  obtain ⟨j, -, -, -, hlookup⟩ := dirlookup_some h.type h.size hi
  unfold dirlink
  rw [hlookup]
  rfl

/-- Some entry is free. -/
def HasFree (d : Dir) : Prop := ∃ j < d.count, (d.slot j).inum = 0

/-- The scan of dirlink stops at a free slot. -/
theorem scan_free (h : d.size % DIRENT = 0) (hfree : d.HasFree) :
    ∃ j < d.count, (d.slot j).inum = 0 ∧
      d.scan "dirlink read" (fun de => de.inum = 0) 0 = .ok (some (DIRENT * j, d.slot j)) := by
  rw [scan_zero h]
  cases hscan : (List.range d.count).find? fun j => decide ((d.slot j).inum = 0) with
  | none =>
      obtain ⟨j, hj, hj0⟩ := hfree
      have hnone := List.find?_eq_none.mp hscan j (List.mem_range.mpr hj)
      exact absurd (decide_eq_true hj0) hnone
  | some j =>
      have hj0 := List.find?_some hscan
      exact ⟨j, List.mem_range.mp (List.mem_of_find?_eq_some hscan), of_decide_eq_true hj0, rfl⟩

theorem scan_full (h : d.size % DIRENT = 0) (hfree : ¬ d.HasFree) :
    d.scan "dirlink read" (fun de => de.inum = 0) 0 = .ok none := by
  have hscan : ((List.range d.count).find? fun j => decide ((d.slot j).inum = 0)) = none := by
    apply List.find?_eq_none.mpr
    intro j hj hj0
    exact hfree ⟨j, List.mem_range.mp hj, of_decide_eq_true hj0⟩
  rw [scan_zero h, hscan]
  rfl

/-- A free slot is used, and the directory does not grow. -/
theorem dirlink_free (h : d.Ok) (hfind : d.find (key name) = none) (hinum : inum ≠ 0)
    (hfree : d.HasFree) (alloc : Bool) :
    ∃ d', d.dirlink name inum alloc = .ok (0, d') ∧ d'.size = d.size ∧ d'.Ok ∧
      ∀ k, d'.find k = if key name = k then some inum else d.find k := by
  obtain ⟨j, hj, hj0, hscan⟩ := scan_free h.size hfree
  obtain ⟨d', hwrite⟩ := writei_slot h hj alloc ⟨inum, strncpy DIRSIZ name⟩
  have hstored := stored_of_writei h (Nat.le_of_lt hj) (length_strncpy _ _) hwrite
  refine ⟨d', ?_, ?_, hstored.link h hinum (fun _ => hj0) hfind⟩
  · unfold dirlink
    rw [dirlookup_none h.type h.size hfind]
    change (d.scan _ _ 0 >>= _) = _
    rw [hscan]
    change (match d.writei alloc (DIRENT * j) _ with | none => _ | some d' => _) = _
    rw [hwrite]
    rfl
  · have hsize := hstored.size
    have hcount := count_mul h.size
    simp only [DIRENT] at hsize hcount
    omega

/-- Without a free slot dirlink writes at the end of the file. -/
theorem dirlink_full (h : d.Ok) (hfind : d.find (key name) = none) (hfree : ¬ d.HasFree)
    (inum : UInt16) (alloc : Bool) :
    d.dirlink name inum alloc =
      match d.writei alloc d.size ⟨inum, strncpy DIRSIZ name⟩ with
      | none => .ok (-1, d)
      | some d' => .ok (0, d') := by
  unfold dirlink
  rw [dirlookup_none h.type h.size hfind]
  change (d.scan _ _ 0 >>= _) = _
  rw [scan_full h.size hfree]
  rfl

theorem dirlink_grow (h : d.Ok) (hfind : d.find (key name) = none) (hinum : inum ≠ 0)
    (hfree : ¬ d.HasFree) (hroom : d.Room alloc) :
    ∃ d', d.dirlink name inum alloc = .ok (0, d') ∧ d'.size = d.size + DIRENT ∧ d'.Ok ∧
      ∀ k, d'.find k = if key name = k then some inum else d.find k := by
  have hsize := count_mul h.size
  rw [dirlink_full h hfind hfree]
  rcases writei_end d alloc ⟨inum, strncpy DIRSIZ name⟩ with ⟨-, d', hwrite⟩ | ⟨hno, -⟩
  · rw [hwrite]
    rw [← hsize] at hwrite
    have hstored := stored_of_writei h (Nat.le_refl _) (length_strncpy _ _) hwrite
    refine ⟨d', rfl, ?_, hstored.link h hinum (fun hlt => absurd hlt (Nat.lt_irrefl _)) hfind⟩
    rw [hstored.size, hsize]
    exact max_eq_right (Nat.le_add_right _ _)
  · exact absurd hroom hno

theorem dirlink_noRoom (h : d.Ok) (hfind : d.find (key name) = none) (hfree : ¬ d.HasFree)
    (hroom : ¬ d.Room alloc) (inum : UInt16) : d.dirlink name inum alloc = .ok (-1, d) := by
  rw [dirlink_full h hfind hfree]
  rcases writei_end d alloc ⟨inum, strncpy DIRSIZ name⟩ with ⟨hyes, -⟩ | ⟨-, hwrite⟩
  · exact absurd hyes hroom
  · rw [hwrite]

/-- dirlink adds the name, or fails and leaves the directory as it is. -/
theorem Ok.dirlink (h : d.Ok) (hinum : inum ≠ 0) (name : List UInt8) (alloc : Bool) :
    d.dirlink name inum alloc = .ok (-1, d) ∨
      ∃ d', d.dirlink name inum alloc = .ok (0, d') ∧ d'.Ok ∧
        ∀ k, d'.find k = if key name = k then some inum else d.find k := by
  by_cases hfind : d.find (key name) = none
  · by_cases hfree : d.HasFree
    · obtain ⟨d', hlink, -, hok⟩ := dirlink_free h hfind hinum hfree alloc
      exact .inr ⟨d', hlink, hok⟩
    · by_cases hroom : d.Room alloc
      · obtain ⟨d', hlink, -, hok⟩ := dirlink_grow h hfind hinum hfree hroom
        exact .inr ⟨d', hlink, hok⟩
      · exact .inl (dirlink_noRoom h hfind hfree hroom inum)
  · exact .inl (dirlink_present h hfind inum alloc)

/-- A removal clears the entry of the name, if there is one, and never fails to write. -/
theorem Ok.unlink (h : d.Ok) (name : List UInt8) (alloc : Bool) :
    d.unlink name alloc = .ok (-1, d) ∧ d.find (key name) = none ∨
      d.find (key name) ≠ none ∧ ∃ d', d.unlink name alloc = .ok (0, d') ∧ d'.Ok ∧
        ∀ k, d'.find k = if key name = k then none else d.find k := by
  cases hfind : d.find (key name) with
  | none =>
      refine .inl ⟨?_, rfl⟩
      unfold Dir.unlink
      rw [dirlookup_none h.type h.size hfind]
      rfl
  | some i =>
      obtain ⟨j, hj, huses, -, hlookup⟩ := dirlookup_some h.type h.size hfind
      obtain ⟨d', hwrite⟩ := writei_slot h hj alloc ⟨0, List.replicate DIRSIZ 0⟩
      have hstored := stored_of_writei h (Nat.le_of_lt hj) List.length_replicate hwrite
      refine .inr ⟨Option.some_ne_none i, d', ?_, hstored.unlink h hj huses⟩
      unfold Dir.unlink
      rw [hlookup]
      change (match d.writei alloc (DIRENT * j) _ with | none => _ | some d' => _) = _
      rw [hwrite]
      rfl

end Dir

/-! ### Runs -/

/-- An operation on a directory, with what balloc would answer during it. -/
inductive DirOp
  | dirlink (name : List UInt8) (inum : UInt16) (alloc : Bool)
  | unlink (name : List UInt8) (alloc : Bool)

namespace DirOp

/-- The name that the operation is about. -/
def name : DirOp → List UInt8
  | dirlink name _ _ | unlink name _ => name

/-- What the name stands for after the operation. -/
def target : DirOp → Option UInt16
  | dirlink _ inum _ => some inum
  | unlink .. => none

def run (d : Dir) : DirOp → Except String (Int × Dir)
  | dirlink name inum alloc => d.dirlink name inum alloc
  | unlink name alloc => d.unlink name alloc

end DirOp

/-- A sequence of operations, with the result of each. -/
def Dir.run (d : Dir) : List DirOp → Except String (List (DirOp × Int) × Dir)
  | [] => .ok ([], d)
  | op :: ops => do
      let (r, d') ← op.run d
      let (h, d'') ← d'.run ops
      return ((op, r) :: h, d'')

/-- The last operation on a name that has succeeded. -/
def lastOp (h : List (DirOp × Int)) (k : List UInt8) : Option DirOp :=
  (h.reverse.find? fun e => e.2 = 0 ∧ key e.1.name = k).map Prod.fst

theorem lastOp_cons (e : DirOp × Int) (h : List (DirOp × Int)) (k : List UInt8) :
    lastOp (e :: h) k =
      (lastOp h k).or (if e.2 = 0 ∧ key e.1.name = k then some e.1 else none) := by
  simp only [lastOp, List.reverse_cons, List.find?_append, List.find?_singleton,
    decide_eq_true_eq]
  cases h.reverse.find? fun e => decide (e.2 = 0 ∧ key e.1.name = k) with
  | some x => rfl
  | none => split <;> rfl

/-- One operation succeeds and redefines its name, or changes nothing. -/
theorem Dir.Ok.step {d : Dir} (h : d.Ok) (op : DirOp) (hop : op.target ≠ some 0) :
    ∃ r d', op.run d = .ok (r, d') ∧ d'.Ok ∧
      ∀ k, d'.find k = if r = 0 ∧ key op.name = k then op.target else d.find k := by
  cases op with
  | dirlink name inum alloc =>
      have hinum : inum ≠ 0 := fun h0 => hop (congrArg some h0)
      rcases h.dirlink hinum name alloc with hfail | ⟨d', hlink, hok, hfind⟩
      · exact ⟨-1, d, hfail, h, fun k => by simp⟩
      · exact ⟨0, d', hlink, hok, fun k => by simpa [DirOp.name, DirOp.target] using hfind k⟩
  | unlink name alloc =>
      rcases h.unlink name alloc with ⟨hfail, -⟩ | ⟨-, d', hunlink, hok, hfind⟩
      · exact ⟨-1, d, hfail, h, fun k => by simp⟩
      · exact ⟨0, d', hunlink, hok, fun k => by simpa [DirOp.name, DirOp.target] using hfind k⟩

/-- A run never panics, and in the end every name stands for what the last operation on it has
made of it. -/
theorem Dir.Ok.run {d : Dir} (h : d.Ok) (ops : List DirOp)
    (hops : ∀ op ∈ ops, op.target ≠ some 0) :
    ∃ hist d', d.run ops = .ok (hist, d') ∧ hist.map Prod.fst = ops ∧ d'.Ok ∧
      ∀ k, d'.find k = ((lastOp hist k).map DirOp.target).getD (d.find k) := by
  induction ops generalizing d with
  | nil => exact ⟨[], d, rfl, rfl, h, fun k => rfl⟩
  | cons op ops ih =>
      obtain ⟨r, d₁, hrun, hok₁, hfind₁⟩ := h.step op (hops op (.head _))
      obtain ⟨hist, d₂, hrest, hhist, hok₂, hfind₂⟩ :=
        ih hok₁ fun op' hop' => hops op' (.tail _ hop')
      refine ⟨(op, r) :: hist, d₂, ?_, by rw [List.map_cons, hhist], hok₂, fun k => ?_⟩
      · simp only [Dir.run, hrun]
        change (d₁.run ops >>= _) = _
        rw [hrest]
        rfl
      · rw [hfind₂ k, hfind₁ k, lastOp_cons]
        cases lastOp hist k with
        | some op' => rfl
        | none => split <;> simp_all

/-- A directory is a finite map on 14-byte names.  After any operations dirlookup finds what the
last successful one on the name has left, or what was there before; no two entries in use have the
same name, and the size is a multiple of 16.  dirlink fails without a change when the name is
present, takes a free slot before the directory grows, and fails without a change when the
directory has to grow and there is no block.  A removal fails only if the name is not there, and
otherwise takes this name out of the directory and no other. -/
theorem directory_is_finite_map (d₀ : Dir) (h₀ : d₀.Ok) (ops : List DirOp)
    (hops : ∀ op ∈ ops, op.target ≠ some 0) :
    ∃ hist d, d₀.run ops = .ok (hist, d) ∧ hist.map Prod.fst = ops ∧
      d.size % DIRENT = 0 ∧ d.Distinct ∧
      (∀ name, ∃ found, d.dirlookup name = .ok found ∧ ∀ i, (∃ off, found = some (off, i)) ↔
        (∃ op, lastOp hist (key name) = some op ∧ op.target = some i) ∨
        (lastOp hist (key name) = none ∧ ∃ off, d₀.dirlookup name = .ok (some (off, i)))) ∧
      (∀ name alloc,
        (d.dirlookup name = .ok none → d.unlink name alloc = .ok (-1, d)) ∧
        (d.dirlookup name ≠ .ok none → ∃ d', d.unlink name alloc = .ok (0, d') ∧
          d'.dirlookup name = .ok none ∧
          ∀ other i, key other ≠ key name → ((∃ off, d'.dirlookup other = .ok (some (off, i))) ↔
            ∃ off, d.dirlookup other = .ok (some (off, i))))) ∧
      ∀ name inum alloc, inum ≠ 0 →
        (d.dirlookup name ≠ .ok none → d.dirlink name inum alloc = .ok (-1, d)) ∧
        (d.dirlookup name = .ok none → d.HasFree →
          ∃ d', d.dirlink name inum alloc = .ok (0, d') ∧ d'.size = d.size) ∧
        (d.dirlookup name = .ok none → ¬ d.HasFree → d.Room alloc →
          ∃ d', d.dirlink name inum alloc = .ok (0, d') ∧ d'.size = d.size + DIRENT) ∧
        (d.dirlookup name = .ok none → ¬ d.HasFree → ¬ d.Room alloc →
          d.dirlink name inum alloc = .ok (-1, d)) := by
  obtain ⟨hist, d, hrun, hhist, hok, hfind⟩ := h₀.run ops hops
  refine ⟨hist, d, hrun, hhist, hok.size, hok.distinct, fun name => ?_, fun name alloc => ?_, ?_⟩
  · refine ⟨_, Dir.dirlookup_eq hok.type hok.size name, fun i => ?_⟩
    rw [Dir.exists_found_iff, hfind, Dir.exists_dirlookup_iff h₀]
    cases lastOp hist (key name) with
    | none => simp
    | some op => simp
  · rw [ne_eq, Dir.dirlookup_eq_none_iff hok]
    rcases hok.unlink name alloc with ⟨hfail, hnone⟩ | ⟨hsome, d', hunlink, hok', hfind'⟩
    · exact ⟨fun _ => hfail, fun hne => absurd hnone hne⟩
    · refine ⟨fun hnone => absurd hnone hsome, fun _ => ⟨d', hunlink, ?_, fun other i hne => ?_⟩⟩
      · rw [Dir.dirlookup_eq_none_iff hok', hfind', if_pos rfl]
      · rw [Dir.exists_dirlookup_iff hok', Dir.exists_dirlookup_iff hok, hfind',
          if_neg (Ne.symm hne)]
  · intro name inum alloc hinum
    have hnone : d.dirlookup name = .ok none ↔ d.find (key name) = none :=
      Dir.dirlookup_eq_none_iff hok
    rw [ne_eq, hnone]
    refine ⟨fun h => Dir.dirlink_present hok h inum alloc, fun h hfree => ?_,
      fun h hfree hroom => ?_, fun h hfree hroom => Dir.dirlink_noRoom hok h hfree hroom inum⟩
    · obtain ⟨d', hlink, hsize, -⟩ := Dir.dirlink_free hok h hinum hfree alloc
      exact ⟨d', hlink, hsize⟩
    · obtain ⟨d', hlink, hsize, -⟩ := Dir.dirlink_grow hok h hinum hfree hroom
      exact ⟨d', hlink, hsize⟩

namespace DirectoryWitness

/-- A directory with two free slots. -/
def dir : Dir := { size := 32, data := fun _ => 0 }

theorem dir_ok : dir.Ok := by
  refine ⟨rfl, rfl, by decide, fun i j _ _ k hi => absurd ?_ hi.1⟩
  simp only [Dir.slot, Dir.dirent, dir, getLE_zero]
  rfl

/-- Link "a" and "bc" and unlink "a" again. -/
def ops : List DirOp := [.dirlink [97] 5 false, .dirlink [98, 99] 6 false, .unlink [97] false]

theorem ops_succeed :
    (dir.run ops).toOption.map (fun r => r.1.map Prod.snd) = some [0, 0, 0] := by
  decide +kernel

/-- Of the two names "bc" is left: it is found, cannot be linked again and can be removed. -/
theorem directory_is_finite_map_two_slots :
    ∃ hist d, dir.run ops = .ok (hist, d) ∧ hist.map Prod.fst = ops ∧ d.size % DIRENT = 0 ∧
      d.Distinct ∧ (∃ off, d.dirlookup [98, 99] = .ok (some (off, 6))) ∧
      d.dirlookup [97] = .ok none ∧ d.dirlink [98, 99] 7 false = .ok (-1, d) ∧
      ∃ d', d.unlink [98, 99] false = .ok (0, d') ∧ d'.dirlookup [98, 99] = .ok none := by
  obtain ⟨hist, d, hrun, hhist, hsize, hdistinct, hlookup, hunlink, hlink⟩ :=
    directory_is_finite_map dir dir_ok ops (by decide)
  have hresults := ops_succeed
  rw [hrun] at hresults
  have hhist' : hist = ops.zip [0, 0, 0] := by
    have hsnd : hist.map Prod.snd = [0, 0, 0] := Option.some.inj hresults
    rw [← List.zip_unzip hist, List.unzip_eq_map, hhist, hsnd]
  subst hhist'
  obtain ⟨found, hbc, hiff⟩ := hlookup [98, 99]
  obtain ⟨off, rfl⟩ := (hiff 6).mpr (.inl ⟨_, rfl, rfl⟩)
  have hpresent : d.dirlookup [98, 99] ≠ .ok none := by simp [hbc]
  obtain ⟨found, ha, hiff⟩ := hlookup [97]
  have habsent : found = none := by
    cases found with
    | none => rfl
    | some e =>
        obtain ⟨op, hop, htarget⟩ | ⟨hnone, -⟩ := (hiff e.2).mp ⟨e.1, rfl⟩
        · cases hop
          cases htarget
        · cases hnone
  subst habsent
  obtain ⟨d', hremoved, hgone, -⟩ := (hunlink [98, 99] false).2 hpresent
  exact ⟨_, d, hrun, hhist, hsize, hdistinct, ⟨off, hbc⟩, ha,
    (hlink [98, 99] 7 false (by decide)).1 hpresent, d', hremoved, hgone⟩

end DirectoryWitness

end Xv6.Fs
