/-
Path names: skipelem and namex of kernel/fs.c, over a tree of directories and the reference
counts of the inode table.
-/
import Xv6.Fs.Directory
import Mathlib.Data.List.Nodup
import Mathlib.Data.List.TakeWhile

namespace Xv6.Fs

/-- `'/'` -/
def SLASH : UInt8 := 47

/-- The loop of skipelem over a path element goes on. -/
def inElem (b : UInt8) : Bool := b ≠ SLASH ∧ b ≠ 0

/-- Copy the next path element into the buffer `name`.  A path is what memory holds from a pointer
on; the second component of the result is the buffer, and `none` is the null pointer. -/
def skipelem (path name : List UInt8) : Option (List UInt8) × List UInt8 :=
  let s := path.dropWhile (· = SLASH)
  if s.headD 0 = 0 then (none, name)
  else
    let elem := s.takeWhile inElem
    let rest := s.dropWhile inElem
    let name :=
      if DIRSIZ ≤ elem.length then elem.take DIRSIZ ++ name.drop DIRSIZ
      else elem ++ 0 :: name.drop (elem.length + 1)
    (some (rest.dropWhile (· = SLASH)), name)

theorem length_dropWhile_le {α : Type} (p : α → Bool) (l : List α) :
    (l.dropWhile p).length ≤ l.length :=
  (List.dropWhile_suffix p).length_le

/-- What remains after the slashes does not start with one. -/
theorem head_dropSlash {l : List UInt8} {b : UInt8} {t : List UInt8}
    (h : l.dropWhile (· = SLASH) = b :: t) : b ≠ SLASH := by
  have hnot := List.head?_dropWhile_not (fun b => decide (b = SLASH)) l
  rw [h] at hnot
  simpa using hnot

/-- skipelem moves forward. -/
theorem skipelem_length {path name rest name' : List UInt8}
    (h : skipelem path name = (some rest, name')) : rest.length < path.length := by
  have hdrop := length_dropWhile_le (fun b => decide (b = SLASH)) path
  simp only [skipelem] at h
  split at h
  · cases h
  · next hne =>
      obtain rfl := Option.some.inj (Prod.mk.inj h).1
      cases hs : path.dropWhile (· = SLASH) with
      | nil =>
          rw [hs] at hne
          exact absurd rfl hne
      | cons b t =>
          rw [hs] at hne hdrop
          have hb : inElem b = true := decide_eq_true ⟨head_dropSlash hs, hne⟩
          rw [List.dropWhile_cons_of_pos hb]
          have h₁ := length_dropWhile_le inElem t
          have h₂ := length_dropWhile_le (fun b => decide (b = SLASH)) (t.dropWhile inElem)
          rw [List.length_cons] at hdrop
          omega

/-- An inode: a directory or another file, with its link count. -/
structure Node extends Dir where
  nlink : Int16

/-- The inodes on the disk and the table of inodes in memory, by inode number. -/
structure Volume where
  node : Nat → Node
  ref : Nat → Nat
  valid : Nat → Bool

namespace Volume

/-- The number of table entries with a reference. -/
def inUse (v : Volume) : Nat := (List.range (2 ^ 16)).countP fun i => 0 < v.ref i

def iget (v : Volume) (inum : Nat) : Except String Volume :=
  if 0 < v.ref inum then .ok { v with ref := Function.update v.ref inum (v.ref inum + 1) }
  else if NINODE ≤ v.inUse then .error "iget: no inodes"
  else .ok { v with
    ref := Function.update v.ref inum 1, valid := Function.update v.valid inum false }

def idup (v : Volume) (ip : Nat) : Volume :=
  { v with ref := Function.update v.ref ip (v.ref ip + 1) }

def ilock (v : Volume) (ip : Nat) : Except String Volume :=
  if v.ref ip < 1 then .error "ilock"
  else if v.valid ip then .ok v
  else if (v.node ip).type = 0 then .error "ilock: no type"
  else .ok { v with valid := Function.update v.valid ip true }

def iunlock (v : Volume) (ip : Nat) : Except String Volume :=
  if v.ref ip < 1 then .error "iunlock" else .ok v

/-- itrunc, and the type of a free inode. -/
def free (v : Volume) (ip : Nat) : Volume :=
  { v with
    node := Function.update v.node ip { v.node ip with type := 0, size := 0 }
    valid := Function.update v.valid ip false }

def iput (v : Volume) (ip : Nat) : Volume :=
  let v := if v.ref ip = 1 ∧ v.valid ip ∧ (v.node ip).nlink = 0 then v.free ip else v
  { v with ref := Function.update v.ref ip (v.ref ip - 1) }

def iunlockput (v : Volume) (ip : Nat) : Except String Volume := do
  let v ← v.iunlock ip
  return v.iput ip

/-- The loop of namex. -/
def namexLoop (v : Volume) (nameiparent : Bool) (ip : Nat) (path name : List UInt8) :
    Except String (Option Nat × List UInt8 × Volume) :=
  match _h : skipelem path name with
  | (none, name) =>
      if nameiparent then .ok (none, name, v.iput ip) else .ok (some ip, name, v)
  | (some rest, name) =>
      v.ilock ip >>= fun v =>
      if (v.node ip).type ≠ T_DIR then v.iunlockput ip >>= fun v => .ok (none, name, v)
      else if nameiparent ∧ rest.headD 0 = 0 then v.iunlock ip >>= fun v => .ok (some ip, name, v)
      else (v.node ip).dirlookup name >>= fun found =>
        match found with
        | none => v.iunlockput ip >>= fun v => .ok (none, name, v)
        | some (_, next) =>
            v.iget next.toNat >>= fun v =>
            v.iunlockput ip >>= fun v => v.namexLoop nameiparent next.toNat rest name
termination_by path.length
decreasing_by exact skipelem_length _h

def namex (v : Volume) (cwd : Nat) (path : List UInt8) (nameiparent : Bool)
    (name : List UInt8) : Except String (Option Nat × List UInt8 × Volume) :=
  if path.headD 0 = SLASH then
    v.iget ROOTINO >>= fun v => v.namexLoop nameiparent ROOTINO path name
  else (v.idup cwd).namexLoop nameiparent cwd path name

/-- The buffer `name` of namei is a local variable, so it starts with any bytes; its caller does
not see it. -/
def namei (v : Volume) (cwd : Nat) (path name : List UInt8) :
    Except String (Option Nat × List UInt8 × Volume) :=
  v.namex cwd path false name

def nameiparent (v : Volume) (cwd : Nat) (path name : List UInt8) :
    Except String (Option Nat × List UInt8 × Volume) :=
  v.namex cwd path true name

end Volume

/-! ### Components -/

/-- The names that repeated calls of skipelem leave in the buffer. -/
def elems (path name : List UInt8) : List (List UInt8) :=
  match _h : skipelem path name with
  | (none, _) => []
  | (some rest, name) => key name :: elems rest name
termination_by path.length
decreasing_by exact skipelem_length _h

/-- The non-empty pieces between the slashes. -/
def pieces (s : List UInt8) : List (List UInt8) := (s.splitOn SLASH).filter (· ≠ [])

/-- The components of a path: its pieces, each cut to its first `DIRSIZ` bytes. -/
def components (s : List UInt8) : List (List UInt8) := (pieces s).map (List.take DIRSIZ)

theorem pieces_slash (s : List UInt8) : pieces (SLASH :: s) = pieces s := by
  have hsplit := List.splitOn_append_cons_self_of_not_mem (a := SLASH) (List.not_mem_nil) s
  rw [List.nil_append] at hsplit
  rw [pieces, hsplit]
  rfl

theorem pieces_dropWhile (s : List UInt8) : pieces (s.dropWhile (· = SLASH)) = pieces s := by
  induction s with
  | nil => rfl
  | cons b s ih =>
      by_cases hb : b = SLASH
      · rw [List.dropWhile_cons_of_pos (by simpa using hb), ih, hb, pieces_slash]
      · rw [List.dropWhile_cons_of_neg (by simpa using hb)]

/-- A piece ends at the end of the path or at a slash. -/
theorem pieces_append {e r : List UInt8} (he : e ≠ []) (hslash : SLASH ∉ e)
    (hr : r = [] ∨ r.head? = some SLASH) : pieces (e ++ r) = e :: pieces r := by
  rcases hr with rfl | hr
  · rw [List.append_nil, pieces, List.splitOn_eq_singleton hslash]
    simp [pieces, he]
  · obtain ⟨r, rfl⟩ : ∃ r', r = SLASH :: r' := by
      cases r with
      | nil => cases hr
      | cons b r => exact ⟨r, by rw [Option.some.inj hr]⟩
    rw [pieces_slash, pieces, List.splitOn_append_cons_self_of_not_mem hslash]
    simp [pieces, he]

/-- A path without NUL that starts with a component. -/
theorem pieces_eq_cons {s : List UInt8} (hs : ∀ b ∈ s, b ≠ 0) (hne : s ≠ [])
    (hhead : s.head? ≠ some SLASH) :
    pieces s = s.takeWhile inElem :: pieces (s.dropWhile inElem) := by
  have hend : s.dropWhile inElem = [] ∨ (s.dropWhile inElem).head? = some SLASH := by
    cases hr : s.dropWhile inElem with
    | nil => exact .inl rfl
    | cons x r =>
        have hx : x ∈ s := (List.dropWhile_suffix inElem).subset (hr ▸ List.mem_cons_self)
        have hnot := List.head?_dropWhile_not inElem s
        rw [hr] at hnot
        simp only [List.head?_cons, inElem, decide_eq_false_iff_not, not_and, not_not] at hnot
        refine .inr (congrArg some ?_)
        by_contra hslash
        exact hs x hx (hnot hslash)
  have hfirst : s.takeWhile inElem ≠ [] := by
    cases s with
    | nil => exact absurd rfl hne
    | cons b t =>
        have hb : inElem b = true :=
          decide_eq_true ⟨fun h => hhead (congrArg some h), hs b (.head _)⟩
        rw [List.takeWhile_cons_of_pos hb]
        exact List.cons_ne_nil _ _
  have hslash : SLASH ∉ s.takeWhile inElem := fun hmem =>
    Bool.false_ne_true (List.mem_takeWhile_imp hmem)
  rw [← pieces_append hfirst hslash hend, List.takeWhile_append_dropWhile]

section stop

variable {p : UInt8 → Bool} (hp : p 0 = false) (s junk : List UInt8)

include hp

/-- A loop that NUL stops stays inside the string. -/
theorem dropWhile_string : (s ++ 0 :: junk).dropWhile p = s.dropWhile p ++ 0 :: junk := by
  induction s with
  | nil => exact List.dropWhile_cons_of_neg (by simp [hp])
  | cons b s ih =>
      cases hb : p b with
      | true => rw [List.cons_append, List.dropWhile_cons_of_pos hb,
          List.dropWhile_cons_of_pos hb, ih]
      | false => rw [List.cons_append, List.dropWhile_cons_of_neg (by simp [hb]),
          List.dropWhile_cons_of_neg (by simp [hb]), List.cons_append]

theorem takeWhile_string : (s ++ 0 :: junk).takeWhile p = s.takeWhile p := by
  induction s with
  | nil => exact List.takeWhile_cons_of_neg (by simp [hp])
  | cons b s ih =>
      cases hb : p b with
      | true => rw [List.cons_append, List.takeWhile_cons_of_pos hb,
          List.takeWhile_cons_of_pos hb, ih]
      | false => rw [List.cons_append, List.takeWhile_cons_of_neg (by simp [hb]),
          List.takeWhile_cons_of_neg (by simp [hb])]

end stop

theorem takeWhile_ne_zero {e : List UInt8} (he : ∀ b ∈ e, b ≠ 0) (t : List UInt8) :
    (e ++ 0 :: t).takeWhile (· ≠ 0) = e := by
  rw [takeWhile_string (by decide), List.takeWhile_eq_self_iff]
  exact fun b hb => decide_eq_true (he b hb)

/-- The buffer holds the component, cut to its length. -/
theorem key_elem {e : List UInt8} (he : ∀ b ∈ e, b ≠ 0) (name : List UInt8) :
    key (if DIRSIZ ≤ e.length then e.take DIRSIZ ++ name.drop DIRSIZ
      else e ++ 0 :: name.drop (e.length + 1)) = e.take DIRSIZ := by
  unfold key keyOf
  split
  · next hlen =>
      have hlen' : (e.take DIRSIZ).length = DIRSIZ := List.length_take_of_le hlen
      rw [List.take_append_of_le_length hlen'.ge, List.take_take, Nat.min_self,
        List.takeWhile_eq_self_iff]
      exact fun b hb => decide_eq_true (he b (List.mem_of_mem_take hb))
  · next hlen =>
      obtain ⟨m, hm⟩ : ∃ m, DIRSIZ = e.length + (m + 1) := ⟨DIRSIZ - e.length - 1, by omega⟩
      rw [hm, List.take_length_add_append, List.take_succ_cons, takeWhile_ne_zero he,
        List.take_of_length_le (Nat.le_add_right _ _)]

/-- skipelem at a path: either there are only slashes, or it takes the first component. -/
theorem skipelem_cases (s junk name : List UInt8) (hs : ∀ b ∈ s, b ≠ 0) :
    (skipelem (s ++ 0 :: junk) name = (none, name) ∧ pieces s = []) ∨
    ∃ e r name', skipelem (s ++ 0 :: junk) name = (some (r ++ 0 :: junk), name') ∧
      key name' = e.take DIRSIZ ∧ pieces s = e :: pieces r ∧ (∀ b ∈ r, b ≠ 0) ∧
      ((r ++ 0 :: junk).headD 0 = 0 ↔ pieces r = []) := by
  have hslash := dropWhile_string (p := fun b => decide (b = SLASH)) rfl
  unfold skipelem
  simp only [hslash, takeWhile_string (show inElem 0 = false from rfl),
    dropWhile_string (show inElem 0 = false from rfl)]
  rw [← pieces_dropWhile s]
  cases hd : s.dropWhile (· = SLASH) with
  | nil => exact .inl ⟨rfl, rfl⟩
  | cons b t =>
      have hsub : ∀ x ∈ b :: t, x ≠ 0 := fun x hx =>
        hs x ((List.dropWhile_suffix _).subset (hd ▸ hx))
      have hb : b ≠ SLASH := head_dropSlash hd
      have hhead : (b :: t).head? ≠ some SLASH := fun h => hb (Option.some.inj h)
      rw [List.cons_append, List.headD_cons, if_neg (hsub b (.head _))]
      have hr : ∀ x ∈ ((b :: t).dropWhile inElem).dropWhile (· = SLASH), x ≠ 0 := fun x hx =>
        hsub x ((List.dropWhile_suffix _).subset ((List.dropWhile_suffix _).subset hx))
      refine .inr ⟨(b :: t).takeWhile inElem, _, _, rfl, key_elem ?_ name, ?_, hr, ?_⟩
      · exact fun x hx => hsub x ((List.takeWhile_sublist _).subset hx)
      · rw [pieces_eq_cons hsub (List.cons_ne_nil _ _) hhead, pieces_dropWhile]
      · cases hd' : ((b :: t).dropWhile inElem).dropWhile (· = SLASH) with
        | nil => exact iff_of_true rfl rfl
        | cons x r =>
            rw [hd'] at hr
            have hx : (x :: r).head? ≠ some SLASH := fun h =>
              head_dropSlash hd' (Option.some.inj h)
            rw [pieces_eq_cons hr (List.cons_ne_nil _ _) hx]
            exact iff_of_false (hr x (.head _)) (List.cons_ne_nil _ _)

/-- Repeated skipelem yields the components of the path. -/
theorem elems_eq_components (s junk name : List UInt8) (hs : ∀ b ∈ s, b ≠ 0) :
    elems (s ++ 0 :: junk) name = components s := by
  unfold components
  generalize hps : pieces s = ps
  induction ps generalizing s name with
  | nil =>
      rcases skipelem_cases s junk name hs with ⟨hskip, -⟩ | ⟨e, r, name', -, -, hp, -⟩
      · rw [elems]
        split
        · rfl
        · next hsome => rw [hskip] at hsome; cases hsome
      · rw [hps] at hp
        cases hp
  | cons e ps ih =>
      rcases skipelem_cases s junk name hs with ⟨-, hp⟩ | ⟨e', r, name', hskip, hkey, hp, hr, -⟩
      · rw [hps] at hp
        cases hp
      · rw [hps] at hp
        obtain ⟨rfl, rfl⟩ := List.cons.inj hp
        rw [elems]
        split
        · next hnone => rw [hskip] at hnone; cases hnone
        · next rest name'' hsome =>
            rw [hskip] at hsome
            obtain ⟨hrest, rfl⟩ := Prod.mk.inj hsome
            obtain rfl := Option.some.inj hrest
            rw [ih r name' hr rfl, hkey, List.map_cons]

/-! ### Lookups -/

/-- Look up names one after another. -/
def walk (node : Nat → Node) (ip : Nat) : List (List UInt8) → Option Nat
  | [] => some ip
  | k :: ks =>
      if (node ip).type = T_DIR then ((node ip).find k).bind fun i => walk node i.toNat ks
      else none

/-- A walk fails exactly when some step starts at another kind of file or finds no entry. -/
theorem walk_eq_none {node : Nat → Node} {ip : Nat} {ks : List (List UInt8)} :
    walk node ip ks = none ↔ ∃ before k after dir, ks = before ++ k :: after ∧
      walk node ip before = some dir ∧ ((node dir).type ≠ T_DIR ∨ (node dir).find k = none) := by
  induction ks generalizing ip with
  | nil =>
      refine iff_of_false nofun ?_
      rintro ⟨before, k, after, dir, h, -⟩
      cases before <;> cases h
  | cons k ks ih =>
      rw [walk]
      constructor
      · intro h
        split at h
        · next htype =>
            cases hfind : (node ip).find k with
            | none => exact ⟨[], k, ks, ip, rfl, rfl, .inr hfind⟩
            | some i =>
                rw [hfind, Option.bind_some] at h
                obtain ⟨before, k', after, dir, rfl, hwalk, hdir⟩ := ih.mp h
                refine ⟨k :: before, k', after, dir, rfl, ?_, hdir⟩
                rw [walk, if_pos htype, hfind, Option.bind_some, hwalk]
        · next htype => exact ⟨[], k, ks, ip, rfl, rfl, .inl htype⟩
      · rintro ⟨before, k', after, dir, heq, hwalk, hdir⟩
        cases before with
        | nil =>
            obtain ⟨rfl, -⟩ := List.cons.inj heq
            obtain rfl := Option.some.inj hwalk
            rcases hdir with hdir | hdir
            · exact if_neg hdir
            · simp [hdir]
        | cons k'' before =>
            obtain ⟨rfl, rfl⟩ := List.cons.inj heq
            rw [walk] at hwalk
            split at hwalk
            · next htype =>
                obtain ⟨i, hfind, hwalk⟩ := Option.bind_eq_some_iff.mp hwalk
                rw [if_pos htype, hfind, Option.bind_some]
                exact ih.mpr ⟨before, k', after, dir, rfl, hwalk, hdir⟩
            · cases hwalk

/-- What namex returns: the inode at the end of the walk, or the directory in which the last name
is looked up. -/
def resolve (node : Nat → Node) (nameiparent : Bool) (ip : Nat) (ks : List (List UInt8)) :
    Option Nat :=
  if nameiparent then
    if ks = [] then none
    else (walk node ip ks.dropLast).filter fun dir => (node dir).type = T_DIR
  else walk node ip ks

theorem resolve_nil (node : Nat → Node) (parent : Bool) (ip : Nat) :
    resolve node parent ip [] = if parent then none else some ip := rfl

/-- nameiparent stops one level early. -/
theorem resolve_last {node : Nat → Node} {ip : Nat} {k : List UInt8}
    (h : (node ip).type = T_DIR) : resolve node true ip [k] = some ip := by
  simp [resolve, walk, h]

theorem resolve_notDir {node : Nat → Node} {ip : Nat} (parent : Bool) {k : List UInt8}
    {ks : List (List UInt8)} (h : (node ip).type ≠ T_DIR) :
    resolve node parent ip (k :: ks) = none := by
  cases parent with
  | false => exact if_neg h
  | true =>
      cases ks with
      | nil => simp [resolve, walk, h]
      | cons k' ks => simp [resolve, walk, h]

theorem resolve_cons {node : Nat → Node} {ip : Nat} {parent : Bool} {k : List UInt8}
    {ks : List (List UInt8)} (h : (node ip).type = T_DIR) (hlast : ¬ (parent = true ∧ ks = [])) :
    resolve node parent ip (k :: ks) =
      ((node ip).find k).bind fun i => resolve node parent i.toNat ks := by
  cases parent with
  | false => exact if_pos h
  | true =>
      cases ks with
      | nil => exact absurd ⟨rfl, rfl⟩ hlast
      | cons k' ks =>
          simp only [resolve, if_true, List.cons_ne_nil, if_false, List.dropLast_cons_cons, walk, h]
          cases (node ip).find k with
          | none => rfl
          | some i => rfl

/-! ### References -/

namespace Volume

/-- An inode that is allocated, and that a reference or a link keeps. -/
def Held (v : Volume) (i : Nat) : Prop :=
  (v.node i).type ≠ 0 ∧ (1 ≤ v.ref i ∨ (v.node i).nlink ≠ 0)

/-- A directory tree: the root, the current directory and every entry of a directory stand for
inodes that are kept. -/
structure Tree (v : Volume) (cwd : Nat) : Prop where
  root : v.Held ROOTINO
  type_cwd : (v.node cwd).type ≠ 0
  ref_cwd : 1 ≤ v.ref cwd
  size : ∀ i, (v.node i).type = T_DIR → (v.node i).size % DIRENT = 0
  entries : ∀ i, (v.node i).type = T_DIR →
    ∀ k inum, (v.node i).find k = some inum → v.Held inum.toNat

/-- The state of `v₀` with one more reference, to `ip`. -/
structure Holding (v₀ : Volume) (ip : Nat) (v : Volume) : Prop where
  node : v.node = v₀.node
  ref : ∀ i, v.ref i = v₀.ref i + if i = ip then 1 else 0
  held : v₀.Held ip

variable {v₀ v : Volume} {ip : Nat}

theorem countP_or_le (p q : Nat → Bool) (l : List Nat) :
    (l.countP fun i => p i || q i) ≤ l.countP p + l.countP q := by
  induction l with
  | nil => exact Nat.le_refl 0
  | cons i l ih =>
      simp only [List.countP_cons]
      cases p i <;> cases q i <;> simp <;> omega

/-- One reference more takes one more table entry at most. -/
theorem Holding.inUse_le (h : Holding v₀ ip v) : v.inUse ≤ v₀.inUse + 1 := by
  have hsub : v.inUse ≤ (List.range (2 ^ 16)).countP fun i => 0 < v₀.ref i || i == ip := by
    apply List.countP_mono_left
    intro i _ hi
    have hi' : 0 < v.ref i := of_decide_eq_true hi
    rw [h.ref i] at hi'
    by_cases hip : i = ip
    · simp [hip]
    · simpa [hip] using hi'
  have hone : (List.range (2 ^ 16)).countP (fun i => i == ip) ≤ 1 :=
    List.nodup_iff_count_le_one.mp List.nodup_range ip
  have hor : ((List.range (2 ^ 16)).countP fun i => 0 < v₀.ref i || i == ip) ≤
      v₀.inUse + (List.range (2 ^ 16)).countP fun i => i == ip := countP_or_le _ _ _
  omega

theorem Holding.ilock (h : Holding v₀ ip v) :
    ∃ v', v.ilock ip = .ok v' ∧ Holding v₀ ip v' := by
  have href : ¬ v.ref ip < 1 := by
    rw [h.ref ip, if_pos rfl]
    omega
  have htype : (v.node ip).type ≠ 0 := by
    rw [h.node]
    exact h.held.1
  unfold Volume.ilock
  rw [if_neg href]
  by_cases hvalid : v.valid ip = true
  · rw [if_pos hvalid]
    exact ⟨v, rfl, h⟩
  · rw [if_neg hvalid, if_neg htype]
    exact ⟨_, rfl, h.node, h.ref, h.held⟩

theorem Holding.iunlock (h : Holding v₀ ip v) : v.iunlock ip = .ok v := by
  refine if_neg ?_
  rw [h.ref ip, if_pos rfl]
  omega

/-- iput frees no inode that a link or another reference keeps. -/
theorem iput_of_kept (h : v.ref ip ≠ 1 ∨ (v.node ip).nlink ≠ 0) :
    v.iput ip = { v with ref := Function.update v.ref ip (v.ref ip - 1) } := by
  have hfree : ¬ (v.ref ip = 1 ∧ v.valid ip = true ∧ (v.node ip).nlink = 0) := by
    rintro ⟨hone, -, hnlink⟩
    exact h.elim (fun h => h hone) fun h => h hnlink
  simp only [iput, if_neg hfree]

/-- The reference is dropped again. -/
theorem Holding.iput (h : Holding v₀ ip v) :
    (v.iput ip).node = v₀.node ∧ ∀ i, (v.iput ip).ref i = v₀.ref i := by
  have href := h.ref ip
  rw [if_pos rfl] at href
  have hkept : v.ref ip ≠ 1 ∨ (v.node ip).nlink ≠ 0 := by
    rw [h.node]
    exact h.held.2.imp_left fun h₁ => by omega
  rw [iput_of_kept hkept]
  refine ⟨h.node, fun i => ?_⟩
  by_cases hi : i = ip
  · rw [hi]
    simp [href]
  · simp [hi, h.ref i]

/-- A new reference, which the table may have no room for. -/
theorem iget_cases (v : Volume) (i : Nat) :
    (v.iget i = .error "iget: no inodes" ∧ NINODE ≤ v.inUse) ∨
    ∃ v', v.iget i = .ok v' ∧ v'.node = v.node ∧
      v'.ref = Function.update v.ref i (v.ref i + 1) := by
  unfold iget
  split
  · exact .inr ⟨_, rfl, rfl, rfl⟩
  · next hzero =>
      split
      · next hfull => exact .inl ⟨rfl, hfull⟩
      · have h0 : v.ref i = 0 := by omega
        exact .inr ⟨_, rfl, rfl, by rw [h0]⟩

/-- namex goes from a directory to an entry: the new reference is taken before the old one is
dropped. -/
theorem Holding.next {next : Nat} (h : Holding v₀ ip v) (hnext : v₀.Held next) :
    (v.iget next = .error "iget: no inodes" ∧ NINODE ≤ v₀.inUse + 1) ∨
    ∃ v₁ v₂, v.iget next = .ok v₁ ∧ v₁.iunlockput ip = .ok v₂ ∧ Holding v₀ next v₂ := by
  rcases v.iget_cases next with ⟨hget, hfull⟩ | ⟨v₁, hget, hnode, href⟩
  · exact .inl ⟨hget, le_trans hfull h.inUse_le⟩
  · have hip := h.ref ip
    rw [if_pos rfl] at hip
    have hip₁ : v₁.ref ip = v₀.ref ip + 1 + if ip = next then 1 else 0 := by
      rw [href]
      by_cases hn : ip = next
      · rw [← hn, Function.update_self, if_pos rfl, hip]
      · rw [Function.update_of_ne hn, if_neg hn, hip]
    have hkept : v₁.ref ip ≠ 1 ∨ (v₁.node ip).nlink ≠ 0 := by
      rw [hnode, h.node, hip₁]
      exact h.held.2.imp_left fun h₁ => by omega
    refine .inr ⟨v₁, { v₁ with ref := Function.update v₁.ref ip (v₁.ref ip - 1) }, hget, ?_, ?_⟩
    · rw [iunlockput, Volume.iunlock, if_neg (by rw [hip₁]; omega)]
      change Except.ok (v₁.iput ip) = _
      rw [iput_of_kept hkept]
    · refine ⟨hnode.trans h.node, fun i => ?_, hnext⟩
      change Function.update v₁.ref ip (v₁.ref ip - 1) i = _
      by_cases hi : i = ip
      · rw [hi, Function.update_self, hip₁]
        omega
      · rw [Function.update_of_ne hi, href]
        by_cases hin : i = next
        · rw [hin, Function.update_self, h.ref, if_pos rfl, if_neg (hin ▸ hi)]
        · rw [Function.update_of_ne hin, h.ref, if_neg hi, if_neg hin]

/-- The outcome of namex for the components `ks`: a panic for lack of inodes, or the inode of the
specification, with the tree as before and a reference to that inode only. -/
def Outcome (v₀ : Volume) (parent : Bool) (ip : Nat) (ks : List (List UInt8))
    (result : Except String (Option Nat × List UInt8 × Volume)) : Prop :=
  (result = .error "iget: no inodes" ∧ NINODE ≤ v₀.inUse + 1) ∨
  ∃ name v, result = .ok (resolve v₀.node parent ip ks, name, v) ∧ v.node = v₀.node ∧
    (∀ i, v.ref i = v₀.ref i + if resolve v₀.node parent ip ks = some i then 1 else 0) ∧
    (parent = true → ∀ dir, resolve v₀.node parent ip ks = some dir → ks.getLast? = some (key name))

/-- The outcome at an entry is the outcome at its directory. -/
theorem Outcome.cons {parent : Bool} {ip' : Nat} {k : List UInt8} {ks : List (List UInt8)}
    {result : Except String (Option Nat × List UInt8 × Volume)}
    (h : Outcome v₀ parent ip' ks result)
    (hres : resolve v₀.node parent ip (k :: ks) = resolve v₀.node parent ip' ks) :
    Outcome v₀ parent ip (k :: ks) result := by
  rcases h with hfull | ⟨name, v, hok, hnode, href, hname⟩
  · exact .inl hfull
  · refine .inr ⟨name, v, by rw [hok, hres], hnode, by rw [hres]; exact href, fun hp dir hdir => ?_⟩
    rw [hres] at hdir
    have hlast := hname hp dir hdir
    cases ks with
    | nil => cases hlast
    | cons k' ks => rwa [List.getLast?_cons_cons]

theorem ref_of_update (h : v.ref = Function.update v₀.ref ip (v₀.ref ip + 1)) (i : Nat) :
    v.ref i = v₀.ref i + if i = ip then 1 else 0 := by
  rw [h]
  by_cases hi : i = ip
  · rw [hi, Function.update_self, if_pos rfl]
  · rw [Function.update_of_ne hi, if_neg hi]
    rfl

/-- namex fails: the directory it holds is dropped. -/
theorem Holding.fails (h : Holding v₀ ip v) {parent : Bool} {start : Nat}
    {ks : List (List UInt8)} (hres : resolve v₀.node parent start ks = none)
    (name : List UInt8) :
    Outcome v₀ parent start ks (v.iunlockput ip >>= fun v => .ok (none, name, v)) := by
  refine .inr ⟨name, v.iput ip, ?_, h.iput.1, fun i => ?_, fun _ dir hdir => ?_⟩
  · rw [iunlockput, h.iunlock, hres]
    rfl
  · rw [h.iput.2 i, hres]
    rfl
  · rw [hres] at hdir
    cases hdir

/-- The loop of namex at a directory, when the rest of the path does what it should. -/
theorem Holding.step {cwd : Nat} {parent : Bool} {e : List UInt8} {r junk name : List UInt8}
    {rest : Nat → Volume → Except String (Option Nat × List UInt8 × Volume)}
    (h : Holding v₀ ip v) (htree : v₀.Tree cwd) (htype : (v₀.node ip).type = T_DIR)
    (hlast : (r ++ 0 :: junk).headD 0 = 0 ↔ pieces r = []) (hkey : key name = e.take DIRSIZ)
    (hrest : ∀ v' ip', Holding v₀ ip' v' →
      Outcome v₀ parent ip' ((pieces r).map (List.take DIRSIZ)) (rest ip' v')) :
    Outcome v₀ parent ip (e.take DIRSIZ :: (pieces r).map (List.take DIRSIZ))
      (if parent ∧ (r ++ 0 :: junk).headD 0 = 0 then
        v.iunlock ip >>= fun v => .ok (some ip, name, v)
      else (v₀.node ip).dirlookup name >>= fun found =>
        match found with
        | none => v.iunlockput ip >>= fun v => .ok (none, name, v)
        | some (_, next) =>
            v.iget next.toNat >>= fun v => v.iunlockput ip >>= fun v => rest next.toNat v) := by
  by_cases hstop : parent = true ∧ (r ++ 0 :: junk).headD 0 = 0
  · obtain ⟨rfl, hr⟩ := hstop
    rw [if_pos ⟨rfl, hr⟩, hlast.mp hr, List.map_nil, h.iunlock]
    have hres := resolve_last (k := e.take DIRSIZ) htype
    refine .inr ⟨name, v, by rw [hres]; rfl, h.node, fun i => ?_, fun _ _ _ => ?_⟩
    · rw [hres, h.ref i]
      simp only [Option.some.injEq, eq_comm]
    · rw [hkey]
      rfl
  · have hks : ¬ (parent = true ∧ (pieces r).map (List.take DIRSIZ) = []) := fun hp =>
      hstop ⟨hp.1, hlast.mpr (List.map_eq_nil_iff.mp hp.2)⟩
    have hres := resolve_cons (k := e.take DIRSIZ) htype hks
    rw [if_neg hstop]
    cases hfind : (v₀.node ip).find (e.take DIRSIZ) with
    | none =>
        rw [Dir.dirlookup_none htype (htree.size ip htype) (hkey ▸ hfind)]
        rw [hfind, Option.bind_none] at hres
        exact h.fails hres name
    | some next =>
        obtain ⟨j, -, -, -, hlookup⟩ :=
          Dir.dirlookup_some htype (htree.size ip htype) (hkey ▸ hfind)
        rw [hlookup]
        change Outcome _ _ _ _ (v.iget next.toNat >>= _)
        rw [hfind, Option.bind_some] at hres
        rcases h.next (htree.entries ip htype _ _ hfind) with
          ⟨hget, hfull⟩ | ⟨v₁, v₂, hget, hput, h₂⟩
        · rw [hget]
          exact .inl ⟨rfl, hfull⟩
        · rw [hget]
          change Outcome _ _ _ _ (v₁.iunlockput ip >>= _)
          rw [hput]
          exact (hrest v₂ next.toNat h₂).cons hres

/-- The loop of namex follows the components. -/
theorem Holding.namexLoop {cwd : Nat} (htree : v₀.Tree cwd) (parent : Bool)
    (h : Holding v₀ ip v) (s junk name : List UInt8) (hs : ∀ b ∈ s, b ≠ 0) :
    Outcome v₀ parent ip (components s) (v.namexLoop parent ip (s ++ 0 :: junk) name) := by
  unfold components
  generalize hps : pieces s = ps
  induction ps generalizing v ip s name with
  | nil =>
      rcases skipelem_cases s junk name hs with ⟨hskip, -⟩ | ⟨e, r, name', -, -, hp, -⟩
      · rw [Volume.namexLoop]
        split
        · next name' hnone =>
            cases parent with
            | true =>
                refine .inr ⟨name', v.iput ip, rfl, h.iput.1, fun i => ?_, fun _ dir hdir => ?_⟩
                · rw [h.iput.2 i]
                  rfl
                · cases hdir
            | false =>
                refine .inr ⟨name', v, rfl, h.node, fun i => ?_, nofun⟩
                rw [h.ref i]
                simp only [List.map_nil, resolve_nil, Bool.false_eq_true, if_false,
                  Option.some.injEq, eq_comm]
        · next hsome => rw [hskip] at hsome; cases hsome
      · rw [hps] at hp
        cases hp
  | cons e ps ih =>
      rcases skipelem_cases s junk name hs with
        ⟨-, hp⟩ | ⟨e', r, name', hskip, hkey, hp, hr, hlast⟩
      · rw [hps] at hp
        cases hp
      · rw [hps] at hp
        obtain ⟨rfl, rfl⟩ := List.cons.inj hp
        rw [Volume.namexLoop]
        split
        · next hnone => rw [hskip] at hnone; cases hnone
        · next rest name'' hsome =>
            rw [hskip] at hsome
            obtain ⟨hrest, rfl⟩ := Prod.mk.inj hsome
            obtain rfl := Option.some.inj hrest
            obtain ⟨v₁, hlock, h₁⟩ := h.ilock
            rw [hlock]
            change Outcome _ _ _ _ (if _ then _ else _)
            rw [h₁.node, List.map_cons]
            split
            · next htype => exact h₁.fails (resolve_notDir parent htype) name'
            · next htype =>
                have htype' : (v₀.node ip).type = T_DIR := not_not.mp htype
                exact h₁.step htree htype' hlast hkey fun v' ip' h' => ih h' r name' hr rfl

theorem namex_outcome {cwd : Nat} (htree : v.Tree cwd) (parent : Bool)
    (s junk name : List UInt8) (hs : ∀ b ∈ s, b ≠ 0) :
    Outcome v parent (if s.head? = some SLASH then ROOTINO else cwd) (components s)
      (v.namex cwd (s ++ 0 :: junk) parent name) := by
  have hhead : (s ++ 0 :: junk).headD 0 = SLASH ↔ s.head? = some SLASH := by
    cases s with
    | nil => exact iff_of_false (show (0 : UInt8) ≠ SLASH by decide) nofun
    | cons b s => simp
  unfold namex
  by_cases hroot : s.head? = some SLASH
  · rw [if_pos (hhead.mpr hroot), if_pos hroot]
    rcases v.iget_cases ROOTINO with ⟨hget, hfull⟩ | ⟨v', hget, hnode, href⟩
    · rw [hget]
      exact .inl ⟨rfl, Nat.le_succ_of_le hfull⟩
    · rw [hget]
      have hhold : Holding v ROOTINO v' := ⟨hnode, ref_of_update href, htree.root⟩
      exact hhold.namexLoop htree parent s junk name hs
  · rw [if_neg fun h => hroot (hhead.mp h), if_neg hroot]
    have hhold : Holding v cwd (v.idup cwd) :=
      ⟨rfl, ref_of_update rfl, htree.type_cwd, .inl htree.ref_cwd⟩
    exact hhold.namexLoop htree parent s junk name hs

/-- Path resolution is component-wise lookup.  The names that skipelem finds are the components of
the path; namei returns the inode that they lead to from the root or the current directory, and 0
exactly when a step starts at another kind of file or finds no entry; nameiparent returns the
directory in which the last component is looked up, and leaves that component in `name`.  The tree
is unchanged, and the only reference left is the one returned. -/
theorem namex_resolves (v : Volume) (cwd : Nat) (htree : v.Tree cwd) (s junk name : List UInt8)
    (hs : ∀ b ∈ s, b ≠ 0) :
    let start := if s.head? = some SLASH then ROOTINO else cwd
    elems (s ++ 0 :: junk) name = components s ∧
    Outcome v false start (components s) (v.namei cwd (s ++ 0 :: junk) name) ∧
    Outcome v true start (components s) (v.nameiparent cwd (s ++ 0 :: junk) name) ∧
    (walk v.node start (components s) = none ↔
      ∃ before k after dir, components s = before ++ k :: after ∧
        walk v.node start before = some dir ∧
        ((v.node dir).type ≠ T_DIR ∨ (v.node dir).find k = none)) :=
  ⟨elems_eq_components s junk name hs, namex_outcome htree false s junk name hs,
    namex_outcome htree true s junk name hs, walk_eq_none⟩

end Volume

namespace NamexWitness

/-- A directory with one entry. -/
def single (c : UInt8) (inum : UInt16) : Node where
  size := DIRENT
  data := putDirent (fun _ => 0) 0 ⟨inum, c :: List.replicate 13 0⟩
  nlink := 1

/-- The root has the directory "a", which has the file "b". -/
def volume : Volume where
  node i :=
    if i = ROOTINO then single 97 2
    else if i = 2 then single 98 3
    else { type := T_FILE, size := 0, data := fun _ => 0, nlink := 1 }
  ref i := if i = ROOTINO then 1 else 0
  valid _ := true

theorem volume_held (i : Nat) : volume.Held i := by
  simp only [Volume.Held, volume]
  split_ifs <;> exact ⟨by decide, .inr (by decide)⟩

theorem volume_tree : volume.Tree ROOTINO where
  root := volume_held ROOTINO
  type_cwd := (volume_held ROOTINO).1
  ref_cwd := by decide
  size i _ := by
    simp only [volume]
    split_ifs <;> rfl
  entries _ _ _ inum _ := volume_held inum.toNat

theorem volume_inUse : volume.inUse = 1 := by
  have hcount : volume.inUse = (List.range (2 ^ 16)).count ROOTINO := by
    apply List.countP_congr
    intro i _
    by_cases hi : i = ROOTINO <;> simp [volume, hi]
  rw [hcount, List.count_eq_one_of_mem List.nodup_range (List.mem_range.mpr (by decide))]

/-- The path "/a/b". -/
theorem namex_resolves_found : components [47, 97, 47, 98] = [[97], [98]] ∧
    ∃ name v, volume.namei ROOTINO [47, 97, 47, 98, 0] [] = .ok (some 3, name, v) ∧
      v.node = volume.node ∧ ∀ i, v.ref i = volume.ref i + if some 3 = some i then 1 else 0 := by
  have hresolve : resolve volume.node false ROOTINO (components [47, 97, 47, 98]) = some 3 := by
    decide
  have h := (Volume.namex_resolves volume ROOTINO volume_tree [47, 97, 47, 98] [] []
    (by simp)).2.1
  rcases h with ⟨-, hfull⟩ | ⟨name, v, hok, hnode, href, -⟩
  · rw [volume_inUse] at hfull
    exact absurd hfull (by decide)
  · exact ⟨by decide, name, v, hresolve ▸ hok, hnode, hresolve ▸ href⟩

end NamexWitness

end Xv6.Fs
