/-
Who owns physical memory.  The ledger of the kernel is a multiset of pages held
by kernel code, address spaces, and address spaces that are being copied; the
invariant says that the reference counts, the free list and the contents of
memory agree with it.
-/
import Xv6.Vm.Space

namespace Xv6.Vm

open Bytes Refs

/-- What a user mapping guarantees: its frame, its flags, and that the entry is
writable or copy-on-write just if the first mapping of the frame was writable. -/
structure UserLeaf (K : Image) (s : Kmem) (l : Leaf) (d : Arr) : Prop where
  frame : K.Frame l.pa
  flags : IsFlags l.fl
  valid : l.fl.has PTE_V = true
  readable : l.fl.has PTE_R = true
  notBoth : ¬ (l.fl.has PTE_W = true ∧ l.fl.has PTE_COW = true)
  owner : l.fl.has PTE_W = true → l.own = true
  data : s.mem l.pa = d
  origin : ∃ fl, s.first l.pa = some fl ∧
    (fl.has PTE_W = true ↔ l.fl.has PTE_W = true ∨ l.fl.has PTE_COW = true)

/-- The mappings at TRAPFRAME and above: not for user code, and not counted. -/
structure HighLeaf (l : Leaf) : Prop where
  aligned : l.pa % PGSIZE = 0
  small : l.pa < 2 ^ 56
  flags : IsFlags l.fl
  valid : l.fl.has PTE_V = true
  readable : l.fl.has PTE_R = true
  notUser : l.fl.has PTE_U = false

/-- An address space in memory. -/
structure Space.Ok (K : Image) (s : Kmem) (S : Space) : Prop where
  table : S.Table K s.mem
  user : ∀ v l, v < USERPAGES → S.leaf v = some l → UserLeaf K s l (S.data v)
  high : ∀ v l, USERPAGES ≤ v → S.leaf v = some l → HighLeaf l
  inj : ∀ f, refs userIx S.frames f ≤ 1

/-- The kinds of references that the ledger counts. -/
inductive Tag
  | kernel
  | user
  | lag
  | own
  | root
  | token
  deriving DecidableEq

/-- What can be owned: a page of kernel memory with its contents, which is fresh
if no entry was made for it since its allocation; an address space; two address
spaces in the middle of uvmcopy, the second of which already
maps `l` at page `v` although its frame is not counted yet; an address space in the
middle of uvmunmap, which still maps `l` at page `v` although its reference was given
back, with the flags of the first mapping of the frame before; and the right to say
that the page table with this root exists. -/
inductive Atom
  | page (pa : Nat) (data : Arr) (fresh : Bool)
  | space (S : Space)
  | copying (old new : Space) (v : Nat) (l : Leaf)
  | clearing (S : Space) (v : Nat) (l : Leaf) (first : Option Pte)
  | token (root : Nat)

def Space.use (S : Space) : Tag → Nat → Nat
  | .kernel, f => refs nodeIx S.node f
  | .user, f => refs userIx S.frames f
  | .own, f => refs userIx S.owned f
  | .root, f => ind (some S.root) f
  | .lag, _ => 0
  | .token, _ => 0

def Atom.use : Atom → Tag → Nat → Nat
  | .page pa _ _, t, f => if t = .kernel then ind (some pa) f else 0
  | .space S, t, f => S.use t f
  | .copying old new _ l, t, f =>
      old.use t f + new.use t f + if t = .lag then ind (some l.pa) f else 0
  | .clearing S v _ _, t, f => (S.setLeaf v none (S.data v)).use t f
  | .token root, t, f => if t = .token then ind (some root) f else 0

/-- The state in which a frame has these contents and this first mapping. -/
def Kmem.restored (s : Kmem) (pa : Nat) (d : Arr) (first : Option Pte) : Kmem :=
  { s with mem := Function.update s.mem pa d, first := Function.update s.first pa first }

/-- What the ledger says about memory, entry by entry. -/
def Atom.Ok (K : Image) (s : Kmem) : Atom → Prop
  | .page pa data fresh =>
      K.Frame pa ∧ s.mem pa = data ∧ (fresh = true → s.first pa = none)
  | .space S => S.Ok K s
  | .copying old new v l =>
      old.Ok K s ∧ new.leaf v = none ∧ v < USERPAGES ∧
        (new.setLeaf v (some l) (old.data v)).Ok K s ∧ l.own = false ∧
        ∃ l', old.leaf v = some l' ∧ l'.pa = l.pa
  | .clearing S v l first =>
      v < USERPAGES ∧ S.leaf v = some l ∧ (∀ x, S.node x ≠ some l.pa) ∧
        S.Ok K (s.restored l.pa (S.data v) first)
  | .token _ => True

/-- The references of one kind to `f` in a ledger. -/
def total (t : Tag) (r : Multiset Atom) (f : Nat) : Nat :=
  (r.map fun a => a.use t f).sum

@[simp] theorem total_zero (t : Tag) (f : Nat) : total t 0 f = 0 := rfl

@[simp] theorem total_singleton (t : Tag) (a : Atom) (f : Nat) :
    total t {a} f = a.use t f := by simp [total]

@[simp] theorem total_add (t : Tag) (r r' : Multiset Atom) (f : Nat) :
    total t (r + r') f = total t r f + total t r' f := by simp [total]

theorem use_le_total {t : Tag} {r : Multiset Atom} {a : Atom} (h : a ∈ r)
    (f : Nat) : a.use t f ≤ total t r f :=
  Multiset.single_le_sum (by simp) _ (Multiset.mem_map_of_mem _ h)

theorem total_eq_zero {t : Tag} {r : Multiset Atom} {f : Nat}
    (h : ∀ a ∈ r, a.use t f = 0) : total t r f = 0 := by
  apply Multiset.sum_eq_zero
  intro n hn
  obtain ⟨a, ha, rfl⟩ := Multiset.mem_map.mp hn
  exact h a ha

/-- The pages on the free list, from its head on. -/
def FreeChain (mem : Nat → Arr) : Nat → List Nat → Prop
  | head, [] => head = 0
  | head, p :: rest => head = p ∧ p ≠ 0 ∧ FreeChain mem (getLE 8 (mem p) 0) rest

/-- The free list holds exactly the frames without references, each once. -/
def FreeOk (K : Image) (s : Kmem) : Prop :=
  ∃ L, FreeChain s.mem s.freelist L ∧ L.Nodup ∧
    ∀ f, f ∈ L ↔ K.Frame f ∧ s.refCount (countIndex f) = 0

/-- A page of the kernel is not mapped, and a frame with an exclusive mapping has
no other one, counted or not. -/
def Sharing (kernel user lag own : Nat) : Prop :=
  (1 ≤ kernel → kernel = 1 ∧ user + lag = 0) ∧ (1 ≤ own → user + lag = 1)

/-- The state agrees with the ledger. -/
structure Inv (K : Image) (r : Multiset Atom) (s : Kmem) : Prop where
  ok : ∀ a ∈ r, a.Ok K s
  count : ∀ f, K.Frame f → s.refCount (countIndex f) =
    ((total .kernel r f + total .user r f : Nat) : Int)
  sharing : ∀ f,
    Sharing (total .kernel r f) (total .user r f) (total .lag r f) (total .own r f)
  free : FreeOk K s
  unlocked : s.locked = false
  tokens : ∀ x, total .token r x ≤ total .root r x

section frame

variable {K : Image} {s s' : Kmem}

theorem FreeChain.congr {mem mem' : Nat → Arr} {head : Nat} {L : List Nat}
    (h : FreeChain mem head L) (hmem : ∀ p ∈ L, mem' p = mem p) :
    FreeChain mem' head L := by
  induction L generalizing head with
  | nil => exact h
  | cons p rest ih =>
      obtain ⟨hhead, hne, hrest⟩ := h
      have hp : mem' p = mem p := hmem p List.mem_cons_self
      refine ⟨hhead, hne, ?_⟩
      rw [hp]
      exact ih hrest fun q hq => hmem q (List.mem_cons_of_mem p hq)

/-- The free list only lives in frames without references. -/
theorem FreeOk.congr (h : FreeOk K s) (hcount : s'.refCount = s.refCount)
    (hlist : s'.freelist = s.freelist)
    (hmem : ∀ f, K.Frame f → s.refCount (countIndex f) = 0 → s'.mem f = s.mem f) :
    FreeOk K s' := by
  obtain ⟨L, hchain, hnodup, hiff⟩ := h
  refine ⟨L, ?_, hnodup, ?_⟩
  · rw [hlist]
    apply hchain.congr
    intro p hp
    obtain ⟨hframe, hzero⟩ := (hiff p).mp hp
    exact hmem p hframe hzero
  · rw [hcount]
    exact hiff

theorem UserLeaf.congr {l : Leaf} {d : Arr} (h : UserLeaf K s l d)
    (hmem : s'.mem l.pa = s.mem l.pa) (hfirst : s'.first l.pa = s.first l.pa) :
    UserLeaf K s' l d where
  frame := h.frame
  flags := h.flags
  valid := h.valid
  readable := h.readable
  notBoth := h.notBoth
  owner := h.owner
  data := hmem.trans h.data
  origin := by
    rw [hfirst]
    exact h.origin

theorem Space.frames_eq_some {S : Space} {v f : Nat} :
    S.frames v = some f ↔ ∃ l, S.leaf v = some l ∧ l.pa = f := by
  simp [Space.frames]

theorem Space.Ok.congr {S : Space} (h : S.Ok K s)
    (hsame : ∀ f, 1 ≤ S.use .kernel f + S.use .user f →
      s'.mem f = s.mem f ∧ s'.first f = s.first f) : S.Ok K s' where
  table := by
    apply h.table.congr
    intro x p hp
    have huse : 1 ≤ S.use .kernel p := refs_pos (h.table.dom x p hp).1 hp
    exact (hsame p (by omega)).1
  user v l hv hl := by
    have huse : 1 ≤ S.use .user l.pa :=
      refs_pos (mem_userIx.mpr hv) (Space.frames_eq_some.mpr ⟨l, hl, rfl⟩)
    obtain ⟨hmem, hfirst⟩ := hsame l.pa (by omega)
    exact (h.user v l hv hl).congr hmem hfirst
  high := h.high
  inj := h.inj

@[simp] theorem Space.use_lag (S : Space) (f : Nat) : S.use .lag f = 0 := rfl

@[simp] theorem Space.use_token (S : Space) (f : Nat) : S.use .token f = 0 := rfl

@[simp] theorem Space.use_root_setLeaf (S : Space) (v : Nat) (o : Option Leaf)
    (d : Arr) (f : Nat) : (S.setLeaf v o d).use .root f = S.use .root f := rfl

@[simp] theorem Space.use_kernel_setLeaf (S : Space) (v : Nat) (o : Option Leaf) (d : Arr)
    (f : Nat) : (S.setLeaf v o d).use .kernel f = S.use .kernel f := rfl

/-- A changed leaf moves one user reference. -/
theorem Space.use_user_setLeaf (S : Space) {v : Nat} (hv : v < USERPAGES)
    (o : Option Leaf) (d : Arr) (f : Nat) :
    (S.setLeaf v o d).use .user f + ind (S.frames v) f =
      S.use .user f + ind (o.map Leaf.pa) f := by
  unfold Space.use
  rw [Space.frames_setLeaf]
  exact refs_update S.frames f (mem_userIx.mpr hv) _

theorem Space.use_own_setLeaf (S : Space) {v : Nat} (hv : v < USERPAGES)
    (o : Option Leaf) (d : Arr) (f : Nat) :
    (S.setLeaf v o d).use .own f + ind (S.owned v) f = S.use .own f +
      ind (o.bind fun l => if l.own then some l.pa else none) f := by
  unfold Space.use
  rw [Space.owned_setLeaf]
  exact refs_update S.owned f (mem_userIx.mpr hv) _

/-- A ledger entry speaks only about the pages that it refers to. -/
theorem Atom.Ok.congr {a : Atom} (h : a.Ok K s)
    (hsame : ∀ f, 1 ≤ a.use .kernel f + a.use .user f + a.use .lag f →
      s'.mem f = s.mem f ∧ s'.first f = s.first f) : a.Ok K s' := by
  cases a with
  | page pa data fresh =>
      obtain ⟨hframe, hdata, hfresh⟩ := h
      have huse : (Atom.page pa data fresh).use .kernel pa = 1 := by simp [Atom.use]
      obtain ⟨hmem, hfirst⟩ := hsame pa (by omega)
      exact ⟨hframe, hmem.trans hdata, fun hf => hfirst.trans (hfresh hf)⟩
  | space S =>
      have hS : S.Ok K s := h
      apply hS.congr
      intro f hf
      have huse : ∀ t, (Atom.space S).use t f = S.use t f := fun t => rfl
      exact hsame f (by rw [huse, huse]; omega)
  | copying old new v l =>
      obtain ⟨hold, hnone, hv, hnew, hl⟩ := h
      have huse : ∀ f t, (Atom.copying old new v l).use t f =
          old.use t f + new.use t f + if t = .lag then ind (some l.pa) f else 0 :=
        fun f t => rfl
      have hlag : ∀ f, (Atom.copying old new v l).use .lag f = ind (some l.pa) f := by
        intro f
        rw [huse]
        simp [Space.use]
      refine ⟨?_, hnone, hv, ?_, hl⟩
      · apply hold.congr
        intro f hf
        exact hsame f (by simp only [huse]; omega)
      · apply hnew.congr
        intro f hf
        apply hsame f
        have hmove := new.use_user_setLeaf hv (some l) (old.data v) f
        rw [Space.use_kernel_setLeaf] at hf
        rw [hlag, huse, huse]
        simp only [Option.map_some] at hmove
        omega
  | clearing S v l first =>
      obtain ⟨hv, hl, hnode, hS⟩ := h
      refine ⟨hv, hl, hnode, hS.congr fun f hf => ?_⟩
      by_cases hfl : f = l.pa
      · simp [Kmem.restored, hfl]
      · have hmove := S.use_user_setLeaf hv none (S.data v) f
        rw [Space.frames_eq_some.mpr ⟨l, hl, rfl⟩, ind_some_of_ne (Ne.symm hfl)] at hmove
        obtain ⟨hmem, hfirst⟩ := hsame f (by
          simp only [Atom.use, Space.use_kernel_setLeaf]
          omega)
        simp [Kmem.restored, hfl, hmem, hfirst]
  | token root => trivial

theorem Atom.Ok.frame_of_user {a : Atom} {f : Nat} (h : a.Ok K s)
    (huse : 1 ≤ a.use .kernel f + a.use .user f) : K.Frame f := by
  have hspace : ∀ (S : Space) {s : Kmem}, S.Ok K s →
      1 ≤ S.use .kernel f + S.use .user f → K.Frame f := by
    intro S s hS hpos
    by_cases hk : S.use .kernel f = 0
    · have hu : refs userIx S.frames f ≠ 0 := by
        have hdef : S.use .user f = refs userIx S.frames f := rfl
        omega
      obtain ⟨v, hv, hfr⟩ := refs_ne_zero hu
      obtain ⟨l, hl, rfl⟩ := Space.frames_eq_some.mp hfr
      exact (hS.user v l (mem_userIx.mp hv) hl).frame
    · obtain ⟨x, hx, hnode⟩ := refs_ne_zero (D := nodeIx) (g := S.node) hk
      exact (hS.table.dom x f hnode).2
  cases a with
  | page pa data fresh =>
      have hpos : 1 ≤ ind (some pa) f := by simpa [Atom.use] using huse
      obtain rfl := Option.some.inj (ind_pos_iff.mp hpos)
      exact h.1
  | space S => exact hspace S h huse
  | copying old new v l =>
      obtain ⟨hold, hnone, hv, hnew, hl⟩ := h
      by_cases hpos : 1 ≤ old.use .kernel f + old.use .user f
      · exact hspace old hold hpos
      · apply hspace _ hnew
        have hmove := new.use_user_setLeaf hv (some l) (old.data v) f
        have hzero : new.frames v = none := by simp [Space.frames, hnone]
        rw [hzero, ind_none] at hmove
        rw [Space.use_kernel_setLeaf]
        simp only [Atom.use, reduceCtorEq, ↓reduceIte] at huse
        omega
  | clearing S v l first =>
      obtain ⟨hv, hl, -, hS⟩ := h
      have hmove := S.use_user_setLeaf hv none (S.data v) f
      simp only [Atom.use, Space.use_kernel_setLeaf, Option.map_none, ind_none] at huse hmove
      exact hspace S hS (by omega)
  | token root => simp [Atom.use] at huse

/-- The pages that a ledger refers to in any way. -/
def touched (r : Multiset Atom) (f : Nat) : Nat :=
  total .kernel r f + total .user r f + total .lag r f

theorem touched_add (r r' : Multiset Atom) (f : Nat) :
    touched (r + r') f = touched r f + touched r' f := by
  simp only [touched, total_add]
  omega

/-- Replace one part `r` of the ledger by `r'` while the state changes.  The other
part `F` must not refer to changed pages, and the counts must move with the
references. -/
theorem Inv.change {r r' F : Multiset Atom} (h : Inv K (r + F) s)
    (hok : ∀ a ∈ r', a.Ok K s')
    (hsame : ∀ f, 1 ≤ touched F f → s'.mem f = s.mem f ∧ s'.first f = s.first f)
    (hcount : ∀ f, K.Frame f →
      s'.refCount (countIndex f) + (total .kernel r f + total .user r f : Nat) =
        s.refCount (countIndex f) + (total .kernel r' f + total .user r' f : Nat))
    (hsharing : ∀ f, Sharing (total .kernel r' f + total .kernel F f)
      (total .user r' f + total .user F f) (total .lag r' f + total .lag F f)
      (total .own r' f + total .own F f))
    (hfree : FreeOk K s') (hunlocked : s'.locked = false)
    (htokens : ∀ x, total .root r x + total .token r' x ≤
      total .root r' x + total .token r x) :
    Inv K (r' + F) s' where
  ok a ha := by
    rcases Multiset.mem_add.mp ha with hnew | hold
    · exact hok a hnew
    · apply (h.ok a (Multiset.mem_add.mpr (Or.inr hold))).congr
      intro f hf
      have hk := use_le_total (t := .kernel) hold f
      have hu := use_le_total (t := .user) hold f
      have hg := use_le_total (t := .lag) hold f
      exact hsame f (by unfold touched; omega)
  count f hf := by
    have hold := h.count f hf
    have hmove := hcount f hf
    simp only [total_add] at hold ⊢
    omega
  sharing f := by
    simp only [total_add]
    exact hsharing f
  free := hfree
  unlocked := hunlocked
  tokens x := by
    have hold := h.tokens x
    have hmove := htokens x
    simp only [total_add] at hold ⊢
    omega

/-- A change of memory that moves no counter: the changed pages belong to the
changed part of the ledger alone. -/
theorem Inv.stored {r r' F : Multiset Atom} (h : Inv K (r + F) s)
    (hcounts : s'.refCount = s.refCount) (hlist : s'.freelist = s.freelist)
    (hlock : s'.locked = s.locked)
    (halone : ∀ f, s'.mem f ≠ s.mem f ∨ s'.first f ≠ s.first f →
      touched F f = 0 ∧ (K.Frame f → 1 ≤ total .kernel r f + total .user r f))
    (hok : ∀ a ∈ r', a.Ok K s')
    (hcount : ∀ f, total .kernel r' f + total .user r' f =
      total .kernel r f + total .user r f)
    (hsharing : ∀ f, Sharing (total .kernel r' f + total .kernel F f)
      (total .user r' f + total .user F f) (total .lag r' f + total .lag F f)
      (total .own r' f + total .own F f))
    (htokens : ∀ x, total .root r x + total .token r' x ≤
      total .root r' x + total .token r x) :
    Inv K (r' + F) s' := by
  apply h.change
  case hok => exact hok
  case hsame =>
    intro f hf
    by_contra hne
    have hchanged : s'.mem f ≠ s.mem f ∨ s'.first f ≠ s.first f := by
      by_contra hsame
      push Not at hsame
      exact hne hsame
    have hzero := (halone f hchanged).1
    omega
  case hcount =>
    intro f hf
    rw [hcounts, hcount f]
  case hsharing => exact hsharing
  case hfree =>
    apply h.free.congr hcounts hlist
    intro f hf hzero
    by_contra hne
    have hheld := (halone f (Or.inl hne)).2 hf
    have hcount := h.count f hf
    simp only [total_add] at hcount
    omega
  case hunlocked => exact hlock.trans h.unlocked
  case htokens => exact htokens

/-- A change of memory that also keeps all references. -/
theorem Inv.rewrite {r r' F : Multiset Atom} (h : Inv K (r + F) s)
    (hcounts : s'.refCount = s.refCount) (hlist : s'.freelist = s.freelist)
    (hlock : s'.locked = s.locked)
    (halone : ∀ f, s'.mem f ≠ s.mem f ∨ s'.first f ≠ s.first f →
      touched F f = 0 ∧ (K.Frame f → 1 ≤ total .kernel r f + total .user r f))
    (hok : ∀ a ∈ r', a.Ok K s')
    (htotal : ∀ t f, total t r' f = total t r f) : Inv K (r' + F) s' := by
  apply h.stored hcounts hlist hlock halone hok
  · intro f
    rw [htotal, htotal]
  · intro f
    have hold := h.sharing f
    simpa only [htotal, total_add] using hold
  · intro x
    rw [htotal, htotal]

/-- The count of a frame, from the point of view of one part of the ledger. -/
theorem Inv.count_split {r F : Multiset Atom} (h : Inv K (r + F) s) {f : Nat}
    (hf : K.Frame f) : s.refCount (countIndex f) =
      ((total .kernel r f + total .kernel F f + total .user r f +
        total .user F f : Nat) : Int) := by
  have hcount := h.count f hf
  simp only [total_add] at hcount
  omega

theorem Inv.sharing_split {r F : Multiset Atom} (h : Inv K (r + F) s) (f : Nat) :
    Sharing (total .kernel r f + total .kernel F f)
      (total .user r f + total .user F f) (total .lag r f + total .lag F f)
      (total .own r f + total .own F f) := by
  have hshare := h.sharing f
  simp only [total_add] at hshare
  exact hshare

/-- Nobody else refers to a page of the kernel. -/
theorem Inv.touched_eq_zero_of_kernel {r F : Multiset Atom} (h : Inv K (r + F) s)
    {f : Nat} (hf : 1 ≤ total .kernel r f) : touched F f = 0 := by
  have hshare := (h.sharing_split f).1 (by omega)
  unfold touched
  omega

/-- Nobody else refers to a frame with an exclusive mapping. -/
theorem Inv.touched_eq_zero_of_own {r F : Multiset Atom} (h : Inv K (r + F) s)
    {f : Nat} (hf : 1 ≤ total .own r f) (hu : 1 ≤ total .user r f) :
    touched F f = 0 := by
  have hshare := h.sharing_split f
  have hown := hshare.2 (by omega)
  have hkernel := hshare.1
  unfold touched
  omega

/-- Every mapping that is not counted yet belongs to a counted one. -/
theorem Atom.Ok.lag_le_user {a : Atom} (h : a.Ok K s) (f : Nat) :
    a.use .lag f ≤ a.use .user f := by
  cases a with
  | page pa data fresh => simp [Atom.use]
  | space S => simp [Atom.use, Space.use]
  | copying old new v l =>
      obtain ⟨hold, hnone, hv, hnew, -, l', hl', hpa⟩ := h
      simp only [Atom.use, Space.use, ↓reduceIte, reduceCtorEq, zero_add, add_zero]
      by_cases hf : l.pa = f
      · subst hf
        have hpos : 1 ≤ refs userIx old.frames l.pa :=
          refs_pos (mem_userIx.mpr hv) (Space.frames_eq_some.mpr ⟨l', hl', hpa⟩)
        rw [ind_some_self]
        omega
      · rw [ind_some_of_ne hf]
        omega
  | clearing S v l first => simp [Atom.use]
  | token root => simp [Atom.use]

theorem total_lag_le_user {r : Multiset Atom} (h : ∀ a ∈ r, a.Ok K s) (f : Nat) :
    total .lag r f ≤ total .user r f := by
  unfold total
  apply Multiset.sum_map_le_sum_map
  intro a ha
  exact (h a ha).lag_le_user f

attribute [irreducible] total

/-- A frame without references is referred to by nothing. -/
theorem Inv.touched_eq_zero_of_count {r : Multiset Atom} (h : Inv K r s) {f : Nat}
    (hf : K.Frame f) (hzero : s.refCount (countIndex f) = 0) : touched r f = 0 := by
  have hcount := h.count f hf
  have hlag := total_lag_le_user h.ok f
  unfold touched
  omega

end frame

end Xv6.Vm
