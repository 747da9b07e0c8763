/-
What a page table means: a tree of table pages over three levels, with a leaf
for every mapped page.  `Space.Table` says that memory holds the entries of the
tree, and the lemmas follow the tree through the stores of the page-table code.
-/
import Xv6.Lib.Refs
import Xv6.Vm.Kalloc

namespace Xv6.Vm

open Bytes Refs

/-- The frames that the allocator manages. -/
def Image.Frame (K : Image) (f : Nat) : Prop :=
  f % PGSIZE = 0 ∧ K.end_ ≤ f ∧ f < PHYSTOP

/-- A leaf entry.  `own` is a ghost flag: no other entry maps the frame. -/
structure Leaf where
  pa : Nat
  fl : Pte
  own : Bool

/-- A page table with the contents of the pages that it maps.  `node (l, k)` is
the table page of level `l` for the addresses whose quotient by the span of such
a page is `k`; `leaf` and `data` are indexed by page number. -/
structure Space where
  root : Nat
  node : Nat × Nat → Option Nat
  leaf : Nat → Option Leaf
  data : Nat → Arr

/-- The page numbers below TRAPFRAME. -/
def USERPAGES : Nat := TRAPFRAME / PGSIZE

@[irreducible] def nodeIx : Finset (Nat × Nat) := Finset.range 3 ×ˢ Finset.range (2 ^ 18)

@[irreducible] def userIx : Finset Nat := Finset.range USERPAGES

theorem mem_nodeIx {l k : Nat} : (l, k) ∈ nodeIx ↔ l < 3 ∧ k < 2 ^ 18 := by
  simp [nodeIx]

theorem mem_userIx {v : Nat} : v ∈ userIx ↔ v < USERPAGES := by
  simp [userIx]

def encodeNode : Option Nat → Pte
  | none => 0
  | some p => PA2PTE p ||| PTE_V

def encodeLeaf : Option Leaf → Pte
  | none => 0
  | some l => PA2PTE l.pa ||| l.fl

/-- The entry with number `j` among all entries of a level. -/
def Space.entry (S : Space) : Nat → Nat → Pte
  | 0, j => encodeLeaf (S.leaf j)
  | l + 1, j => encodeNode (S.node (l, j))

/-- The frame of each mapped page. -/
def Space.frames (S : Space) (v : Nat) : Option Nat := (S.leaf v).map Leaf.pa

/-- The frames that no other entry maps. -/
def Space.owned (S : Space) (v : Nat) : Option Nat :=
  (S.leaf v).bind fun l => if l.own then some l.pa else none

/-- Memory holds the table: every node below the root has a parent, and each
table page contains the entries of its part of the tree. -/
structure Space.Table (K : Image) (S : Space) (mem : Nat → Arr) : Prop where
  root : S.node (2, 0) = some S.root
  top : ∀ k, S.node (2, k) ≠ none → k = 0
  dom : ∀ x p, S.node x = some p → x ∈ nodeIx ∧ K.Frame p
  parent : ∀ l j p, S.node (l, j) = some p → l < 2 →
    ∃ q, S.node (l + 1, j / 512) = some q
  leafParent : ∀ v l, S.leaf v = some l → ∃ q, S.node (0, v / 512) = some q
  entries : ∀ l j p, S.node (l, j / 512) = some p →
    loadPte (mem p) (j % 512) = S.entry l j

section codec

variable {K : Image} {p : Nat}

theorem Image.Frame.lt_pow (h : K.Frame p) : p < 2 ^ 56 := by
  have hlt : p < PHYSTOP := h.2.2
  have hstop : PHYSTOP < 2 ^ 56 := by decide
  omega

theorem Image.Frame.inRam (h : K.Frame p) : inRam p = true := by
  have hbase := K.base_le_end
  simp only [Vm.inRam, Bool.and_eq_true, decide_eq_true_eq]
  exact ⟨hbase.trans h.2.1, h.2.2⟩

theorem Image.Frame.ne_zero (h : K.Frame p) : p ≠ 0 := by
  have hbase := K.base_le_end
  have hend : K.end_ ≤ p := h.2.1
  have hpos : 0 < KERNBASE := by decide
  omega

/-- Distinct frames have distinct counters. -/
theorem Image.Frame.countIndex_inj {q : Nat} (hp : K.Frame p) (hq : K.Frame q)
    (h : countIndex p = countIndex q) : p = q := by
  have hbase := K.base_le_end
  have hp1 : p % 4096 = 0 := hp.1
  have hq1 : q % 4096 = 0 := hq.1
  have hp2 : K.end_ ≤ p := hp.2.1
  have hq2 : K.end_ ≤ q := hq.2.1
  have hk : KERNBASE = 0x80000000 := rfl
  simp only [countIndex, PGSIZE] at h
  omega

theorem isFlags_PTE_V : IsFlags PTE_V := by decide

theorem has_encodeNode (o : Option Nat) (h : ∀ p, o = some p → K.Frame p) :
    Pte.has (encodeNode o) PTE_V = o.isSome := by
  cases o with
  | none => rfl
  | some p =>
      rw [encodeNode, Pte.has_or (h p rfl).lt_pow isFlags_PTE_V (by decide)]
      rfl

theorem PTE2PA_encodeNode (h : K.Frame p) : PTE2PA (encodeNode (some p)) = p :=
  PTE2PA_or h.lt_pow h.1 isFlags_PTE_V

end codec

namespace Space

/-- Replace the leaf of one page together with its contents. -/
def setLeaf (S : Space) (v : Nat) (o : Option Leaf) (d : Arr) : Space :=
  { S with leaf := Function.update S.leaf v o, data := Function.update S.data v d }

/-- Hang a new table page into the tree. -/
def link (S : Space) (x : Nat × Nat) (p : Nat) : Space :=
  { S with node := Function.update S.node x (some p) }

/-- The table that consists of an empty root page. -/
def empty (root : Nat) : Space where
  root := root
  node x := if x = (2, 0) then some root else none
  leaf _ := none
  data _ := fun _ => 0

@[simp] theorem frames_link (S : Space) (x : Nat × Nat) (p : Nat) :
    (S.link x p).frames = S.frames := rfl

@[simp] theorem owned_link (S : Space) (x : Nat × Nat) (p : Nat) :
    (S.link x p).owned = S.owned := rfl

theorem setLeaf_setLeaf (S : Space) (v : Nat) (o o' : Option Leaf) (d d' : Arr) :
    (S.setLeaf v o d).setLeaf v o' d' = S.setLeaf v o' d' := by
  simp [setLeaf]

theorem frames_setLeaf (S : Space) (v : Nat) (o : Option Leaf) (d : Arr) :
    (S.setLeaf v o d).frames = Function.update S.frames v (o.map Leaf.pa) := by
  funext u
  by_cases h : u = v
  · subst h
    simp [frames, setLeaf]
  · simp [frames, setLeaf, h]

theorem owned_setLeaf (S : Space) (v : Nat) (o : Option Leaf) (d : Arr) :
    (S.setLeaf v o d).owned = Function.update S.owned v
      (o.bind fun l => if l.own then some l.pa else none) := by
  funext u
  by_cases h : u = v
  · subst h
    simp [owned, setLeaf]
  · simp [owned, setLeaf, h]

variable {K : Image} {S : Space} {mem mem' : Nat → Arr}

theorem Table.congr (h : S.Table K mem)
    (hmem : ∀ x p, S.node x = some p → mem' p = mem p) : S.Table K mem' where
  root := h.root
  top := h.top
  dom := h.dom
  parent := h.parent
  leafParent := h.leafParent
  entries l j p hp := by
    rw [hmem _ p hp]
    exact h.entries l j p hp

theorem Table.has_entry (h : S.Table K mem) (l j : Nat) :
    Pte.has (S.entry (l + 1) j) PTE_V = (S.node (l, j)).isSome :=
  has_encodeNode (S.node (l, j)) fun p hp => (h.dom _ p hp).2

/-- Storing a leaf entry into its table page changes this leaf only. -/
theorem Table.setLeaf (h : S.Table K mem) {v p : Nat} (o : Option Leaf) (d : Arr)
    (hp : S.node (0, v / 512) = some p)
    (hinj : ∀ x, S.node x = some p → x = (0, v / 512)) :
    (S.setLeaf v o d).Table K
      (Function.update mem p (storePte (mem p) (v % 512) (encodeLeaf o))) where
  root := h.root
  top := h.top
  dom := h.dom
  parent := h.parent
  leafParent u l hl := by
    by_cases huv : u = v
    · subst huv
      exact ⟨p, hp⟩
    · simp only [Space.setLeaf, Function.update_of_ne huv] at hl
      exact h.leafParent u l hl
  entries l j q hq := by
    have hold := h.entries l j q hq
    by_cases hqp : q = p
    · subst hqp
      obtain ⟨rfl, hj⟩ := Prod.mk.inj (hinj _ hq)
      rw [Function.update_self]
      by_cases hjv : j = v
      · subst hjv
        simp [Space.entry, Space.setLeaf]
      · have hne : j % 512 ≠ v % 512 := by omega
        rw [loadPte_storePte_of_ne hne, hold]
        simp [Space.entry, Space.setLeaf, hjv]
    · rw [Function.update_of_ne hqp, hold]
      cases l with
      | succ l => rfl
      | zero =>
          have hjv : j ≠ v := by
            rintro rfl
            exact hqp (Option.some.inj (hq.symm.trans hp))
          simp [Space.entry, Space.setLeaf, hjv]

/-- Storing the entry of an empty table page hangs the page into the tree. -/
theorem Table.link (h : S.Table K mem) {l j p q : Nat} (hl : l < 2)
    (hdom : (l, j) ∈ nodeIx) (hp : K.Frame p) (hnone : S.node (l, j) = none)
    (hq : S.node (l + 1, j / 512) = some q) (hfresh : ∀ x, S.node x ≠ some p)
    (hinj : ∀ x, S.node x = some q → x = (l + 1, j / 512))
    (hzero : mem p = fun _ => 0) :
    (S.link (l, j) p).Table K
      (Function.update mem q (storePte (mem q) (j % 512) (PA2PTE p ||| PTE_V))) := by
  have hpq : q ≠ p := fun heq => hfresh _ (heq ▸ hq)
  have hnode : ∀ x, x ≠ (l, j) → (S.link (l, j) p).node x = S.node x := by
    intro x hx
    simp [Space.link, hx]
  have hself : (S.link (l, j) p).node (l, j) = some p := by simp [Space.link]
  constructor
  case root =>
    rw [hnode (2, 0) (by rintro h; injection h with h1 h2; omega)]
    exact h.root
  case top =>
    intro k hk
    rw [hnode (2, k) (by rintro h; injection h with h1 h2; omega)] at hk
    exact h.top k hk
  case dom =>
    intro x r hr
    by_cases hx : x = (l, j)
    · subst hx
      rw [hself] at hr
      exact ⟨hdom, Option.some.inj hr ▸ hp⟩
    · rw [hnode x hx] at hr
      exact h.dom x r hr
  case parent =>
    intro l' j' r hr hl'
    have hup : ∃ q', S.node (l' + 1, j' / 512) = some q' := by
      by_cases hx : (l', j') = (l, j)
      · obtain ⟨rfl, rfl⟩ := Prod.mk.inj hx
        exact ⟨q, hq⟩
      · rw [hnode _ hx] at hr
        exact h.parent l' j' r hr hl'
    obtain ⟨q', hq'⟩ := hup
    by_cases hx : (l' + 1, j' / 512) = (l, j)
    · rw [hx]
      exact ⟨p, hself⟩
    · exact ⟨q', by rwa [hnode _ hx]⟩
  case leafParent =>
    intro v lf hlf
    obtain ⟨q', hq'⟩ := h.leafParent v lf hlf
    by_cases hx : (0, v / 512) = (l, j)
    · rw [hx]
      exact ⟨p, hself⟩
    · exact ⟨q', by rwa [hnode _ hx]⟩
  case entries =>
    intro l' j' r hr
    -- the tree changes at one entry only, and below the new page it is empty
    have hentry : (l', j') ≠ (l + 1, j) →
        (S.link (l, j) p).entry l' j' = S.entry l' j' := by
      intro hne
      cases l' with
      | zero => rfl
      | succ l' =>
          have hx : (l', j') ≠ (l, j) := by
            rintro heq
            obtain ⟨rfl, rfl⟩ := Prod.mk.inj heq
            exact hne rfl
          simp only [Space.entry, hnode _ hx]
    by_cases hx : (l', j' / 512) = (l, j)
    · rw [hx, hself] at hr
      obtain rfl := Option.some.inj hr
      obtain ⟨rfl, hj⟩ := Prod.mk.inj hx
      have hne : (l', j') ≠ (l' + 1, j) := by
        intro heq
        injection heq with h1 h2
        omega
      rw [Function.update_of_ne (Ne.symm hpq), hzero, loadPte_zero, hentry hne]
      cases l' with
      | zero =>
          have hleaf : S.leaf j' = none := by
            by_contra hsome
            obtain ⟨lf, hlf⟩ := Option.ne_none_iff_exists'.mp hsome
            obtain ⟨q', hq'⟩ := h.leafParent j' lf hlf
            rw [hj, hnone] at hq'
            cases hq'
          simp [Space.entry, hleaf, encodeLeaf]
      | succ l' =>
          have hchild : S.node (l', j') = none := by
            by_contra hsome
            obtain ⟨c, hc⟩ := Option.ne_none_iff_exists'.mp hsome
            obtain ⟨q', hq'⟩ := h.parent l' j' c hc (by omega)
            rw [hj, hnone] at hq'
            cases hq'
          simp [Space.entry, hchild, encodeNode]
    · rw [hnode _ hx] at hr
      have hold := h.entries l' j' r hr
      by_cases hrq : r = q
      · subst hrq
        obtain ⟨rfl, hj⟩ := Prod.mk.inj (hinj _ hr)
        rw [Function.update_self]
        by_cases hjj : j' = j
        · subst hjj
          simp [Space.entry, Space.link, encodeNode]
        · have hmod : j' % 512 ≠ j % 512 := by omega
          have hne : (l + 1, j') ≠ (l + 1, j) := by
            intro heq
            injection heq with h1 h2
            exact hjj h2
          rw [loadPte_storePte_of_ne hmod, hold, hentry hne]
      · have hne : (l', j') ≠ (l + 1, j) := by
          intro heq
          obtain ⟨rfl, rfl⟩ := Prod.mk.inj heq
          exact hrq (Option.some.inj (hr.symm.trans hq))
        rw [Function.update_of_ne hrq, hold, hentry hne]

theorem Table.empty {root : Nat} (hroot : K.Frame root)
    (hzero : mem root = fun _ => 0) : (Space.empty root).Table K mem where
  root := by simp [Space.empty]
  top k hk := by
    by_contra hne
    simp [Space.empty, hne] at hk
  dom x p hp := by
    by_cases hx : x = (2, 0)
    · subst hx
      simp only [Space.empty, ↓reduceIte, Option.some.injEq] at hp
      exact ⟨mem_nodeIx.mpr (by decide), hp ▸ hroot⟩
    · simp [Space.empty, hx] at hp
  parent l j p hp hl := by
    have hx : (l, j) ≠ (2, 0) := by
      intro heq
      injection heq with h1 h2
      omega
    simp only [Space.empty, hx, ↓reduceIte] at hp
    cases hp
  leafParent v l hl := by cases hl
  entries l j p hp := by
    by_cases hx : (l, j / 512) = (2, 0)
    · obtain ⟨rfl, hj⟩ := Prod.mk.inj hx
      simp only [Space.empty, hj, ↓reduceIte, Option.some.injEq] at hp
      rw [← hp, hzero, loadPte_zero]
      have hne : (1, j) ≠ (2, 0) := by simp
      simp [Space.entry, Space.empty, hne, encodeNode]
    · simp only [Space.empty, hx, ↓reduceIte] at hp
      cases hp

end Space

end Xv6.Vm
