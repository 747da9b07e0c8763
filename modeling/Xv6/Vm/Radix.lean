/-
Page tables as finite maps from pages to entries: walk and mappages on any tree of distinct
table pages, with leaf entries of any form.
-/
import Xv6.Vm.Decode

namespace Xv6.Vm

open Bytes Program Refs

/-- A page-aligned address in RAM. -/
def IsPage (p : Nat) : Prop := p % PGSIZE = 0 ∧ inRam p = true

/-- An interior entry: not valid, or the address of a table with PTE_V and nothing else. -/
def Points (w : Pte) : Option Nat → Prop
  | none => w.has PTE_V = false
  | some q => w = PA2PTE q ||| PTE_V

/-- A three-level page table.  `node (l, k)` is the table page of level `l` for the addresses
whose quotient by the span of such a page is `k`; no two places share a page. -/
structure Radix (root : Nat) (node : Nat × Nat → Option Nat) (mem : Nat → Arr) : Prop where
  root : node (2, 0) = some root
  dom : ∀ x p, node x = some p → x ∈ nodeIx ∧ IsPage p
  parent : ∀ l j p, node (l, j) = some p → l < 2 → ∃ q, node (l + 1, j / 512) = some q
  inj : ∀ x y p, node x = some p → node y = some p → x = y
  interior : ∀ l j p, node (l + 1, j / 512) = some p →
    Points (loadPte (mem p) (j % 512)) (node (l, j))

/-- A page table beside a free list of other pages. -/
structure Grounded (root : Nat) (node : Nat × Nat → Option Nat) (s : Kmem) : Prop where
  table : Radix root node s.mem
  free : ∃ L, FreeChain s.mem s.freelist L ∧ L.Nodup ∧ ∀ f ∈ L, IsPage f ∧ ∀ x, node x ≠ some f
  unlocked : s.locked = false

variable {K : Image} {root : Nat} {node : Nat × Nat → Option Nat} {mem mem' : Nat → Arr}
  {s s' : Kmem} {va : Nat}

theorem IsPage.lt_pow {p : Nat} (h : IsPage p) : p < 2 ^ 56 := by
  have hram := h.2
  simp only [inRam, Bool.and_eq_true, decide_eq_true_eq] at hram
  have hstop : PHYSTOP < 2 ^ 56 := by decide
  omega

theorem Points.has {w : Pte} {o : Option Nat} (h : Points w o) (ho : ∀ q, o = some q → IsPage q) :
    w.has PTE_V = o.isSome := by
  cases o with
  | none => exact h
  | some q =>
      rw [show w = PA2PTE q ||| PTE_V from h,
        Pte.has_or (ho q rfl).lt_pow isFlags_PTE_V (by decide)]
      rfl

theorem Points.target {w : Pte} {q : Nat} (h : Points w (some q)) (hq : IsPage q) :
    PTE2PA w = q := by
  rw [show w = PA2PTE q ||| PTE_V from h]
  exact PTE2PA_or hq.lt_pow hq.1 isFlags_PTE_V

namespace Radix

variable (h : Radix root node mem)
include h

/-- The entry on the way to an address. -/
theorem entry (level : Nat) {p : Nat} (hp : node (level + 1, entryIx (level + 2) va) = some p) :
    Points (loadPte (mem p) (PX (level + 1) va)) (node (level, entryIx (level + 1) va)) :=
  h.interior level (entryIx (level + 1) va) p (by rwa [entryIx_div])

theorem below_none (level : Nat) (hlevel : level < 2)
    (hnone : node (level + 1, entryIx (level + 2) va) = none) :
    node (level, entryIx (level + 1) va) = none := by
  by_contra hsome
  obtain ⟨c, hc⟩ := Option.ne_none_iff_exists'.mp hsome
  obtain ⟨q, hq⟩ := h.parent _ _ c hc hlevel
  rw [entryIx_div, hnone] at hq
  cases hq

theorem node_root (hva : va < MAXVA) : node (2, entryIx 3 va) = some root := by
  rw [entryIx_two_div hva]
  exact h.root

/-- walk follows the tree. -/
theorem slotAt_eq (hva : va < MAXVA) :
    slotAt mem root va = (node (0, entryIx 1 va)).map fun p => (p, PX 0 va) := by
  have hpage : ∀ x p, node x = some p → IsPage p := fun x p hp => (h.dom x p hp).2
  have htop := h.entry 1 (h.node_root hva)
  simp only [slotAt]
  rw [htop.has fun q hq => hpage _ q hq]
  cases hone : node (1, entryIx 2 va) with
  | none =>
      rw [h.below_none 0 (by decide) hone]
      rfl
  | some p =>
      rw [hone] at htop
      have hmiddle := h.entry 0 hone
      simp only [Option.isSome_some, if_true, htop.target (hpage _ p hone)]
      rw [hmiddle.has fun q hq => hpage _ q hq]
      cases hzero : node (0, entryIx 1 va) with
      | none => rfl
      | some q =>
          rw [hzero] at hmiddle
          simp only [Option.isSome_some, if_true, hmiddle.target (hpage _ q hzero),
            Option.map_some]

theorem lookup_eq (hva : va < MAXVA) :
    lookup mem root va =
      ((node (0, entryIx 1 va)).map fun p => loadPte (mem p) (PX 0 va)).getD 0 := by
  rw [lookup_eq_slotAt, h.slotAt_eq hva, Option.map_map]
  rfl

/-- Two addresses have one entry exactly when they are in one page. -/
theorem slot_inj {a b : Nat} {x y : PtePtr} (ha : a < MAXVA) (hb : b < MAXVA)
    (hx : slotAt mem root a = some x) (hy : slotAt mem root b = some y) :
    x = y ↔ a / PGSIZE = b / PGSIZE := by
  rw [h.slotAt_eq ha] at hx
  rw [h.slotAt_eq hb] at hy
  obtain ⟨p, hp, rfl⟩ := Option.map_eq_some_iff.mp hx
  obtain ⟨q, hq, rfl⟩ := Option.map_eq_some_iff.mp hy
  constructor
  · intro heq
    obtain ⟨rfl, hix⟩ := Prod.mk.inj heq
    have hnode := congrArg Prod.snd (h.inj _ _ p hp hq)
    simp only [entryIx, PX, PGSIZE] at hnode hix ⊢
    omega
  · intro hpage
    have hix : entryIx 1 a = entryIx 1 b := by
      simp only [entryIx, PGSIZE] at hpage ⊢
      omega
    rw [hix, hq] at hp
    rw [Option.some.inj hp, PX_congr hpage]

/-- Stores outside of the interior tables keep the tree. -/
theorem congr (hmem : ∀ l j p, node (l + 1, j) = some p → mem' p = mem p) :
    Radix root node mem' where
  root := h.root
  dom := h.dom
  parent := h.parent
  inj := h.inj
  interior l j p hp := by
    rw [hmem l _ p hp]
    exact h.interior l j p hp

/-- Storing the entry of an empty table page hangs the page into the tree. -/
theorem link {l j p q : Nat} (hl : l < 2) (hdom : (l, j) ∈ nodeIx) (hp : IsPage p)
    (hnone : node (l, j) = none) (hq : node (l + 1, j / 512) = some q)
    (hfresh : ∀ x, node x ≠ some p) (hzero : mem p = fun _ => 0) :
    Radix root (Function.update node (l, j) (some p))
      (Function.update mem q (storePte (mem q) (j % 512) (PA2PTE p ||| PTE_V))) := by
  have hpq : p ≠ q := fun heq => hfresh _ (heq ▸ hq)
  have hother : ∀ x, x ≠ (l, j) → Function.update node (l, j) (some p) x = node x :=
    fun x hx => Function.update_of_ne hx ..
  have hself : Function.update node (l, j) (some p) (l, j) = some p := Function.update_self ..
  have hcases : ∀ x r, Function.update node (l, j) (some p) x = some r →
      (x = (l, j) ∧ r = p) ∨ (x ≠ (l, j) ∧ node x = some r) := by
    intro x r hr
    by_cases hx : x = (l, j)
    · rw [hx, hself] at hr
      exact Or.inl ⟨hx, (Option.some.inj hr).symm⟩
    · rw [hother x hx] at hr
      exact Or.inr ⟨hx, hr⟩
  constructor
  case root =>
    rw [hother _ (by rintro heq; injection heq with h1 h2; omega)]
    exact h.root
  case dom =>
    intro x r hr
    rcases hcases x r hr with ⟨rfl, rfl⟩ | ⟨-, hr'⟩
    · exact ⟨hdom, hp⟩
    · exact h.dom x r hr'
  case parent =>
    intro l' j' r hr hl'
    have hup : ∃ q', node (l' + 1, j' / 512) = some q' := by
      rcases hcases _ r hr with ⟨heq, -⟩ | ⟨-, hr'⟩
      · obtain ⟨rfl, rfl⟩ := Prod.mk.inj heq
        exact ⟨q, hq⟩
      · exact h.parent l' j' r hr' hl'
    obtain ⟨q', hq'⟩ := hup
    by_cases hx : (l' + 1, j' / 512) = (l, j)
    · exact ⟨p, by rw [hx, hself]⟩
    · exact ⟨q', by rwa [hother _ hx]⟩
  case inj =>
    intro x y r hx hy
    rcases hcases x r hx with ⟨rfl, rfl⟩ | ⟨-, hx'⟩ <;>
      rcases hcases y _ hy with ⟨rfl, hr⟩ | ⟨-, hy'⟩
    · rfl
    · exact absurd hy' (hfresh y)
    · exact absurd (hr ▸ hx') (hfresh x)
    · exact h.inj x y r hx' hy'
  case interior =>
    intro l' j' r hr
    rcases hcases _ r hr with ⟨heq, rfl⟩ | ⟨-, hr'⟩
    · -- the new page is empty, and so is the tree below it
      obtain ⟨rfl, rfl⟩ := Prod.mk.inj heq
      have hchild : node (l', j') = none := by
        by_contra hsome
        obtain ⟨c, hc⟩ := Option.ne_none_iff_exists'.mp hsome
        obtain ⟨q', hq'⟩ := h.parent l' j' c hc (by omega)
        rw [hnone] at hq'
        cases hq'
      rw [Function.update_of_ne hpq, hzero, loadPte_zero,
        hother _ (by rintro heq; injection heq with h1 h2; omega), hchild]
      rfl
    · have hold := h.interior l' j' r hr'
      by_cases hx : (l', j') = (l, j)
      · obtain ⟨rfl, rfl⟩ := Prod.mk.inj hx
        obtain rfl : r = q := Option.some.inj (hr'.symm.trans hq)
        rw [hself, Function.update_self, loadPte_storePte_self]
        rfl
      · rw [hother _ hx]
        by_cases hrq : r = q
        · subst hrq
          have hplace := h.inj _ _ r hr' hq
          obtain ⟨hl', hj'⟩ := Prod.mk.inj hplace
          obtain rfl : l' = l := by omega
          have hmod : j' % 512 ≠ j % 512 := by
            intro hmod
            exact hx (by rw [show j' = j by omega])
          rwa [Function.update_self, loadPte_storePte_of_ne hmod]
        · rwa [Function.update_of_ne hrq]

end Radix

/-- The state after walk has hung the free page `f` into the table page `q`. -/
def Kmem.linked (s : Kmem) (f q i : Nat) : Kmem :=
  let cleared := (s.popped f).wrote f fun _ => 0
  cleared.wrote q (storePte (cleared.mem q) i (PA2PTE f ||| PTE_V))

namespace Grounded

variable (h : Grounded root node s)
include h

theorem head_page (hne : s.freelist ≠ 0) :
    IsPage s.freelist ∧ ∀ x, node x ≠ some s.freelist := by
  obtain ⟨L, hchain, -, hL⟩ := h.free
  cases L with
  | nil => exact absurd hchain hne
  | cons f rest =>
      rw [hchain.1]
      exact hL f List.mem_cons_self

/-- A table page taken from the free list: the tree has it, and no entry has changed. -/
theorem grow {l j q : Nat} (hl : l < 2) (hdom : (l, j) ∈ nodeIx) (hne : s.freelist ≠ 0)
    (hnone : node (l, j) = none) (hq : node (l + 1, j / 512) = some q) :
    Grounded root (Function.update node (l, j) (some s.freelist))
        (s.linked s.freelist q (j % 512)) ∧
      ∀ va, va < MAXVA →
        lookup (s.linked s.freelist q (j % 512)).mem root va = lookup s.mem root va := by
  obtain ⟨f, hf⟩ : ∃ f, f = s.freelist := ⟨_, rfl⟩
  obtain ⟨hpage, hfresh⟩ := h.head_page hne
  rw [← hf] at hpage hfresh ⊢
  have hqf : q ≠ f := fun heq => hfresh _ (heq ▸ hq)
  have hmem : (s.linked f q (j % 512)).mem = Function.update (Function.update s.mem f fun _ => 0) q
      (storePte (s.mem q) (j % 512) (PA2PTE f ||| PTE_V)) := by
    simp [Kmem.linked, hqf]
  have hcleared : Radix root node (Function.update s.mem f fun _ => 0) :=
    h.table.congr fun l j p hp => Function.update_of_ne (fun heq => hfresh _ (heq ▸ hp)) ..
  have htable : Radix root (Function.update node (l, j) (some f)) (s.linked f q (j % 512)).mem := by
    have hlink := hcleared.link hl hdom hpage hnone hq hfresh (Function.update_self ..)
    rwa [Function.update_of_ne hqf, ← hmem] at hlink
  refine ⟨⟨htable, ?_, h.unlocked⟩, ?_⟩
  · obtain ⟨L, hchain, hnodup, hL⟩ := h.free
    cases L with
    | nil => exact absurd hchain hne
    | cons p rest =>
        obtain ⟨hp, -, hrest⟩ := hchain
        obtain rfl : f = p := hf.trans hp
        have hnotin := (List.nodup_cons.mp hnodup).1
        have hapart : ∀ g ∈ rest, g ≠ f ∧ g ≠ q := by
          intro g hg
          refine ⟨fun heq => hnotin (heq ▸ hg), ?_⟩
          rintro rfl
          exact (hL g (List.mem_cons_of_mem _ hg)).2 _ hq
        refine ⟨rest, ?_, (List.nodup_cons.mp hnodup).2, ?_⟩
        · change FreeChain _ (getLE 8 (s.mem f) 0) rest
          apply hrest.congr
          intro g hg
          rw [hmem, Function.update_of_ne (hapart g hg).2, Function.update_of_ne (hapart g hg).1]
        · intro g hg
          refine ⟨(hL g (List.mem_cons_of_mem _ hg)).1, fun x hx => ?_⟩
          by_cases hxl : x = (l, j)
          · rw [hxl, Function.update_self] at hx
            exact (hapart g hg).1 (Option.some.inj hx).symm
          · rw [Function.update_of_ne hxl] at hx
            exact (hL g (List.mem_cons_of_mem _ hg)).2 x hx
  · intro va hva
    rw [htable.lookup_eq hva, h.table.lookup_eq hva]
    by_cases hx : (0, entryIx 1 va) = (l, j)
    · have hnew : Function.update node (l, j) (some f) (l, j) = some f := Function.update_self ..
      have hzero : (s.linked f q (j % 512)).mem f = fun _ => 0 := by
        rw [hmem, Function.update_of_ne hqf.symm]
        exact Function.update_self ..
      rw [hx, hnone, hnew]
      simp only [Option.map_some, Option.map_none, hzero, loadPte_zero]
      rfl
    · have hold : Function.update node (l, j) (some f) (0, entryIx 1 va) = node (0, entryIx 1 va) :=
        Function.update_of_ne hx ..
      rw [hold]
      cases hleaf : node (0, entryIx 1 va) with
      | none => simp only [Option.map_none]
      | some p =>
          have hpq : p ≠ q := by
            rintro rfl
            have hplace := congrArg Prod.fst (h.table.inj _ _ p hleaf hq)
            simp at hplace
          have hpf : p ≠ f := fun heq => hfresh _ (heq ▸ hleaf)
          have hsame : (s.linked f q (j % 512)).mem p = s.mem p := by
            rw [hmem, Function.update_of_ne hpq, Function.update_of_ne hpf]
          simp only [Option.map_some, hsame]

/-- mappages stores into a leaf table: one page has a new entry, all others keep theirs. -/
theorem store {p : Nat} (w : Pte) (hp : node (0, entryIx 1 va) = some p) (hva : va < MAXVA) :
    Grounded root node (s.mapped (p, PX 0 va) w) ∧
      lookup (s.mapped (p, PX 0 va) w).mem root va = w ∧
      ∀ b, b < MAXVA → b / PGSIZE ≠ va / PGSIZE →
        lookup (s.mapped (p, PX 0 va) w).mem root b = lookup s.mem root b := by
  have hmem : (s.mapped (p, PX 0 va) w).mem =
      Function.update s.mem p (storePte (s.mem p) (PX 0 va) w) := rfl
  have htable : Radix root node (s.mapped (p, PX 0 va) w).mem := by
    refine h.table.congr fun l j q hq => ?_
    rw [hmem]
    refine Function.update_of_ne ?_ ..
    rintro rfl
    have hplace := congrArg Prod.fst (h.table.inj _ _ q hq hp)
    simp at hplace
  refine ⟨⟨htable, ?_, h.unlocked⟩, ?_, ?_⟩
  · obtain ⟨L, hchain, hnodup, hL⟩ := h.free
    refine ⟨L, hchain.congr fun g hg => ?_, hnodup, hL⟩
    rw [hmem]
    exact Function.update_of_ne (fun heq => (hL g hg).2 _ (heq ▸ hp)) ..
  · rw [htable.lookup_eq hva, hp, hmem]
    simp only [Option.map_some, Function.update_self, loadPte_storePte_self, Option.getD_some]
  · intro b hb hne
    rw [htable.lookup_eq hb, h.table.lookup_eq hb]
    cases hq : node (0, entryIx 1 b) with
    | none => simp only [Option.map_none]
    | some q =>
        simp only [Option.map_some, hmem]
        by_cases hqp : q = p
        · subst hqp
          have hplace := congrArg Prod.snd (h.table.inj _ _ q hq hp)
          have hix : PX 0 b ≠ PX 0 va := by
            intro hix
            simp only [entryIx, PX, PGSIZE] at hplace hix hne
            omega
          rw [Function.update_self, loadPte_storePte_of_ne hix]
        · rw [Function.update_of_ne hqp]

end Grounded

section walk

variable (K)

/-- walk with allocation: the tree grows, no entry changes, and the entry of the address is
found unless memory runs out. -/
theorem run_walkFrom_alloc {level p : Nat} (h : Grounded root node s) (hva : va < MAXVA)
    (hlevel : level ≤ 2) (hp : node (level, entryIx (level + 1) va) = some p) :
    ∃ o s' node', (walkFrom va true level p).run (handler K) s = .ok (o, s') ∧
      Grounded root node' s' ∧ (∀ b, b < MAXVA → lookup s'.mem root b = lookup s.mem root b) ∧
      ∀ pte, o = some pte → pte.2 = PX 0 va ∧ node' (0, entryIx 1 va) = some pte.1 := by
  induction level generalizing p s node with
  | zero =>
      refine ⟨some (p, PX 0 va), s, node, rfl, h, fun _ _ => rfl, ?_⟩
      rintro pte heq
      obtain rfl := Option.some.inj heq
      exact ⟨rfl, hp⟩
  | succ level ih =>
      have hentry := h.table.entry level hp
      have hpages : ∀ x q, node x = some q → IsPage q := fun x q hq => (h.table.dom x q hq).2
      have hread : handler K _ (.readPte (p, PX (level + 1) va)) s =
          .ok (loadPte (s.mem p) (PX (level + 1) va), s) := readPteAt_ok (hpages _ p hp).2
      have hhas := hentry.has fun q hq => hpages _ q hq
      rw [walkFrom, Prog.cmd_bind, Prog.run]
      simp only [hread, hhas]
      cases hnext : node (level, entryIx (level + 1) va) with
      | some q =>
          rw [hnext] at hentry
          simp only [Option.isSome_some, if_true, hentry.target (hpages _ q hnext)]
          exact ih h (by omega) hnext
      | none =>
          simp only [Option.isSome_none, Bool.false_eq_true, if_false, Bool.not_true,
            Prog.cmd_bind, Prog.run]
          by_cases hfree : s.freelist = 0
          · have halloc : handler K _ .kalloc s = .ok (0, s) := kalloc_zero h.unlocked hfree
            simp only [halloc, if_true]
            exact ⟨none, s, node, rfl, h, fun _ _ => rfl, fun pte heq => by cases heq⟩
          · have hpage := (h.head_page hfree).1
            have halloc : handler K _ .kalloc s = .ok (s.freelist, s.popped s.freelist) :=
              kalloc_pop h.unlocked rfl hfree hpage.2
            have hset : handler K _ (.memset s.freelist 0) (s.popped s.freelist) =
                .ok ((), (s.popped s.freelist).wrote s.freelist fun _ => 0) :=
              writePage_ok hpage.2 _
            have hwrite : handler K _ (.writePte (p, PX (level + 1) va)
                  (PA2PTE s.freelist ||| PTE_V))
                ((s.popped s.freelist).wrote s.freelist fun _ => 0) =
                .ok ((), s.linked s.freelist p (PX (level + 1) va)) :=
              writePteAt_ok (hpages _ p hp).2 _
            simp only [halloc, hfree, if_false, Prog.run, hset, hwrite]
            have hq : node (level + 1, entryIx (level + 1) va / 512) = some p := by
              rwa [entryIx_div]
            obtain ⟨hgrown, hsame⟩ := h.grow (by omega) (entryIx_mem hva (by omega)) hfree hnext hq
            obtain ⟨o, s', node', hrun, hok, hsame', hslot⟩ :=
              ih hgrown (by omega) (Function.update_self ..)
            exact ⟨o, s', node', hrun, hok, fun b hb => (hsame' b hb).trans (hsame b hb), hslot⟩

/-- The first `k` pages from `va` on have the entries for `pa` on, all others have kept theirs. -/
structure MapsRange (root : Nat) (s s' : Kmem) (va pa : Nat) (perm : Pte) (k : Nat) : Prop where
  inside : ∀ i, i < k → lookup s'.mem root (va + i * PGSIZE) =
    PA2PTE (pa + i * PGSIZE) ||| perm ||| PTE_V
  outside : ∀ b, b < MAXVA → b < va ∨ va + k * PGSIZE ≤ b →
    lookup s'.mem root b = lookup s.mem root b

theorem run_mapLoop {n : Nat} (pa : Nat) {perm : Pte} (h : Grounded root node s)
    (halign : va % PGSIZE = 0) (hmax : va + n * PGSIZE ≤ MAXVA) :
    ∃ r s' node' k, (mapLoop root perm n va pa).run (handler K) s = .ok (r, s') ∧
      Grounded root node' s' ∧ (r = 0 ∧ k = n ∨ r = -1 ∧ k < n) ∧
      MapsRange root s s' va pa perm k := by
  induction n generalizing va pa s node with
  | zero =>
      exact ⟨0, s, node, 0, rfl, h, Or.inl ⟨rfl, rfl⟩, fun i hi => absurd hi (by omega),
        fun _ _ _ => rfl⟩
  | succ n ih =>
      have hva : va < MAXVA := by
        simp only [PGSIZE] at hmax
        omega
      obtain ⟨o, t, node₁, hwalk, ht, hsame, hslot⟩ :=
        run_walkFrom_alloc K h hva le_rfl (h.table.node_root hva)
      have hrun : (walk root va true).run (handler K) s = .ok (o, t) := by
        rw [walk, if_neg (by omega)]
        exact hwalk
      rw [mapLoop, Prog.run_bind_ok hrun]
      cases o with
      | none =>
          exact ⟨-1, t, node₁, 0, rfl, ht, Or.inr ⟨rfl, Nat.succ_pos n⟩,
            fun i hi => absurd hi (by omega), fun b hb _ => hsame b hb⟩
      | some pte =>
          obtain ⟨p, i⟩ := pte
          obtain ⟨rfl, hp⟩ := hslot _ rfl
          obtain ⟨hu, hself, hother⟩ := ht.store (PA2PTE pa ||| perm ||| PTE_V) hp hva
          have hmap : handler K _ (.mapPte (p, PX 0 va) (PA2PTE pa ||| perm ||| PTE_V)) t =
              .ok ((), t.mapped (p, PX 0 va) (PA2PTE pa ||| perm ||| PTE_V)) :=
            mapPteAt_ok (ht.table.dom _ p hp).2.2 _
          have halign' : (va + PGSIZE) % PGSIZE = 0 := by
            rw [Nat.add_mod_right, halign]
          have hmax' : va + PGSIZE + n * PGSIZE ≤ MAXVA := by
            rw [Nat.succ_mul] at hmax
            omega
          obtain ⟨r, s', node', k, hloop, hok, hcases, hmaps⟩ :=
            ih (pa + PGSIZE) hu halign' hmax'
          simp only [Prog.cmd_bind, Prog.run, hmap]
          refine ⟨r, s', node', k + 1, hloop, hok, by omega, ?_, ?_⟩
          · intro i hi
            cases i with
            | zero =>
                rw [Nat.zero_mul, Nat.add_zero, Nat.add_zero,
                  hmaps.outside va hva (Or.inl (by simp only [PGSIZE]; omega)), hself]
            | succ i =>
                have hin := hmaps.inside i (by omega)
                have hstep : ∀ x : Nat, x + PGSIZE + i * PGSIZE = x + (i + 1) * PGSIZE := by
                  intro x
                  simp only [PGSIZE]
                  omega
                rwa [hstep, hstep] at hin
          · intro b hb hout
            have hpage : b / PGSIZE ≠ va / PGSIZE := by
              simp only [PGSIZE] at halign hout ⊢
              omega
            have hrest : b < va + PGSIZE ∨ va + PGSIZE + k * PGSIZE ≤ b := by
              simp only [PGSIZE] at hout ⊢
              omega
            rw [hmaps.outside b hb hrest, hother b hb hpage, hsame b hb]

end walk

/-- Page tables implement a finite map. -/
theorem mappages_finite_map (h : Grounded root node s) (size pa : Nat) (perm : Pte)
    (halign : va % PGSIZE = 0) (hsize : size % PGSIZE = 0) (hpos : 0 < size)
    (hmax : va + size ≤ MAXVA) :
    (∃ r s' node' k, (mappages root va size pa perm).run (handler K) s = .ok (r, s') ∧
      Grounded root node' s' ∧
      (r = 0 ∧ k = size / PGSIZE ∨ r = -1 ∧ k < size / PGSIZE) ∧
      MapsRange root s s' va pa perm k) ∧
    ∀ a b x y, a < MAXVA → b < MAXVA → slotAt s.mem root a = some x →
      slotAt s.mem root b = some y → (x = y ↔ a / PGSIZE = b / PGSIZE) := by
  refine ⟨?_, fun a b x y ha hb hx hy => h.table.slot_inj ha hb hx hy⟩
  rw [mappages, if_neg (by omega), if_neg (by omega), if_neg (by omega)]
  refine run_mapLoop K pa h halign ?_
  have hdiv := Nat.div_mul_cancel (Nat.dvd_of_mod_eq_zero hsize)
  omega

/-- The page table of a process is such a table. -/
theorem Inv.grounded {S : Space} {F : Multiset Atom} (h : Inv K ({.space S} + F) s) :
    Grounded S.root S.node s := by
  have hS := h.space_ok
  have hpage : ∀ p, K.Frame p → IsPage p := fun p hp => ⟨hp.1, hp.inRam⟩
  refine ⟨⟨hS.table.root, fun x p hp => ?_, hS.table.parent, fun x y p hx hy => ?_, ?_⟩, ?_,
    h.unlocked⟩
  · obtain ⟨hdom, hframe⟩ := hS.table.dom x p hp
    exact ⟨hdom, hpage p hframe⟩
  · have hone := (h.node_alone hx).2.2.1
    exact refs_inj hone.le (hS.table.dom x p hx).1 (hS.table.dom y p hy).1 hx hy
  · intro l j p hp
    rw [hS.table.entries (l + 1) j p hp, Space.entry]
    cases S.node (l, j) with
    | none => exact (by decide : (encodeNode none).has PTE_V = false)
    | some q => rfl
  · obtain ⟨L, hchain, hnodup, hL⟩ := h.free
    refine ⟨L, hchain, hnodup, fun f hf => ?_⟩
    obtain ⟨hframe, hzero⟩ := (hL f).mp hf
    refine ⟨hpage f hframe, fun x hx => ?_⟩
    have hcount := h.count f hframe
    have huse := (h.node_alone hx).2.2.1
    rw [total_add, total_add, total_space, total_space, huse, hzero] at hcount
    omega

namespace RadixWitness

/-- Five new pages, above the heap of the sample process. -/
theorem mappages_forked : ∃ r s' node' k,
    (mappages Forked.parent.mem.pagetable 0x40000000 0x5000 0x80000000 PTE_R).run
      (handler Forked.image) Forked.sys.k = .ok (r, s') ∧
    Grounded Forked.parent.mem.pagetable node' s' ∧ (r = 0 ∧ k = 5 ∨ r = -1 ∧ k < 5) ∧
    MapsRange Forked.parent.mem.pagetable Forked.sys.k s' 0x40000000 0x80000000 PTE_R k := by
  obtain ⟨S, m, F, hS, hinv⟩ := Forked.sys_reachable.space Forked.parent_mem
  have hground := hinv.grounded
  rw [hS.root] at hground
  exact (mappages_finite_map (K := Forked.image) hground 0x5000 0x80000000 PTE_R (by decide)
    (by decide) (by decide) (by decide)).1

end RadixWitness

end Xv6.Vm
