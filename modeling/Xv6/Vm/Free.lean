/-
Creating and destroying page tables: uvmcreate turns a cleared page into an
empty space, and freewalk gives back the pages of a space without mappings.
-/
import Mathlib.Algebra.BigOperators.Intervals
import Xv6.Vm.Resize
import Xv6.Vm.Proc

namespace Xv6.Vm

open Bytes Refs Program Interleave

variable {K : Image} {E : KErr → Prop} {r F : Multiset Atom} {s : Kmem} {S : Space}

theorem total_sum {ι : Type} (t : Tag) (D : Finset ι) (m : ι → Multiset Atom) (f : Nat) :
    total t (∑ i ∈ D, m i) f = ∑ i ∈ D, total t (m i) f := by
  induction D using Finset.cons_induction with
  | empty => simp
  | cons a D ha ih => rw [Finset.sum_cons, Finset.sum_cons, total_add, ih]

/-- Sums over blocks. -/
theorem sum_range_mul (g : Nat → Nat) (m n : Nat) :
    ∑ k ∈ Finset.range (n * m), g k =
      ∑ i ∈ Finset.range n, ∑ j ∈ Finset.range m, g (m * i + j) := by
  induction n with
  | zero => simp
  | succ n ih =>
      rw [Nat.succ_mul, Finset.sum_range_add, ih, Finset.sum_range_succ, Nat.mul_comm n m]

section tree

variable (S : Space) (mem : Nat → Arr)

/-- The indices of the entries of a table page. -/
@[irreducible] def slotIx : Finset Nat := Finset.range 512

theorem mem_slotIx {j : Nat} : j ∈ slotIx ↔ j < 512 := by simp [slotIx]

/-- A table page as a page of the kernel. -/
def pageAtom : Option Nat → Multiset Atom
  | none => 0
  | some p => {.page p (mem p) false}

/-- The pages of the part of the tree below one table page. -/
def Space.tree : Nat → Nat → Multiset Atom
  | 0, k => pageAtom mem (S.node (0, k))
  | l + 1, k => pageAtom mem (S.node (l + 1, k)) +
      ∑ j ∈ slotIx, Space.tree l (512 * k + j)

theorem total_pageAtom (t : Tag) (o : Option Nat) (f : Nat) :
    total t (pageAtom mem o) f = if t = .kernel then ind o f else 0 := by
  cases o with
  | none => simp [pageAtom]
  | some p => simp [pageAtom, Atom.use]

theorem Space.total_tree_zero {t : Tag} (ht : t ≠ .kernel) (l k f : Nat) :
    total t (S.tree mem l k) f = 0 := by
  induction l generalizing k with
  | zero => rw [Space.tree, total_pageAtom, if_neg ht]
  | succ l ih =>
      rw [Space.tree, total_add, total_pageAtom, if_neg ht, total_sum]
      simp [ih]

theorem Space.mem_tree {l k : Nat} {a : Atom} (h : a ∈ S.tree mem l k) :
    ∃ x p, S.node x = some p ∧ a = .page p (mem p) false := by
  have hpage : ∀ o : Option Nat, a ∈ pageAtom mem o →
      ∃ p, o = some p ∧ a = .page p (mem p) false := by
    intro o ha
    cases o with
    | none => simp [pageAtom] at ha
    | some p => exact ⟨p, rfl, Multiset.mem_singleton.mp ha⟩
  induction l generalizing k with
  | zero =>
      obtain ⟨p, hp, ha⟩ := hpage _ h
      exact ⟨_, p, hp, ha⟩
  | succ l ih =>
      rw [Space.tree] at h
      rcases Multiset.mem_add.mp h with h | h
      · obtain ⟨p, hp, ha⟩ := hpage _ h
        exact ⟨_, p, hp, ha⟩
      · obtain ⟨j, _, hj⟩ := Multiset.mem_sum.mp h
        exact ih hj

theorem Space.quiet_tree (l k : Nat) : Quiet (S.tree mem l k) := by
  intro a ha
  obtain ⟨x, p, _, rfl⟩ := S.mem_tree mem ha
  rfl

variable {S mem}

/-- There is nothing below a missing table page. -/
theorem Space.Table.tree_none (h : S.Table K mem) (mem' : Nat → Arr) {l k : Nat}
    (hl : l ≤ 2) (hnone : S.node (l, k) = none) : S.tree mem' l k = 0 := by
  induction l generalizing k with
  | zero => rw [Space.tree, hnone, pageAtom]
  | succ l ih =>
      rw [Space.tree, hnone, pageAtom, zero_add]
      apply Finset.sum_eq_zero
      intro j hj
      apply ih (by omega)
      by_contra hsome
      obtain ⟨c, hc⟩ := Option.ne_none_iff_exists'.mp hsome
      obtain ⟨q, hq⟩ := h.parent l _ c hc (by omega)
      have hdiv : (512 * k + j) / 512 = k := by
        have := mem_slotIx.mp hj
        omega
      rw [hdiv, hnone] at hq
      cases hq

/-- The tree has every table page once. -/
theorem Space.Table.total_tree (h : S.Table K mem) (mem' : Nat → Arr) (f : Nat) :
    total .kernel (S.tree mem' 2 0) f = refs nodeIx S.node f := by
  have hwide : ∀ l j, S.node (l, j) ≠ none → l < 2 → S.node (l + 1, j / 512) ≠ none := by
    intro l j hne hl
    obtain ⟨c, hc⟩ := Option.ne_none_iff_exists'.mp hne
    obtain ⟨q, hq⟩ := h.parent l j c hc hl
    rw [hq]
    exact Option.some_ne_none q
  have htwo : ∑ k ∈ Finset.range (2 ^ 18), ind (S.node (2, k)) f =
      ind (S.node (2, 0)) f := by
    apply Finset.sum_eq_single 0
    · intro k _ hk
      have hnone : S.node (2, k) = none := by
        by_contra hne
        exact hk (h.top k hne)
      rw [hnone, ind_none]
    · intro hnot
      exact absurd (Finset.mem_range.mpr (by decide)) hnot
  have hone : ∑ k ∈ Finset.range (2 ^ 18), ind (S.node (1, k)) f =
      ∑ k ∈ Finset.range 512, ind (S.node (1, k)) f := by
    symm
    apply Finset.sum_subset (Finset.range_mono (by decide))
    intro k _ hk
    have hnone : S.node (1, k) = none := by
      by_contra hne
      have htop := h.top _ (hwide 1 k hne (by omega))
      have := mt Finset.mem_range.mpr hk
      omega
    rw [hnone, ind_none]
  have hzero := sum_range_mul (fun k => ind (S.node (0, k)) f) 512 512
  rw [refs_def, nodeIx, Finset.sum_product, Finset.sum_range_succ, Finset.sum_range_succ,
    Finset.sum_range_one, htwo, hone, show (2 : Nat) ^ 18 = 512 * 512 from rfl, hzero]
  simp only [Space.tree, total_add, total_sum, total_pageAtom, ↓reduceIte, Nat.mul_zero,
    Nat.zero_add, Nat.reduceAdd, slotIx]
  rw [Finset.sum_add_distrib]
  omega

end tree

/-- A space without mappings is the set of its table pages. -/
theorem Inv.dissolve (h : Inv K ({.space S} + ({.token S.root} + F)) s)
    (hleaf : ∀ v, S.leaf v = none) : Inv K (S.tree s.mem 2 0 + F) s := by
  have hS := h.space_ok
  have hnone : ∀ f, S.use .user f = 0 ∧ S.use .own f = 0 := by
    intro f
    have huser : S.use .user f = 0 := by
      apply refs_eq_zero
      intro v _
      simp [Space.frames, hleaf]
    have hown := S.own_le_user f
    omega
  have htoken : ∀ t f, total t {Atom.token S.root} f =
      if t = .token then ind (some S.root) f else 0 := by
    intro t f
    simp [Atom.use]
  rw [← add_assoc] at h
  apply h.change
  case hok =>
    intro a ha
    obtain ⟨x, p, hp, rfl⟩ := S.mem_tree s.mem ha
    exact ⟨(hS.table.dom x p hp).2, rfl, by simp⟩
  case hsame => exact fun f _ => ⟨rfl, rfl⟩
  case hcount =>
    intro f hf
    have hk : S.use .kernel f = refs nodeIx S.node f := rfl
    have hu := (hnone f).1
    simp only [total_add, total_space, htoken, reduceCtorEq, ↓reduceIte,
      hS.table.total_tree, S.total_tree_zero s.mem (t := .user) (by decide)]
    omega
  case hsharing =>
    intro f
    have hold := h.sharing_split f
    have hk : S.use .kernel f = refs nodeIx S.node f := rfl
    obtain ⟨hu, ho⟩ := hnone f
    simp only [total_add, total_space, htoken, reduceCtorEq, ↓reduceIte, Space.use_lag,
      hS.table.total_tree, S.total_tree_zero s.mem (t := .user) (by decide),
      S.total_tree_zero s.mem (t := .lag) (by decide),
      S.total_tree_zero s.mem (t := .own) (by decide), hu, ho, add_zero,
      zero_add] at hold ⊢
    rwa [hk] at hold
  case hfree => exact h.free
  case hunlocked => exact h.unlocked
  case htokens =>
    intro x
    have hroot : S.use .root x = ind (some S.root) x := rfl
    simp only [total_add, total_space, htoken, reduceCtorEq, ↓reduceIte, Space.use_token,
      S.total_tree_zero s.mem (t := .root) (by decide),
      S.total_tree_zero s.mem (t := .token) (by decide), hroot]
    omega

section freewalk

variable {mem : Nat → Arr} {l k p : Nat}

/-- The pages below a table page, from its entry `i` on. -/
def Space.below (S : Space) (mem : Nat → Arr) : Nat → Nat → Nat → Multiset Atom
  | 0, _, _ => 0
  | l + 1, k, i => ∑ j ∈ Finset.Ico i 512, S.tree mem l (512 * k + j)

theorem Space.tree_eq (S : Space) (mem : Nat → Arr) (l k : Nat) :
    S.tree mem l k = pageAtom mem (S.node (l, k)) + S.below mem l k 0 := by
  cases l with
  | zero => rw [Space.tree, Space.below, add_zero]
  | succ l => rw [Space.tree, Space.below, slotIx, Finset.range_eq_Ico]

theorem Space.below_succ {i : Nat} (hi : i < 512) :
    S.below mem (l + 1) k i =
      S.tree mem l (512 * k + i) + S.below mem (l + 1) k (i + 1) :=
  Finset.sum_eq_sum_Ico_succ_bot hi _

theorem Space.below_end (S : Space) (mem : Nat → Arr) (l k : Nat) :
    S.below mem l k 512 = 0 := by
  cases l with
  | zero => rfl
  | succ l => rw [Space.below, Finset.Ico_self, Finset.sum_empty]

theorem Space.quiet_below (S : Space) (mem : Nat → Arr) (l k i : Nat) :
    Quiet (S.below mem l k i) := by
  cases l with
  | zero => exact quiet_zero
  | succ l =>
      intro a ha
      rw [Space.below] at ha
      obtain ⟨j, _, hj⟩ := Multiset.mem_sum.mp ha
      exact S.quiet_tree mem l _ a hj

/-- What freewalk has when it comes to entry `i` of a page: the page, whose
entries from `i` on are untouched, and the pages below these. -/
def Freeing (S : Space) (mem : Nat → Arr) (l k p : Nat) (r : Multiset Atom) (i : Nat)
    (r' : Multiset Atom) : Prop :=
  ∃ d, (∀ j, i ≤ j → j < 512 → loadPte d j = S.entry l (512 * k + j)) ∧
    r' = {.page p d false} + (S.below mem l k i + r)

theorem Freeing.skip {i : Nat} {r' : Multiset Atom} (h : Freeing S mem l k p r i r')
    (hbelow : S.below mem l k i = S.below mem l k (i + 1)) :
    Freeing S mem l k p r (i + 1) r' := by
  obtain ⟨d, hd, rfl⟩ := h
  exact ⟨d, fun j hlo hhi => hd j (by omega) hhi, by rw [hbelow]⟩

/-- An entry of an interior page does not have the flags of a leaf. -/
theorem encodeNode_not_leaf {c : Nat} (hc : K.Frame c) :
    (encodeNode (some c)).has (PTE_R ||| PTE_W ||| PTE_X) = false := by
  rw [encodeNode, Pte.has_or hc.lt_pow isFlags_PTE_V (by decide)]
  rfl

theorem Freeing.start (htable : S.Table K mem) (hp : S.node (l, k) = some p) :
    Freeing S mem l k p r 0 (S.tree mem l k + r) := by
  refine ⟨mem p, ?_, ?_⟩
  · intro j _ hj
    have hentry := htable.entries l (512 * k + j) p
      (by rwa [show (512 * k + j) / 512 = k by omega])
    rwa [show (512 * k + j) % 512 = j by omega] at hentry
  · rw [Space.tree_eq, hp, pageAtom, add_assoc]

/-- An entry of a page of the lowest level is empty. -/
theorem safe_freeEntry_leaf {i : Nat} {g : Nat → P Unit} {r' : Multiset Atom}
    (hleaf : ∀ v, S.leaf v = none) (hi : i < 512) (hr : Quiet r)
    (h : Freeing S mem 0 k p r i r') :
    Safe (logic K) E (freeEntry g p i) r' fun _ =>
      Freeing S mem 0 k p r (i + 1) := by
  obtain ⟨d, hd, rfl⟩ := h
  rw [freeEntry]
  apply Safe.bind (safe_readPte_page ((S.quiet_below mem 0 k i).add hr))
  rintro w r' ⟨rfl, rfl⟩
  have hzero : loadPte d i = 0 := by
    rw [hd i le_rfl hi, Space.entry, hleaf]
    rfl
  rw [hzero]
  exact Safe.pure (Freeing.skip ⟨d, hd, rfl⟩ rfl)

/-- An entry of a higher page is empty, or its page is freed by the recursive
call. -/
theorem safe_freeEntry_node {i : Nat} {g : Nat → P Unit} {r' : Multiset Atom}
    (htable : S.Table K mem) (hl : l < 2) (hi : i < 512) (hr : Quiet r)
    (hfree : ∀ c r₀, S.node (l, 512 * k + i) = some c → Quiet r₀ →
      Safe (logic K) E (g c) (S.tree mem l (512 * k + i) + r₀) fun _ r' => r' = r₀)
    (h : Freeing S mem (l + 1) k p r i r') :
    Safe (logic K) E (freeEntry g p i) r' fun _ =>
      Freeing S mem (l + 1) k p r (i + 1) := by
  obtain ⟨d, hd, rfl⟩ := h
  have hquiet : Quiet (S.below mem (l + 1) k (i + 1) + r) :=
    (S.quiet_below mem (l + 1) k (i + 1)).add hr
  rw [freeEntry]
  apply Safe.bind (safe_readPte_page ((S.quiet_below mem (l + 1) k i).add hr))
  rintro w r' ⟨rfl, rfl⟩
  rw [hd i le_rfl hi, Space.entry]
  cases hnode : S.node (l, 512 * k + i) with
  | none =>
      apply Safe.pure
      apply Freeing.skip ⟨d, hd, rfl⟩
      rw [Space.below_succ hi, htable.tree_none mem (by omega) hnode, zero_add]
  | some c =>
      have hc := (htable.dom _ c hnode).2
      have hvalid : (encodeNode (some c)).has PTE_V = true :=
        has_encodeNode (some c) fun q hq => Option.some.inj hq ▸ hc
      rw [hvalid, encodeNode_not_leaf hc, PTE2PA_encodeNode hc]
      simp only [Bool.not_false, Bool.and_self, ↓reduceIte]
      rw [Space.below_succ hi, add_assoc, add_left_comm]
      apply Safe.bind (hfree c _ hnode ((quiet_page p d false).add hquiet))
      rintro _ r' rfl
      apply (safe_writePte_page hquiet).mono
      rintro _ r' rfl
      refine ⟨storePte d i 0, ?_, rfl⟩
      intro j hlo hhi
      rw [loadPte_storePte_of_ne (by omega)]
      exact hd j (by omega) hhi

/-- freewalk gives back the pages of a tree without leaves. -/
theorem safe_freewalkFrom (htable : S.Table K mem) (hleaf : ∀ v, S.leaf v = none)
    (hl : l ≤ 2) (hp : S.node (l, k) = some p) (hr : Quiet r) :
    Safe (logic K) E (freewalkFrom (l + 1) p) (S.tree mem l k + r)
      fun _ r' => r' = r := by
  have hfinish : ∀ r', Freeing S mem l k p r 512 r' →
      Safe (logic K) E (Prog.cmd (.kfree p)) r' fun _ r' => r' = r := by
    rintro r' ⟨d, -, rfl⟩
    rw [Space.below_end, zero_add]
    exact safe_kfree hr
  induction l generalizing k p r with
  | zero =>
      rw [freewalkFrom]
      have hloop := Safe.upto (n := 512) (Freeing.start (r := r) htable hp)
        fun i r' hi hfreeing => safe_freeEntry_leaf (K := K) (E := E)
          (g := freewalkFrom 0) hleaf hi hr hfreeing
      exact hloop.bind fun _ r' hfreeing => hfinish r' hfreeing
  | succ l ih =>
      rw [freewalkFrom]
      have hsub : ∀ i c r₀, S.node (l, 512 * k + i) = some c → Quiet r₀ →
          Safe (logic K) E (freewalkFrom (l + 1) c)
            (S.tree mem l (512 * k + i) + r₀) fun _ r' => r' = r₀ := by
        intro i c r₀ hc hr₀
        apply ih (by omega) hc hr₀
        rintro r' ⟨d, -, rfl⟩
        rw [Space.below_end, zero_add]
        exact safe_kfree hr₀
      have hloop := Safe.upto (n := 512) (Freeing.start (r := r) htable hp)
        fun i r' hi hfreeing => safe_freeEntry_node (K := K) (E := E)
          htable (by omega) hi hr (hsub i) hfreeing
      exact hloop.bind fun _ r' hfreeing => hfinish r' hfreeing

/-- freewalk of a space without mappings. -/
theorem safe_freewalk (hleaf : ∀ v, S.leaf v = none) (hr : Quiet r) :
    Safe (logic K) E (freewalk S.root) ({.space S} + ({.token S.root} + r))
      fun _ r' => r' = r := by
  apply Safe.shift
  intro F s hinv
  rw [add_assoc, add_assoc] at hinv
  have hS := hinv.space_ok
  refine ⟨S.tree s.mem 2 0 + r, ?_, ?_⟩
  · rw [add_assoc]
    exact hinv.dissolve hleaf
  · rw [freewalk]
    exact safe_freewalkFrom hS.table hleaf le_rfl hS.table.root hr

end freewalk

/-- A cleared page of the kernel is an empty page table. -/
theorem Inv.create {p : Nat} {b : Bool} (h : Inv K ({.page p (fun _ => 0) b} + F) s) :
    Inv K ({.space (Space.empty p)} + ({.token p} + F)) s := by
  obtain ⟨hframe, hdata, -⟩ := h.ok (.page p (fun _ => 0) b)
    (Multiset.mem_add.mpr (Or.inl (Multiset.mem_singleton_self _)))
  have hkernel : ∀ f, (Space.empty p).use .kernel f = ind (some p) f := by
    intro f
    exact refs_single (g := (Space.empty p).node) (f := f) (x := (2, 0))
      (mem_nodeIx.mpr (by decide)) fun x hx => by simp [Space.empty, hx]
  have huser : ∀ f, (Space.empty p).use .user f = 0 := fun f =>
    refs_eq_zero fun v _ => by simp [Space.frames, Space.empty]
  have hown : ∀ f, (Space.empty p).use .own f = 0 := fun f =>
    refs_eq_zero fun v _ => by simp [Space.owned, Space.empty]
  have hroot : ∀ f, (Space.empty p).use .root f = ind (some p) f := fun f => rfl
  have htoken : ∀ t f, total t {Atom.token p} f =
      if t = .token then ind (some p) f else 0 := by
    intro t f
    simp [Atom.use]
  have hpage : ∀ t f, total t {Atom.page p (fun _ => 0) b} f =
      if t = .kernel then ind (some p) f else 0 := by
    intro t f
    simp [Atom.use]
  rw [← add_assoc]
  apply h.stored (by rfl) (by rfl) (by rfl)
  · rintro f (hf | hf) <;> exact absurd rfl hf
  · intro a ha
    rcases Multiset.mem_add.mp ha with ha | ha
    · rw [Multiset.mem_singleton.mp ha]
      constructor
      · exact Space.Table.empty hframe hdata
      · intro v l _ hl
        cases hl
      · intro v l _ hl
        cases hl
      · intro f
        exact (huser f).trans_le (Nat.zero_le 1)
    · rw [Multiset.mem_singleton.mp ha]
      trivial
  · intro f
    simp only [total_add, total_space, htoken, hpage, hkernel, huser, reduceCtorEq,
      ↓reduceIte, add_zero]
  · intro f
    have hold := h.sharing_split f
    simpa only [total_add, total_space, htoken, hpage, hkernel, huser, hown,
      Space.use_lag, reduceCtorEq, ↓reduceIte, add_zero, zero_add] using hold
  · intro x
    simp only [total_add, total_space, htoken, hpage, hroot, Space.use_token,
      reduceCtorEq, ↓reduceIte, add_zero, zero_add, le_refl]

theorem safe_uvmcreate (hr : Quiet r) :
    Safe (logic K) E uvmcreate r fun p r' => (p = 0 ∧ r' = r) ∨
      (p ≠ 0 ∧ r' = {.space (Space.empty p)} + ({.token p} + r)) := by
  rw [uvmcreate]
  apply Safe.bind (safe_kalloc hr)
  rintro p r' (⟨rfl, rfl⟩ | ⟨hp, rfl⟩)
  · exact Safe.pure (Or.inl ⟨rfl, rfl⟩)
  · rw [if_neg hp.ne_zero]
    apply Safe.bind (safe_memset hr)
    rintro _ r' rfl
    apply Safe.shift
    intro F s hinv
    rw [add_assoc] at hinv
    refine ⟨{.space (Space.empty p)} + ({.token p} + r), ?_, ?_⟩
    · rw [add_assoc, add_assoc]
      exact hinv.create
    · exact Safe.pure (Or.inr ⟨hp.ne_zero, rfl⟩)

end Xv6.Vm
