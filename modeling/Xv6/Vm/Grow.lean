/-
growproc of kernel/proc.c: the new size is the sum of the old one and the change, unless the
process would shrink below zero.
-/
import Xv6.Vm.Decode

namespace Xv6.Vm

open Bytes Program Interleave

variable {K : Image} {E : KErr → Prop} {s s' : Kmem} {S S' : Space} {r : Multiset Atom}
  {p : ProcMem} {m : Mem} {n : Int}

/-- growproc returned `r` and left the process `p'`: it did what it reports. -/
def GrowExact (p p' : ProcMem) (n r : Int) (k k' : Kmem) : Prop :=
  (r = 0 ∧ (p'.sz : Int) = p.sz + n ∧
    (∀ v, v < pagesOf (min p.sz p'.sz) →
      lookup k'.mem p.pagetable (v * PGSIZE) = lookup k.mem p.pagetable (v * PGSIZE) ∧
      k'.mem (PTE2PA (lookup k.mem p.pagetable (v * PGSIZE))) =
        k.mem (PTE2PA (lookup k.mem p.pagetable (v * PGSIZE)))) ∧
    ∀ v, pagesOf p.sz ≤ v → v < pagesOf p'.sz →
      (lookup k'.mem p.pagetable (v * PGSIZE)).has PTE_V = true ∧
      k'.mem (PTE2PA (lookup k'.mem p.pagetable (v * PGSIZE))) = fun _ => 0) ∨
  (r = -1 ∧ p'.sz = p.sz ∧ ∀ va, va < MAXVA →
    lookup k'.mem p.pagetable va = lookup k.mem p.pagetable va)

theorem addSize_eq {sz : Nat} (hlo : 0 ≤ (sz : Int) + n) (hhi : (sz : Int) + n < 2 ^ 64) :
    (addSize sz n : Int) = sz + n := by
  rw [addSize, Int.emod_eq_of_lt hlo hhi, Int.toNat_of_nonneg hlo]

/-- A size below zero wraps around to a size that is larger than any other. -/
theorem addSize_wrap {sz : Nat} (hsz : (sz : Int) < 2 ^ 63) (hneg : (sz : Int) + n < 0)
    (hn : -2 ^ 31 ≤ n) : sz ≤ addSize sz n := by
  have hmod : ((sz : Int) + n) % 2 ^ 64 = sz + n + 2 ^ 64 := by
    rw [← Int.add_emod_right]
    exact Int.emod_eq_of_lt (by omega) (by omega)
  rw [addSize, hmod]
  omega

/-- The pages of the process before and after growproc. -/
inductive Grew (S S' : Space) (p p' : ProcMem) (n : Int) : Int → Prop
  | grown (hsz : (p'.sz : Int) = p.sz + n) (hle : p.sz ≤ p'.sz) (hmax : pagesOf p'.sz ≤ NFRAMES)
      (h : S.Grown S' (pagesOf p.sz) (pagesOf p'.sz) (allocFlags PTE_W)) : Grew S S' p p' n 0
  | shrunk (hsz : (p'.sz : Int) = p.sz + n) (hle : p'.sz ≤ p.sz)
      (h : S' = S.cleared (pagesOf p'.sz) (pagesOf p.sz - pagesOf p'.sz)) : Grew S S' p p' n 0
  | failed (hn : 0 < n) (hp : p' = p) (h : S.Same S') : Grew S S' p p' n (-1)
  | ignored (hneg : (p.sz : Int) + n < 0) (hp : p' = p) : Grew S S' p p' n 0

theorem size_lt_of_pages (h : pagesOf p.sz ≤ NFRAMES) : p.sz < 2 ^ 63 := by
  have hframes : NFRAMES = 32768 := by decide
  simp only [pagesOf, PGROUNDUP, PGSIZE] at h
  omega

theorem safe_growproc_pages (hS : S.Is K p m) (hmax : pagesOf p.sz ≤ NFRAMES)
    (hlo : -2 ^ 31 ≤ n) (hhi : n < 2 ^ 31) (hr : Quiet r) :
    Safe (logic K) E (growproc p n) ({.space S} + r) fun x r' => ∃ S', r' = {.space S'} + r ∧
      S'.root = S.root ∧ Grew S S' p x.2 n x.1 := by
  have hsz := size_lt_of_pages hmax
  rw [growproc, ← hS.root]
  by_cases hpos : n > 0
  · rw [if_pos hpos]
    have hadd : (addSize p.sz n : Int) = p.sz + n := addSize_eq (by omega) (by omega)
    apply Safe.bind (safe_uvmalloc (by decide) (by decide) hS.shape.sized hr)
    rintro sz r' ⟨S', rfl, ⟨rfl, hle, hmax', hgrown⟩ | ⟨-, hlt, -⟩ | ⟨rfl, -, hsame⟩⟩
    · rw [if_neg (by omega)]
      exact Safe.pure ⟨S', rfl, hgrown.root, .grown hadd hle hmax' hgrown⟩
    · omega
    · rw [if_pos rfl]
      exact Safe.pure ⟨S', rfl, hsame.root, .failed hpos rfl hsame⟩
  rw [if_neg hpos]
  by_cases hneg : n < 0
  · rw [if_pos hneg]
    apply Safe.bind (safe_uvmdealloc hS.shape.sized hr)
    rintro sz r' ⟨hmin, rfl⟩
    refine Safe.pure ⟨_, rfl, rfl, ?_⟩
    by_cases hwrap : (p.sz : Int) + n < 0
    · -- uvmdealloc takes the wrapped size for a larger one and does nothing
      have hle := addSize_wrap (by omega) hwrap hlo
      have hsame : sz = p.sz := by omega
      exact .ignored hwrap (by simp only [hsame, hS.root])
    · have hadd : (addSize p.sz n : Int) = p.sz + n := addSize_eq (by omega) (by omega)
      exact .shrunk (by simp only; omega) (by simp only; omega) rfl
  · rw [if_neg hneg]
    exact Safe.pure ⟨S, rfl, rfl, .grown (by simp only; omega) (Nat.le_refl _) hmax (.refl ..)⟩

section effect

variable {p' : ProcMem} (h : S.Ok K s) (h' : S'.Ok K s') (hroot : S'.root = S.root)
  (hS : S.Is K p m)
include h h' hroot hS

/-- A page of the process that stays where it is. -/
theorem kept_page {v : Nat} (hv : v < pagesOf p.sz) (hpage : S'.page v = S.page v) :
    lookup s'.mem p.pagetable (v * PGSIZE) = lookup s.mem p.pagetable (v * PGSIZE) ∧
      s'.mem (PTE2PA (lookup s.mem p.pagetable (v * PGSIZE))) =
        s.mem (PTE2PA (lookup s.mem p.pagetable (v * PGSIZE))) := by
  have huser : v < USERPAGES := lt_of_lt_of_le hv hS.shape.sized.1
  have hva : v * PGSIZE < MAXVA := lt_MAXVA_of_page (by omega)
  have hdiv : v * PGSIZE / PGSIZE = v := Nat.mul_div_cancel v (by decide)
  obtain ⟨⟨l, d⟩, hl⟩ := Option.ne_none_iff_exists'.mp ((hS.shape.sized.2 v huser).mpr hv)
  obtain ⟨hleaf, hdata⟩ := Space.page_eq_some.mp hl
  obtain ⟨hleaf', hdata'⟩ := Space.page_eq_some.mp (hpage.trans hl)
  have heq := h.lookup_eq h' hroot hva (by rw [hdiv, hleaf, hleaf'])
  rw [← hS.root]
  refine ⟨heq, ?_⟩
  rw [h.table.lookup hva, hdiv, hleaf, h.frame_data huser hleaf, h'.frame_data huser hleaf',
    hdata, hdata']

/-- growproc does what it reports unless the process would shrink below zero. -/
theorem Grew.exact_iff {r : Int} (hg : Grew S S' p p' n r) :
    GrowExact p p' n r s s' ↔ 0 ≤ (p.sz : Int) + n := by
  cases hg with
  | grown hsz hle hmax hgrown =>
      refine iff_of_true (Or.inl ⟨rfl, hsz, ?_, ?_⟩) (by omega)
      · intro v hv
        rw [Nat.min_eq_left hle] at hv
        exact kept_page h h' hroot hS hv (hgrown.page v (Or.inl hv))
      · intro v hlo hhi
        have huser : v < USERPAGES := by
          have := nframes_lt_userpages
          omega
        have hva : v * PGSIZE < MAXVA := lt_MAXVA_of_page (by omega)
        obtain ⟨pa, hpage⟩ := hgrown.fresh v hlo hhi
        obtain ⟨hleaf, hdata⟩ := Space.page_eq_some.mp hpage
        rw [← hS.root, ← hroot, h'.table.lookup hva, Nat.mul_div_cancel v (by decide), hleaf]
        exact ⟨(h'.has hleaf (by decide)).trans (h'.valid hleaf),
          (h'.frame_data huser hleaf).trans hdata⟩
  | shrunk hsz hle hcleared =>
      have hmono := pagesOf_mono hle
      refine iff_of_true (Or.inl ⟨rfl, hsz, ?_, fun v hlo hhi => by omega⟩) (by omega)
      intro v hv
      rw [Nat.min_eq_right hle] at hv
      refine kept_page h h' hroot hS (lt_of_lt_of_le hv hmono) ?_
      rw [hcleared, Space.page_cleared, if_neg (by omega)]
  | failed hn hp hsame =>
      refine iff_of_true (Or.inr ⟨rfl, by rw [hp], fun va hva => ?_⟩) (by omega)
      rw [← hS.root]
      exact h.lookup_eq h' hroot hva (Space.leaf_of_page (hsame.page _))
  | ignored hneg hp =>
      refine iff_of_false ?_ (by omega)
      rintro (⟨-, hsz, -⟩ | ⟨hr, -⟩)
      · rw [hp] at hsz
        omega
      · cases hr

end effect

/-- growproc always returns, and does what it reports exactly when the sum of the size and the
change is not negative: a larger decrement wraps around, and is ignored with result 0. -/
theorem growproc_exact_iff {sys : Sys} (h : sys.Reachable K) {p : Proc} (hp : p ∈ sys.procs)
    (hlo : -2 ^ 31 ≤ n) (hhi : n < 2 ^ 31) :
    ∃ r p' k', (growproc p.mem n).run (handler K) sys.k = .ok ((r, p'), k') ∧
      (GrowExact p.mem p' n r sys.k k' ↔ 0 ≤ (p.mem.sz : Int) + n) := by
  obtain ⟨S, m, F, hS, hinv⟩ := h.space hp
  have hmax := hinv.sized_le hS.shape.sized
  have hsafe := safe_growproc_pages (E := fun _ => False) hS hmax hlo hhi quiet_zero
  rw [add_zero] at hsafe
  obtain ⟨x, k', r', hres, hinv', S', rfl, hroot, hg⟩ := safe_returns hsafe hinv
  rw [add_zero] at hinv'
  exact ⟨x.1, x.2, k', hres, hg.exact_iff hinv.space_ok hinv'.space_ok hroot hS⟩

namespace GrowWitness

/-- sbrk(-8192) in a process of one page returns 0 and leaves the page. -/
theorem growproc_ignores_decrement :
    Forked.sys.Reachable Forked.image ∧ Forked.parent ∈ Forked.sys.procs ∧
    (growproc Forked.parent.mem (-8192)).run (handler Forked.image) Forked.sys.k =
      .ok ((0, Forked.parent.mem), Forked.sys.k) ∧
    ¬ GrowExact Forked.parent.mem Forked.parent.mem (-8192) 0 Forked.sys.k Forked.sys.k := by
  refine ⟨Forked.sys_reachable, Forked.parent_mem, rfl, ?_⟩
  rintro (⟨-, hsz, -⟩ | ⟨hr, -⟩)
  · exact absurd hsz (by decide)
  · exact absurd hr (by decide)

theorem growproc_exact_grow : ∃ r p' k',
    (growproc Forked.parent.mem 4097).run (handler Forked.image) Forked.sys.k =
      .ok ((r, p'), k') ∧
      (GrowExact Forked.parent.mem p' 4097 r Forked.sys.k k' ↔ (0 : Int) ≤ 4096 + 4097) :=
  growproc_exact_iff Forked.sys_reachable Forked.parent_mem (by decide) (by decide)

end GrowWitness

end Xv6.Vm
