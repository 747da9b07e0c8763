/-
The calls that add and remove user pages: mappages, uvmunmap, uvmdealloc and
uvmalloc, with the bound that physical memory sets to the size of a process.
-/
import Xv6.Vm.Cow

namespace Xv6.Vm

open Bytes Refs Program Interleave

variable {K : Image} {E : KErr → Prop} {r X F : Multiset Atom} {s : Kmem} {S : Space}

/-- What an address space has at a page: the entry and the contents. -/
def Space.page (S : Space) (v : Nat) : Option (Leaf × Arr) :=
  (S.leaf v).map fun l => (l, S.data v)

theorem Space.page_setLeaf_self (S : Space) (v : Nat) (l : Leaf) (d : Arr) :
    (S.setLeaf v (some l) d).page v = some (l, d) := by
  simp [Space.page, Space.setLeaf]

theorem Space.page_setLeaf_none (S : Space) (v : Nat) (d : Arr) :
    (S.setLeaf v none d).page v = none := by
  simp [Space.page, Space.setLeaf]

theorem Space.page_setLeaf_of_ne (S : Space) {v u : Nat} (o : Option Leaf) (d : Arr)
    (h : u ≠ v) : (S.setLeaf v o d).page u = S.page u := by
  simp [Space.page, Space.setLeaf, h]

theorem Space.page_eq_some {v : Nat} {l : Leaf} {d : Arr} :
    S.page v = some (l, d) ↔ S.leaf v = some l ∧ S.data v = d := by
  simp [Space.page]

theorem Space.page_eq_none {v : Nat} : S.page v = none ↔ S.leaf v = none := by
  simp [Space.page]

theorem Space.Extends.page {S' : Space} (h : S.Extends S') : S'.page = S.page := by
  funext v
  simp [Space.page, h.leaf, h.data]

/-- The user pages of the space are those below `n`. -/
def Space.Sized (S : Space) (n : Nat) : Prop :=
  n ≤ USERPAGES ∧ ∀ v, v < USERPAGES → (S.page v ≠ none ↔ v < n)

/-- The number of frames that RAM has room for. -/
def NFRAMES : Nat := (PHYSTOP - KERNBASE) / PGSIZE

theorem nframes_lt_userpages : NFRAMES + 2 < USERPAGES := by decide

/-- All frames, by their index in ref_count. -/
def frameSet : Finset Nat := (Finset.range NFRAMES).image fun i => KERNBASE + i * PGSIZE

theorem Image.Frame.mem_frameSet {f : Nat} (h : K.Frame f) : f ∈ frameSet := by
  have hbase := K.base_le_end
  obtain ⟨halign, hend, hstop⟩ := h
  have hk : KERNBASE = 0x80000000 := rfl
  have hs : PHYSTOP = 0x88000000 := rfl
  have hn : NFRAMES = 32768 := by decide
  apply Finset.mem_image.mpr
  refine ⟨(f - KERNBASE) / PGSIZE, Finset.mem_range.mpr ?_, ?_⟩
  · simp only [PGSIZE] at *
    omega
  · simp only [PGSIZE] at *
    omega

/-- The frames of a space are distinct, so it has at most as many pages as there
are frames. -/
theorem Inv.sized_le (h : Inv K ({.space S} + F) s) {n : Nat} (hn : S.Sized n) :
    n ≤ NFRAMES := by
  have hS := h.space_ok
  have hcard : (Finset.range n).card ≤ frameSet.card := by
    apply card_le_of_refs_le_one (g := S.frames)
    · intro f
      apply refs_le_one
      intro x hx y hy hfx hfy
      have hx' := lt_of_lt_of_le (Finset.mem_range.mp hx) hn.1
      have hy' := lt_of_lt_of_le (Finset.mem_range.mp hy) hn.1
      exact refs_inj (hS.inj f) (mem_userIx.mpr hx') (mem_userIx.mpr hy') hfx hfy
    · intro v hv
      have hlt := Finset.mem_range.mp hv
      have huser : v < USERPAGES := lt_of_lt_of_le hlt hn.1
      have hsome := (hn.2 v huser).mpr hlt
      obtain ⟨⟨l, d⟩, hpage⟩ := Option.ne_none_iff_exists'.mp hsome
      obtain ⟨hleaf, -⟩ := Space.page_eq_some.mp hpage
      exact ⟨l.pa, (hS.user v l huser hleaf).frame.mem_frameSet,
        Space.frames_eq_some.mpr ⟨l, hleaf, rfl⟩⟩
  rw [Finset.card_range] at hcard
  have hframes : frameSet.card ≤ NFRAMES := by
    have himage := Finset.card_image_le (s := Finset.range NFRAMES)
      (f := fun i => KERNBASE + i * PGSIZE)
    rwa [Finset.card_range] at himage
  exact hcard.trans hframes

theorem lt_MAXVA_of_page {v : Nat} (h : v < USERPAGES + 2) : v * PGSIZE < MAXVA := by
  have hmax : MAXVA = 2 ^ 38 := rfl
  have hpages : USERPAGES = 67108862 := by decide
  simp only [PGSIZE]
  omega

theorem mul_PGSIZE_div (v : Nat) : v * PGSIZE / PGSIZE = v :=
  Nat.mul_div_cancel v (by decide)

/-- mappages for one page: it fails for want of a table page, or ends with the
store of the entry. -/
theorem safe_mappages {a p : Nat} {w : Pte} {Q : Multiset Atom → Prop}
    (hva : a < MAXVA) (halign : a % PGSIZE = 0) (hX : Quiet X)
    (hmap : ∀ S' pte, S.Extends S' → S'.slot a = some pte →
      Safe (logic K) E (Prog.cmd (.mapPte pte (PA2PTE p ||| w ||| PTE_V)))
        ({.space S'} + X) fun _ r' => Q r') :
    Safe (logic K) E (mappages S.root a PGSIZE p w) ({.space S} + X)
      fun n r' => (n = -1 ∧ ∃ S', S.Extends S' ∧ r' = {.space S'} + X) ∨
        (n = 0 ∧ Q r') := by
  have hnot : ¬ a % PGSIZE ≠ 0 := by omega
  rw [mappages, if_neg hnot, if_neg (by decide), if_neg (by decide)]
  change Safe (logic K) E (mapLoop S.root w 1 a p) _ _
  rw [mapLoop]
  apply Safe.bind (safe_walk_alloc hva hX)
  rintro o r' ⟨S', hext, rfl, ho⟩
  cases o with
  | none => exact Safe.pure (Or.inl ⟨rfl, S', hext, rfl⟩)
  | some pte =>
      obtain ⟨hslot, -⟩ := ho.resolve_left (by simp)
      apply Safe.bind (hmap S' pte hext hslot.symm)
      intro _ r' hQ
      exact Safe.pure (Or.inr ⟨rfl, hQ⟩)

/-- The store of mappages for a fresh page. -/
theorem safe_mapPage {a p : Nat} {d : Arr} {w : Pte} {e : PtePtr}
    (hv : a / PGSIZE < USERPAGES) (hnone : S.leaf (a / PGSIZE) = none)
    (hslot : S.slot a = some e) (hfl : IsFlags w)
    (hread : w.has PTE_R = true) (hcow : w.has PTE_COW = false)
    (hr : Quiet r) :
    Safe (logic K) E (Prog.cmd (.mapPte e (PA2PTE p ||| w ||| PTE_V)))
      ({.space S} + ({.page p d true} + r)) fun _ r' =>
        r' = {.space (S.setLeaf (a / PGSIZE) (some ⟨p, w ||| PTE_V, true⟩) d)} + r := by
  obtain ⟨q, hq, rfl⟩ := Space.slot_eq_some hslot
  apply safe_ok
  intro F s hinv
  rw [add_assoc, add_assoc] at hinv
  have hqframe := (hinv.node_alone hq).1
  refine ⟨⟨Quiet.awaits ?_ _, ?_⟩, ?_⟩
  · exact (quiet_space S).add ((quiet_page p d true).add hr)
  · rintro e ⟨rfl⟩
    rw [hinv.space_ok.table.entries 0 _ q hq, Space.entry, hnone]
    rfl
  · refine ⟨(), _, _, mapPteAt_ok hqframe.inRam _, ?_, rfl⟩
    rw [add_assoc, BitVec.or_assoc]
    apply hinv.mapPage hv hq hnone (hfl.or isFlags_PTE_V)
    · rw [Pte.has_or_flags, Bool.or_eq_true]
      exact Or.inr rfl
    · rw [Pte.has_or_flags, hread, Bool.true_or]
    · rw [Pte.has_or_flags, hcow]
      rfl

/-- A leaf with the read flag is not taken for a table by uvmunmap. -/
theorem ne_PTE_V_of_readable {fl : Pte} (h : fl.has PTE_R = true) : fl ≠ PTE_V := by
  rintro rfl
  cases h

section unmap

variable {v : Nat}

theorem safe_unmapOne (hv : v < USERPAGES) (hpage : S.page v ≠ none) (hr : Quiet r) :
    Safe (logic K) E (unmapOne S.root (v * PGSIZE) true) ({.space S} + r)
      fun _ r' => r' = {.space (S.setLeaf v none (S.data v))} + r := by
  have hdiv := mul_PGSIZE_div v
  obtain ⟨l, hl⟩ := Option.ne_none_iff_exists'.mp (mt Space.page_eq_none.mpr hpage)
  apply Safe.learn
  intro F s hinv
  rw [add_assoc] at hinv
  have hleaf := hinv.space_ok.user v l hv hl
  have hslot : (S.slot (v * PGSIZE)).isSome = true :=
    hinv.space_ok.table.slot_isSome (by rw [hdiv, hl]; exact Option.some_ne_none l)
  obtain ⟨pte, hpte⟩ := Option.isSome_iff_exists.mp hslot
  clear hinv
  rw [unmapOne]
  apply Safe.bind (safe_walk (lt_MAXVA_of_page (by omega)) hr)
  rintro o r' ⟨rfl, rfl⟩
  rw [hpte]
  apply Safe.bind (safe_readLeaf hpte hr)
  rintro w r' ⟨rfl, rfl⟩
  rw [hdiv, hl, hleaf.has (by decide), hleaf.valid, hleaf.PTE_FLAGS, hleaf.PTE2PA]
  simp only [Bool.not_true, Bool.false_eq_true, ↓reduceIte,
    ne_PTE_V_of_readable hleaf.readable]
  obtain ⟨q, hq, rfl⟩ := Space.slot_eq_some hpte
  rw [hdiv] at hq ⊢
  apply Safe.bind (safe_giveBack hv hl hr)
  rintro _ r' ⟨first, rfl⟩
  exact safe_clearPte hq hr

/-- The space without the pages from `a` to `a + n`. -/
def Space.cleared (S : Space) (a n : Nat) : Space :=
  { S with leaf := fun v => if a ≤ v ∧ v < a + n then none else S.leaf v }

theorem Space.cleared_zero (S : Space) (a : Nat) : S.cleared a 0 = S := by
  have hleaf : (fun v => if a ≤ v ∧ v < a + 0 then none else S.leaf v) = S.leaf := by
    funext v
    rw [if_neg (by omega)]
  simp only [Space.cleared, hleaf]

theorem Space.cleared_succ (S : Space) (a n : Nat) :
    (S.cleared a n).setLeaf (a + n) none ((S.cleared a n).data (a + n)) =
      S.cleared a (n + 1) := by
  have hleaf : Function.update (S.cleared a n).leaf (a + n) none =
      (S.cleared a (n + 1)).leaf := by
    funext v
    by_cases hv : v = a + n
    · subst hv
      simp [Space.cleared]
    · rw [Function.update_of_ne hv]
      simp only [Space.cleared]
      by_cases hin : a ≤ v ∧ v < a + n
      · rw [if_pos hin, if_pos (by omega)]
      · rw [if_neg hin, if_neg (by omega)]
  have hdata : Function.update (S.cleared a n).data (a + n)
      ((S.cleared a n).data (a + n)) = S.data := Function.update_eq_self ..
  simp only [Space.setLeaf, hleaf, hdata]
  rfl

theorem Space.page_cleared (S : Space) (a n v : Nat) :
    (S.cleared a n).page v = if a ≤ v ∧ v < a + n then none else S.page v := by
  by_cases hin : a ≤ v ∧ v < a + n
  · simp [Space.page, Space.cleared, hin]
  · rw [if_neg hin]
    simp only [Space.page, Space.cleared, if_neg hin]

/-- uvmunmap of mapped user pages removes exactly these and returns. -/
theorem safe_uvmunmap {a n : Nat} (hle : a + n ≤ USERPAGES)
    (hpages : ∀ v, a ≤ v → v < a + n → S.page v ≠ none) (hr : Quiet r) :
    Safe (logic K) E (uvmunmap S.root (a * PGSIZE) n true) ({.space S} + r)
      fun _ r' => r' = {.space (S.cleared a n)} + r := by
  have halign : ¬ a * PGSIZE % PGSIZE ≠ 0 := by simp
  rw [uvmunmap, if_neg halign]
  apply Safe.upto (P := fun k r' => r' = {.space (S.cleared a k)} + r)
  · rw [Space.cleared_zero]
  · rintro k r' hk rfl
    have hva : a * PGSIZE + k * PGSIZE = (a + k) * PGSIZE := by ring
    have hpage : (S.cleared a k).page (a + k) ≠ none := by
      rw [Space.page_cleared, if_neg (by omega)]
      exact hpages _ (by omega) (by omega)
    have hone := safe_unmapOne (K := K) (E := E) (S := S.cleared a k)
      (by omega) hpage hr
    rw [hva]
    apply hone.mono
    rintro _ r' rfl
    rw [Space.cleared_succ]

/-- uvmunmap of a page above the user part clears the entry only. -/
theorem safe_uvmunmap_high (hv : USERPAGES ≤ v) (hlt : v < USERPAGES + 2)
    (hpage : S.page v ≠ none) (hr : Quiet r) :
    Safe (logic K) E (uvmunmap S.root (v * PGSIZE) 1 false) ({.space S} + r)
      fun _ r' => r' = {.space (S.setLeaf v none (S.data v))} + r := by
  have hdiv := mul_PGSIZE_div v
  obtain ⟨l, hl⟩ := Option.ne_none_iff_exists'.mp (mt Space.page_eq_none.mpr hpage)
  have halign : ¬ v * PGSIZE % PGSIZE ≠ 0 := by simp
  rw [uvmunmap, if_neg halign]
  change Safe (logic K) E (pure () >>= fun _ => unmapOne S.root (v * PGSIZE + 0 * PGSIZE)
    false) _ _
  rw [Nat.zero_mul, Nat.add_zero, Prog.pure_bind]
  apply Safe.learn
  intro F s hinv
  rw [add_assoc] at hinv
  have hleaf := hinv.space_ok.high v l hv hl
  have hslot : (S.slot (v * PGSIZE)).isSome = true :=
    hinv.space_ok.table.slot_isSome (by rw [hdiv, hl]; exact Option.some_ne_none l)
  obtain ⟨pte, hpte⟩ := Option.isSome_iff_exists.mp hslot
  clear hinv
  rw [unmapOne]
  apply Safe.bind (safe_walk (lt_MAXVA_of_page hlt) hr)
  rintro o r' ⟨rfl, rfl⟩
  rw [hpte]
  apply Safe.bind (safe_readLeaf hpte hr)
  rintro w r' ⟨rfl, rfl⟩
  rw [hdiv, hl, hleaf.has (by decide), hleaf.valid, hleaf.PTE_FLAGS]
  simp only [Bool.not_true, Bool.false_eq_true, ↓reduceIte,
    ne_PTE_V_of_readable hleaf.readable]
  obtain ⟨q, hq, rfl⟩ := Space.slot_eq_some hpte
  rw [hdiv] at hq ⊢
  apply safe_ok
  intro F s hinv
  refine ⟨Adm.of_quiet ((quiet_space S).add hr) rfl, ?_⟩
  rw [add_assoc] at hinv
  refine ⟨(), _, _, writePteAt_ok (hinv.node_alone hq).1.inRam 0, ?_, rfl⟩
  rw [add_assoc]
  apply hinv.storeLeaf hq
  · exact fun f => Space.use_setLeaf_high hv none _ .user f
  · exact fun f => Or.inl (le_of_eq (Space.use_setLeaf_high hv none _ .own f))
  · intro l' hl'
    cases hl'
  · intro l' hl'
    cases hl'

end unmap

section resize

theorem PGROUNDUP_eq (sz : Nat) : PGROUNDUP sz = PGROUNDUP sz / PGSIZE * PGSIZE := by
  simp [PGROUNDUP, PGSIZE]

/-- The number of pages that a size covers. -/
def pagesOf (sz : Nat) : Nat := PGROUNDUP sz / PGSIZE

theorem PGROUNDUP_eq_pagesOf (sz : Nat) : PGROUNDUP sz = pagesOf sz * PGSIZE :=
  PGROUNDUP_eq sz

theorem pagesOf_mul (n : Nat) : pagesOf (n * PGSIZE) = n := by
  simp only [pagesOf, PGROUNDUP, PGSIZE]
  omega

theorem pagesOf_mono {m n : Nat} (h : m ≤ n) : pagesOf m ≤ pagesOf n := by
  simp only [pagesOf, PGROUNDUP, PGSIZE]
  omega

theorem le_pagesOf_mul (sz : Nat) : sz ≤ pagesOf sz * PGSIZE := by
  simp only [pagesOf, PGROUNDUP, PGSIZE]
  omega

theorem Space.Sized.cleared {n m : Nat} (h : S.Sized n) (hm : m ≤ n) :
    (S.cleared m (n - m)).Sized m := by
  refine ⟨hm.trans h.1, ?_⟩
  intro v hv
  rw [Space.page_cleared]
  have hiff := h.2 v hv
  by_cases hin : m ≤ v ∧ v < m + (n - m)
  · simp only [hin, and_self, ↓reduceIte, ne_eq, not_true_eq_false, false_iff]
    omega
  · rw [if_neg hin, hiff]
    omega

/-- uvmdealloc of a space of the old size leaves the pages of the new size. -/
theorem safe_uvmdealloc {a b : Nat} (h : S.Sized (pagesOf a))
    (hr : Quiet r) :
    Safe (logic K) E (uvmdealloc S.root a b) ({.space S} + r)
      fun sz r' => sz = min a b ∧ r' = {.space (S.cleared (pagesOf sz)
        (pagesOf a - pagesOf sz))} + r := by
  rw [uvmdealloc]
  by_cases hge : b ≥ a
  · rw [if_pos hge]
    apply Safe.pure
    refine ⟨by omega, ?_⟩
    rw [Nat.sub_self, Space.cleared_zero]
  · have hmin : min a b = b := by omega
    have hmono := pagesOf_mono (m := b) (n := a) (by omega)
    rw [if_neg hge, hmin]
    by_cases hlt : PGROUNDUP b < PGROUNDUP a
    · rw [if_pos hlt]
      have hn : (PGROUNDUP a - PGROUNDUP b) / PGSIZE =
          pagesOf a - pagesOf b := by
        simp only [pagesOf, PGROUNDUP, PGSIZE]
        omega
      simp only [hn]
      rw [PGROUNDUP_eq_pagesOf b]
      have hbound := h.1
      apply Safe.bind (safe_uvmunmap (by omega) (fun v hlo hhi => ?_) hr)
      · rintro _ r' rfl
        exact Safe.pure ⟨rfl, rfl⟩
      · exact (h.2 v (by omega)).mpr (by omega)
    · rw [if_neg hlt]
      apply Safe.pure
      have hsame : pagesOf a - pagesOf b = 0 := by
        simp only [pagesOf, PGROUNDUP, PGSIZE] at hlt ⊢
        omega
      refine ⟨rfl, ?_⟩
      rw [hsame, Space.cleared_zero]

/-- The same page table with the same pages. -/
structure Space.Same (S S' : Space) : Prop where
  root : S'.root = S.root
  page : ∀ v, S'.page v = S.page v

/-- The pages from `n` to `m` are new, empty, and mapped with flags `fl`. -/
structure Space.Grown (S S' : Space) (n m : Nat) (fl : Pte) : Prop where
  root : S'.root = S.root
  page : ∀ v, v < n ∨ m ≤ v → S'.page v = S.page v
  fresh : ∀ v, n ≤ v → v < m → ∃ pa, S'.page v = some (⟨pa, fl, true⟩, fun _ => 0)

theorem Space.Grown.refl (S : Space) (n : Nat) (fl : Pte) : S.Grown S n n fl :=
  ⟨rfl, fun _ _ => rfl, fun v hlo hhi => by omega⟩

theorem Space.Grown.sized {S' : Space} {n m : Nat} {fl : Pte} (h : S.Grown S' n m fl)
    (hS : S.Sized n) (hnm : n ≤ m) (hm : m ≤ USERPAGES) : S'.Sized m := by
  refine ⟨hm, ?_⟩
  intro v hv
  by_cases hin : n ≤ v ∧ v < m
  · obtain ⟨pa, hpa⟩ := h.fresh v hin.1 hin.2
    simp [hpa, hin.2]
  · rw [h.page v (by omega), hS.2 v hv]
    omega

/-- One more page. -/
theorem Space.Grown.succ {S' S'' : Space} {n m p : Nat} {fl : Pte}
    (h : S.Grown S' n m fl) (hext : S'.Extends S'') (hnm : n ≤ m) :
    S.Grown (S''.setLeaf m (some ⟨p, fl, true⟩) fun _ => 0) n (m + 1) fl where
  root := hext.root.trans h.root
  page v hv := by
    rw [Space.page_setLeaf_of_ne _ _ _ (by omega), hext.page]
    exact h.page v (by omega)
  fresh v hlo hhi := by
    by_cases hvm : v = m
    · subst hvm
      exact ⟨p, Space.page_setLeaf_self _ _ _ _⟩
    · rw [Space.page_setLeaf_of_ne _ _ _ hvm, hext.page]
      exact h.fresh v hlo (by omega)

/-- Giving back the pages that were added restores the space. -/
theorem Space.Grown.cleared {S' : Space} {n m : Nat} {fl : Pte}
    (h : S.Grown S' n m fl) (hS : S.Sized n) (hm : m ≤ USERPAGES) :
    S.Same (S'.cleared n (m - n)) where
  root := h.root
  page v := by
    rw [Space.page_cleared]
    by_cases hin : n ≤ v ∧ v < n + (m - n)
    · rw [if_pos hin]
      have hiff := hS.2 v (by omega)
      by_contra hne
      exact absurd (hiff.mp (Ne.symm hne)) (by omega)
    · rw [if_neg hin]
      exact h.page v (by omega)

/-- The flags of a page that uvmalloc maps. -/
def allocFlags (xperm : Pte) : Pte := PTE_R ||| PTE_U ||| xperm ||| PTE_V

variable {xperm : Pte} {newsz : Nat}

/-- Rolling back in uvmalloc. -/
theorem safe_rollback {S' : Space} {n m : Nat} {fl : Pte} (h : S.Grown S' n m fl)
    (hS : S.Sized n) (hnm : n ≤ m) (hm : m ≤ USERPAGES) (hr : Quiet r) :
    Safe (logic K) E (do
        let _ ← uvmdealloc S.root (m * PGSIZE) (n * PGSIZE)
        pure (0 : Nat)) ({.space S'} + r)
      fun sz r' => sz = 0 ∧ ∃ S'', S.Same S'' ∧ r' = {.space S''} + r := by
  have hsized := h.sized hS hnm hm
  have hmin : min (m * PGSIZE) (n * PGSIZE) = n * PGSIZE :=
    Nat.min_eq_right (Nat.mul_le_mul_right _ hnm)
  rw [← h.root]
  have hdealloc := safe_uvmdealloc (K := K) (E := E) (S := S') (r := r)
    (a := m * PGSIZE) (b := n * PGSIZE) (by rwa [pagesOf_mul]) hr
  apply Safe.bind hdealloc
  rintro sz r' ⟨hsz, rfl⟩
  rw [hmin] at hsz
  apply Safe.pure
  refine ⟨rfl, _, ?_, rfl⟩
  rw [hsz, pagesOf_mul, pagesOf_mul]
  exact h.cleared hS hm

theorem fuel_step {sz m fuel : Nat} (h : sz - m * PGSIZE ≤ fuel + 1) :
    sz - (m + 1) * PGSIZE ≤ fuel := by
  have hpos : 0 < PGSIZE := by decide
  rw [Nat.add_mul, Nat.one_mul]
  omega

/-- The loop of uvmalloc: all pages up to the new size, or none. -/
theorem safe_allocLoop {b : Nat} (hflags : IsFlags xperm) (hcow : xperm.has PTE_COW = false)
    {n m fuel : Nat} {S' : Space} (h : S.Grown S' n m (allocFlags xperm))
    (hS : S.Sized n) (hnm : n ≤ m) (hm : m ≤ NFRAMES) (htop : m ≤ pagesOf b)
    (hfuel : b - m * PGSIZE ≤ fuel) (hr : Quiet r) :
    Safe (logic K) E (allocLoop S.root (n * PGSIZE) b xperm fuel (m * PGSIZE))
      ({.space S'} + r) fun sz r' => ∃ S'', r' = {.space S''} + r ∧
        ((sz = b ∧ pagesOf b ≤ NFRAMES ∧
            S.Grown S'' n (pagesOf b) (allocFlags xperm)) ∨
          (sz = 0 ∧ S.Same S'')) := by
  have huser := nframes_lt_userpages
  have hdone : b ≤ m * PGSIZE → m = pagesOf b := by
    intro hle
    have hmono := pagesOf_mono hle
    rw [pagesOf_mul] at hmono
    omega
  induction fuel generalizing m S' with
  | zero =>
      apply Safe.pure
      have hend := hdone (by omega)
      rw [hend] at h hm
      exact ⟨S', rfl, Or.inl ⟨rfl, hm, h⟩⟩
  | succ fuel ih =>
      rw [allocLoop]
      by_cases hlt : m * PGSIZE < b
      · rw [if_pos hlt]
        apply Safe.bind (safe_kalloc ((quiet_space S').add hr))
        rintro p r' (⟨rfl, rfl⟩ | ⟨hframe, rfl⟩)
        · rw [if_pos rfl]
          apply (safe_rollback h hS hnm (by omega) hr).mono
          rintro sz r' ⟨rfl, S'', hsame, rfl⟩
          exact ⟨S'', rfl, Or.inr ⟨rfl, hsame⟩⟩
        · rw [if_neg hframe.ne_zero]
          apply Safe.bind (safe_memset ((quiet_space S').add hr))
          rintro _ r' rfl
          rw [add_left_comm]
          have hnone : S'.leaf m = none := by
            have hiff := (h.sized hS hnm (by omega)).2 m (by omega)
            by_contra hne
            exact absurd (hiff.mp (mt Space.page_eq_none.mp hne)) (by omega)
          have hmap := safe_mappages (K := K) (E := E) (S := S') (a := m * PGSIZE)
            (p := p) (w := PTE_R ||| PTE_U ||| xperm)
            (X := {.page p (fun _ => 0) true} + r)
            (Q := fun r' => ∃ S'', S'.Extends S'' ∧ r' = {.space (S''.setLeaf m
              (some ⟨p, allocFlags xperm, true⟩) fun _ => 0)} + r)
            (lt_MAXVA_of_page (by omega)) (by simp)
            ((quiet_page p _ true).add hr) (fun S'' pte hext hslot => by
              have hstore := safe_mapPage (K := K) (E := E) (S := S'')
                (a := m * PGSIZE) (p := p) (d := fun _ => 0)
                (w := PTE_R ||| PTE_U ||| xperm) (e := pte) (r := r)
                (by rw [mul_PGSIZE_div]; omega)
                (by rw [mul_PGSIZE_div, hext.leaf]; exact hnone) hslot
                ((by decide : IsFlags (PTE_R ||| PTE_U)).or hflags)
                (by rw [Pte.has_or_flags]; exact Bool.or_eq_true_iff.mpr (Or.inl rfl))
                (by rw [Pte.has_or_flags, hcow]; rfl) hr
              apply hstore.mono
              rintro _ r' rfl
              rw [mul_PGSIZE_div]
              exact ⟨S'', hext, rfl⟩)
          rw [h.root] at hmap
          apply Safe.bind hmap
          rintro x r' (⟨rfl, S'', hext, rfl⟩ | ⟨rfl, S'', hext, rfl⟩)
          · rw [if_pos (by decide), add_left_comm]
            apply Safe.bind (safe_kfree ((quiet_space S'').add hr))
            rintro _ r' rfl
            have hgrown : S.Grown S'' n m (allocFlags xperm) :=
              ⟨hext.root.trans h.root, fun v hv => by rw [hext.page]; exact h.page v hv,
                fun v hlo hhi => by rw [hext.page]; exact h.fresh v hlo hhi⟩
            apply (safe_rollback hgrown hS hnm (by omega) hr).mono
            rintro sz r' ⟨rfl, S₃, hsame, rfl⟩
            exact ⟨S₃, rfl, Or.inr ⟨rfl, hsame⟩⟩
          · rw [if_neg (by decide)]
            have hgrown := h.succ (p := p) hext hnm
            have hnext : m * PGSIZE + PGSIZE = (m + 1) * PGSIZE := by ring
            have hpage : m + 1 ≤ pagesOf b := by
              simp only [pagesOf, PGROUNDUP, PGSIZE] at hlt ⊢
              omega
            rw [hnext]
            -- the pages so far lie in distinct frames, so there is room for this one
            apply Safe.learn
            intro F s hinv
            rw [add_assoc] at hinv
            have hroom := hinv.sized_le (hgrown.sized hS (by omega) (by omega))
            apply ih hgrown (by omega) hroom hpage (fuel_step hfuel)
            intro hle
            have hmono := pagesOf_mono hle
            rw [pagesOf_mul] at hmono
            omega
      · rw [if_neg hlt]
        apply Safe.pure
        have hend := hdone (by omega)
        rw [hend] at h hm
        exact ⟨S', rfl, Or.inl ⟨rfl, hm, h⟩⟩

/-- uvmalloc grows the space to the new size, or leaves its pages as they were and
returns 0; a smaller new size changes nothing. -/
theorem safe_uvmalloc {b : Nat} {oldsz : Nat} (hflags : IsFlags xperm)
    (hcow : xperm.has PTE_COW = false) (hS : S.Sized (pagesOf oldsz)) (hr : Quiet r) :
    Safe (logic K) E (uvmalloc S.root oldsz b xperm) ({.space S} + r)
      fun sz r' => ∃ S', r' = {.space S'} + r ∧
        ((sz = b ∧ oldsz ≤ b ∧ pagesOf b ≤ NFRAMES ∧
            S.Grown S' (pagesOf oldsz) (pagesOf b) (allocFlags xperm)) ∨
          (sz = oldsz ∧ b < oldsz ∧ S' = S) ∨ (sz = 0 ∧ oldsz ≤ b ∧ S.Same S')) := by
  rw [uvmalloc]
  by_cases hlt : b < oldsz
  · rw [if_pos hlt]
    exact Safe.pure ⟨S, rfl, Or.inr (Or.inl ⟨rfl, hlt, rfl⟩)⟩
  · rw [if_neg hlt, PGROUNDUP_eq_pagesOf]
    apply Safe.learn
    intro F s hinv
    rw [add_assoc] at hinv
    have hroom := hinv.sized_le hS
    have hloop := safe_allocLoop (K := K) (E := E) (b := b) hflags hcow
      (Space.Grown.refl S (pagesOf oldsz) (allocFlags xperm)) hS le_rfl hroom
      (pagesOf_mono (by omega)) le_rfl hr
    apply hloop.mono
    rintro sz r' ⟨S', rfl, ⟨rfl, hmax, hgrown⟩ | ⟨rfl, hsame⟩⟩
    · exact ⟨S', rfl, Or.inl ⟨rfl, by omega, hmax, hgrown⟩⟩
    · exact ⟨S', rfl, Or.inr (Or.inr ⟨rfl, by omega, hsame⟩)⟩

end resize

end Xv6.Vm
