/-
Commands on the leaf entries of an address space: mapping a page, sharing it,
changing its flags and unmapping it.
-/
import Xv6.Vm.Tables

namespace Xv6.Vm

open Bytes Refs Program Interleave

variable {K : Image} {E : KErr → Prop} {r F : Multiset Atom} {s s' : Kmem} {S : Space}

section words

@[simp] theorem encodeLeaf_none : encodeLeaf none = 0 := rfl

theorem UserLeaf.has {l : Leaf} {d : Arr} (h : UserLeaf K s l d) {bit : Pte}
    (hbit : bit &&& 0x3FF = bit) : (encodeLeaf (some l)).has bit = l.fl.has bit :=
  Pte.has_or h.frame.lt_pow h.flags hbit

theorem HighLeaf.has {l : Leaf} (h : HighLeaf l) {bit : Pte}
    (hbit : bit &&& 0x3FF = bit) : (encodeLeaf (some l)).has bit = l.fl.has bit :=
  Pte.has_or h.small h.flags hbit

theorem UserLeaf.PTE2PA {l : Leaf} {d : Arr} (h : UserLeaf K s l d) :
    PTE2PA (encodeLeaf (some l)) = l.pa :=
  PTE2PA_or h.frame.lt_pow h.frame.1 h.flags

theorem UserLeaf.PTE_FLAGS {l : Leaf} {d : Arr} (h : UserLeaf K s l d) :
    PTE_FLAGS (encodeLeaf (some l)) = l.fl :=
  PTE_FLAGS_or h.frame.lt_pow h.flags

theorem HighLeaf.PTE_FLAGS {l : Leaf} (h : HighLeaf l) :
    PTE_FLAGS (encodeLeaf (some l)) = l.fl :=
  PTE_FLAGS_or h.small h.flags

end words

theorem Space.slot_eq_some {va : Nat} {pte : PtePtr} (h : S.slot va = some pte) :
    ∃ q, S.node (0, va / PGSIZE / 512) = some q ∧ pte = (q, va / PGSIZE % 512) := by
  obtain ⟨q, hq, rfl⟩ := Option.map_eq_some_iff.mp h
  refine ⟨q, ?_, rfl⟩
  rwa [← entryIx_zero, entryIx_div]

/-- The slot of a mapped page exists. -/
theorem Space.Table.slot_isSome {mem : Nat → Arr} (h : S.Table K mem) {va : Nat}
    (hleaf : S.leaf (va / PGSIZE) ≠ none) : (S.slot va).isSome = true := by
  obtain ⟨l, hl⟩ := Option.ne_none_iff_exists'.mp hleaf
  obtain ⟨q, hq⟩ := h.leafParent _ l hl
  rw [← entryIx_zero, entryIx_div] at hq
  simp [Space.slot, hq]

theorem safe_readLeaf {a : Nat} {pte : PtePtr} (hslot : S.slot a = some pte)
    (hr : Quiet r) :
    Safe (logic K) E (Prog.cmd (.readPte pte)) ({.space S} + r)
      fun w r' => w = encodeLeaf (S.leaf (a / PGSIZE)) ∧ r' = {.space S} + r := by
  obtain ⟨q, hq, rfl⟩ := Space.slot_eq_some hslot
  exact safe_readPte hq hr

/-- A leaf entry and its contents are replaced. -/
theorem Space.Ok.setLeaf (h : S.Ok K s) {v q : Nat} {o : Option Leaf} {d : Arr}
    (hq : S.node (0, v / 512) = some q)
    (hunique : ∀ x, S.node x = some q → x = (0, v / 512))
    (htable : ∀ x p, S.node x = some p → p ≠ q → s'.mem p = s.mem p)
    (hentry : s'.mem q = storePte (s.mem q) (v % 512) (encodeLeaf o))
    (hkeep : ∀ u l, u ≠ v → u < USERPAGES → S.leaf u = some l →
      s'.mem l.pa = s.mem l.pa ∧ s'.first l.pa = s.first l.pa)
    (huser : ∀ l, o = some l → v < USERPAGES → UserLeaf K s' l d)
    (hhigh : ∀ l, o = some l → USERPAGES ≤ v → HighLeaf l)
    (hinj : ∀ f, refs userIx (S.setLeaf v o d).frames f ≤ 1) :
    (S.setLeaf v o d).Ok K s' where
  table := by
    apply (h.table.setLeaf o d hq hunique).congr
    intro x p hp
    by_cases hpq : p = q
    · rw [hpq, Function.update_self, hentry]
    · rw [Function.update_of_ne hpq]
      exact htable x p hp hpq
  user u l hu hl := by
    by_cases huv : u = v
    · subst huv
      simp only [Space.setLeaf, Function.update_self] at hl ⊢
      exact huser l hl hu
    · simp only [Space.setLeaf, Function.update_of_ne huv] at hl ⊢
      obtain ⟨hmem, hfirst⟩ := hkeep u l huv hu hl
      exact (h.user u l hu hl).congr hmem hfirst
  high u l hu hl := by
    by_cases huv : u = v
    · subst huv
      simp only [Space.setLeaf, Function.update_self] at hl
      exact hhigh l hl hu
    · simp only [Space.setLeaf, Function.update_of_ne huv] at hl
      exact h.high u l hu hl
  inj := hinj

/-- The frame of a user leaf is not a table page of the same space. -/
theorem Inv.leaf_ne_node (h : Inv K ({.space S} + F) s) {x : Nat × Nat} {q u : Nat}
    {l : Leaf} (hq : S.node x = some q) (hu : u < USERPAGES)
    (hl : S.leaf u = some l) : l.pa ≠ q := by
  rintro rfl
  have hzero := (h.node_alone hq).2.2.2
  have hpos : 1 ≤ S.use .user l.pa :=
    refs_pos (mem_userIx.mpr hu) (Space.frames_eq_some.mpr ⟨l, hl, rfl⟩)
  omega

theorem Space.use_user_pos {v : Nat} {l : Leaf} (hv : v < USERPAGES)
    (hl : S.leaf v = some l) : 1 ≤ S.use .user l.pa :=
  refs_pos (mem_userIx.mpr hv) (Space.frames_eq_some.mpr ⟨l, hl, rfl⟩)

theorem Space.use_setLeaf_high {v : Nat} (hv : USERPAGES ≤ v) (o : Option Leaf)
    (d : Arr) (t : Tag) (f : Nat) : (S.setLeaf v o d).use t f = S.use t f := by
  have hout : v ∉ userIx := fun hmem => by
    have := mem_userIx.mp hmem
    omega
  cases t with
  | kernel => rfl
  | user =>
      simp only [Space.use]
      rw [Space.frames_setLeaf, refs_update_of_notMem hout]
  | own =>
      simp only [Space.use]
      rw [Space.owned_setLeaf, refs_update_of_notMem hout]
  | root => rfl
  | lag => rfl
  | token => rfl

/-- A new mapping keeps the frames of a space distinct. -/
theorem Space.inj_setLeaf_some (hinj : ∀ f, refs userIx S.frames f ≤ 1) {v : Nat}
    {l : Leaf} (d : Arr) (hout : ∀ u, u < USERPAGES → u ≠ v → S.frames u ≠ some l.pa)
    (f : Nat) : refs userIx (S.setLeaf v (some l) d).frames f ≤ 1 := by
  apply refs_le_one
  intro x hx y hy hfx hfy
  rw [Space.frames_setLeaf] at hfx hfy
  by_cases hxv : x = v
  · by_cases hyv : y = v
    · rw [hxv, hyv]
    · subst hxv
      rw [Function.update_self] at hfx
      rw [Function.update_of_ne hyv, ← hfx] at hfy
      exact absurd hfy (hout y (mem_userIx.mp hy) hyv)
  · by_cases hyv : y = v
    · subst hyv
      rw [Function.update_self] at hfy
      rw [Function.update_of_ne hxv, ← hfy] at hfx
      exact absurd hfx (hout x (mem_userIx.mp hx) hxv)
    · rw [Function.update_of_ne hxv] at hfx
      rw [Function.update_of_ne hyv] at hfy
      exact refs_inj (hinj f) hx hy hfx hfy

theorem Space.inj_setLeaf_none (hinj : ∀ f, refs userIx S.frames f ≤ 1) (v : Nat)
    (d : Arr) (f : Nat) : refs userIx (S.setLeaf v none d).frames f ≤ 1 := by
  apply refs_le_one
  intro x hx y hy hfx hfy
  rw [Space.frames_setLeaf] at hfx hfy
  have hxv : x ≠ v := by
    rintro rfl
    simp at hfx
  have hyv : y ≠ v := by
    rintro rfl
    simp at hfy
  rw [Function.update_of_ne hxv] at hfx
  rw [Function.update_of_ne hyv] at hfy
  exact refs_inj (hinj f) hx hy hfx hfy

/-- The state after the store of mappages. -/
def Kmem.mapped (s : Kmem) (pte : PtePtr) (w : Pte) : Kmem :=
  { s with
    mem := Function.update s.mem pte.1 (storePte (s.mem pte.1) pte.2 w)
    first := if s.first (PTE2PA w) = none then
      Function.update s.first (PTE2PA w) (some (PTE_FLAGS w)) else s.first }

theorem mapPteAt_ok {pte : PtePtr} (h : inRam pte.1 = true) (w : Pte) :
    mapPteAt pte w s = .ok ((), s.mapped pte w) := by
  rw [mapPteAt, KM.bind_ok (writePteAt_ok h w)]
  by_cases hfirst : s.first (PTE2PA w) = none
  · simp [Kmem.mapped, Kmem.wrote, hfirst, modify, modifyGet, MonadStateOf.modifyGet,
      StateT.modifyGet, pure, Except.pure]
  · simp [Kmem.mapped, Kmem.wrote, hfirst, modify, modifyGet, MonadStateOf.modifyGet,
      StateT.modifyGet, pure, Except.pure]

theorem Kmem.mapped_first_of_ne (s : Kmem) (pte : PtePtr) {w : Pte} {f : Nat}
    (h : f ≠ PTE2PA w) : (s.mapped pte w).first f = s.first f := by
  simp only [Kmem.mapped]
  split
  · exact Function.update_of_ne h ..
  · rfl

section mapping

variable {v p q : Nat} {d : Arr} {fl : Pte}

theorem Space.own_le_user (S : Space) (f : Nat) : S.use .own f ≤ S.use .user f := by
  apply refs_le_refs
  intro u _ hown
  obtain ⟨l, hl, hif⟩ := Option.bind_eq_some_iff.mp hown
  apply Space.frames_eq_some.mpr
  refine ⟨l, hl, ?_⟩
  by_contra hne
  simp [hne] at hif

/-- mappages makes an entry for a fresh page: the page goes from the kernel to the
address space. -/
theorem Inv.mapPage {w : Pte} (h : Inv K ({.space S} + ({.page p d true} + F)) s)
    (hv : v < USERPAGES) (hq : S.node (0, v / 512) = some q)
    (hnone : S.leaf v = none) (hfl : IsFlags w) (hvalid : w.has PTE_V = true)
    (hread : w.has PTE_R = true) (hcow : w.has PTE_COW = false) :
    Inv K ({.space (S.setLeaf v (some ⟨p, w, true⟩) d)} + F)
      (s.mapped (q, v % 512) (PA2PTE p ||| w)) := by
  obtain ⟨hframe, hdata, hfresh⟩ := h.ok (.page p d true) (by simp)
  obtain ⟨hqframe, hqalone, hqone, hquser⟩ := h.node_alone hq
  have hS := h.space_ok
  have hunique : ∀ x, S.node x = some q → x = (0, v / 512) := fun x hx =>
    h.node_unique hq hx
  have hleafq : ∀ u l, u < USERPAGES → S.leaf u = some l → l.pa ≠ q :=
    fun u l hu hl => h.leaf_ne_node hq hu hl
  have hpa : PTE2PA (PA2PTE p ||| w) = p := PTE2PA_or hframe.lt_pow hframe.1 hfl
  have hflags : PTE_FLAGS (PA2PTE p ||| w) = w := PTE_FLAGS_or hframe.lt_pow hfl
  have hpage : ∀ t f, total t {Atom.page p d true} f =
      if t = .kernel then ind (some p) f else 0 := by
    intro t f
    simp [Atom.use]
  rw [← add_assoc] at h
  have hpsplit := (h.sharing_split p).1 (by
    simp only [total_add, hpage, ↓reduceIte, ind_some_self]
    omega)
  simp only [total_add, total_space, hpage, ↓reduceIte, reduceCtorEq,
    ind_some_self] at hpsplit
  have hpq : p ≠ q := by
    rintro rfl
    omega
  have hpuser : S.use .user p = 0 := by omega
  have hout : ∀ u, u < USERPAGES → S.frames u ≠ some p := by
    intro u hu hfr
    have hpos : 1 ≤ S.use .user p := refs_pos (mem_userIx.mpr hu) hfr
    omega
  have huse : ∀ f, (S.setLeaf v (some ⟨p, w, true⟩) d).use .user f =
      S.use .user f + ind (some p) f := by
    intro f
    have hmove := S.use_user_setLeaf hv (some ⟨p, w, true⟩) d f
    rw [show S.frames v = none by simp [Space.frames, hnone], ind_none] at hmove
    simpa using hmove
  have hown : ∀ f, (S.setLeaf v (some ⟨p, w, true⟩) d).use .own f =
      S.use .own f + ind (some p) f := by
    intro f
    have hmove := S.use_own_setLeaf hv (some ⟨p, w, true⟩) d f
    rw [show S.owned v = none by simp [Space.owned, hnone], ind_none] at hmove
    simpa using hmove
  refine h.stored (by rfl) (by rfl) (by rfl) ?_ ?_ ?_ ?_ ?_
  · intro f hf
    have hcases : f = q ∨ f = p := by
      by_contra hne
      push Not at hne
      rcases hf with hf | hf
      · simp [Kmem.mapped, hne.1] at hf
      · exact hf (s.mapped_first_of_ne _ (by rw [hpa]; exact hne.2))
    rcases hcases with rfl | rfl
    · unfold touched at hqalone ⊢
      simp only [total_add, total_space] at hqalone ⊢
      exact ⟨by omega, fun _ => by omega⟩
    · unfold touched
      simp only [total_add, total_space, hpage, ↓reduceIte, ind_some_self]
      exact ⟨by omega, fun _ => by omega⟩
  · intro a ha
    rw [Multiset.mem_singleton.mp ha]
    apply hS.setLeaf hq hunique
    case htable =>
      intro x y hx hyq
      simp [Kmem.mapped, hyq]
    case hentry => simp [Kmem.mapped, encodeLeaf]
    case hkeep =>
      intro u l _ hu hl
      have hlq := hleafq u l hu hl
      have hlp : l.pa ≠ p := fun heq =>
        hout u hu (Space.frames_eq_some.mpr ⟨l, hl, heq⟩)
      exact ⟨by simp [Kmem.mapped, hlq], s.mapped_first_of_ne _ (by rwa [hpa])⟩
    case huser =>
      rintro l hl -
      obtain rfl := Option.some.inj hl
      refine ⟨hframe, hfl, hvalid, hread, by simp [hcow], fun _ => rfl, ?_, w, ?_, ?_⟩
      · simpa [Kmem.mapped, hpq] using hdata
      · simp [Kmem.mapped, hpa, hfresh, hflags]
      · simp [hcow]
    case hhigh =>
      intro l _ hhigh
      omega
    case hinj => exact Space.inj_setLeaf_some hS.inj d fun u hu _ => hout u hu
  · intro f
    simp only [total_add, total_space, hpage, ↓reduceIte, reduceCtorEq, huse,
      Space.use_kernel_setLeaf]
    omega
  · intro f
    have hold := h.sharing_split f
    have hownle := S.own_le_user f
    simp only [total_add, total_space, hpage, ↓reduceIte, reduceCtorEq, huse, hown,
      Space.use_kernel_setLeaf, Space.use_lag, add_zero, zero_add] at hold hpsplit ⊢
    by_cases hfp : f = p
    · subst hfp
      rw [ind_some_self]
      constructor <;> omega
    · rw [ind_some_of_ne (Ne.symm hfp)] at hold ⊢
      simpa only [add_zero] using hold
  · intro x
    simp only [total_add, total_space, hpage, reduceCtorEq, ↓reduceIte,
      Space.use_root_setLeaf, Space.use_token]
    exact le_refl _

/-- An entry is overwritten by one for the same frame or, above TRAPFRAME, by any
other: no reference moves.  A mapping becomes exclusive only if it is the only one. -/
theorem Inv.storeLeaf {o : Option Leaf} (h : Inv K ({.space S} + F) s)
    (hq : S.node (0, v / 512) = some q)
    (hframes : ∀ f, (S.setLeaf v o d).use .user f = S.use .user f)
    (hown : ∀ f, (S.setLeaf v o d).use .own f ≤ S.use .own f ∨
      S.use .user f + total .user F f + total .lag F f = 1)
    (huser : ∀ l, o = some l → v < USERPAGES → UserLeaf K s l d)
    (hhigh : ∀ l, o = some l → USERPAGES ≤ v → HighLeaf l) :
    Inv K ({.space (S.setLeaf v o d)} + F)
      (s.wrote q (storePte (s.mem q) (v % 512) (encodeLeaf o))) := by
  obtain ⟨hqframe, hqalone, hqone, hquser⟩ := h.node_alone hq
  have hS := h.space_ok
  refine h.stored (by rfl) (by rfl) (by rfl) ?_ ?_ ?_ ?_ ?_
  · intro f hf
    have hfq : f = q := by
      by_contra hne
      simp [hne] at hf
    subst hfq
    simp only [total_space]
    exact ⟨hqalone, fun _ => by omega⟩
  · intro a ha
    rw [Multiset.mem_singleton.mp ha]
    apply hS.setLeaf hq (fun x hx => h.node_unique hq hx)
    case htable =>
      intro x y hx hyq
      simp [hyq]
    case hentry => simp
    case hkeep =>
      intro u l _ hu hl
      have hlq := h.leaf_ne_node hq hu hl
      exact ⟨by simp [hlq], rfl⟩
    case huser =>
      intro l hl hv
      apply (huser l hl hv).congr
      · have hpos : 1 ≤ (S.setLeaf v o d).use .user l.pa :=
          Space.use_user_pos hv (by simp [Space.setLeaf, hl])
        have hne : l.pa ≠ q := by
          rintro rfl
          rw [hframes] at hpos
          omega
        simp [hne]
      · rfl
    case hhigh => exact hhigh
    case hinj =>
      intro f
      have hsame := hframes f
      simp only [Space.use] at hsame
      rw [hsame]
      exact hS.inj f
  · intro f
    simp only [total_space, hframes, Space.use_kernel_setLeaf]
  · intro f
    have hold := h.sharing_split f
    have hle := hown f
    simp only [total_space, hframes, Space.use_kernel_setLeaf, Space.use_lag] at hold ⊢
    unfold Sharing at hold ⊢
    constructor <;> omega
  · intro x
    simp only [total_space, Space.use_root_setLeaf, Space.use_token]
    exact le_refl _

/-- The same entry with other flags. -/
theorem Space.use_user_setLeaf_same {l l' : Leaf} (hl : S.leaf v = some l)
    (hpa : l'.pa = l.pa) (f : Nat) :
    (S.setLeaf v (some l') d).use .user f = S.use .user f := by
  have hsame : (S.setLeaf v (some l') d).frames = S.frames := by
    rw [Space.frames_setLeaf]
    apply Function.update_eq_self_iff.mpr
    simp [Space.frames, hl, hpa]
  simp only [Space.use]
  rw [hsame]

/-- Only frames of the allocator are referred to. -/
theorem Inv.touched_eq_zero_of_not_frame (h : Inv K F s) {f : Nat}
    (hf : ¬ K.Frame f) : touched F f = 0 := by
  have hlag := total_lag_le_user h.ok f
  by_contra hne
  unfold touched at hne
  have hpos : total .kernel F f + total .user F f ≠ 0 := by omega
  have hex : ∃ a ∈ F, 1 ≤ a.use .kernel f + a.use .user f := by
    by_contra hno
    push Not at hno
    have hzero : ∀ t, t = .kernel ∨ t = .user → total t F f = 0 := by
      intro t ht
      apply total_eq_zero
      intro a ha
      have hlt := hno a ha
      rcases ht with rfl | rfl <;> omega
    have hk := hzero .kernel (Or.inl rfl)
    have hu := hzero .user (Or.inr rfl)
    omega
  obtain ⟨a, ha, huse⟩ := hex
  exact hf ((h.ok a ha).frame_of_user huse)

/-- mappages makes an entry above the user part; the mapped page is not counted
there, but this may be the first entry for it. -/
theorem Inv.mapHigh {X X' : Multiset Atom} {l : Leaf}
    (h : Inv K ({.space S} + (X + F)) s) (hv : USERPAGES ≤ v)
    (hq : S.node (0, v / 512) = some q) (hl : HighLeaf l)
    (hpa : touched F l.pa = 0 ∧ (K.Frame l.pa → 1 ≤ total .kernel X l.pa))
    (hX : ∀ t f, total t X' f = total t X f)
    (hXok : ∀ a ∈ X', a.Ok K (s.mapped (q, v % 512) (encodeLeaf (some l)))) :
    Inv K ({.space (S.setLeaf v (some l) d)} + (X' + F))
      (s.mapped (q, v % 512) (encodeLeaf (some l))) := by
  obtain ⟨hqframe, hqalone, hqone, hquser⟩ := h.node_alone hq
  have hS := h.space_ok
  have hunique : ∀ x, S.node x = some q → x = (0, v / 512) := fun x hx =>
    h.node_unique hq hx
  have hleafq : ∀ u l, u < USERPAGES → S.leaf u = some l → l.pa ≠ q :=
    fun u l hu hl => h.leaf_ne_node hq hu hl
  have hpte : PTE2PA (encodeLeaf (some l)) = l.pa :=
    PTE2PA_or hl.small hl.aligned hl.flags
  -- the mapped page is not one of the user pages of this space
  have hapart : ∀ u l', u < USERPAGES → S.leaf u = some l' → l'.pa ≠ l.pa := by
    intro u l' hu hl' heq
    have hframe : K.Frame l.pa := heq ▸ (hS.user u l' hu hl').frame
    have hpos : 1 ≤ S.use .user l.pa := heq ▸ Space.use_user_pos hu hl'
    have hXpos := hpa.2 hframe
    have hshare := h.sharing_split l.pa
    simp only [total_add, total_space] at hshare
    have := hshare.1 (by omega)
    omega
  rw [← add_assoc] at h ⊢
  refine h.rewrite (by rfl) (by rfl) (by rfl) ?_ ?_ ?_
  · intro f hf
    have hcases : f = q ∨ f = l.pa := by
      by_contra hne
      push Not at hne
      rcases hf with hf | hf
      · simp [Kmem.mapped, hne.1] at hf
      · exact hf (s.mapped_first_of_ne _ (by rw [hpte]; exact hne.2))
    rcases hcases with rfl | rfl
    · unfold touched at hqalone ⊢
      simp only [total_add, total_space] at hqalone ⊢
      exact ⟨by omega, fun _ => by omega⟩
    · simp only [total_add, total_space]
      refine ⟨hpa.1, fun hframe => ?_⟩
      have := hpa.2 hframe
      omega
  · intro a ha
    rcases Multiset.mem_add.mp ha with ha | ha
    · rw [Multiset.mem_singleton.mp ha]
      apply hS.setLeaf hq hunique
      case htable =>
        intro x y hx hyq
        simp [Kmem.mapped, hyq]
      case hentry => simp [Kmem.mapped]
      case hkeep =>
        intro u l' _ hu hl'
        have hlq := hleafq u l' hu hl'
        have hll := hapart u l' hu hl'
        exact ⟨by simp [Kmem.mapped, hlq], s.mapped_first_of_ne _ (by rwa [hpte])⟩
      case huser =>
        intro l' _ hlt
        omega
      case hhigh =>
        intro l' hl' _
        exact Option.some.inj hl' ▸ hl
      case hinj =>
        intro f
        have hsame := Space.use_setLeaf_high (S := S) hv (some l) d .user f
        simp only [Space.use] at hsame
        rw [hsame]
        exact hS.inj f
    · exact hXok a ha
  · intro t f
    simp only [total_add, total_space, Space.use_setLeaf_high hv, hX]

end mapping

end Xv6.Vm
