/-
copyout of kernel/vm.c page by page: what one iteration does with each kind of page, and what
the loop does with the pages before the first one that it cannot write.
-/
import Xv6.Vm.Copyin

namespace Xv6.Vm

open Bytes Program Interleave Refs

variable {K : Image} {s s' : Kmem} {S S' : Space} {F : Multiset Atom} {va v scause dstva : Nat}
  {l : Leaf} {pte : PtePtr} {chunk : List UInt8}

instance (f : Nat) : Decidable (K.Frame f) := inferInstanceAs (Decidable (_ ∧ _ ∧ _))

/-- The frames without references. -/
def freeFrames (K : Image) (s : Kmem) : Finset Nat :=
  frameSet.filter fun f => K.Frame f ∧ s.refCount (countIndex f) = 0

theorem mem_freeFrames {f : Nat} :
    f ∈ freeFrames K s ↔ K.Frame f ∧ s.refCount (countIndex f) = 0 := by
  rw [freeFrames, Finset.mem_filter]
  exact ⟨fun h => h.2, fun h => ⟨h.1.mem_frameSet, h⟩⟩

/-- The free list is empty when no frame is free. -/
theorem FreeOk.freelist_eq_zero (h : FreeOk K s) :
    s.freelist = 0 ↔ (freeFrames K s).card = 0 := by
  obtain ⟨L, hchain, -, hL⟩ := h
  rw [Finset.card_eq_zero]
  constructor
  · intro hzero
    rw [Finset.eq_empty_iff_forall_notMem]
    intro f hf
    have hmem := (hL f).mpr (mem_freeFrames.mp hf)
    cases L with
    | nil => cases hmem
    | cons p rest => exact hchain.2.1 (hchain.1.symm.trans hzero)
  · intro hempty
    cases L with
    | nil => exact hchain
    | cons p rest =>
        have hp := mem_freeFrames.mpr ((hL p).mp List.mem_cons_self)
        rw [hempty] at hp
        cases hp

/-- Taking the first free frame while all other counts stay zero or not. -/
theorem freeFrames_pop {p : Nat} (hp : K.Frame p) (hzero : s.refCount (countIndex p) = 0)
    (hnew : s'.refCount (countIndex p) ≠ 0)
    (hsame : ∀ f, K.Frame f → f ≠ p →
      (s'.refCount (countIndex f) = 0 ↔ s.refCount (countIndex f) = 0)) :
    (freeFrames K s').card + 1 = (freeFrames K s).card := by
  have herase : freeFrames K s' = (freeFrames K s).erase p := by
    ext f
    rw [Finset.mem_erase, mem_freeFrames, mem_freeFrames]
    by_cases hf : f = p
    · subst hf
      simp [hnew]
    · simp only [ne_eq, hf, not_false_eq_true, true_and]
      exact and_congr_right fun hframe => hsame f hframe hf
  rw [herase]
  exact Finset.card_erase_add_one (mem_freeFrames.mpr ⟨hp, hzero⟩)

theorem freeFrames_congr (h : s'.refCount = s.refCount) : freeFrames K s' = freeFrames K s := by
  ext f
  rw [mem_freeFrames, mem_freeFrames, h]

/-- A page whose write needs a frame of its own: it is copy-on-write and has other references. -/
def Leaf.Shared (l : Leaf) (s : Kmem) : Prop :=
  l.fl.has PTE_COW = true ∧ 1 < s.refCount (countIndex l.pa)

instance (l : Leaf) (s : Kmem) : Decidable (l.Shared s) := inferInstanceAs (Decidable (_ ∧ _))

/-- What is left after copyout has made the page `v` writable. -/
structure Unshared (K : Image) (S S' : Space) (s s' : Kmem) (v : Nat) (l : Leaf) : Prop where
  space : ∃ l', S' = S.setLeaf v (some l') (S.data v) ∧ l'.fl.has PTE_U = true ∧
    l'.fl.has PTE_W = true ∧ l'.fl.has PTE_COW = false
  free : (freeFrames K s').card + (if l.Shared s then 1 else 0) = (freeFrames K s).card
  count : ∀ f, K.Frame f → f ≠ l.pa → 0 < s.refCount (countIndex f) →
    s'.refCount (countIndex f) = s.refCount (countIndex f)

section page

variable (h : Inv K ({.space S} + F) s)
include h

theorem Inv.run_walk (hva : va < MAXVA) :
    (walk S.root va false).run (handler K) s = .ok (S.slot va, s) := by
  rw [← h.space_ok.table.slotAt hva]
  exact (finishes_walk h.space_ok.resident hva).run

theorem Inv.run_readPte (hva : va < MAXVA) (hslot : S.slot va = some pte) :
    handler K _ (.readPte pte) s = .ok (encodeLeaf (S.leaf (va / PGSIZE)), s) := by
  have hpage := h.space_ok.resident.slot va pte hva (by rw [h.space_ok.table.slotAt hva, hslot])
  have hlookup := h.space_ok.table.lookup hva
  rw [lookup_eq_slotAt, h.space_ok.table.slotAt hva, hslot] at hlookup
  rw [← hlookup]
  exact readPteAt_ok hpage

/-- A leaf has a slot. -/
theorem Inv.slot_of_leaf (va : Nat) (hl : S.leaf (va / PGSIZE) = some l) :
    ∃ pte, S.slot va = some pte := by
  cases hslot : S.slot va with
  | none =>
      have hnone := h.space_ok.leaf_of_slot_none hslot
      rw [hl] at hnone
      cases hnone
  | some pte => exact ⟨pte, rfl⟩

theorem run_cowFaultHandler (hva : va < MAXVA) (halign : va % PGSIZE = 0)
    (hv : va / PGSIZE < USERPAGES) (hl : S.leaf (va / PGSIZE) = some l)
    (hu : l.fl.has PTE_U = true) (hcow : l.fl.has PTE_COW = true)
    (hslot : S.slot va = some pte) :
    (cowFaultHandler S.root va scause).run (handler K) s =
      if scause = 13 then .ok (-1, s) else
      match update K S.root va pte l.pa l.fl s with
      | .ok (_, s') => .ok (0, s')
      | .error e => .error e := by
  have hok := h.space_ok
  have hleaf := hok.user _ l hv hl
  have hdown : PGROUNDDOWN va = va := Nat.div_mul_cancel (Nat.dvd_of_mod_eq_zero halign)
  have hbit : ∀ bit : Pte, bit &&& 0x3FF = bit →
      (encodeLeaf (some l)).has bit = l.fl.has bit := fun bit => hok.has hl
  have hne := encodeLeaf_ne_zero ((hbit PTE_V (by decide)).trans hleaf.valid)
  rw [cowFaultHandler, hdown, Prog.run_bind_ok (h.run_walk hva), hslot]
  simp only [Prog.cmd_bind, Prog.run, h.run_readPte hva hslot, hl, if_neg hne]
  by_cases hcause : scause = 13
  · rw [if_pos hcause, if_pos hcause]
    rfl
  · rw [if_neg hcause, if_neg hcause, if_neg (by omega), hbit _ (by decide), hbit _ (by decide),
      hbit _ (by decide), hcow, hu, hleaf.valid, hleaf.PTE2PA, hleaf.PTE_FLAGS]
    have hexec : handler K _ (.update S.root va pte l.pa l.fl) s =
        update K S.root va pte l.pa l.fl s := rfl
    simp only [Bool.and_self, if_true, Prog.run, hexec]
    cases update K S.root va pte l.pa l.fl s with
    | ok out => rfl
    | error e => rfl

/-- The handler refuses pages that are not the user's. -/
theorem run_cowFaultHandler_kernel (hva : va < MAXVA) (halign : va % PGSIZE = 0)
    (hl : S.leaf (va / PGSIZE) = some l) (hu : l.fl.has PTE_U = false) :
    (cowFaultHandler S.root va scause).run (handler K) s = .ok (-1, s) := by
  have hok := h.space_ok
  obtain ⟨pte, hslot⟩ := h.slot_of_leaf _ hl
  have hdown : PGROUNDDOWN va = va := Nat.div_mul_cancel (Nat.dvd_of_mod_eq_zero halign)
  have hne := encodeLeaf_ne_zero ((hok.has hl (by decide)).trans (hok.valid hl))
  have huser : (encodeLeaf (some l)).has PTE_U = false := (hok.has hl (by decide)).trans hu
  rw [cowFaultHandler, hdown, Prog.run_bind_ok (h.run_walk hva), hslot]
  simp only [Prog.cmd_bind, Prog.run, h.run_readPte hva hslot, hl, if_neg hne, huser,
    Bool.and_false, Bool.false_eq_true, if_false, ite_self]
  rfl

/-- Before copyout writes to a page of the user it makes the page writable. -/
theorem run_breakSharing (hva : va < MAXVA) (halign : va % PGSIZE = 0)
    (hl : S.leaf (va / PGSIZE) = some l) (hu : l.fl.has PTE_U = true)
    (hw : l.fl.has PTE_W = true ∨ l.fl.has PTE_COW = true)
    (hcause : l.fl.has PTE_COW = true → scause ≠ 13)
    (hfree : l.Shared s → s.freelist ≠ 0) :
    ∃ s' S', (breakSharing S.root va scause (encodeLeaf (some l))).run (handler K) s =
        .ok (0, s') ∧ Inv K ({.space S'} + F) s' ∧ Unshared K S S' s s' (va / PGSIZE) l := by
  have hok := h.space_ok
  have hv := hok.lt_of_user hl hu
  have hleaf := hok.user _ l hv hl
  have hpos := h.count_pos_of_user hv hl
  obtain ⟨pte, hslot⟩ := h.slot_of_leaf _ hl
  obtain ⟨q, hq, hpte⟩ := Space.slot_eq_some hslot
  rw [breakSharing, hok.has hl (by decide)]
  by_cases hcow : l.fl.has PTE_COW = true
  · rw [if_pos hcow, run_cowFaultHandler h hva halign hv hl hu hcow hslot, if_neg (hcause hcow)]
    have hflags : (writableFlags l.fl).has PTE_U = true := by
      rwa [has_writableFlags l.fl (by decide) (by decide)]
    by_cases hone : s.refCount (countIndex l.pa) = 1
    · rw [update_inPlace pte h hva halign hv hl hslot hone, hpte]
      refine ⟨_, _, rfl, h.update_inPlace hv hl hcow hq hone, ⟨_, rfl, hflags,
        has_writableFlags_W _, has_writableFlags_COW _⟩, ?_, fun _ _ _ _ => rfl⟩
      have hnot : ¬ l.Shared s := fun hs => by
        have := hs.2
        omega
      rw [if_neg hnot, Nat.add_zero, freeFrames_congr (s := s)]
      rfl
    · have hshared : l.Shared s := ⟨hcow, by omega⟩
      have hne := hfree hshared
      have hhead := h.free.popped rfl hne
      have hother : l.pa ≠ s.freelist := by
        intro heq
        have hzero := hhead.2.1
        rw [← heq] at hzero
        omega
      have hcount : ∀ f, K.Frame f → f ≠ s.freelist → f ≠ l.pa →
          Function.update (Function.update s.refCount (countIndex s.freelist) 1)
            (countIndex l.pa) (s.refCount (countIndex l.pa) - 1) (countIndex f) =
          s.refCount (countIndex f) := by
        intro f hf hfp hfl
        rw [Function.update_of_ne fun heq => hfl (hf.countIndex_inj hleaf.frame heq)]
        exact refCount_update_of_ne hhead.1 hf hfp 1
      rw [update_copy pte h hva halign hv hl hslot (by omega) rfl hne, hpte]
      refine ⟨_, _, rfl, h.update_copy hv hl hq (by omega) rfl hne, ⟨_, rfl, hflags,
        has_writableFlags_W _, has_writableFlags_COW _⟩, ?_, ?_⟩
      · rw [if_pos hshared]
        refine freeFrames_pop hhead.1 hhead.2.1 ?_ ?_
        · change Function.update (Function.update s.refCount (countIndex s.freelist) 1)
            (countIndex l.pa) (s.refCount (countIndex l.pa) - 1) (countIndex s.freelist) ≠ 0
          rw [Function.update_of_ne fun heq =>
            hother (hhead.1.countIndex_inj hleaf.frame heq).symm, Function.update_self]
          decide
        · intro f hf hfp
          change Function.update (Function.update s.refCount (countIndex s.freelist) 1)
            (countIndex l.pa) (s.refCount (countIndex l.pa) - 1) (countIndex f) = 0 ↔ _
          by_cases hfl : f = l.pa
          · subst hfl
            rw [Function.update_self]
            omega
          · rw [hcount f hf hfp hfl]
      · intro f hf hfl hposf
        refine hcount f hf ?_ hfl
        rintro rfl
        have hzero := hhead.2.1
        omega
  · rw [if_neg hcow]
    have hnot : ¬ l.Shared s := fun hs => hcow hs.1
    refine ⟨s, S, rfl, h, ⟨l, ?_, hu, hw.resolve_right hcow, by simpa using hcow⟩, ?_,
      fun _ _ _ _ => rfl⟩
    · rw [Space.setLeaf, ← hl, Function.update_eq_self, Function.update_eq_self]
    · rw [if_neg hnot, Nat.add_zero]

end page

/-- What is left after copyout has written a chunk into the page `v`. -/
structure PageWritten (K : Image) (S S' : Space) (s s' : Kmem) (v off : Nat)
    (chunk : List UInt8) (l : Leaf) : Prop where
  root : S'.root = S.root
  node : S'.node = S.node
  leaf : ∀ u, u ≠ v → S'.leaf u = S.leaf u
  data : S'.data = Function.update S.data v (pokeBytes (S.data v) off chunk)
  entry : ∃ l', S'.leaf v = some l' ∧ l'.fl.has PTE_U = true ∧ l'.fl.has PTE_W = true ∧
    l'.fl.has PTE_COW = false
  free : (freeFrames K s').card + (if l.Shared s then 1 else 0) = (freeFrames K s).card
  count : ∀ f, K.Frame f → f ≠ l.pa → 0 < s.refCount (countIndex f) →
    s'.refCount (countIndex f) = s.refCount (countIndex f)

section copyoutPage

variable (h : Inv K ({.space S} + F) s)
include h

theorem run_copyoutPage_good (chunk : List UInt8) (hl : S.leaf (dstva / PGSIZE) = some l)
    (hu : l.fl.has PTE_U = true) (hw : l.fl.has PTE_W = true ∨ l.fl.has PTE_COW = true)
    (hcause : l.fl.has PTE_COW = true → scause ≠ 13) (hfree : l.Shared s → s.freelist ≠ 0) :
    ∃ s' S', (copyoutPage S.root scause dstva chunk).run (handler K) s = .ok (0, s') ∧
      Inv K ({.space S'} + F) s' ∧
      PageWritten K S S' s s' (dstva / PGSIZE) (dstva - PGROUNDDOWN dstva) chunk l := by
  have hv := h.space_ok.lt_of_user hl hu
  have hdiv := PGROUNDDOWN_div dstva
  have hva : PGROUNDDOWN dstva < MAXVA := lt_MAXVA_of_page (by omega)
  rw [← hdiv] at hl
  obtain ⟨pte, hslot⟩ := h.slot_of_leaf _ hl
  obtain ⟨s₁, S₁, hbreak, hinv₁, hun⟩ :=
    run_breakSharing h hva (PGROUNDDOWN_mod dstva) hl hu hw hcause hfree
  obtain ⟨l₁, rfl, hu₁, hw₁, hcow₁⟩ := hun.space
  rw [hdiv] at hun hinv₁
  have hl₁ : (S.setLeaf (dstva / PGSIZE) (some l₁) (S.data (dstva / PGSIZE))).leaf
      (dstva / PGSIZE) = some l₁ := Function.update_self ..
  have hleaf₁ := hinv₁.space_ok.user _ l₁ hv hl₁
  have hslot₁ : (S.setLeaf (dstva / PGSIZE) (some l₁) (S.data (dstva / PGSIZE))).slot
      (PGROUNDDOWN dstva) = some pte := hslot
  have hread := hinv₁.run_readPte hva hslot₁
  rw [hdiv, hl₁] at hread
  have hpoke : handler K _ (.poke l₁.pa (dstva - PGROUNDDOWN dstva) chunk) s₁ =
      .ok ((), s₁.wrote l₁.pa (pokeBytes (S.data (dstva / PGSIZE))
        (dstva - PGROUNDDOWN dstva) chunk)) := by
    change pokeAt l₁.pa _ chunk s₁ = _
    rw [pokeAt, KM.bind_ok (readPage_ok hleaf₁.frame.inRam), writePage_ok hleaf₁.frame.inRam,
      hleaf₁.data]
    simp [Space.setLeaf]
  have hbit : ∀ bit : Pte, bit &&& 0x3FF = bit →
      (encodeLeaf (some l₁)).has bit = l₁.fl.has bit := fun bit => hinv₁.space_ok.has hl₁
  refine ⟨_, _, ?_, hinv₁.poke hv hl₁ (hleaf₁.owner hw₁)
    (pokeBytes (S.data (dstva / PGSIZE)) (dstva - PGROUNDDOWN dstva) chunk), ?_⟩
  · rw [copyoutPage, if_neg (by omega), Prog.run_bind_ok (h.run_walk hva), hslot]
    simp only [Prog.cmd_bind, Prog.run, h.run_readPte hva hslot, hl]
    rw [Prog.run_bind_ok hbreak, if_neg (by decide)]
    simp only [Prog.run, hread]
    rw [hbit _ (by decide), hbit _ (by decide), hbit _ (by decide), hleaf₁.valid, hu₁, hw₁,
      hleaf₁.PTE2PA]
    simp only [Bool.not_true, Bool.or_self, Bool.false_eq_true, if_false, Prog.run, hpoke]
    rfl
  · refine ⟨rfl, rfl, fun u hne => Function.update_of_ne hne .., ?_,
      ⟨l₁, hl₁, hu₁, hw₁, hcow₁⟩, ?_, hun.count⟩
    · simp [Space.setData, Space.setLeaf]
    · rw [freeFrames_congr (s := s₁)]
      · exact hun.free
      · rfl

omit h in
/-- An address beyond MAXVA is refused. -/
theorem run_copyoutPage_high (hva : MAXVA ≤ PGROUNDDOWN dstva) :
    (copyoutPage S.root scause dstva chunk).run (handler K) s = .ok (-1, s) := by
  rw [copyoutPage, if_pos hva]
  rfl

/-- Without a table for the page copyout reads the entry at address 0. -/
theorem run_copyoutPage_null (hva : PGROUNDDOWN dstva < MAXVA)
    (hslot : S.slot (PGROUNDDOWN dstva) = none) :
    (copyoutPage S.root scause dstva chunk).run (handler K) s = .error (.fault 0) := by
  rw [copyoutPage, if_neg (by omega), Prog.run_bind_ok (h.run_walk hva), hslot]
  rfl

/-- copyout passes on that sharing could not be broken. -/
theorem run_copyoutPage_refuse (hva : PGROUNDDOWN dstva < MAXVA)
    (hslot : S.slot (PGROUNDDOWN dstva) = some pte)
    (hbreak : (breakSharing S.root (PGROUNDDOWN dstva) scause
      (encodeLeaf (S.leaf (dstva / PGSIZE)))).run (handler K) s = .ok (-1, s)) :
    (copyoutPage S.root scause dstva chunk).run (handler K) s = .ok (-1, s) := by
  rw [copyoutPage, if_neg (by omega), Prog.run_bind_ok (h.run_walk hva), hslot]
  simp only [Prog.cmd_bind, Prog.run, h.run_readPte hva hslot, PGROUNDDOWN_div]
  rw [Prog.run_bind_ok hbreak]
  rfl

/-- A page that is not the user's to write is refused. -/
theorem run_copyoutPage_bad (hva : PGROUNDDOWN dstva < MAXVA)
    (hslot : S.slot (PGROUNDDOWN dstva) = some pte)
    (hbad : ∀ l, S.leaf (dstva / PGSIZE) = some l → l.fl.has PTE_U = true →
      l.fl.has PTE_W = false ∧ l.fl.has PTE_COW = false) :
    (copyoutPage S.root scause dstva chunk).run (handler K) s = .ok (-1, s) := by
  have hok := h.space_ok
  have hread := h.run_readPte hva hslot
  rw [PGROUNDDOWN_div] at hread
  -- a page without copy-on-write flag is tested after it was read again
  have hplain : (encodeLeaf (S.leaf (dstva / PGSIZE))).has PTE_COW = false →
      (!(encodeLeaf (S.leaf (dstva / PGSIZE))).has PTE_V ||
        !(encodeLeaf (S.leaf (dstva / PGSIZE))).has PTE_U ||
        !(encodeLeaf (S.leaf (dstva / PGSIZE))).has PTE_W) = true →
      (copyoutPage S.root scause dstva chunk).run (handler K) s = .ok (-1, s) := by
    intro hcow hfail
    rw [copyoutPage, if_neg (by omega), Prog.run_bind_ok (h.run_walk hva), hslot]
    simp only [Prog.cmd_bind, Prog.run, hread, breakSharing, hcow, Bool.false_eq_true, if_false,
      Prog.pure_bind, show ((0 : Int) = -1) = False by simp, hfail, if_true]
    rfl
  cases hl : S.leaf (dstva / PGSIZE) with
  | none =>
      rw [hl] at hplain
      exact hplain (by decide) (by decide)
  | some l =>
      have hbit : ∀ bit : Pte, bit &&& 0x3FF = bit →
          (encodeLeaf (some l)).has bit = l.fl.has bit := fun bit => hok.has hl
      rw [hl, hbit _ (by decide), hbit _ (by decide), hbit _ (by decide),
        hbit _ (by decide)] at hplain
      by_cases hu : l.fl.has PTE_U = true
      · obtain ⟨hw, hcow⟩ := hbad l hl hu
        exact hplain hcow (by rw [hw]; simp)
      · have hu' : l.fl.has PTE_U = false := by simpa using hu
        by_cases hcow : l.fl.has PTE_COW = true
        · refine run_copyoutPage_refuse h hva hslot ?_
          rw [hl, breakSharing, hbit _ (by decide), if_pos hcow]
          exact run_cowFaultHandler_kernel h hva (PGROUNDDOWN_mod dstva)
            (by rwa [PGROUNDDOWN_div]) hu'
        · exact hplain (by simpa using hcow) (by rw [hu']; simp)

/-- After a load page fault copyout refuses copy-on-write pages. -/
theorem run_copyoutPage_load (hl : S.leaf (dstva / PGSIZE) = some l)
    (hu : l.fl.has PTE_U = true) (hcow : l.fl.has PTE_COW = true) :
    (copyoutPage S.root 13 dstva chunk).run (handler K) s = .ok (-1, s) := by
  have hok := h.space_ok
  have hv := hok.lt_of_user hl hu
  have hdiv := PGROUNDDOWN_div dstva
  have hva : PGROUNDDOWN dstva < MAXVA := lt_MAXVA_of_page (by omega)
  obtain ⟨pte, hslot⟩ := h.slot_of_leaf (PGROUNDDOWN dstva) (by rwa [hdiv])
  refine run_copyoutPage_refuse h hva hslot ?_
  rw [hl, breakSharing, hok.has hl (by decide), if_pos hcow,
    run_cowFaultHandler h hva (PGROUNDDOWN_mod dstva) (by rwa [hdiv]) (by rwa [hdiv]) hu hcow
      hslot, if_pos rfl]

/-- Without a free frame the copy of a shared page goes to address 0. -/
theorem run_copyoutPage_full (hl : S.leaf (dstva / PGSIZE) = some l)
    (hu : l.fl.has PTE_U = true) (hshared : l.Shared s) (hcause : scause ≠ 13)
    (hfree : s.freelist = 0) :
    (copyoutPage S.root scause dstva chunk).run (handler K) s = .error (.fault 0) := by
  have hok := h.space_ok
  have hv := hok.lt_of_user hl hu
  have hdiv := PGROUNDDOWN_div dstva
  have hva : PGROUNDDOWN dstva < MAXVA := lt_MAXVA_of_page (by omega)
  obtain ⟨pte, hslot⟩ := h.slot_of_leaf (PGROUNDDOWN dstva) (by rwa [hdiv])
  have hbreak : (breakSharing S.root (PGROUNDDOWN dstva) scause
      (encodeLeaf (S.leaf (dstva / PGSIZE)))).run (handler K) s = .error (.fault 0) := by
    rw [hl, breakSharing, hok.has hl (by decide), if_pos hshared.1,
      run_cowFaultHandler h hva (PGROUNDDOWN_mod dstva) (by rwa [hdiv]) (by rwa [hdiv]) hu
        hshared.1 hslot, if_neg hcause, update_copy_fault pte h hv hl (by
          have := hshared.2
          omega) hfree]
  rw [copyoutPage, if_neg (by omega), Prog.run_bind_ok (h.run_walk hva), hslot]
  simp only [Prog.cmd_bind, Prog.run, h.run_readPte hva hslot, hdiv]
  exact Prog.run_bind_error hbreak

end copyoutPage

/-- The number of pages that a range of addresses meets. -/
def pageCount (a len : Nat) : Nat :=
  if len = 0 then 0 else (a + len - 1) / PGSIZE + 1 - a / PGSIZE

theorem pageCount_step {a len : Nat} (h : 0 < len) :
    pageCount (PGROUNDDOWN a + PGSIZE) (len - min (PGSIZE - (a - PGROUNDDOWN a)) len) + 1 =
      pageCount a len := by
  have hpos := chunk_pos a
  have hnext := next_chunk a
  rcases Nat.lt_or_ge (PGSIZE - (a - PGROUNDDOWN a)) len with hlt | hge
  · rw [Nat.min_eq_left hlt.le, pageCount, pageCount, if_neg (by omega), if_neg (by omega),
      show PGROUNDDOWN a + PGSIZE + (len - (PGSIZE - (a - PGROUNDDOWN a))) - 1 = a + len - 1 by
        omega,
      Nat.add_div_right _ (by decide), PGROUNDDOWN_div]
    have hle : a / PGSIZE + 1 ≤ (a + len - 1) / PGSIZE := by
      rw [Nat.le_div_iff_mul_le (by decide)]
      simp only [PGROUNDDOWN, PGSIZE] at hlt ⊢
      omega
    omega
  · rw [Nat.min_eq_right hge, Nat.sub_self, pageCount, if_pos rfl, pageCount, if_neg (by omega)]
    have hsame : (a + len - 1) / PGSIZE = a / PGSIZE := by
      simp only [PGROUNDDOWN, PGSIZE] at hge ⊢
      omega
    omega

/-- `f'` has these bytes from `a` on and is `f` elsewhere. -/
def Wrote (f f' : Nat → Option UInt8) (a : Nat) (bytes : List UInt8) : Prop :=
  ∀ x, f' x = if a ≤ x ∧ x < a + bytes.length then some (bytes.getD (x - a) 0) else f x

section wrote

variable {f f' f'' : Nat → Option UInt8} {a b : Nat} {xs ys : List UInt8}

theorem Wrote.nil (f : Nat → Option UInt8) (a : Nat) : Wrote f f a [] := by
  intro x
  rw [if_neg (by simp)]

theorem Wrote.append (h : Wrote f f' a xs) (h' : Wrote f' f'' b ys)
    (hb : ys ≠ [] → b = a + xs.length) : Wrote f f'' a (xs ++ ys) := by
  rcases List.eq_nil_or_concat ys with rfl | hys
  · intro x
    rw [h' x, if_neg (by simp), List.append_nil]
    exact h x
  · have hne : ys ≠ [] := by
      rintro rfl
      obtain ⟨ws, w, hw⟩ := hys
      simp at hw
    obtain rfl := hb hne
    intro x
    rw [h' x, h x, List.length_append]
    by_cases hfirst : a ≤ x ∧ x < a + xs.length
    · rw [if_neg (by omega), if_pos hfirst, if_pos (by omega),
        List.getD_append _ _ _ _ (by omega)]
    · rw [if_neg hfirst]
      by_cases hsecond : a + xs.length ≤ x ∧ x < a + xs.length + ys.length
      · rw [if_pos hsecond, if_pos (by omega), List.getD_append_right _ _ _ _ (by omega),
          Nat.sub_add_eq]
      · rw [if_neg hsecond, if_neg (by omega)]

theorem Wrote.of_not_mem (h : Wrote f f' a xs) {x : Nat} (hx : ¬ (a ≤ x ∧ x < a + xs.length)) :
    f' x = f x := by
  rw [h x, if_neg hx]

end wrote

/-- The user's bytes after one page was written. -/
theorem PageWritten.wrote (h : S.Ok K s) (h' : S'.Ok K s')
    (hl : S.leaf (dstva / PGSIZE) = some l) (hu : l.fl.has PTE_U = true)
    (hlen : chunk.length ≤ PGSIZE - (dstva - PGROUNDDOWN dstva))
    (hw : PageWritten K S S' s s' (dstva / PGSIZE) (dstva - PGROUNDDOWN dstva) chunk l) :
    Wrote (userByte s.mem S.root) (userByte s'.mem S.root) dstva chunk := by
  intro x
  have hv := h.lt_of_user hl hu
  have hload : ∀ {T : Space} {m : Leaf}, T.leaf (dstva / PGSIZE) = some m →
      m.fl.has PTE_U = true → x / PGSIZE = dstva / PGSIZE →
      T.user.load x = some (T.data (dstva / PGSIZE) (x % PGSIZE)) := by
    intro T m hm hmu hx
    rw [Mem.load, hx, Space.user_eq_some.mpr ⟨hv, m, hm, rfl⟩]
    exact if_pos hmu
  rw [h.userByte, ← hw.root, h'.userByte]
  by_cases hx : x / PGSIZE = dstva / PGSIZE
  · obtain ⟨l', hl', hu', -⟩ := hw.entry
    rw [hload hl' hu' hx, hload hl hu hx, hw.data, Function.update_self]
    simp only [pokeBytes, blit, Nat.zero_add]
    by_cases hin : dstva ≤ x ∧ x < dstva + chunk.length
    · rw [if_pos hin, if_pos (by simp only [PGROUNDDOWN, PGSIZE] at hx ⊢; omega)]
      congr 2
      simp only [PGROUNDDOWN, PGSIZE] at hx ⊢
      omega
    · rw [if_neg hin, if_neg (by simp only [PGROUNDDOWN, PGSIZE] at hx ⊢; omega)]
  · have hout : ¬ (dstva ≤ x ∧ x < dstva + chunk.length) := by
      simp only [PGROUNDDOWN, PGSIZE] at hx hlen ⊢
      omega
    rw [if_neg hout]
    have hpage : S'.page (x / PGSIZE) = S.page (x / PGSIZE) := by
      rw [Space.page, Space.page, hw.leaf _ hx, hw.data, Function.update_of_ne hx]
    simp only [Mem.load, Space.user, Space.view, hpage]

end Xv6.Vm
