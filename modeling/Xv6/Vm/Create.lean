/-
The address space of a process from allocproc to freeproc: a page table with the
trampoline and the trapframe, the user pages of the process, and nothing else.
-/
import Xv6.Vm.Free
import Xv6.Vm.Fork

namespace Xv6.Vm

open Bytes Refs Program Interleave

variable {K : Image} {E : KErr → Prop} {r F : Multiset Atom} {s : Kmem} {S : Space}
variable {p tf n : Nat} {d : Arr} {b : Bool}

/-- The entry of the trampoline. -/
def trampLeaf (K : Image) : Leaf := ⟨K.trampoline, PTE_R ||| PTE_X ||| PTE_V, false⟩

/-- The entry of a trapframe. -/
def trapLeaf (tf : Nat) : Leaf := ⟨tf, PTE_R ||| PTE_W ||| PTE_V, false⟩

/-- An address space with user pages below `n` and the two pages above them. -/
structure Space.Shape (K : Image) (S : Space) (n tf : Nat) : Prop where
  sized : S.Sized n
  trapframe : S.leaf USERPAGES = some (trapLeaf tf)
  trampoline : S.leaf (USERPAGES + 1) = some (trampLeaf K)
  top : ∀ v, USERPAGES + 2 ≤ v → S.leaf v = none

theorem TRAPFRAME_eq : TRAPFRAME = USERPAGES * PGSIZE := by decide

theorem TRAMPOLINE_eq : TRAMPOLINE = (USERPAGES + 1) * PGSIZE := by decide

theorem highLeaf_tramp (K : Image) : HighLeaf (trampLeaf K) := by
  have hlt := K.trampoline_lt_end
  have hend := K.end_le_phystop
  have hstop : PHYSTOP < 2 ^ 56 := by decide
  have hflags : IsFlags (PTE_R ||| PTE_X ||| PTE_V) := by decide
  have hbits : (trampLeaf K).fl.has PTE_V = true ∧ (trampLeaf K).fl.has PTE_R = true ∧
      (trampLeaf K).fl.has PTE_U = false := by simp only [trampLeaf]; decide
  refine ⟨K.trampoline_aligned, ?_, hflags, hbits.1, hbits.2.1, hbits.2.2⟩
  simp only [trampLeaf]
  omega

theorem highLeaf_trap (h : K.Frame tf) : HighLeaf (trapLeaf tf) := by
  have hflags : IsFlags (PTE_R ||| PTE_W ||| PTE_V) := by decide
  have hbits : (trapLeaf tf).fl.has PTE_V = true ∧ (trapLeaf tf).fl.has PTE_R = true ∧
      (trapLeaf tf).fl.has PTE_U = false := by simp only [trapLeaf]; decide
  exact ⟨h.1, h.lt_pow, hflags, hbits.1, hbits.2.1, hbits.2.2⟩

/-- The store of mappages for a page above the user part. -/
theorem safe_mapHigh {v : Nat} {l : Leaf} {X Y : Multiset Atom} {pte : PtePtr}
    (hv : USERPAGES ≤ v) (hnone : S.leaf v = none)
    (hslot : S.slot (v * PGSIZE) = some pte) (hX : Quiet X) (hr : Quiet r)
    (hhigh : ∀ F s, Inv K ({.space S} + (X + (r + F))) s → HighLeaf l ∧
      touched (r + F) l.pa = 0 ∧ (K.Frame l.pa → 1 ≤ total .kernel X l.pa))
    (htotal : ∀ t f, total t Y f = total t X f)
    (hok : ∀ F s, Inv K ({.space S} + (X + (r + F))) s →
      ∀ a ∈ Y, a.Ok K (s.mapped pte (encodeLeaf (some l)))) :
    Safe (logic K) E (Prog.cmd (.mapPte pte (encodeLeaf (some l))))
      ({.space S} + (X + r)) fun _ r' =>
        r' = {.space (S.setLeaf v (some l) fun _ => 0)} + (Y + r) := by
  obtain ⟨q, hq, rfl⟩ := Space.slot_eq_some hslot
  rw [mul_PGSIZE_div] at hq
  apply safe_ok
  intro F s hinv
  rw [add_assoc, add_assoc] at hinv
  obtain ⟨hl, hpa⟩ := hhigh F s hinv
  have hXok := hok F s hinv
  rw [mul_PGSIZE_div] at hXok ⊢
  refine ⟨⟨Quiet.awaits ?_ _, ?_⟩, ?_⟩
  · exact (quiet_space S).add (hX.add hr)
  · rintro pte ⟨rfl⟩
    rw [hinv.space_ok.table.entries 0 _ q hq, Space.entry, hnone]
    rfl
  · refine ⟨(), _, _, mapPteAt_ok (hinv.node_alone hq).1.inRam _, ?_, rfl⟩
    rw [add_assoc, add_assoc]
    exact hinv.mapHigh hv hq hl hpa htotal hXok

/-- The trampoline is not a frame of the allocator, so nothing refers to it. -/
theorem Image.trampoline_not_frame (K : Image) : ¬ K.Frame K.trampoline := by
  intro h
  have hlt := K.trampoline_lt_end
  have hle := h.2.1
  omega

theorem safe_mapTrampoline {pte : PtePtr} (hnone : S.leaf (USERPAGES + 1) = none)
    (hslot : S.slot TRAMPOLINE = some pte) (hr : Quiet r) :
    Safe (logic K) E
      (Prog.cmd (.mapPte pte (PA2PTE K.trampoline ||| (PTE_R ||| PTE_X) ||| PTE_V)))
      ({.space S} + r) fun _ r' =>
        r' = {.space (S.setLeaf (USERPAGES + 1) (some (trampLeaf K)) fun _ => 0)} + r := by
  rw [TRAMPOLINE_eq] at hslot
  have hmap := safe_mapHigh (K := K) (E := E) (l := trampLeaf K) (X := 0) (Y := 0)
    (Nat.le_succ USERPAGES) hnone hslot quiet_zero hr ?_ (fun _ _ => rfl) ?_
  · rw [zero_add] at hmap
    rw [BitVec.or_assoc]
    exact hmap
  · intro F s hinv
    rw [zero_add, add_comm] at hinv
    refine ⟨highLeaf_tramp K, ?_, fun hf => absurd hf K.trampoline_not_frame⟩
    have hzero := hinv.touched_eq_zero_of_not_frame K.trampoline_not_frame
    rw [touched_add] at hzero
    exact Nat.eq_zero_of_add_eq_zero_right hzero
  · intro F s _ a ha
    cases ha

theorem safe_mapTrapframe {pte : PtePtr} (hnone : S.leaf USERPAGES = none)
    (hslot : S.slot TRAPFRAME = some pte) (hr : Quiet r) :
    Safe (logic K) E
      (Prog.cmd (.mapPte pte (PA2PTE tf ||| (PTE_R ||| PTE_W) ||| PTE_V)))
      ({.space S} + ({.page tf d b} + r)) fun _ r' =>
        r' = {.space (S.setLeaf USERPAGES (some (trapLeaf tf)) fun _ => 0)} +
          ({.page tf d false} + r) := by
  rw [TRAPFRAME_eq] at hslot
  obtain ⟨q, hq, hpte⟩ := Space.slot_eq_some hslot
  rw [BitVec.or_assoc]
  apply safe_mapHigh (l := trapLeaf tf) le_rfl hnone hslot (quiet_page tf d b) hr
  · intro F s hinv
    rw [add_left_comm] at hinv
    obtain ⟨hframe, -⟩ := hinv.wrote_page d
    have hone : total .kernel {Atom.page tf d b} tf = 1 := by simp [Atom.use]
    have hzero := hinv.touched_eq_zero_of_kernel (f := tf) (by omega)
    refine ⟨highLeaf_trap hframe, ?_, fun _ => by simp only [trapLeaf]; omega⟩
    rw [touched_add] at hzero
    exact Nat.eq_zero_of_add_eq_zero_left hzero
  · intro t f
    simp [Atom.use]
  · intro F s hinv a ha
    have hne : tf ≠ q := by
      rintro rfl
      have hzero := (hinv.node_alone hq).2.1
      have hone : total .kernel {Atom.page tf d b} tf = 1 := by simp [Atom.use]
      rw [touched_add, touched] at hzero
      omega
    rw [add_left_comm] at hinv
    obtain ⟨hframe, hdata, -⟩ := hinv.wrote_page d
    rw [Multiset.mem_singleton.mp ha, hpte]
    refine ⟨hframe, ?_, by simp⟩
    simpa [Kmem.mapped, hne] using hdata

section teardown

/-- uvmfree of a space with user pages only. -/
theorem safe_uvmfree {sz : Nat} (hS : S.Sized (pagesOf sz))
    (hhigh : ∀ v, USERPAGES ≤ v → S.leaf v = none) (hr : Quiet r) :
    Safe (logic K) E (uvmfree S.root sz) ({.space S} + ({.token S.root} + r))
      fun _ r' => r' = r := by
  have hcleared : ∀ v, (S.cleared 0 (pagesOf sz)).leaf v = none := by
    intro v
    rw [← Space.page_eq_none, Space.page_cleared]
    by_cases hv : v < pagesOf sz
    · rw [if_pos (by omega)]
    · rw [if_neg (by omega), Space.page_eq_none]
      by_cases hlow : v < USERPAGES
      · by_contra hne
        exact hv ((hS.2 v hlow).mp (mt Space.page_eq_none.mp hne))
      · exact hhigh v (by omega)
  have hquiet := (quiet_token S.root).add hr
  rw [uvmfree]
  by_cases hsz : sz > 0
  · have hunmap := safe_uvmunmap (K := K) (E := E) (S := S) (a := 0) (n := pagesOf sz)
      (by have := hS.1; omega) (fun v _ hv => (hS.2 v (by have := hS.1; omega)).mpr
        (by omega)) hquiet
    rw [Nat.zero_mul] at hunmap
    rw [if_pos hsz]
    apply Safe.bind hunmap
    rintro _ r' rfl
    exact safe_freewalk hcleared hr
  · obtain rfl : sz = 0 := by omega
    rw [if_neg hsz]
    have hzero : S.cleared 0 (pagesOf 0) = S := S.cleared_zero 0
    rw [hzero] at hcleared
    exact safe_freewalk hcleared hr

theorem safe_procFreepagetable {sz : Nat} (hS : S.Shape K (pagesOf sz) tf)
    (hr : Quiet r) :
    Safe (logic K) E (procFreepagetable S.root sz)
      ({.space S} + ({.token S.root} + r)) fun _ r' => r' = r := by
  have hquiet := (quiet_token S.root).add hr
  have htramp : S.page (USERPAGES + 1) ≠ none :=
    mt Space.page_eq_none.mp (by rw [hS.trampoline]; exact Option.some_ne_none _)
  have htrap : S.page USERPAGES ≠ none :=
    mt Space.page_eq_none.mp (by rw [hS.trapframe]; exact Option.some_ne_none _)
  rw [procFreepagetable, TRAMPOLINE_eq, TRAPFRAME_eq]
  apply Safe.bind (safe_uvmunmap_high (by omega) (by omega) htramp hquiet)
  rintro _ r' rfl
  set S₁ := S.setLeaf (USERPAGES + 1) none (S.data (USERPAGES + 1)) with hS₁
  have htrap₁ : S₁.page USERPAGES ≠ none := by
    rwa [hS₁, Space.page_setLeaf_of_ne _ _ _ (by omega)]
  apply Safe.bind (safe_uvmunmap_high (S := S₁) (by omega) (by omega) htrap₁ hquiet)
  rintro _ r' rfl
  set S₂ := S₁.setLeaf USERPAGES none (S₁.data USERPAGES) with hS₂
  have hpage : ∀ v, v ≠ USERPAGES → v ≠ USERPAGES + 1 → S₂.page v = S.page v := by
    intro v hv hv'
    rw [hS₂, Space.page_setLeaf_of_ne _ _ _ hv, hS₁, Space.page_setLeaf_of_ne _ _ _ hv']
  apply safe_uvmfree (S := S₂)
  · refine ⟨hS.sized.1, fun v hv => ?_⟩
    rw [hpage v (by omega) (by omega)]
    exact hS.sized.2 v hv
  · intro v hv
    rw [← Space.page_eq_none]
    by_cases h0 : v = USERPAGES
    · rw [h0, hS₂, Space.page_setLeaf_none]
    · by_cases h1 : v = USERPAGES + 1
      · rw [h1, hS₂, Space.page_setLeaf_of_ne _ _ _ (by omega), hS₁,
          Space.page_setLeaf_none]
      · rw [hpage v h0 h1, Space.page_eq_none]
        exact hS.top v (by omega)
  · exact hr

theorem safe_freeproc {p : ProcMem} (hroot : p.pagetable = S.root)
    (hS : S.Shape K (pagesOf p.sz) p.trapframe) (hr : Quiet r) :
    Safe (logic K) E (freeproc p)
      ({.space S} + ({.page p.trapframe d b} + ({.token S.root} + r)))
      fun _ r' => r' = r := by
  have hquiet := (quiet_space S).add ((quiet_token S.root).add hr)
  rw [freeproc, add_left_comm, hroot]
  apply Safe.bind (safe_kfree hquiet)
  rintro _ r' rfl
  exact safe_procFreepagetable hS hr

/-- The path of proc_pagetable that frees the table again. -/
theorem safe_uvmfreeTable (hleaf : ∀ v, S.leaf v = none) (hr : Quiet r) :
    Safe (logic K) E (uvmfreeTable S.root) ({.space S} + ({.token S.root} + r))
      fun p r' => p = 0 ∧ r' = r := by
  have hsized : S.Sized (pagesOf 0) := by
    refine ⟨Nat.zero_le _, fun v _ => ?_⟩
    rw [ne_eq, Space.page_eq_none, hleaf v]
    simp [pagesOf, PGROUNDUP, PGSIZE]
  rw [uvmfreeTable]
  apply Safe.bind (safe_uvmfree hsized (fun v _ => hleaf v) hr)
  rintro _ r' rfl
  exact Safe.pure ⟨rfl, rfl⟩

end teardown

section create

theorem Space.Extends.leaf_none {S' : Space} (h : S.Extends S')
    (hleaf : ∀ v, S.leaf v = none) (v : Nat) : S'.leaf v = none := by
  rw [h.leaf]
  exact hleaf v

/-- The space of proc_pagetable once the trampoline is mapped. -/
theorem Space.leaf_tramp (hleaf : ∀ v, S.leaf v = none) {v : Nat}
    (hv : v ≠ USERPAGES + 1) :
    (S.setLeaf (USERPAGES + 1) (some (trampLeaf K)) fun _ => 0).leaf v = none := by
  simp [Space.setLeaf, hv, hleaf]

theorem Space.shape_new (hleaf : ∀ v, v ≠ USERPAGES + 1 → S.leaf v = none)
    (htramp : S.leaf (USERPAGES + 1) = some (trampLeaf K)) :
    (S.setLeaf USERPAGES (some (trapLeaf tf)) fun _ => 0).Shape K 0 tf := by
  have hother : ∀ v, v ≠ USERPAGES →
      (S.setLeaf USERPAGES (some (trapLeaf tf)) fun _ => 0).leaf v = S.leaf v := by
    intro v hv
    simp [Space.setLeaf, hv]
  constructor
  · refine ⟨Nat.zero_le _, fun v hv => ?_⟩
    rw [ne_eq, Space.page_eq_none, hother v (by omega), hleaf v (by omega)]
    simp
  · simp [Space.setLeaf]
  · rw [hother _ (by omega), htramp]
  · intro v hv
    rw [hother v (by omega), hleaf v (by omega)]

theorem safe_addTrampoline (hnone : S.leaf (USERPAGES + 1) = none) (hr : Quiet r) :
    Safe (logic K) E (mappages S.root TRAMPOLINE PGSIZE K.trampoline (PTE_R ||| PTE_X))
      ({.space S} + r) fun n r' => ∃ S', S.Extends S' ∧
        ((n = -1 ∧ r' = {.space S'} + r) ∨ (n = 0 ∧ r' = {.space (S'.setLeaf
          (USERPAGES + 1) (some (trampLeaf K)) fun _ => 0)} + r)) := by
  have hmap := safe_mappages (K := K) (E := E) (S := S) (X := r) (p := K.trampoline)
    (Q := fun r' => ∃ S', S.Extends S' ∧ r' = {.space (S'.setLeaf
      (USERPAGES + 1) (some (trampLeaf K)) fun _ => 0)} + r)
    (by decide : TRAMPOLINE < MAXVA) (by decide) hr fun S' pte hext hslot =>
      (safe_mapTrampoline (by rw [hext.leaf, hnone]) hslot hr).mono
        fun _ r' hr' => ⟨S', hext, hr'⟩
  apply hmap.mono
  rintro n r' (⟨rfl, S', hext, rfl⟩ | ⟨rfl, S', hext, rfl⟩)
  · exact ⟨S', hext, Or.inl ⟨rfl, rfl⟩⟩
  · exact ⟨S', hext, Or.inr ⟨rfl, rfl⟩⟩

theorem safe_addTrapframe (hnone : S.leaf USERPAGES = none) (hr : Quiet r) :
    Safe (logic K) E (mappages S.root TRAPFRAME PGSIZE tf (PTE_R ||| PTE_W))
      ({.space S} + ({.page tf d b} + r)) fun n r' => ∃ S', S.Extends S' ∧
        ((n = -1 ∧ r' = {.space S'} + ({.page tf d b} + r)) ∨
          (n = 0 ∧ r' = {.space (S'.setLeaf USERPAGES (some (trapLeaf tf)) fun _ => 0)} +
            ({.page tf d false} + r))) := by
  have hmap := safe_mappages (K := K) (E := E) (S := S) (X := {.page tf d b} + r)
    (Q := fun r' => ∃ S', S.Extends S' ∧ r' = {.space (S'.setLeaf
      USERPAGES (some (trapLeaf tf)) fun _ => 0)} + ({.page tf d false} + r))
    (by decide : TRAPFRAME < MAXVA) (by decide) ((quiet_page tf d b).add hr)
    fun S' pte hext hslot => (safe_mapTrapframe (by rw [hext.leaf, hnone]) hslot hr).mono
      fun _ r' hr' => ⟨S', hext, hr'⟩
  apply hmap.mono
  rintro n r' (⟨rfl, S', hext, rfl⟩ | ⟨rfl, S', hext, rfl⟩)
  · exact ⟨S', hext, Or.inl ⟨rfl, rfl⟩⟩
  · exact ⟨S', hext, Or.inr ⟨rfl, rfl⟩⟩

/-- The second half of proc_pagetable. -/
theorem safe_mapTrapframe_or_free (hleaf : ∀ v, v ≠ USERPAGES + 1 → S.leaf v = none)
    (htramp : S.leaf (USERPAGES + 1) = some (trampLeaf K)) (hp : S.root ≠ 0)
    (hr : Quiet r) :
    Safe (logic K) E (do
        let m ← mappages S.root TRAPFRAME PGSIZE tf (PTE_R ||| PTE_W)
        if m < 0 then do
          uvmunmap S.root TRAMPOLINE 1 false
          uvmfreeTable S.root
        else
          pure S.root)
      ({.space S} + ({.page tf d b} + ({.token S.root} + r))) fun p r' =>
      (p = 0 ∧ r' = {.page tf d b} + r) ∨
      (p ≠ 0 ∧ ∃ S, S.root = p ∧ S.Shape K 0 tf ∧
        r' = {.space S} + ({.page tf d false} + ({.token p} + r))) := by
  have hpage := (quiet_page tf d b).add hr
  have htoken := (quiet_token S.root).add hr
  apply Safe.bind (safe_addTrapframe (hleaf _ (by omega)) htoken)
  rintro m r' ⟨S', hext, ⟨rfl, rfl⟩ | ⟨rfl, rfl⟩⟩
  · rw [if_pos (by decide), add_left_comm _ {Atom.token S.root}, ← hext.root, TRAMPOLINE_eq]
    have hmapped : S'.page (USERPAGES + 1) ≠ none := by
      rw [hext.page, ne_eq, Space.page_eq_none, htramp]
      exact Option.some_ne_none _
    apply Safe.bind (safe_uvmunmap_high (by omega) (by omega) hmapped
      ((quiet_token S'.root).add hpage))
    rintro _ r' rfl
    set S'' := S'.setLeaf (USERPAGES + 1) none (S'.data (USERPAGES + 1)) with hS''
    have hnone : ∀ v, S''.leaf v = none := by
      intro v
      by_cases hv : v = USERPAGES + 1
      · simp [hS'', Space.setLeaf, hv]
      · simp only [hS'', Space.setLeaf, Function.update_of_ne hv, hext.leaf]
        exact hleaf v hv
    apply (safe_uvmfreeTable (S := S'') hnone hpage).mono
    rintro x r' ⟨rfl, rfl⟩
    exact Or.inl ⟨rfl, rfl⟩
  · rw [if_neg (by decide)]
    refine Safe.pure (Or.inr ⟨hp, S'.setLeaf USERPAGES (some (trapLeaf tf)) fun _ => 0,
      hext.root, Space.shape_new ?_ ?_, rfl⟩)
    · intro v hv
      rw [hext.leaf]
      exact hleaf v hv
    · rw [hext.leaf]
      exact htramp

/-- proc_pagetable fails and leaves no page behind, or makes a page table with the
two pages above the user part. -/
theorem safe_procPagetable (hr : Quiet r) :
    Safe (logic K) E (procPagetable K tf) ({.page tf d b} + r) fun p r' =>
      (p = 0 ∧ r' = {.page tf d b} + r) ∨
      (p ≠ 0 ∧ ∃ S, S.root = p ∧ S.Shape K 0 tf ∧
        r' = {.space S} + ({.page tf d false} + ({.token p} + r))) := by
  have hpage := (quiet_page tf d b).add hr
  rw [procPagetable]
  apply Safe.bind (safe_uvmcreate hpage)
  rintro p r' (⟨rfl, rfl⟩ | ⟨hp, rfl⟩)
  · exact Safe.pure (Or.inl ⟨rfl, rfl⟩)
  rw [if_neg hp]
  have hempty : ∀ v, (Space.empty p).leaf v = none := fun v => rfl
  apply Safe.bind (safe_addTrampoline (S := Space.empty p) (hempty _)
    ((quiet_token p).add hpage))
  rintro m r' ⟨S', hext, hmapped⟩
  have hleaf := hext.leaf_none hempty
  obtain rfl : S'.root = p := hext.root
  rcases hmapped with ⟨rfl, rfl⟩ | ⟨rfl, rfl⟩
  · rw [if_pos (by decide)]
    apply (safe_uvmfreeTable hleaf hpage).mono
    rintro x r' ⟨rfl, rfl⟩
    exact Or.inl ⟨rfl, rfl⟩
  · rw [if_neg (by decide), add_left_comm _ {Atom.page tf d b}]
    exact safe_mapTrapframe_or_free
      (S := S'.setLeaf (USERPAGES + 1) (some (trampLeaf K)) fun _ => 0)
      (fun v hv => Space.leaf_tramp hleaf hv) (by simp [Space.setLeaf]) hp hr

/-- allocproc fails and leaves no page behind, or makes the memory of a process
without user pages. -/
theorem safe_allocproc {unused : Bool} (hr : Quiet r) :
    Safe (logic K) E (allocproc K unused) r fun o r' =>
      (o = none ∧ r' = r) ∨ ∃ S tf d, o = some ⟨S.root, 0, tf⟩ ∧ S.Shape K 0 tf ∧
        r' = {.space S} + ({.page tf d false} + ({.token S.root} + r)) := by
  rw [allocproc]
  cases unused with
  | false => exact Safe.pure (Or.inl ⟨rfl, rfl⟩)
  | true =>
      apply Safe.bind (safe_kalloc hr)
      rintro tf r' (⟨rfl, rfl⟩ | ⟨htf, rfl⟩)
      · exact Safe.pure (Or.inl ⟨rfl, rfl⟩)
      rw [if_neg htf.ne_zero]
      apply Safe.bind (safe_procPagetable hr)
      rintro p r' (⟨rfl, rfl⟩ | ⟨hp, S, rfl, hS, rfl⟩)
      · rw [if_pos rfl]
        apply Safe.bind (safe_kfree hr)
        rintro _ r' rfl
        exact Safe.pure (Or.inl ⟨rfl, rfl⟩)
      · rw [if_neg hp]
        exact Safe.pure (Or.inr ⟨S, tf, _, rfl, hS, rfl⟩)

end create

end Xv6.Vm
