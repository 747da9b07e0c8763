/-
The operations on the memory of a process, against the memory that its user sees:
growing and shrinking, fork, freeproc and the first process.
-/
import Xv6.Vm.Access

namespace Xv6.Vm

open Bytes Refs Program Interleave

variable {K : Image} {E : KErr → Prop} {r F : Multiset Atom} {s : Kmem} {S S' : Space}
variable {p : ProcMem} {m : Mem}

/-- A space is the memory of the process `p`, whose user sees `m`. -/
structure Space.Is (K : Image) (S : Space) (p : ProcMem) (m : Mem) : Prop where
  root : S.root = p.pagetable
  shape : S.Shape K (pagesOf p.sz) p.trapframe
  user : S.user = m

/-- The pages from `n` to `k` are new, cleared and with these flags. -/
def Mem.alloc (m : Mem) (n k : Nat) (xperm : Pte) : Mem := fun v =>
  if n ≤ v ∧ v < k then
    some ⟨xperm.has PTE_W, true, xperm.has PTE_X, fun _ => 0⟩
  else m v

/-- The pages from `n` on are gone. -/
def Mem.dealloc (m : Mem) (n : Nat) : Mem := fun v => if n ≤ v then none else m v

/-- User code may not use page `v`. -/
def Mem.clear (m : Mem) (v : Nat) : Mem :=
  Function.update m v ((m v).map fun u => { u with user := false })

theorem Mem.alloc_self (m : Mem) (n : Nat) (xperm : Pte) : m.alloc n n xperm = m := by
  funext v
  rw [Mem.alloc, if_neg (by omega)]

/-- The number of user pages, read off the memory that the user sees. -/
theorem Space.sized_iff {n : Nat} :
    S.Sized n ↔ n ≤ USERPAGES ∧ ∀ v, S.user v ≠ none ↔ v < n := by
  constructor
  · rintro ⟨hn, hpages⟩
    refine ⟨hn, fun v => ?_⟩
    rw [ne_eq, Space.user_eq_none]
    by_cases hv : v < USERPAGES
    · rw [← hpages v hv, ne_eq, Space.page_eq_none]
      have hnot : ¬ USERPAGES ≤ v := by omega
      simp only [hnot, false_or]
    · have hle : USERPAGES ≤ v := by omega
      simp only [hle, true_or, not_true_eq_false, false_iff]
      omega
  · rintro ⟨hn, hpages⟩
    refine ⟨hn, fun v hv => ?_⟩
    rw [← hpages v, ne_eq, Space.page_eq_none, ne_eq, Space.user_eq_none]
    have hnot : ¬ USERPAGES ≤ v := by omega
    simp only [hnot, false_or]

/-- The shape of a space with other user pages. -/
theorem Space.Shape.of_high {n n' tf : Nat} (h : S.Shape K n tf)
    (hhigh : ∀ v, USERPAGES ≤ v → S'.page v = S.page v) (hsized : S'.Sized n') :
    S'.Shape K n' tf := by
  have hleaf : ∀ v, USERPAGES ≤ v → S'.leaf v = S.leaf v := by
    intro v hv
    have hpage := hhigh v hv
    cases hl : S.leaf v with
    | none =>
        rw [Space.page_eq_none.mpr hl] at hpage
        exact Space.page_eq_none.mp hpage
    | some l =>
        rw [Space.page_eq_some.mpr ⟨hl, rfl⟩] at hpage
        exact (Space.page_eq_some.mp hpage).1
  exact ⟨hsized, (hleaf _ le_rfl).trans h.trapframe,
    (hleaf _ (by omega)).trans h.trampoline,
    fun v hv => (hleaf v (by omega)).trans (h.top v hv)⟩

/-- The memory changes, but not which pages there are. -/
theorem Space.Is.evolves {m' : Mem} (h : S.Is K p m) (hS' : S.Evolves S' m')
    (hpages : ∀ v, m' v ≠ none ↔ m v ≠ none) : S'.Is K p m' where
  root := hS'.root.trans h.root
  shape := by
    apply h.shape.of_high hS'.high
    have hsized := Space.sized_iff.mp h.shape.sized
    refine Space.sized_iff.mpr ⟨hsized.1, fun v => ?_⟩
    rw [hS'.user, hpages, ← h.user]
    exact hsized.2 v
  user := hS'.user

theorem Space.Is.looks (h : S.Is K p m) (hS' : S.Looks S') : S'.Is K p m := by
  apply h.evolves
  · have hevolves := hS'.evolves
    rwa [h.user] at hevolves
  · exact fun v => Iff.rfl

theorem Mem.write_pages {v off u : Nat} {src : List UInt8} {m' : Mem}
    (h : m.write v off src = some m') : m' u ≠ none ↔ m u ≠ none := by
  unfold Mem.write at h
  split at h
  · cases h
  · next up hup =>
      split at h
      · obtain rfl := Option.some.inj h
        by_cases huv : u = v
        · subst huv
          simp [hup]
        · rw [Function.update_of_ne huv]
      · cases h

theorem Mem.copyout_pages {n dstva u : Nat} {src : List UInt8} :
    (Mem.copyout n dstva src m).2 u ≠ none ↔ m u ≠ none := by
  induction n generalizing dstva src m with
  | zero => rfl
  | succ n ih =>
      rw [Mem.copyout]
      split
      · rfl
      · dsimp only
        split
        · rfl
        · next m' hm' => exact ih.trans (Mem.write_pages hm')

section resize

variable {xperm : Pte} {newsz : Nat}

theorem allocFlags_view (pa : Nat) (d : Arr) (hcow : xperm.has PTE_COW = false) :
    (⟨pa, allocFlags xperm, true⟩ : Leaf).view d =
      ⟨xperm.has PTE_W, true, xperm.has PTE_X, d⟩ := by
  have hbit : ∀ bit, (allocFlags xperm).has bit =
      (PTE_R.has bit || PTE_U.has bit || xperm.has bit || PTE_V.has bit) := by
    intro bit
    simp only [allocFlags, Pte.has_or_flags]
  have hR : PTE_R.has PTE_W = false ∧ PTE_R.has PTE_X = false ∧
    PTE_R.has PTE_COW = false := by decide
  have hU : PTE_U.has PTE_W = false ∧ PTE_U.has PTE_X = false ∧
    PTE_U.has PTE_COW = false ∧ PTE_U.has PTE_U = true := by decide
  have hV : PTE_V.has PTE_W = false ∧ PTE_V.has PTE_X = false ∧
    PTE_V.has PTE_COW = false := by decide
  simp [Leaf.view, hbit, hR, hU, hV, hcow]

theorem Space.Grown.user (h : S.Grown S' (pagesOf p.sz) (pagesOf newsz) (allocFlags xperm))
    (hcow : xperm.has PTE_COW = false) (hmax : pagesOf newsz ≤ NFRAMES) :
    S'.user = S.user.alloc (pagesOf p.sz) (pagesOf newsz) xperm := by
  have huser := nframes_lt_userpages
  funext v
  rw [Mem.alloc]
  by_cases hv : pagesOf p.sz ≤ v ∧ v < pagesOf newsz
  · obtain ⟨pa, hpage⟩ := h.fresh v hv.1 hv.2
    obtain ⟨hl, hd⟩ := Space.page_eq_some.mp hpage
    rw [if_pos hv, Space.user_of_lt (by omega), Space.view_of_leaf hl,
      allocFlags_view pa _ hcow, hd]
  · rw [if_neg hv]
    unfold Space.user
    rw [Space.view_congr (h.page v (by omega))]

/-- uvmalloc for a process: new cleared pages up to the returned size, or nothing
changes and it returns 0. -/
theorem safe_procAlloc (hS : S.Is K p m) (hflags : IsFlags xperm)
    (hcow : xperm.has PTE_COW = false) (hr : Quiet r) :
    Safe (logic K) E (uvmalloc p.pagetable p.sz newsz xperm) ({.space S} + r)
      fun sz r' => ∃ S', r' = {.space S'} + r ∧ ((sz = 0 ∧ S'.Is K p m) ∨
        (sz ≠ 0 ∧ sz = max p.sz newsz ∧
          S'.Is K { p with sz := sz } (m.alloc (pagesOf p.sz) (pagesOf sz) xperm))) := by
  have huser := nframes_lt_userpages
  have halloc := safe_uvmalloc (K := K) (E := E) (b := newsz) hflags hcow
    hS.shape.sized hr
  rw [hS.root] at halloc
  apply halloc.mono
  rintro sz r' ⟨S', rfl, ⟨rfl, hle, hmax, hgrown⟩ | ⟨rfl, hlt, rfl⟩ | ⟨rfl, hle, hsame⟩⟩
  · have hsized := hgrown.sized hS.shape.sized (pagesOf_mono hle) (by omega)
    by_cases hzero : sz = 0
    · subst hzero
      have hp : p.sz = 0 := by omega
      have hlooks : S.Looks S' := by
        have hsame : S.Same S' := ⟨hgrown.root, fun v => hgrown.page v (by rw [hp]; omega)⟩
        exact hsame.looks
      exact ⟨S', rfl, Or.inl ⟨rfl, hS.looks hlooks⟩⟩
    · refine ⟨S', rfl, Or.inr ⟨hzero, (Nat.max_eq_right hle).symm, ?_⟩⟩
      exact ⟨hgrown.root.trans hS.root,
        hS.shape.of_high (fun v hv => hgrown.page v (by omega)) hsized,
        by rw [hgrown.user hcow hmax, hS.user]⟩
  · refine ⟨S', rfl, Or.inr ⟨by omega, (Nat.max_eq_left hlt.le).symm, ?_⟩⟩
    rw [Mem.alloc_self]
    exact hS
  · exact ⟨S', rfl, Or.inl ⟨rfl, hS.looks hsame.looks⟩⟩

/-- uvmdealloc for a process. -/
theorem safe_procDealloc (hS : S.Is K p m) (hr : Quiet r) :
    Safe (logic K) E (uvmdealloc p.pagetable p.sz newsz) ({.space S} + r)
      fun sz r' => ∃ S', r' = {.space S'} + r ∧ sz = min p.sz newsz ∧
        S'.Is K { p with sz := sz } (m.dealloc (pagesOf sz)) := by
  have hdealloc := safe_uvmdealloc (K := K) (E := E) (b := newsz) hS.shape.sized hr
  rw [hS.root] at hdealloc
  apply hdealloc.mono
  rintro sz r' ⟨rfl, rfl⟩
  have hle : pagesOf (min p.sz newsz) ≤ pagesOf p.sz := pagesOf_mono (Nat.min_le_left ..)
  have hsized := hS.shape.sized.cleared hle
  refine ⟨_, rfl, rfl, hS.root, ?_, ?_⟩
  · apply hS.shape.of_high _ hsized
    intro v hv
    rw [Space.page_cleared, if_neg (by have := hS.shape.sized.1; omega)]
  · funext v
    rw [Mem.dealloc, ← hS.user]
    by_cases hv : pagesOf (min p.sz newsz) ≤ v
    · rw [if_pos hv]
      by_contra hne
      have hlt := ((Space.sized_iff.mp hsized).2 v).mp hne
      omega
    · rw [if_neg hv]
      unfold Space.user
      rw [Space.view_congr]
      rw [Space.page_cleared, if_neg (by omega)]

/-- The memory after the size changed: new pages are writable and cleared. -/
def Mem.resize (m : Mem) (oldsz newsz : Nat) : Mem :=
  if oldsz ≤ newsz then m.alloc (pagesOf oldsz) (pagesOf newsz) PTE_W
  else m.dealloc (pagesOf newsz)

theorem Mem.resize_self (m : Mem) (sz : Nat) : m.resize sz sz = m := by
  rw [Mem.resize, if_pos le_rfl, Mem.alloc_self]

/-- There is nothing beyond the size. -/
theorem Space.Is.dealloc_self (h : S.Is K p m) : m.dealloc (pagesOf p.sz) = m := by
  funext v
  rw [Mem.dealloc]
  by_cases hv : pagesOf p.sz ≤ v
  · rw [if_pos hv, ← h.user]
    by_contra hne
    have hlt := ((Space.sized_iff.mp h.shape.sized).2 v).mp (Ne.symm hne)
    omega
  · rw [if_neg hv]

/-- growproc changes the size, or fails and changes nothing. -/
theorem safe_growproc {n : Int} (hS : S.Is K p m) (hr : Quiet r) :
    Safe (logic K) E (growproc p n) ({.space S} + r) fun x r' =>
      ∃ S', r' = {.space S'} + r ∧ x.2 = { p with sz := x.2.sz } ∧
        (x.1 ≠ 0 → x.2.sz = p.sz) ∧ S'.Is K x.2 (m.resize p.sz x.2.sz) := by
  rw [growproc]
  by_cases hpos : n > 0
  · rw [if_pos hpos]
    apply Safe.bind (safe_procAlloc hS (by decide) (by decide) hr)
    rintro sz r' ⟨S', rfl, ⟨rfl, hS'⟩ | ⟨hne, hsz, hS'⟩⟩
    · rw [if_pos rfl]
      refine Safe.pure ⟨S', rfl, rfl, fun _ => rfl, ?_⟩
      rwa [Mem.resize_self]
    · rw [if_neg hne]
      refine Safe.pure ⟨S', rfl, rfl, fun h => absurd rfl h, ?_⟩
      rwa [Mem.resize, if_pos (by simp only; omega)]
  rw [if_neg hpos]
  by_cases hneg : n < 0
  · rw [if_pos hneg]
    apply Safe.bind (safe_procDealloc hS hr)
    rintro sz r' ⟨S', rfl, hsz, hS'⟩
    refine Safe.pure ⟨S', rfl, rfl, fun h => absurd rfl h, ?_⟩
    by_cases heq : sz = p.sz
    · rw [heq] at hS'
      rw [heq, Mem.resize_self]
      rwa [hS.dealloc_self] at hS'
    · rwa [Mem.resize, if_neg (by simp only; omega)]
  · rw [if_neg hneg]
    refine Safe.pure ⟨S, rfl, rfl, fun _ => rfl, ?_⟩
    rwa [Mem.resize_self]

end resize

section copy

variable {new : Space} {c : ProcMem} {mc : Mem}

/-- uvmcopy for two processes, the second without user pages: afterwards both see
the same memory, or nothing has changed for either. -/
theorem safe_procCopy (hS : S.Is K p m) (hnew : new.Is K c mc) (hc : c.sz = 0)
    (hr : Quiet r) :
    Safe (logic K) E (uvmcopy p.pagetable c.pagetable p.sz)
      ({.space S} + ({.space new} + r)) fun x r' => ∃ S' new',
        r' = {.space S'} + ({.space new'} + r) ∧ S'.Is K p m ∧ S.SameRefs S' ∧
          ((x = 0 ∧ new'.Is K { c with sz := p.sz } m) ∨ (x = -1 ∧ new'.Is K c mc)) := by
  have hzero : new.Sized 0 := by
    have hsized := hnew.shape.sized
    rw [hc] at hsized
    exact hsized
  have hcopy := safe_uvmcopy (K := K) (E := E) hS.shape.sized hzero hr
  rw [hS.root, hnew.root] at hcopy
  apply hcopy.mono
  rintro x r' ⟨S', new', rfl, hlooks, hrefs, ⟨rfl, hcopied⟩ | ⟨rfl, hsame⟩⟩
  · refine ⟨S', new', rfl, hS.looks hlooks, hrefs, Or.inl ⟨rfl, ?_⟩⟩
    refine ⟨hcopied.root.trans hnew.root,
      hnew.shape.of_high hcopied.high hcopied.sized, ?_⟩
    funext v
    rw [← hS.user, ← hlooks.user]
    by_cases hv : v < pagesOf p.sz
    · unfold Space.user
      rw [Space.view_congr (hcopied.same v hv)]
    · have hchild := (Space.sized_iff.mp hcopied.sized).2 v
      have hparent := (Space.sized_iff.mp (hlooks.sized hS.shape.sized)).2 v
      have hnone : ∀ o : Option UPage, (o ≠ none ↔ v < pagesOf p.sz) → o = none := by
        intro o ho
        by_contra hne
        exact hv (ho.mp hne)
      rw [hnone _ hchild, hnone _ hparent]
  · exact ⟨S', new', rfl, hS.looks hlooks, hrefs, Or.inr ⟨rfl, hnew.looks hsame.looks⟩⟩

theorem Space.Shape.is_new {tf : Nat} (h : S.Shape K 0 tf) :
    S.Is K ⟨S.root, 0, tf⟩ fun _ => none := by
  have hzero : pagesOf 0 = 0 := by decide
  refine ⟨rfl, hzero.symm ▸ h, ?_⟩
  funext v
  by_contra hne
  have hlt := ((Space.sized_iff.mp h.sized).2 v).mp hne
  omega

/-- The memory of a process without the token of its page table: the space and the
trapframe. -/
def Holding (K : Image) (p : ProcMem) (m : Mem) (r : Multiset Atom) : Prop :=
  ∃ S d, S.Is K p m ∧ r = {.space S} + {.page p.trapframe d false}

theorem Holding.quiet (h : Holding K p m r) : Quiet r := by
  obtain ⟨S, d, -, rfl⟩ := h
  exact (quiet_space S).add (quiet_page _ d false)

/-- fork fails and leaves nothing behind, or makes a child that sees the memory of
its parent. -/
theorem safe_fork {unused : Bool} (hS : S.Is K p m) (hr : Quiet r) :
    Safe (logic K) E (fork K p unused) ({.space S} + r) fun o r' =>
      ∃ S', S'.Is K p m ∧ S.SameRefs S' ∧ ((o = none ∧ r' = {.space S'} + r) ∨
        ∃ np h, o = some np ∧ Holding K np m h ∧
          r' = {.space S'} + (h + ({.token np.pagetable} + r))) := by
  rw [fork]
  apply Safe.bind (safe_allocproc ((quiet_space S).add hr))
  rintro o r' (⟨rfl, rfl⟩ | ⟨new, tf, d, rfl, hnew, rfl⟩)
  · exact Safe.pure ⟨S, hS, ⟨rfl, rfl⟩, Or.inl ⟨rfl, rfl⟩⟩
  dsimp only
  have hrest : Quiet ({.page tf d false} + ({.token new.root} + r)) :=
    (quiet_page tf d false).add ((quiet_token new.root).add hr)
  have hshuffle : {Atom.space new} + ({Atom.page tf d false} + ({Atom.token new.root} +
      ({Atom.space S} + r))) = {Atom.space S} + ({Atom.space new} +
        ({Atom.page tf d false} + ({Atom.token new.root} + r))) := by
    ac_rfl
  rw [hshuffle]
  apply Safe.bind (safe_procCopy hS hnew.is_new rfl hrest)
  rintro x r' ⟨S', new', rfl, hS', hrefs, ⟨rfl, hchild⟩ | ⟨rfl, hchild⟩⟩
  · rw [if_neg (by decide)]
    refine Safe.pure ⟨S', hS', hrefs, Or.inr ⟨_, _, rfl, ⟨new', d, hchild, rfl⟩, ?_⟩⟩
    rw [add_assoc]
  · rw [if_pos (by decide)]
    have hshuffle' : {Atom.space S'} + ({Atom.space new'} + ({Atom.page tf d false} +
        ({Atom.token new.root} + r))) = {Atom.space new'} + ({Atom.page tf d false} +
          ({Atom.token new'.root} + ({Atom.space S'} + r))) := by
      rw [hchild.root]
      ac_rfl
    rw [hshuffle']
    apply Safe.bind (safe_freeproc (p := ⟨new.root, 0, tf⟩) hchild.root.symm hchild.shape
      ((quiet_space S').add hr))
    rintro _ r' rfl
    exact Safe.pure ⟨S', hS', hrefs, Or.inl ⟨rfl, rfl⟩⟩

end copy

end Xv6.Vm
