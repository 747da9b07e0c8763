/-
Reading and writing user memory: loads, stores with the copy-on-write fault, and
the kernel's copyin and copyout.
-/
import Xv6.Vm.Create

namespace Xv6.Vm

open Bytes Refs Program Interleave

variable {K : Image} {E : KErr → Prop} {r F : Multiset Atom} {s : Kmem} {S : Space}
variable {v : Nat} {l : Leaf}

/-- The space with other contents in one page. -/
def Space.setData (S : Space) (v : Nat) (d : Arr) : Space :=
  { S with data := Function.update S.data v d }

theorem Space.page_setData_of_ne (S : Space) {u : Nat} (d : Arr) (h : u ≠ v) :
    (S.setData v d).page u = S.page u := by
  simp [Space.page, Space.setData, h]

/-- A store to a page that no other entry maps. -/
theorem Inv.poke (h : Inv K ({.space S} + F) s) (hv : v < USERPAGES)
    (hl : S.leaf v = some l) (hown : l.own = true) (d : Arr) :
    Inv K ({.space (S.setData v d)} + F) (s.wrote l.pa d) := by
  have hS := h.space_ok
  have hleaf := hS.user v l hv hl
  have huse : ∀ t f, (S.setData v d).use t f = S.use t f := by
    intro t f
    cases t <;> rfl
  have howned : 1 ≤ S.use .own l.pa :=
    refs_pos (mem_userIx.mpr hv) (by simp [Space.owned, hl, hown])
  have hpos := Space.use_user_pos hv hl
  -- another page of this space lies in another frame
  have hapart : ∀ u l', u < USERPAGES → u ≠ v → S.leaf u = some l' → l'.pa ≠ l.pa := by
    intro u l' hu hne hl' heq
    apply hne
    exact refs_inj (hS.inj l.pa) (mem_userIx.mpr hu) (mem_userIx.mpr hv)
      (Space.frames_eq_some.mpr ⟨l', hl', heq⟩) (Space.frames_eq_some.mpr ⟨l, hl, rfl⟩)
  refine h.rewrite (by rfl) (by rfl) (by rfl) ?_ ?_ ?_
  · intro f hf
    obtain rfl : f = l.pa := by
      by_contra hne
      rcases hf with hf | hf
      · simp [Kmem.wrote, hne] at hf
      · exact hf rfl
    constructor
    · apply h.touched_eq_zero_of_own <;> rw [total_space] <;> assumption
    · intro _
      rw [total_space, total_space]
      omega
  · intro a ha
    rw [Multiset.mem_singleton.mp ha]
    constructor
    · have htable : S.Table K (s.wrote l.pa d).mem := by
        apply hS.table.congr
        intro x p hp
        have hne : p ≠ l.pa := (h.leaf_ne_node hp hv hl).symm
        simp [Kmem.wrote, hne]
      exact ⟨htable.root, htable.top, htable.dom, htable.parent, htable.leafParent,
        htable.entries⟩
    · intro u l' hu hl'
      by_cases huv : u = v
      · subst huv
        obtain rfl : l = l' := Option.some.inj (hl.symm.trans hl')
        exact ⟨hleaf.frame, hleaf.flags, hleaf.valid, hleaf.readable, hleaf.notBoth,
          hleaf.owner, by simp [Kmem.wrote, Space.setData], hleaf.origin⟩
      · have hne := hapart u l' hu huv hl'
        have hdata : (S.setData v d).data u = S.data u := by simp [Space.setData, huv]
        rw [hdata]
        exact (hS.user u l' hu hl').congr (by simp [Kmem.wrote, hne]) rfl
    · exact hS.high
    · exact hS.inj
  · intro t f
    rw [total_space, total_space, huse]

theorem safe_poke {off : Nat} {src : List UInt8} (hv : v < USERPAGES)
    (hl : S.leaf v = some l) (hown : l.own = true) (hr : Quiet r) :
    Safe (logic K) E (Prog.cmd (.poke l.pa off src)) ({.space S} + r) fun _ r' =>
      r' = {.space (S.setData v (pokeBytes (S.data v) off src))} + r := by
  apply safe_ok
  intro F s hinv
  rw [add_assoc] at hinv
  have hleaf := hinv.space_ok.user v l hv hl
  refine ⟨Adm.of_quiet ((quiet_space S).add hr) rfl, (),
    s.wrote l.pa (pokeBytes (S.data v) off src), _, ?_, ?_, rfl⟩
  · change pokeAt l.pa off src s = _
    rw [pokeAt, KM.bind_ok (readPage_ok hleaf.frame.inRam),
      writePage_ok hleaf.frame.inRam, hleaf.data]
  · rw [add_assoc]
    exact hinv.poke hv hl hown _

theorem safe_peek {off n : Nat} (hv : v < USERPAGES) (hl : S.leaf v = some l)
    (hr : Quiet r) :
    Safe (logic K) E (Prog.cmd (.peek l.pa off n)) ({.space S} + r) fun bytes r' =>
      bytes = peekBytes (S.data v) off n ∧ r' = {.space S} + r := by
  apply safe_ok
  intro F s hinv
  rw [add_assoc] at hinv
  have hleaf := hinv.space_ok.user v l hv hl
  refine ⟨Adm.of_quiet ((quiet_space S).add hr) rfl, peekBytes (S.data v) off n, s, _, ?_,
    ?_, rfl, rfl⟩
  · change peekAt l.pa off n s = _
    rw [peekAt, KM.bind_ok (readPage_ok hleaf.frame.inRam), hleaf.data]
    rfl
  · rw [add_assoc]
    exact hinv

section lookup

variable {va : Nat}

theorem Space.Ok.has (h : S.Ok K s) (hl : S.leaf v = some l) {bit : Pte}
    (hbit : bit &&& 0x3FF = bit) : (encodeLeaf (some l)).has bit = l.fl.has bit := by
  by_cases hv : v < USERPAGES
  · exact (h.user v l hv hl).has hbit
  · exact (h.high v l (by omega) hl).has hbit

theorem Space.Ok.valid (h : S.Ok K s) (hl : S.leaf v = some l) :
    l.fl.has PTE_V = true := by
  by_cases hv : v < USERPAGES
  · exact (h.user v l hv hl).valid
  · exact (h.high v l (by omega) hl).valid

/-- What user code can reach lies in the user part. -/
theorem Space.Ok.lt_of_user (h : S.Ok K s) (hl : S.leaf v = some l)
    (hu : l.fl.has PTE_U = true) : v < USERPAGES := by
  by_contra hv
  have hnot := (h.high v l (by omega) hl).notUser
  rw [hnot] at hu
  cases hu

theorem Space.Ok.leaf_of_slot_none (h : S.Ok K s) (hslot : S.slot va = none) :
    S.leaf (va / PGSIZE) = none := by
  by_contra hne
  have hsome := h.table.slot_isSome hne
  rw [hslot] at hsome
  cases hsome

/-- The address translation finds the entry of the page. -/
theorem safe_translate (hr : Quiet r) :
    Safe (logic K) E (translate S.root va) ({.space S} + r) fun o r' =>
      r' = {.space S} + r ∧ ((o = none ∧ (MAXVA ≤ va ∨ S.leaf (va / PGSIZE) = none)) ∨
        ∃ l, S.leaf (va / PGSIZE) = some l ∧ o = some (encodeLeaf (some l))) := by
  rw [translate]
  by_cases hva : va ≥ MAXVA
  · rw [if_pos hva]
    exact Safe.pure ⟨rfl, Or.inl ⟨rfl, Or.inl hva⟩⟩
  rw [if_neg hva]
  apply Safe.learn
  intro F s hinv
  rw [add_assoc] at hinv
  have hok := hinv.space_ok
  apply Safe.bind (safe_walk (by omega) hr)
  rintro o r' ⟨rfl, rfl⟩
  cases hslot : S.slot va with
  | none => exact Safe.pure ⟨rfl, Or.inl ⟨rfl, Or.inr (hok.leaf_of_slot_none hslot)⟩⟩
  | some pte =>
      apply Safe.bind (safe_readLeaf hslot hr)
      rintro w r' ⟨rfl, rfl⟩
      cases hl : S.leaf (va / PGSIZE) with
      | none => exact Safe.pure ⟨rfl, Or.inl ⟨rfl, Or.inr rfl⟩⟩
      | some l =>
          rw [hok.has hl (by decide), hok.valid hl, if_pos rfl]
          exact Safe.pure ⟨rfl, Or.inr ⟨l, rfl, rfl⟩⟩

end lookup

section memory

/-- The memory of a process as its user sees it: page by page. -/
abbrev Mem := Nat → Option UPage

/-- The user part of a space. -/
def Space.user (S : Space) : Mem := fun v => if v < USERPAGES then S.view v else none

theorem Space.user_of_lt {v : Nat} (hv : v < USERPAGES) : S.user v = S.view v := if_pos hv

theorem Space.Looks.user {S' : Space} (h : S.Looks S') : S'.user = S.user := by
  funext v
  unfold Space.user
  by_cases hv : v < USERPAGES
  · rw [if_pos hv, if_pos hv, h.view v hv]
  · rw [if_neg hv, if_neg hv]

theorem Space.user_eq_some {u : UPage} :
    S.user v = some u ↔ v < USERPAGES ∧ ∃ l, S.leaf v = some l ∧ u = l.view (S.data v) := by
  unfold Space.user
  by_cases hv : v < USERPAGES
  · rw [if_pos hv]
    cases hl : S.leaf v with
    | none => simp [Space.view, Space.page, hl]
    | some l => simp [Space.view_of_leaf hl, hv, eq_comm]
  · simp [hv]

theorem Space.user_eq_none : S.user v = none ↔ USERPAGES ≤ v ∨ S.leaf v = none := by
  unfold Space.user
  by_cases hv : v < USERPAGES
  · rw [if_pos hv, Space.view_eq_none, Space.page_eq_none]
    constructor
    · exact Or.inr
    · rintro (hle | hnone)
      · omega
      · exact hnone
  · rw [if_neg hv]
    simp only [true_iff]
    exact Or.inl (by omega)

/-- A load of the reference memory. -/
def Mem.load (m : Mem) (va : Nat) : Option UInt8 :=
  match m (va / PGSIZE) with
  | none => none
  | some u => if u.user then some (u.data (va % PGSIZE)) else none

/-- Write bytes into a page that user code may write. -/
def Mem.write (m : Mem) (v off : Nat) (src : List UInt8) : Option Mem :=
  match m v with
  | none => none
  | some u =>
      if u.user && u.write then
        some (Function.update m v (some { u with data := pokeBytes u.data off src }))
      else none

def Mem.store (m : Mem) (va : Nat) (b : UInt8) : Option Mem :=
  m.write (va / PGSIZE) (va % PGSIZE) [b]

/-- `S'` is the same page table with this user memory. -/
structure Space.Evolves (S S' : Space) (m : Mem) : Prop where
  root : S'.root = S.root
  high : ∀ v, USERPAGES ≤ v → S'.page v = S.page v
  user : S'.user = m

theorem Space.Looks.evolves {S' : Space} (h : S.Looks S') : S.Evolves S' S.user :=
  ⟨h.root, h.high, h.user⟩

theorem Space.Evolves.trans {S' S'' : Space} {m m' : Mem} (h : S.Evolves S' m)
    (h' : S'.Evolves S'' m') : S.Evolves S'' m' where
  root := h'.root.trans h.root
  high v hv := (h'.high v hv).trans (h.high v hv)
  user := h'.user

/-- Storing into a page of the space. -/
theorem Space.evolves_setData (hv : v < USERPAGES) (hl : S.leaf v = some l) (d : Arr) :
    S.Evolves (S.setData v d) (Function.update S.user v (some (l.view d))) where
  root := rfl
  high u hu := S.page_setData_of_ne d (by omega)
  user := by
    funext u
    by_cases huv : u = v
    · subst huv
      have hl' : (S.setData u d).leaf u = some l := hl
      rw [Space.user_of_lt hv, Space.view_of_leaf hl', Function.update_self]
      simp [Space.setData]
    · rw [Function.update_of_ne huv]
      unfold Space.user
      rw [Space.view_congr (S.page_setData_of_ne d huv)]

theorem Mem.write_eq {m : Mem} {off : Nat} {src : List UInt8} {u : UPage}
    (h : m v = some u) (huser : u.user = true) (hwrite : u.write = true) :
    m.write v off src =
      some (Function.update m v (some { u with data := pokeBytes u.data off src })) := by
  simp [Mem.write, h, huser, hwrite]

/-- A store to a writable page is a store to the reference memory. -/
theorem safe_write {off : Nat} {src : List UInt8} (hv : v < USERPAGES)
    (hl : S.leaf v = some l) (huser : l.fl.has PTE_U = true)
    (hwrite : l.fl.has PTE_W = true) (hr : Quiet r) :
    Safe (logic K) E (Prog.cmd (.poke l.pa off src)) ({.space S} + r) fun _ r' =>
      ∃ S' m, r' = {.space S'} + r ∧ S.user.write v off src = some m ∧ S.Evolves S' m ∧
        S'.leaf = S.leaf := by
  apply Safe.learn
  intro F s hinv
  rw [add_assoc] at hinv
  have hown := (hinv.space_ok.user v l hv hl).owner hwrite
  apply (safe_poke hv hl hown hr).mono
  rintro _ r' rfl
  refine ⟨_, _, rfl, ?_, Space.evolves_setData hv hl _, rfl⟩
  apply Mem.write_eq (u := l.view (S.data v))
  · exact Space.user_eq_some.mpr ⟨hv, l, hl, rfl⟩
  · exact huser
  · simp [Leaf.view, hwrite]

theorem safe_userLoad {a : Nat} (hr : Quiet r) :
    Safe (logic K) E (userLoad S.root a) ({.space S} + r) fun o r' =>
      o = S.user.load a ∧ r' = {.space S} + r := by
  apply Safe.learn
  intro F s hinv
  rw [add_assoc] at hinv
  have hok := hinv.space_ok
  rw [userLoad]
  apply Safe.bind (safe_translate hr)
  rintro o r' ⟨rfl, ⟨rfl, hnone⟩ | ⟨l, hl, rfl⟩⟩
  · apply Safe.pure
    have huser : S.user (a / PGSIZE) = none := by
      rw [Space.user_eq_none]
      rcases hnone with hva | hleaf
      · have hpages : USERPAGES * PGSIZE ≤ MAXVA := by decide
        exact Or.inl ((Nat.le_div_iff_mul_le (by decide)).mpr (hpages.trans hva))
      · exact Or.inr hleaf
    simp [Mem.load, huser]
  · dsimp only
    rw [hok.has hl (by decide), hok.has hl (by decide)]
    by_cases hu : l.fl.has PTE_U = true
    · have hv := hok.lt_of_user hl hu
      have hleaf := hok.user _ l hv hl
      simp only [hu, hleaf.readable, hleaf.PTE2PA, Bool.and_self, ↓reduceIte]
      apply Safe.bind (safe_peek hv hl hr)
      rintro bytes r' ⟨rfl, rfl⟩
      apply Safe.pure
      simp [Mem.load, Space.user_of_lt hv, Space.view_of_leaf hl, Leaf.view, hu, peekBytes]
    · simp only [Bool.not_eq_true] at hu
      simp only [hu, Bool.false_and, Bool.false_eq_true, ↓reduceIte]
      apply Safe.pure
      unfold Mem.load Space.user
      by_cases hv : a / PGSIZE < USERPAGES
      · simp [hv, Space.view_of_leaf hl, Leaf.view, hu]
      · simp [hv]

theorem safe_tryStore {va : Nat} {b : UInt8} (hr : Quiet r) :
    Safe (logic K) E (tryStore S.root va b) ({.space S} + r) fun ok r' =>
      (ok = false ∧ r' = {.space S} + r ∧ (va < MAXVA → ∀ l, S.leaf (va / PGSIZE) = some l →
        l.fl.has PTE_U = true → l.fl.has PTE_W = false)) ∨
      (ok = true ∧ ∃ S' m, r' = {.space S'} + r ∧ S.user.store va b = some m ∧
        S.Evolves S' m) := by
  apply Safe.learn
  intro F s hinv
  rw [add_assoc] at hinv
  have hok := hinv.space_ok
  rw [tryStore]
  apply Safe.bind (safe_translate hr)
  rintro o r' ⟨rfl, ⟨rfl, hnone⟩ | ⟨l, hl, rfl⟩⟩
  · apply Safe.pure
    refine Or.inl ⟨rfl, rfl, fun hva l hl _ => ?_⟩
    rcases hnone with hge | hleaf
    · omega
    · rw [hleaf] at hl
      cases hl
  · dsimp only
    rw [hok.has hl (by decide), hok.has hl (by decide)]
    by_cases hboth : l.fl.has PTE_U = true ∧ l.fl.has PTE_W = true
    · obtain ⟨hu, hw⟩ := hboth
      have hv := hok.lt_of_user hl hu
      rw [hu, hw, (hok.user _ l hv hl).PTE2PA]
      simp only [Bool.and_self, ↓reduceIte]
      apply Safe.bind (safe_write hv hl hu hw hr)
      rintro _ r' ⟨S', m, rfl, hm, hS', -⟩
      exact Safe.pure (Or.inr ⟨rfl, S', m, rfl, hm, hS'⟩)
    · have hfalse : (l.fl.has PTE_U && l.fl.has PTE_W) = false := by
        simpa using hboth
      rw [hfalse]
      apply Safe.pure
      refine Or.inl ⟨rfl, rfl, fun _ l' hl' hu => ?_⟩
      obtain rfl : l = l' := Option.some.inj (hl.symm.trans hl')
      simpa [hu] using hboth

end memory

section fault

theorem PGROUNDDOWN_div (va : Nat) : PGROUNDDOWN va / PGSIZE = va / PGSIZE :=
  Nat.mul_div_cancel _ (by decide)

theorem PGROUNDDOWN_mod (va : Nat) : PGROUNDDOWN va % PGSIZE = 0 := Nat.mul_mod_left ..

theorem PGROUNDDOWN_le (va : Nat) : PGROUNDDOWN va ≤ va := Nat.div_mul_le_self ..

theorem encodeLeaf_ne_zero (h : (encodeLeaf (some l)).has PTE_V = true) :
    encodeLeaf (some l) ≠ 0 := by
  intro hzero
  rw [hzero] at h
  cases h

/-- A copy-on-write page looks the same when it has become writable. -/
theorem Leaf.view_writable (h : l.fl.has PTE_COW = true) (pa : Nat) (d : Arr) :
    (⟨pa, writableFlags l.fl, true⟩ : Leaf).view d = l.view d := by
  simp only [Leaf.view, h, has_writableFlags_W, Bool.true_or, Bool.or_true,
    has_writableFlags l.fl (b := PTE_U) (by decide) (by decide),
    has_writableFlags l.fl (b := PTE_X) (by decide) (by decide)]

/-- The fault handler makes a copy-on-write page of the user writable and changes
nothing that the user can see, or returns -1. -/
theorem safe_cowFaultHandler {va scause : Nat} (hva : va < MAXVA) (hE : E (.fault 0))
    (hr : Quiet r) :
    Safe (logic K) E (cowFaultHandler S.root va scause) ({.space S} + r) fun x r' =>
      (x = -1 ∧ r' = {.space S} + r ∧ (scause ≠ 13 → ∀ l, S.leaf (va / PGSIZE) = some l →
        l.fl.has PTE_U = true → l.fl.has PTE_COW = false)) ∨
      (x = 0 ∧ ∃ S' l, r' = {.space S'} + r ∧ S.Looks S' ∧ S'.slot = S.slot ∧
        (∀ u, u ≠ va / PGSIZE → S'.leaf u = S.leaf u) ∧ va / PGSIZE < USERPAGES ∧
        S'.leaf (va / PGSIZE) = some l ∧ l.fl.has PTE_U = true ∧
        l.fl.has PTE_W = true ∧ l.fl.has PTE_COW = false) := by
  have hdown : PGROUNDDOWN va < MAXVA := (PGROUNDDOWN_le va).trans_lt hva
  have hdiv := PGROUNDDOWN_div va
  apply Safe.learn
  intro F s hinv
  rw [add_assoc] at hinv
  have hok := hinv.space_ok
  rw [cowFaultHandler]
  apply Safe.bind (safe_walk hdown hr)
  rintro o r' ⟨rfl, rfl⟩
  cases hslot : S.slot (PGROUNDDOWN va) with
  | none => exact safe_stop ((quiet_space S).add hr) hE
  | some pte =>
      apply Safe.bind (safe_readLeaf hslot hr)
      rintro w r' ⟨rfl, rfl⟩
      rw [hdiv]
      cases hl : S.leaf (va / PGSIZE) with
      | none =>
          rw [encodeLeaf_none, if_pos rfl]
          exact Safe.pure (Or.inl ⟨rfl, rfl, fun _ l hl' => by cases hl'⟩)
      | some l =>
          have hbit : ∀ bit : Pte, bit &&& 0x3FF = bit →
              (encodeLeaf (some l)).has bit = l.fl.has bit := fun bit => hok.has hl
          have hvalid := hok.valid hl
          rw [if_neg (encodeLeaf_ne_zero ((hbit _ (by decide)).trans hvalid))]
          by_cases hcause : scause = 13
          · rw [if_pos hcause]
            exact Safe.pure (Or.inl ⟨rfl, rfl, fun hne => absurd hcause hne⟩)
          rw [if_neg hcause, if_neg (by omega), hbit _ (by decide), hbit _ (by decide),
            hbit _ (by decide), hvalid, Bool.and_true]
          by_cases hboth : l.fl.has PTE_COW = true ∧ l.fl.has PTE_U = true
          · obtain ⟨hcow, hu⟩ := hboth
            have hv := hok.lt_of_user hl hu
            have hleaf := hok.user _ l hv hl
            rw [hcow, hu, hleaf.PTE2PA, hleaf.PTE_FLAGS]
            simp only [Bool.and_self, ↓reduceIte]
            apply Safe.bind (safe_update (e := pte) hE hdown (PGROUNDDOWN_mod va)
              (by rwa [hdiv]) (by rwa [hdiv]) hcow hslot hr)
            rintro _ r' ⟨pa, rfl⟩
            rw [hdiv]
            apply Safe.pure
            refine Or.inr ⟨rfl, S.setLeaf (va / PGSIZE) (some ⟨pa, writableFlags l.fl, true⟩)
              (S.data (va / PGSIZE)), ⟨pa, writableFlags l.fl, true⟩, rfl, ?_, rfl, ?_, hv,
              ?_, ?_, has_writableFlags_W _, has_writableFlags_COW _⟩
            · exact Space.Looks.setLeaf hv hl (Leaf.view_writable hcow pa _)
            · intro u hu
              simp [Space.setLeaf, hu]
            · simp [Space.setLeaf]
            · rw [has_writableFlags l.fl (by decide) (by decide)]
              exact hu
          · have hfalse : (l.fl.has PTE_COW && l.fl.has PTE_U) = false := by
              simpa using hboth
            rw [hfalse]
            apply Safe.pure
            refine Or.inl ⟨rfl, rfl, fun _ l' hl' hu => ?_⟩
            obtain rfl : l = l' := Option.some.inj hl'
            simpa [hu] using hboth

/-- The errors that a store in user mode can end in. -/
def StoreError (e : KErr) : Prop :=
  e = .fault 0 ∨ e = .panic "walk" ∨ e = .panic "cow1"

/-- A store in user mode that returns has stored into the memory that the user
sees. -/
theorem safe_userStore {a : Nat} {b : UInt8} (hr : Quiet r) :
    Safe (logic K) StoreError (userStore S.root a b) ({.space S} + r) fun ok r' =>
      ok = true ∧ ∃ S' m, r' = {.space S'} + r ∧ S.user.store a b = some m ∧
        S.Evolves S' m := by
  rw [userStore]
  apply Safe.bind (safe_tryStore hr)
  rintro ok r' (⟨rfl, rfl, -⟩ | ⟨rfl, S', m, rfl, hm, hS'⟩)
  · simp only [Bool.false_eq_true, ↓reduceIte]
    by_cases hva : a < MAXVA
    · apply Safe.bind (safe_cowFaultHandler hva (Or.inl rfl) hr)
      rintro x r' (⟨rfl, rfl, -⟩ | ⟨rfl, S', l, rfl, hlooks, -, -, hv, hl, hu, hw, -⟩)
      · rw [if_pos rfl]
        exact safe_stop ((quiet_space S).add hr) (Or.inr (Or.inr rfl))
      · rw [if_neg (by decide), ← hlooks.root]
        apply (safe_tryStore hr).mono
        rintro ok r' (⟨rfl, rfl, hnot⟩ | ⟨rfl, S'', m, rfl, hm, hS''⟩)
        · have hfalse := hnot hva l hl hu
          rw [hw] at hfalse
          cases hfalse
        · rw [hlooks.user] at hm
          exact ⟨rfl, S'', m, rfl, hm, hlooks.evolves.trans hS''⟩
    · have hge : PGROUNDDOWN a ≥ MAXVA := by
        have hmax : MAXVA = 2 ^ 38 := rfl
        simp only [PGROUNDDOWN, PGSIZE]
        omega
      rw [cowFaultHandler, walk, if_pos hge]
      have hstop : ∀ post : Option PtePtr → Multiset Atom → Prop,
          Safe (logic K) StoreError (panic "walk") ({.space S} + r) post := fun _ =>
        safe_stop ((quiet_space S).add hr) (Or.inr (Or.inl rfl))
      apply Safe.bind (M := fun _ _ => False)
      · apply Safe.bind (hstop fun _ _ => False)
        exact fun _ _ hfalse => hfalse.elim
      · exact fun _ _ hfalse => hfalse.elim
  · simp only [↓reduceIte]
    exact Safe.pure ⟨rfl, S', m, rfl, hm, hS'⟩

end fault

section copy

theorem Space.user_not_user
    (hleaf : ∀ l, S.leaf v = some l → l.fl.has PTE_U = false) :
    ∀ u, S.user v = some u → u.user = false := by
  intro u hu
  obtain ⟨-, l, hl, rfl⟩ := Space.user_eq_some.mp hu
  exact hleaf l hl

theorem safe_walkaddr {va : Nat} (hr : Quiet r) :
    Safe (logic K) E (walkaddr S.root va) ({.space S} + r) fun pa r' =>
      r' = {.space S} + r ∧
        ((pa = 0 ∧ ∀ u, S.user (va / PGSIZE) = some u → u.user = false) ∨
          ∃ l, va / PGSIZE < USERPAGES ∧ S.leaf (va / PGSIZE) = some l ∧
            l.fl.has PTE_U = true ∧ pa = l.pa ∧ pa ≠ 0) := by
  rw [walkaddr]
  by_cases hva : va ≥ MAXVA
  · rw [if_pos hva]
    apply Safe.pure
    refine ⟨rfl, Or.inl ⟨rfl, fun u hu => ?_⟩⟩
    have hlt := (Space.user_eq_some.mp hu).1
    have hpages : USERPAGES * PGSIZE ≤ MAXVA := by decide
    have hle := (Nat.le_div_iff_mul_le (by decide : 0 < PGSIZE)).mpr (hpages.trans hva)
    omega
  rw [if_neg hva]
  apply Safe.learn
  intro F s hinv
  rw [add_assoc] at hinv
  have hok := hinv.space_ok
  apply Safe.bind (safe_walk (by omega) hr)
  rintro o r' ⟨rfl, rfl⟩
  cases hslot : S.slot va with
  | none =>
      have hnone := hok.leaf_of_slot_none hslot
      exact Safe.pure ⟨rfl, Or.inl ⟨rfl, Space.user_not_user fun l hl => by
        rw [hnone] at hl
        cases hl⟩⟩
  | some pte =>
      apply Safe.bind (safe_readLeaf hslot hr)
      rintro w r' ⟨rfl, rfl⟩
      cases hl : S.leaf (va / PGSIZE) with
      | none =>
          exact Safe.pure ⟨rfl, Or.inl ⟨rfl, Space.user_not_user fun l hl' => by
            rw [hl] at hl'
            cases hl'⟩⟩
      | some l =>
          rw [hok.has hl (by decide), hok.has hl (by decide), hok.valid hl, Bool.true_and]
          by_cases hu : l.fl.has PTE_U = true
          · have hv := hok.lt_of_user hl hu
            have hleaf := hok.user _ l hv hl
            rw [if_pos hu, hleaf.PTE2PA]
            exact Safe.pure ⟨rfl, Or.inr ⟨l, hv, rfl, hu, rfl, hleaf.frame.ne_zero⟩⟩
          · rw [if_neg hu]
            refine Safe.pure ⟨rfl, Or.inl ⟨rfl, Space.user_not_user fun l' hl' => ?_⟩⟩
            obtain rfl : l = l' := Option.some.inj (hl.symm.trans hl')
            simpa using hu

/-- copyin from the reference memory. -/
def Mem.copyin (m : Mem) : Nat → Nat → Nat → Int × List UInt8
  | 0, _, _ => (0, [])
  | n + 1, srcva, len =>
      if len = 0 then (0, []) else
      match m (srcva / PGSIZE) with
      | none => (-1, [])
      | some u =>
          if u.user then
            let off := srcva - PGROUNDDOWN srcva
            let k := min (PGSIZE - off) len
            let rest := m.copyin n (PGROUNDDOWN srcva + PGSIZE) (len - k)
            (rest.1, peekBytes u.data off k ++ rest.2)
          else (-1, [])

theorem safe_copyinLoop {n srcva len : Nat} (hr : Quiet r) :
    Safe (logic K) E (copyinLoop S.root n srcva len) ({.space S} + r) fun x r' =>
      x = S.user.copyin n srcva len ∧ r' = {.space S} + r := by
  induction n generalizing srcva len with
  | zero => exact Safe.pure ⟨rfl, rfl⟩
  | succ n ih =>
      rw [copyinLoop, Mem.copyin]
      by_cases hlen : len = 0
      · rw [if_pos hlen, if_pos hlen]
        exact Safe.pure ⟨rfl, rfl⟩
      rw [if_neg hlen, if_neg hlen]
      apply Safe.bind (safe_walkaddr hr)
      rw [PGROUNDDOWN_div]
      rintro pa r' ⟨rfl, ⟨rfl, hnone⟩ | ⟨l, hv, hl, hu, rfl, hne⟩⟩
      · rw [if_pos rfl]
        apply Safe.pure
        cases hm : S.user (srcva / PGSIZE) with
        | none => exact ⟨rfl, rfl⟩
        | some u => simp [hnone u hm]
      · rw [if_neg hne]
        apply Safe.bind (safe_peek hv hl hr)
        rintro bytes r' ⟨rfl, rfl⟩
        apply Safe.bind ih
        rintro x r' ⟨rfl, rfl⟩
        apply Safe.pure
        have huser : S.user (srcva / PGSIZE) = some (l.view (S.data (srcva / PGSIZE))) :=
          Space.user_eq_some.mpr ⟨hv, l, hl, rfl⟩
        have hview : (l.view (S.data (srcva / PGSIZE))).user = true := hu
        simp only [huser, hview, ↓reduceIte, and_true]
        rfl

theorem safe_copyin {a n : Nat} (hr : Quiet r) :
    Safe (logic K) E (copyin S.root a n) ({.space S} + r) fun x r' =>
      x = S.user.copyin n a n ∧ r' = {.space S} + r :=
  safe_copyinLoop hr

/-- copyout to the reference memory: the result and the memory after it. -/
def Mem.copyout : Nat → Nat → List UInt8 → Mem → Int × Mem
  | 0, _, _, m => (0, m)
  | n + 1, dstva, src, m =>
      if src.length = 0 then (0, m) else
      let off := dstva - PGROUNDDOWN dstva
      let len := min (PGSIZE - off) src.length
      match m.write (dstva / PGSIZE) off (src.take len) with
      | none => (-1, m)
      | some m' => Mem.copyout n (PGROUNDDOWN dstva + PGSIZE) (src.drop len) m'

theorem Mem.write_eq_none {m : Mem} {off : Nat} {src : List UInt8}
    (h : ∀ u, m v = some u → u.user = true → u.write = false) :
    m.write v off src = none := by
  unfold Mem.write
  cases hm : m v with
  | none => rfl
  | some u =>
      by_cases hu : u.user = true
      · simp [h u hm hu]
      · simp [hu]

/-- The pages of the space that are not copy-on-write keep their entries. -/
def Space.Keeps (S S' : Space) : Prop :=
  ∀ u l, S.leaf u = some l → l.fl.has PTE_COW = false → S'.leaf u = some l

/-- Before copyout writes to a page it makes a copy-on-write page writable. -/
theorem safe_breakSharing {a scause : Nat} (hva : a < MAXVA)
    (hE : (scause ≠ 13 ∧ E (.fault 0)) ∨
      ∃ l, S.leaf (a / PGSIZE) = some l ∧ l.fl.has PTE_COW = false)
    (hr : Quiet r) :
    Safe (logic K) E
      (breakSharing S.root a scause (encodeLeaf (S.leaf (a / PGSIZE))))
      ({.space S} + r) fun x r' =>
      (x = -1 ∧ r' = {.space S} + r ∧
        ∀ l, S.leaf (a / PGSIZE) = some l → l.fl.has PTE_U = false) ∨
      (x = 0 ∧ ∃ S', r' = {.space S'} + r ∧ S.Looks S' ∧ S'.slot = S.slot ∧
        (∀ u, u ≠ a / PGSIZE → S'.leaf u = S.leaf u) ∧ S.Keeps S' ∧
        ∀ l, S'.leaf (a / PGSIZE) = some l → l.fl.has PTE_COW = false) := by
  apply Safe.learn
  intro F s hinv
  rw [add_assoc] at hinv
  have hok := hinv.space_ok
  by_cases hcow : ∃ l, S.leaf (a / PGSIZE) = some l ∧ l.fl.has PTE_COW = true
  · obtain ⟨l, hl, hlcow⟩ := hcow
    obtain ⟨hcause, hfault⟩ : scause ≠ 13 ∧ E (.fault 0) := by
      rcases hE with hE | ⟨l', hl', hnot⟩
      · exact hE
      · obtain rfl : l = l' := Option.some.inj (hl.symm.trans hl')
        rw [hlcow] at hnot
        cases hnot
    rw [breakSharing, hl, hok.has hl (by decide), hlcow, if_pos rfl]
    apply (safe_cowFaultHandler hva hfault hr).mono
    rintro x r' (⟨rfl, rfl, hnot⟩ |
      ⟨rfl, S', l', rfl, hlooks, hslot, hothers, hv, hl', -, -, hplain⟩)
    · refine Or.inl ⟨rfl, rfl, fun l'' hl'' => ?_⟩
      obtain rfl : l = l'' := Option.some.inj hl''
      by_contra hu
      have hfalse := hnot hcause l hl (by simpa using hu)
      rw [hlcow] at hfalse
      cases hfalse
    · refine Or.inr ⟨rfl, S', rfl, hlooks, hslot, hothers, ?_, ?_⟩
      · intro u lu hlu hnot
        by_cases huv : u = a / PGSIZE
        · subst huv
          obtain rfl : l = lu := Option.some.inj (hl.symm.trans hlu)
          rw [hlcow] at hnot
          cases hnot
        · rw [hothers u huv]
          exact hlu
      · intro l'' hl''
        obtain rfl : l' = l'' := Option.some.inj (hl'.symm.trans hl'')
        exact hplain
  · have hnot : (encodeLeaf (S.leaf (a / PGSIZE))).has PTE_COW = false := by
      cases hl : S.leaf (a / PGSIZE) with
      | none => rfl
      | some l =>
          rw [hok.has hl (by decide)]
          by_contra hne
          exact hcow ⟨l, hl, by simpa using hne⟩
    rw [breakSharing, hnot]
    apply Safe.pure
    refine Or.inr ⟨rfl, S, rfl, Space.Looks.refl S, rfl, fun _ _ => rfl,
      fun _ _ h _ => h, fun l hl => ?_⟩
    by_contra hne
    exact hcow ⟨l, hl, by simpa using hne⟩

theorem Space.Keeps.trans {S' S'' : Space} (h : S.Keeps S') (h' : S'.Keeps S'') :
    S.Keeps S'' := fun u l hl hcow => h' u l (h u l hl hcow) hcow

/-- A page that is not copy-on-write is writable in memory just if it is in the
reference memory. -/
theorem Space.write_eq_none {off : Nat} {src : List UInt8}
    (hplain : ∀ l, S.leaf v = some l → l.fl.has PTE_COW = false)
    (hnot : ∀ l, S.leaf v = some l → ¬ (l.fl.has PTE_U = true ∧ l.fl.has PTE_W = true)) :
    S.user.write v off src = none := by
  apply Mem.write_eq_none
  intro u hu huser
  obtain ⟨-, l, hl, rfl⟩ := Space.user_eq_some.mp hu
  have hw := hnot l hl
  simp only [Leaf.view] at huser ⊢
  simp only [huser, true_and, Bool.not_eq_true] at hw
  rw [hw, hplain l hl]
  rfl

/-- One page of copyout: the chunk is written to the memory that the user sees, or
the user may not write there. -/
theorem safe_copyoutPage {dstva scause : Nat} {chunk : List UInt8}
    (hE : (scause ≠ 13 ∧ E (.fault 0)) ∨
      ∃ l, S.leaf (dstva / PGSIZE) = some l ∧ l.fl.has PTE_COW = false)
    (hr : Quiet r) :
    Safe (logic K) E (copyoutPage S.root scause dstva chunk) ({.space S} + r) fun x r' =>
      ∃ S', r' = {.space S'} + r ∧ S.Keeps S' ∧
        (∀ u, u ≠ dstva / PGSIZE → S'.leaf u = S.leaf u) ∧
        ((x = -1 ∧ S.Looks S' ∧
            S.user.write (dstva / PGSIZE) (dstva - PGROUNDDOWN dstva) chunk = none) ∨
          (x = 0 ∧ ∃ m, S.Evolves S' m ∧
            S.user.write (dstva / PGSIZE) (dstva - PGROUNDDOWN dstva) chunk = some m)) := by
  have hdiv := PGROUNDDOWN_div dstva
  have hkeep : S.Keeps S ∧ ∀ u, u ≠ dstva / PGSIZE → S.leaf u = S.leaf u :=
    ⟨fun _ _ h _ => h, fun _ _ => rfl⟩
  rw [copyoutPage]
  by_cases hva : PGROUNDDOWN dstva ≥ MAXVA
  · rw [if_pos hva]
    refine Safe.pure ⟨S, rfl, hkeep.1, hkeep.2, Or.inl ⟨rfl, Space.Looks.refl S, ?_⟩⟩
    apply Mem.write_eq_none
    intro u hu
    have hlt := (Space.user_eq_some.mp hu).1
    have hpages : USERPAGES * PGSIZE ≤ MAXVA := by decide
    have hle := (Nat.le_div_iff_mul_le (by decide : 0 < PGSIZE)).mpr (hpages.trans hva)
    omega
  rw [if_neg hva]
  apply Safe.learn
  intro F s hinv
  rw [add_assoc] at hinv
  have hok := hinv.space_ok
  apply Safe.bind (safe_walk (by omega) hr)
  rintro o r' ⟨rfl, rfl⟩
  cases hslot : S.slot (PGROUNDDOWN dstva) with
  | none =>
      have hnone := hok.leaf_of_slot_none hslot
      rw [hdiv] at hnone
      apply safe_stop ((quiet_space S).add hr)
      rcases hE with ⟨-, hE⟩ | ⟨l, hl, -⟩
      · exact hE
      · rw [hnone] at hl
        cases hl
  | some pte =>
      apply Safe.bind (safe_readLeaf hslot hr)
      rintro w r' ⟨rfl, rfl⟩
      apply Safe.bind (safe_breakSharing (a := PGROUNDDOWN dstva) (by omega)
        (by rwa [hdiv]) hr)
      rw [hdiv]
      rintro x r' (⟨rfl, rfl, hnot⟩ | ⟨rfl, S', rfl, hlooks, hslot', hothers, hkeeps, hplain⟩)
      · rw [if_pos rfl]
        refine Safe.pure ⟨S, rfl, hkeep.1, hkeep.2, Or.inl ⟨rfl, Space.Looks.refl S, ?_⟩⟩
        apply Mem.write_eq_none
        intro u hu huser
        rw [Space.user_not_user hnot u hu] at huser
        cases huser
      · rw [if_neg (by decide)]
        apply Safe.learn
        intro F' s' hinv'
        rw [add_assoc] at hinv'
        have hok' := hinv'.space_ok
        apply Safe.bind (safe_readLeaf (a := PGROUNDDOWN dstva)
          (by rw [hslot', hslot]) hr)
        rintro w r' ⟨rfl, rfl⟩
        rw [hdiv, ← hlooks.user]
        by_cases hboth : ∃ l, S'.leaf (dstva / PGSIZE) = some l ∧
            l.fl.has PTE_U = true ∧ l.fl.has PTE_W = true
        · obtain ⟨l, hl, hu, hw⟩ := hboth
          have hv := hok'.lt_of_user hl hu
          rw [hl, hok'.has hl (by decide), hok'.has hl (by decide), hok'.has hl (by decide),
            hok'.valid hl, hu, hw, (hok'.user _ l hv hl).PTE2PA]
          simp only [Bool.not_true, Bool.or_self, Bool.false_eq_true, ↓reduceIte]
          apply Safe.bind (safe_write hv hl hu hw hr)
          rintro _ r' ⟨S'', m, rfl, hm, hS'', hleaf⟩
          refine Safe.pure ⟨S'', rfl, ?_, ?_, Or.inr ⟨rfl, m,
            hlooks.evolves.trans hS'', hm⟩⟩
          · intro u l hl hcow
            rw [hleaf]
            exact hkeeps u l hl hcow
          · intro u hu
            rw [hleaf]
            exact hothers u hu
        · have hfail : (!(encodeLeaf (S'.leaf (dstva / PGSIZE))).has PTE_V ||
              !(encodeLeaf (S'.leaf (dstva / PGSIZE))).has PTE_U ||
              !(encodeLeaf (S'.leaf (dstva / PGSIZE))).has PTE_W) = true := by
            cases hl : S'.leaf (dstva / PGSIZE) with
            | none => rfl
            | some l =>
                rw [hok'.has hl (by decide), hok'.has hl (by decide),
                  hok'.has hl (by decide)]
                by_contra hne
                apply hboth
                simp only [Bool.not_eq_true, Bool.or_eq_false_iff, Bool.not_eq_false'] at hne
                exact ⟨l, hl, hne.1.2, hne.2⟩
          rw [hfail, if_pos rfl]
          refine Safe.pure ⟨S', rfl, hkeeps, hothers, Or.inl ⟨rfl, hlooks, ?_⟩⟩
          apply Space.write_eq_none hplain
          intro l hl hlboth
          exact hboth ⟨l, hl, hlboth⟩

/-- copyout writes to the memory that the user sees and stops at the first page
that user code may not write. -/
theorem safe_copyoutLoop {n a scause : Nat} {d : List UInt8}
    (hE : ∀ u, a / PGSIZE ≤ u → u * PGSIZE < a + d.length →
      (scause ≠ 13 ∧ E (.fault 0)) ∨ ∃ l, S.leaf u = some l ∧ l.fl.has PTE_COW = false)
    (hr : Quiet r) :
    Safe (logic K) E (copyoutLoop S.root scause n a d) ({.space S} + r) fun x r' =>
      ∃ S', r' = {.space S'} + r ∧ x = (Mem.copyout n a d S.user).1 ∧
        S.Evolves S' (Mem.copyout n a d S.user).2 ∧ S.Keeps S' := by
  induction n generalizing a d S with
  | zero => exact Safe.pure ⟨S, rfl, rfl, ⟨rfl, fun _ _ => rfl, rfl⟩, fun _ _ h _ => h⟩
  | succ n ih =>
      rw [copyoutLoop, Mem.copyout]
      by_cases hlen : d.length = 0
      · rw [if_pos hlen, if_pos hlen]
        exact Safe.pure ⟨S, rfl, rfl, ⟨rfl, fun _ _ => rfl, rfl⟩, fun _ _ h _ => h⟩
      rw [if_neg hlen, if_neg hlen]
      have hfirst : a / PGSIZE * PGSIZE < a + d.length := by
        have hle := Nat.div_mul_le_self a PGSIZE
        omega
      apply Safe.bind (safe_copyoutPage (hE _ le_rfl hfirst) hr)
      rintro x r' ⟨S', rfl, hkeeps, hothers, ⟨rfl, hlooks, hm⟩ | ⟨rfl, m, hS', hm⟩⟩
      · simp only [hm, ↓reduceIte]
        exact Safe.pure ⟨S', rfl, rfl, hlooks.evolves, hkeeps⟩
      · rw [if_neg (by decide), ← hS'.root]
        simp only [hm]
        rw [← hS'.user]
        apply (ih ?_).mono
        · rintro x r' ⟨S'', rfl, rfl, hS'', hkeeps'⟩
          exact ⟨S'', rfl, rfl, hS'.trans hS'', hkeeps.trans hkeeps'⟩
        · intro u hlo hhi
          have hnext : (PGROUNDDOWN a + PGSIZE) / PGSIZE = a / PGSIZE + 1 := by
            rw [Nat.add_div_right _ (by decide), PGROUNDDOWN_div]
          rw [hnext] at hlo
          rw [hothers u (by omega)]
          apply hE u (by omega)
          rw [List.length_drop] at hhi
          simp only [PGROUNDDOWN, PGSIZE] at hlo hhi ⊢
          omega

end copy

end Xv6.Vm
