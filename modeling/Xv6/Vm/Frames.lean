/-
The allocator keeps the ledger: kalloc moves a frame from the free list into the
ledger, kfree moves it back when its last reference goes, and kinit starts with
all frames free.
-/
import Xv6.Vm.Ledger

namespace Xv6.Vm

open Bytes Refs

/-- The first free page is taken off the list. -/
def Kmem.popped (s : Kmem) (p : Nat) : Kmem :=
  { s with
    mem := Function.update s.mem p fun _ => 5
    refCount := Function.update s.refCount (countIndex p) 1
    freelist := getLE 8 (s.mem p) 0
    first := Function.update s.first p none }

/-- A page is put on the list, with no references left. -/
def Kmem.pushed (s : Kmem) (p : Nat) : Kmem :=
  { s with
    mem := Function.update s.mem p (putLE 8 (fun _ => 1) 0 s.freelist)
    refCount := Function.update s.refCount (countIndex p) 0
    freelist := p }

def Kmem.counted (s : Kmem) (p : Nat) (count : Int) : Kmem :=
  { s with refCount := Function.update s.refCount (countIndex p) count }

def Kmem.wrote (s : Kmem) (p : Nat) (page : Arr) : Kmem :=
  { s with mem := Function.update s.mem p page }

section fields

variable (s : Kmem)

@[simp] theorem Kmem.counted_mem (p : Nat) (c : Int) :
    (s.counted p c).mem = s.mem := rfl
@[simp] theorem Kmem.counted_refCount (p : Nat) (c : Int) :
    (s.counted p c).refCount = Function.update s.refCount (countIndex p) c := rfl
@[simp] theorem Kmem.counted_freelist (p : Nat) (c : Int) :
    (s.counted p c).freelist = s.freelist := rfl
@[simp] theorem Kmem.counted_locked (p : Nat) (c : Int) :
    (s.counted p c).locked = s.locked := rfl
@[simp] theorem Kmem.counted_first (p : Nat) (c : Int) :
    (s.counted p c).first = s.first := rfl

@[simp] theorem Kmem.wrote_mem (p : Nat) (page : Arr) :
    (s.wrote p page).mem = Function.update s.mem p page := rfl
@[simp] theorem Kmem.wrote_refCount (p : Nat) (page : Arr) :
    (s.wrote p page).refCount = s.refCount := rfl
@[simp] theorem Kmem.wrote_freelist (p : Nat) (page : Arr) :
    (s.wrote p page).freelist = s.freelist := rfl
@[simp] theorem Kmem.wrote_locked (p : Nat) (page : Arr) :
    (s.wrote p page).locked = s.locked := rfl
@[simp] theorem Kmem.wrote_first (p : Nat) (page : Arr) :
    (s.wrote p page).first = s.first := rfl

@[simp] theorem Kmem.popped_mem (p : Nat) :
    (s.popped p).mem = Function.update s.mem p fun _ => 5 := rfl
@[simp] theorem Kmem.popped_refCount (p : Nat) :
    (s.popped p).refCount = Function.update s.refCount (countIndex p) 1 := rfl
@[simp] theorem Kmem.popped_freelist (p : Nat) :
    (s.popped p).freelist = getLE 8 (s.mem p) 0 := rfl
@[simp] theorem Kmem.popped_locked (p : Nat) : (s.popped p).locked = s.locked := rfl
@[simp] theorem Kmem.popped_first (p : Nat) :
    (s.popped p).first = Function.update s.first p none := rfl

@[simp] theorem Kmem.pushed_mem (p : Nat) : (s.pushed p).mem =
    Function.update s.mem p (putLE 8 (fun _ => 1) 0 s.freelist) := rfl
@[simp] theorem Kmem.pushed_refCount (p : Nat) :
    (s.pushed p).refCount = Function.update s.refCount (countIndex p) 0 := rfl
@[simp] theorem Kmem.pushed_freelist (p : Nat) : (s.pushed p).freelist = p := rfl
@[simp] theorem Kmem.pushed_locked (p : Nat) : (s.pushed p).locked = s.locked := rfl
@[simp] theorem Kmem.pushed_first (p : Nat) : (s.pushed p).first = s.first := rfl

end fields

section eval

variable {K : Image} {s : Kmem} {p : Nat} {α β : Type}

theorem KM.bind_ok {m : KM α} {f : α → KM β} {s s' : Kmem} {a : α}
    (h : m s = .ok (a, s')) : (m >>= f) s = f a s' := by
  change (m s >>= fun x => f x.1 x.2) = f a s'
  rw [h]
  rfl

theorem KM.pure_ok (a : α) (s : Kmem) : StateT.pure (m := Except KErr) a s = .ok (a, s) := rfl

theorem acquire_ok (h : s.locked = false) :
    acquire s = .ok ((), { s with locked := true }) := by simp [acquire, h]

theorem release_ok (h : s.locked = true) :
    release s = .ok ((), { s with locked := false }) := by simp [release, h]

/-- A critical section is what happens between taking and giving back the lock. -/
theorem locked_section {m : KM α} {s s' : Kmem} {a : α} (h : s.locked = false)
    (hm : m { s with locked := true } = .ok (a, s')) (h' : s'.locked = true) :
    (do acquire; let x ← m; release; return x : KM α) s =
      .ok (a, { s' with locked := false }) := by
  rw [KM.bind_ok (acquire_ok h), KM.bind_ok hm, KM.bind_ok (release_ok h')]
  rfl

theorem kallocNoLock_zero (h : s.freelist = 0) : kallocNoLock s = .ok (0, s) := by
  simp [kallocNoLock, h, bind, StateT.bind, Except.bind, get, getThe,
    MonadStateOf.get, StateT.get, pure, Except.pure, KM.pure_ok]

theorem kallocNoLock_pop (h : s.freelist = p) (hne : p ≠ 0) (hram : inRam p = true) :
    kallocNoLock s = .ok (p, s.popped p) := by
  simp [kallocNoLock, h, hne, hram, readPage, memset, writePage, setRefCount,
    Kmem.popped, bind, StateT.bind, Except.bind, get, getThe, MonadStateOf.get,
    StateT.get, pure, Except.pure, KM.pure_ok, modify, modifyGet,
    MonadStateOf.modifyGet, StateT.modifyGet]

theorem kalloc_zero (hlock : s.locked = false) (h : s.freelist = 0) :
    kalloc s = .ok (0, s) := by
  have hsection := locked_section hlock
    (kallocNoLock_zero (s := { s with locked := true }) h) rfl
  rw [show ({ s with locked := false } : Kmem) = s by rw [← hlock]] at hsection
  exact hsection

theorem kalloc_pop (hlock : s.locked = false) (h : s.freelist = p) (hne : p ≠ 0)
    (hram : inRam p = true) : kalloc s = .ok (p, s.popped p) := by
  have hsection := locked_section hlock
    (kallocNoLock_pop (s := { s with locked := true }) h hne hram) rfl
  refine hsection.trans ?_
  rw [Kmem.popped, Kmem.popped, ← hlock]

theorem pushFree_ok (hp : K.Frame p) : pushFree K p s =
    .ok ((), { s with
      mem := Function.update s.mem p (putLE 8 (fun _ => 1) 0 s.freelist)
      freelist := p }) := by
  obtain ⟨halign, hend, hstop⟩ := hp
  have hram : inRam p = true := Image.Frame.inRam (K := K) ⟨halign, hend, hstop⟩
  have hcond : ¬ (p % PGSIZE ≠ 0 ∨ p < K.end_ ∨ p ≥ PHYSTOP) := by omega
  simp [pushFree, hcond, hram, memset, writePage, bind, StateT.bind, Except.bind,
    get, getThe, MonadStateOf.get, StateT.get, pure, Except.pure, modify,
    modifyGet, MonadStateOf.modifyGet, StateT.modifyGet]

theorem getRefCount_ok (hram : inRam p = true) :
    getRefCount p s = .ok (s.refCount (countIndex p), s) := by
  simp [getRefCount, hram]

theorem updateRefCount_inc (hram : inRam p = true) :
    updateRefCount p 1 s = .ok ((), s.counted p (s.refCount (countIndex p) + 1)) := by
  rw [updateRefCount, KM.bind_ok (getRefCount_ok hram)]
  simp [setRefCount, hram, Kmem.counted]

theorem updateRefCount_dec (hram : inRam p = true) :
    updateRefCount p 0 s = .ok ((), s.counted p (s.refCount (countIndex p) - 1)) := by
  rw [updateRefCount, KM.bind_ok (getRefCount_ok hram)]
  simp [setRefCount, hram, Kmem.counted]

theorem kfree_more (hlock : s.locked = false) (hram : inRam p = true)
    (hcount : 2 ≤ s.refCount (countIndex p)) :
    kfree K p s = .ok ((), s.counted p (s.refCount (countIndex p) - 1)) := by
  have hpos : (s.refCount (countIndex p)) ≥ 1 := by omega
  have hne : s.refCount (countIndex p) - 1 ≠ 0 := by omega
  rw [kfree, KM.bind_ok (acquire_ok hlock), KM.bind_ok (getRefCount_ok hram)]
  simp only [hpos, ↓reduceIte]
  rw [KM.bind_ok (updateRefCount_dec hram), KM.bind_ok (getRefCount_ok hram)]
  simp only [Kmem.counted, Function.update_self, hne, ↓reduceIte]
  simp [release, hlock]

/-- The last reference, or a page without any as in kinit: the page is freed. -/
theorem kfree_last (hlock : s.locked = false) (hp : K.Frame p)
    (hcount : s.refCount (countIndex p) = 1 ∨ s.refCount (countIndex p) = 0) :
    kfree K p s = .ok ((), s.pushed p) := by
  have hram := hp.inRam
  rw [kfree, KM.bind_ok (acquire_ok hlock), KM.bind_ok (getRefCount_ok hram)]
  rcases hcount with hone | hzero
  · simp only [hone, ge_iff_le, le_refl, ↓reduceIte]
    rw [KM.bind_ok (updateRefCount_dec hram), KM.bind_ok (getRefCount_ok hram)]
    simp only [Kmem.counted, Function.update_self, hone, sub_self, ↓reduceIte]
    rw [KM.bind_ok (pushFree_ok hp), release_ok rfl, Kmem.pushed, ← hlock]
  · have hnot : ¬ ((0 : Int) ≥ 1) := by omega
    simp only [hzero, hnot, ↓reduceIte]
    rw [KM.bind_ok (getRefCount_ok hram)]
    simp only [hzero, ↓reduceIte]
    have hsame : Function.update s.refCount (countIndex p) 0 = s.refCount := by
      rw [← hzero, Function.update_eq_self]
    rw [KM.bind_ok (pushFree_ok hp), release_ok rfl, Kmem.pushed, hsame, ← hlock]

theorem kfreeNoLock_more (hram : inRam p = true)
    (hcount : 2 ≤ s.refCount (countIndex p)) :
    kfreeNoLock K p s = .ok ((), s.counted p (s.refCount (countIndex p) - 1)) := by
  have hne : s.refCount (countIndex p) - 1 ≠ 0 := by omega
  rw [kfreeNoLock, KM.bind_ok (updateRefCount_dec hram),
    KM.bind_ok (getRefCount_ok hram)]
  simp only [Kmem.counted, Function.update_self, hne, ↓reduceIte]
  rfl

theorem lockUpdateRefCount_inc (hlock : s.locked = false) (hram : inRam p = true) :
    lockUpdateRefCount p 1 s =
      .ok ((), s.counted p (s.refCount (countIndex p) + 1)) := by
  rw [lockUpdateRefCount, KM.bind_ok (acquire_ok hlock),
    KM.bind_ok (updateRefCount_inc hram), release_ok rfl]
  simp [Kmem.counted, hlock]

end eval

section inv

variable {K : Image} {s : Kmem} {p : Nat}

theorem refCount_update_of_ne {f : Nat} (hp : K.Frame p) (hf : K.Frame f)
    (hne : f ≠ p) (c : Int) :
    Function.update s.refCount (countIndex p) c (countIndex f) =
      s.refCount (countIndex f) :=
  Function.update_of_ne (fun heq => hne (hf.countIndex_inj hp heq)) ..

/-- Counting a frame that keeps a reference does not concern the free list. -/
theorem FreeOk.counted (h : FreeOk K s) (hp : K.Frame p) {c : Int}
    (hold : s.refCount (countIndex p) ≠ 0) (hnew : c ≠ 0) :
    FreeOk K (s.counted p c) := by
  obtain ⟨L, hchain, hnodup, hiff⟩ := h
  refine ⟨L, hchain, hnodup, ?_⟩
  intro f
  rw [hiff f]
  apply and_congr_right
  intro hf
  by_cases hfp : f = p
  · subst hfp
    simp [hold, hnew]
  · rw [Kmem.counted_refCount, refCount_update_of_ne hp hf hfp]

theorem FreeOk.popped (h : FreeOk K s) (hhead : s.freelist = p) (hne : p ≠ 0) :
    K.Frame p ∧ s.refCount (countIndex p) = 0 ∧ FreeOk K (s.popped p) := by
  obtain ⟨L, hchain, hnodup, hiff⟩ := h
  cases L with
  | nil => exact absurd (hhead.symm.trans hchain) hne
  | cons q rest =>
      obtain ⟨hq, -, hrest⟩ := hchain
      obtain rfl : q = p := hq.symm.trans hhead
      obtain ⟨hframe, hzero⟩ := (hiff q).mp List.mem_cons_self
      have hnotin : q ∉ rest := (List.nodup_cons.mp hnodup).1
      refine ⟨hframe, hzero, rest, ?_, (List.nodup_cons.mp hnodup).2, ?_⟩
      · apply hrest.congr
        intro f hf
        have hfq : f ≠ q := fun heq => hnotin (heq ▸ hf)
        simp [hfq]
      · intro f
        by_cases hfq : f = q
        · subst hfq
          simp [hnotin]
        · have hold := hiff f
          simp only [List.mem_cons, hfq, false_or] at hold
          rw [hold]
          apply and_congr_right
          intro hf
          rw [Kmem.popped_refCount, refCount_update_of_ne hframe hf hfq]

theorem FreeChain.head_lt {mem : Nat → Arr} {head : Nat} {L : List Nat}
    (h : FreeChain mem head L) (hframes : ∀ f ∈ L, K.Frame f) : head < 256 ^ 8 := by
  cases L with
  | nil =>
      rw [show head = 0 from h]
      decide
  | cons q rest =>
      have hlt := (hframes q List.mem_cons_self).lt_pow
      rw [show head = q from h.1]
      omega

/-- The list after a page was pushed. -/
theorem FreeChain.pushed {L : List Nat} (h : FreeChain s.mem s.freelist L)
    (hframes : ∀ f ∈ L, K.Frame f) (hp : K.Frame p) (hnotin : p ∉ L) :
    FreeChain (s.pushed p).mem (s.pushed p).freelist (p :: L) := by
  refine ⟨rfl, hp.ne_zero, ?_⟩
  simp only [Kmem.pushed_mem, Function.update_self]
  rw [getLE_putLE_self, Nat.mod_eq_of_lt (h.head_lt hframes)]
  apply h.congr
  intro f hf
  have hfp : f ≠ p := fun heq => hnotin (heq ▸ hf)
  simp [hfp]

theorem FreeOk.pushed (h : FreeOk K s) (hp : K.Frame p)
    (hcount : s.refCount (countIndex p) ≠ 0) : FreeOk K (s.pushed p) := by
  obtain ⟨L, hchain, hnodup, hiff⟩ := h
  have hnotin : p ∉ L := fun hmem => hcount ((hiff p).mp hmem).2
  refine ⟨p :: L, ?_, List.nodup_cons.mpr ⟨hnotin, hnodup⟩, ?_⟩
  · exact hchain.pushed (fun f hf => ((hiff f).mp hf).1) hp hnotin
  · intro f
    by_cases hfp : f = p
    · subst hfp
      simp [hp]
    · simp only [List.mem_cons, hfp, false_or, hiff f]
      apply and_congr_right
      intro hf
      rw [Kmem.pushed_refCount, refCount_update_of_ne hp hf hfp]

/-- kalloc moves the first free frame into the ledger. -/
theorem Inv.popped {r : Multiset Atom} (h : Inv K r s) (hhead : s.freelist = p)
    (hne : p ≠ 0) :
    K.Frame p ∧ Inv K ({.page p (fun _ => 5) true} + r) (s.popped p) := by
  obtain ⟨hframe, hzero, hfree⟩ := h.free.popped hhead hne
  have huntouched := h.touched_eq_zero_of_count hframe hzero
  have hother : ∀ f, f ≠ p → ind (some p) f = 0 := fun f hf =>
    ind_some_of_ne (Ne.symm hf)
  refine ⟨hframe, ?_⟩
  apply Inv.change (r := 0) (by rwa [zero_add])
  case hok =>
    intro a ha
    rw [Multiset.mem_singleton.mp ha]
    exact ⟨hframe, by simp, by simp⟩
  case hsame =>
    intro f hf
    have hfp : f ≠ p := by
      rintro rfl
      omega
    simp [hfp]
  case hcount =>
    intro f hf
    simp only [total_zero, total_singleton, Atom.use, ↓reduceIte, reduceCtorEq]
    by_cases hfp : f = p
    · subst hfp
      simp [hzero]
    · rw [Kmem.popped_refCount, refCount_update_of_ne hframe hf hfp, hother f hfp]
  case hsharing =>
    intro f
    have hold := h.sharing f
    simp only [total_singleton, Atom.use, ↓reduceIte, reduceCtorEq, zero_add]
    by_cases hfp : f = p
    · subst hfp
      unfold touched at huntouched
      rw [ind_some_self]
      unfold Sharing at *
      omega
    · rw [hother f hfp, zero_add]
      exact hold
  case hfree => exact hfree
  case hunlocked => exact h.unlocked
  case htokens =>
    intro x
    simp [Atom.use]

/-- kfree of a page that kernel code holds puts it back on the free list. -/
theorem Inv.pushed {r : Multiset Atom} {d : Arr} {b : Bool}
    (h : Inv K ({.page p d b} + r) s) :
    K.Frame p ∧ s.refCount (countIndex p) = 1 ∧ Inv K r (s.pushed p) := by
  have hframe : K.Frame p := (h.ok (.page p d b) (by simp)).1
  have huse : total .kernel {Atom.page p d b} p = 1 := by simp [Atom.use]
  have huntouched := h.touched_eq_zero_of_kernel (f := p) (by omega)
  have hcount : s.refCount (countIndex p) = 1 := by
    have hsplit := h.count_split hframe
    unfold touched at huntouched
    simp only [total_singleton, Atom.use, ↓reduceIte, reduceCtorEq,
      ind_some_self] at hsplit
    omega
  have hother : ∀ f, f ≠ p → ind (some p) f = 0 := fun f hf =>
    ind_some_of_ne (Ne.symm hf)
  refine ⟨hframe, hcount, ?_⟩
  rw [← zero_add r]
  apply h.change
  case hok =>
    intro a ha
    simp at ha
  case hsame =>
    intro f hf
    have hfp : f ≠ p := by
      rintro rfl
      omega
    simp [hfp]
  case hcount =>
    intro f hf
    simp only [total_zero, total_singleton, Atom.use, ↓reduceIte, reduceCtorEq]
    by_cases hfp : f = p
    · subst hfp
      simp [hcount]
    · rw [Kmem.pushed_refCount, refCount_update_of_ne hframe hf hfp, hother f hfp]
  case hsharing =>
    intro f
    have hold := h.sharing_split f
    simp only [total_singleton, Atom.use, ↓reduceIte, reduceCtorEq, total_zero,
      zero_add] at hold ⊢
    by_cases hfp : f = p
    · subst hfp
      unfold touched at huntouched
      unfold Sharing at *
      omega
    · rwa [hother f hfp, zero_add] at hold
  case hfree => exact h.free.pushed hframe (by omega)
  case hunlocked => exact h.unlocked
  case htokens =>
    intro x
    simp [Atom.use]

end inv

section boot

variable {K : Image} {s : Kmem} {p : Nat}

/-- In the middle of kinit: exactly the frames below `p` are on the list. -/
structure Freed (K : Image) (s : Kmem) (p : Nat) : Prop where
  chain : ∃ L, FreeChain s.mem s.freelist L ∧ L.Nodup ∧ ∀ f, f ∈ L ↔ K.Frame f ∧ f < p
  zero : ∀ i, s.refCount i = 0
  unlocked : s.locked = false

theorem Freed.step (h : Freed K s p) (hp : K.Frame p) :
    Freed K (s.pushed p) (p + PGSIZE) := by
  obtain ⟨L, hchain, hnodup, hiff⟩ := h.chain
  have hnotin : p ∉ L := fun hmem => absurd ((hiff p).mp hmem).2 (Nat.lt_irrefl p)
  refine ⟨⟨p :: L, ?_, List.nodup_cons.mpr ⟨hnotin, hnodup⟩, fun f => ?_⟩, ?_, h.unlocked⟩
  · exact hchain.pushed (fun f hf => ((hiff f).mp hf).1) hp hnotin
  · rw [List.mem_cons, hiff f]
    constructor
    · rintro (rfl | ⟨hf, hlt⟩)
      · exact ⟨hp, by simp [PGSIZE]⟩
      · exact ⟨hf, by omega⟩
    · rintro ⟨hf, hlt⟩
      have hpmod := hp.1
      have hfmod := hf.1
      simp only [PGSIZE] at hlt hpmod hfmod
      by_cases hfp : f = p
      · exact Or.inl hfp
      · exact Or.inr ⟨hf, by omega⟩
  · intro i
    by_cases hi : i = countIndex p
    · simp [hi]
    · simp [hi, h.zero]

theorem freerange_ok {n : Nat} (h : Freed K s p) (halign : p % PGSIZE = 0)
    (hend : K.end_ ≤ p) (hstop : p + n * PGSIZE ≤ PHYSTOP) :
    ∃ s', freerange K n p s = .ok ((), s') ∧ Freed K s' (p + n * PGSIZE) := by
  induction n generalizing p s with
  | zero => exact ⟨s, rfl, by rwa [Nat.zero_mul]⟩
  | succ n ih =>
      have hsum : p + (n + 1) * PGSIZE = p + PGSIZE + n * PGSIZE := by ring
      have hpos : 0 < PGSIZE := by decide
      have hframe : K.Frame p := ⟨halign, hend, by omega⟩
      obtain ⟨s', hrun, hfreed⟩ := ih (h.step hframe) (by rwa [Nat.add_mod_right])
        (by omega) (by omega)
      refine ⟨s', ?_, by rwa [hsum]⟩
      rw [freerange, KM.bind_ok (kfree_last h.unlocked hframe (Or.inr (h.zero _)))]
      exact hrun

/-- The allocator at boot: the lock is free, and the counters and the list are the
zeros of the bss section. -/
structure Kmem.Blank (s : Kmem) : Prop where
  zero : ∀ i, s.refCount i = 0
  freelist : s.freelist = 0
  unlocked : s.locked = false

/-- After kinit every frame is free, and nobody owns anything. -/
theorem kinit_ok (h : s.Blank) : ∃ s', kinit K s = .ok ((), s') ∧ Inv K 0 s' := by
  have hle := K.end_le_phystop
  have hround : K.end_ ≤ PGROUNDUP K.end_ ∧ PGROUNDUP K.end_ ≤ PHYSTOP ∧
      PGROUNDUP K.end_ % PGSIZE = 0 ∧ ∀ f, K.Frame f → PGROUNDUP K.end_ ≤ f := by
    have hstop : PHYSTOP = 0x88000000 := by decide
    refine ⟨?_, ?_, Nat.mul_mod_left .., fun f hf => ?_⟩
    · simp only [PGROUNDUP, PGSIZE]
      omega
    · simp only [PGROUNDUP, PGSIZE]
      omega
    · have hmod := hf.1
      have hge := hf.2.1
      simp only [PGROUNDUP, PGSIZE] at hmod ⊢
      omega
  obtain ⟨hend, hstop, hmod, hfirst⟩ := hround
  have hstart : Freed K s (PGROUNDUP K.end_) := by
    refine ⟨⟨[], h.freelist, List.nodup_nil, fun f => ?_⟩, h.zero, h.unlocked⟩
    simp only [List.not_mem_nil, false_iff, not_and, not_lt]
    exact hfirst f
  have htotal : PGROUNDUP K.end_ + (PHYSTOP - PGROUNDUP K.end_) / PGSIZE * PGSIZE =
      PHYSTOP := by
    have haligned : PHYSTOP % PGSIZE = 0 := by decide
    simp only [PGSIZE] at hmod haligned ⊢
    omega
  obtain ⟨s', hrun, hfreed⟩ := freerange_ok hstart hmod hend (le_of_eq htotal)
  rw [htotal] at hfreed
  refine ⟨s', hrun, ?_⟩
  obtain ⟨L, hchain, hnodup, hiff⟩ := hfreed.chain
  constructor
  case ok =>
    intro a ha
    cases ha
  case count =>
    intro f _
    rw [hfreed.zero, total_zero, total_zero]
    rfl
  case sharing =>
    intro f
    simp [Sharing]
  case free =>
    refine ⟨L, hchain, hnodup, fun f => ?_⟩
    rw [hiff f, hfreed.zero]
    exact ⟨fun hf => ⟨hf.1, rfl⟩, fun hf => ⟨hf.1, hf.1.2.2⟩⟩
  case unlocked => exact hfreed.unlocked
  case tokens =>
    intro x
    simp

end boot

end Xv6.Vm
