/-
The ownership logic of the memory code, and the commands that work on pages of
the kernel.
-/
import Xv6.Lib.Interleave
import Xv6.Vm.Frames
import Xv6.Vm.PageTable

namespace Xv6.Vm

open Bytes Refs Program Interleave

/-- Whether the mappings of this entry and the counts differ. -/
def Atom.isPending : Atom → Bool
  | .copying .. | .clearing .. => true
  | _ => false

/-- Nothing of this is in the middle of uvmcopy or uvmunmap. -/
def Quiet (r : Multiset Atom) : Prop := ∀ a ∈ r, a.isPending = false

theorem Quiet.add {r r' : Multiset Atom} (h : Quiet r) (h' : Quiet r') :
    Quiet (r + r') := by
  intro a ha
  rcases Multiset.mem_add.mp ha with hr | hr
  · exact h a hr
  · exact h' a hr

theorem quiet_zero : Quiet 0 := by
  intro a ha
  simp at ha

theorem quiet_page (pa : Nat) (d : Arr) (b : Bool) : Quiet {.page pa d b} := by
  intro a ha
  rw [Multiset.mem_singleton.mp ha]
  rfl

theorem quiet_space (S : Space) : Quiet {.space S} := by
  intro a ha
  rw [Multiset.mem_singleton.mp ha]
  rfl

theorem quiet_token (root : Nat) : Quiet {.token root} := by
  intro a ha
  rw [Multiset.mem_singleton.mp ha]
  rfl

def MemCmd.isCount {β : Type} : MemCmd β → Bool
  | .lockUpdateRefCount _ _ => true
  | _ => false

/-- The entry that uvmunmap is about to clear after it has freed the page. -/
def MemCmd.clearsAt {β : Type} : MemCmd β → Option PtePtr
  | .clearPte pte => some pte
  | _ => none

/-- The command that must come next for an entry of the ledger. -/
def Atom.Awaits {β : Type} (c : MemCmd β) : Atom → Prop
  | .copying .. => c.isCount = true
  | .clearing S v _ _ => ∃ q, S.node (0, v / 512) = some q ∧ c.clearsAt = some (q, v % 512)
  | _ => True

theorem Quiet.awaits {β : Type} {r : Multiset Atom} (h : Quiet r) (c : MemCmd β) :
    ∀ a ∈ r, a.Awaits c := by
  intro a ha
  have hquiet := h a ha
  cases a with
  | copying old new v l => cases hquiet
  | clearing S v l first => cases hquiet
  | _ => trivial

/-- The entry that mappages is about to write. -/
def MemCmd.mapsAt {β : Type} : MemCmd β → Option PtePtr
  | .mapPte pte _ => some pte
  | _ => none

/-- An uncounted mapping is counted and the entry of a freed page is cleared by the next
command, and mappages only writes entries that are not valid. -/
structure Adm {β : Type} (r : Multiset Atom) (s : Kmem) (c : MemCmd β) : Prop where
  window : ∀ a ∈ r, a.Awaits c
  fresh : ∀ pte, c.mapsAt = some pte →
    Pte.has (loadPte (s.mem pte.1) pte.2) PTE_V = false

/-- The memory code over the ledger. -/
def logic (K : Image) : Logic MemCmd Kmem KErr (Multiset Atom) where
  exec := handler K
  inv := Inv K
  adm := Adm

/-- A program of the kernel that has no excuse to fail returns. -/
theorem safe_returns {K : Image} {α : Type} {p : P α} {r F : Multiset Atom} {s : Kmem}
    {post : α → Multiset Atom → Prop} (h : Safe (logic K) (fun _ => False) p r post)
    (hinv : Inv K (r + F) s) : ∃ value s' r',
      p.run (handler K) s = .ok (value, s') ∧ Inv K (r' + F) s' ∧ post value r' :=
  h.returns hinv

theorem Adm.of_quiet {β : Type} {r : Multiset Atom} {s : Kmem} {c : MemCmd β}
    (hr : Quiet r) (hc : c.mapsAt = none) : Adm r s c where
  window := hr.awaits c
  fresh pte hpte := by
    rw [hc] at hpte
    cases hpte

variable {K : Image} {E : KErr → Prop} {r : Multiset Atom}

/-- A command that succeeds in every state in which the thread's part of the
ledger can occur. -/
theorem safe_ok {β : Type} {c : MemCmd β} {post : β → Multiset Atom → Prop}
    (h : ∀ F s, Inv K (r + F) s → Adm r s c ∧ ∃ answer s' r',
      handler K _ c s = .ok (answer, s') ∧ Inv K (r' + F) s' ∧ post answer r') :
    Safe (logic K) E (Prog.cmd c) r post := by
  apply Safe.cmd
  intro F s hinv
  obtain ⟨hadm, answer, s', r', hexec, hinv', hpost⟩ := h F s hinv
  refine ⟨hadm, ?_⟩
  have hlogic : (logic K).exec _ c s = .ok (answer, s') := hexec
  simp only [hlogic]
  exact ⟨r', hinv', hpost⟩

/-- A page from kalloc, or nothing. -/
theorem safe_kalloc (hr : Quiet r) :
    Safe (logic K) E (Prog.cmd .kalloc) r fun p r' =>
      (p = 0 ∧ r' = r) ∨ (K.Frame p ∧ r' = {.page p (fun _ => 5) true} + r) := by
  apply safe_ok
  intro F s hinv
  refine ⟨Adm.of_quiet hr rfl, ?_⟩
  by_cases hzero : s.freelist = 0
  · exact ⟨0, s, r, kalloc_zero hinv.unlocked hzero, hinv, Or.inl ⟨rfl, rfl⟩⟩
  · obtain ⟨hframe, hinv'⟩ := hinv.popped rfl hzero
    refine ⟨s.freelist, s.popped s.freelist, _, ?_, ?_, Or.inr ⟨hframe, rfl⟩⟩
    · exact kalloc_pop hinv.unlocked rfl hzero hframe.inRam
    · rwa [add_assoc]

theorem safe_kfree {p : Nat} {d : Arr} {b : Bool} (hr : Quiet r) :
    Safe (logic K) E (Prog.cmd (.kfree p)) ({.page p d b} + r) fun _ r' => r' = r := by
  apply safe_ok
  intro F s hinv
  refine ⟨Adm.of_quiet ((quiet_page p d b).add hr) rfl, ?_⟩
  rw [add_assoc] at hinv
  obtain ⟨hframe, hcount, hinv'⟩ := hinv.pushed
  exact ⟨(), s.pushed p, r, kfree_last hinv.unlocked hframe (Or.inl hcount), hinv', rfl⟩

/-- Kernel code may overwrite a page that it holds. -/
theorem Inv.wrote_page {F : Multiset Atom} {s : Kmem} {p : Nat} {d : Arr} {b : Bool}
    (h : Inv K ({.page p d b} + F) s) (d' : Arr) :
    K.Frame p ∧ s.mem p = d ∧ Inv K ({.page p d' b} + F) (s.wrote p d') := by
  obtain ⟨hframe, hdata, hfresh⟩ := h.ok (.page p d b) (by simp)
  have huse : total .kernel {Atom.page p d b} p = 1 := by simp [Atom.use]
  refine ⟨hframe, hdata, ?_⟩
  refine h.rewrite (by rfl) (by rfl) (by rfl) ?_ ?_ ?_
  · intro f hf
    have hfp : f = p := by
      by_contra hne
      simp [hne] at hf
    subst hfp
    exact ⟨h.touched_eq_zero_of_kernel (by omega), fun _ => by omega⟩
  · intro a ha
    rw [Multiset.mem_singleton.mp ha]
    exact ⟨hframe, by simp, hfresh⟩
  · intro t f
    simp [Atom.use]

theorem safe_memset {p : Nat} {d : Arr} {b : Bool} {c : UInt8} (hr : Quiet r) :
    Safe (logic K) E (Prog.cmd (.memset p c)) ({.page p d b} + r) fun _ r' =>
      r' = {.page p (fun _ => c) b} + r := by
  apply safe_ok
  intro F s hinv
  refine ⟨Adm.of_quiet ((quiet_page p d b).add hr) rfl, ?_⟩
  rw [add_assoc] at hinv
  obtain ⟨hframe, -, hinv'⟩ := hinv.wrote_page fun _ => c
  refine ⟨(), s.wrote p fun _ => c, _, ?_, ?_, rfl⟩
  · change memset p c s = _
    simp [memset, writePage, hframe.inRam, Kmem.wrote]
  · rwa [add_assoc]

theorem readPage_ok {s : Kmem} {p : Nat} (h : inRam p = true) :
    readPage p s = .ok (s.mem p, s) := by simp [readPage, h]

theorem writePage_ok {s : Kmem} {p : Nat} (h : inRam p = true) (page : Arr) :
    writePage p page s = .ok ((), s.wrote p page) := by simp [writePage, h, Kmem.wrote]

theorem readPteAt_ok {s : Kmem} {pte : PtePtr} (h : inRam pte.1 = true) :
    readPteAt pte s = .ok (loadPte (s.mem pte.1) pte.2, s) := by
  rw [readPteAt, KM.bind_ok (readPage_ok h)]
  rfl

theorem writePteAt_ok {s : Kmem} {pte : PtePtr} (h : inRam pte.1 = true) (w : Pte) :
    writePteAt pte w s =
      .ok ((), s.wrote pte.1 (storePte (s.mem pte.1) pte.2 w)) := by
  rw [writePteAt, KM.bind_ok (readPage_ok h), writePage_ok h]

/-- Read an entry of a table page that kernel code holds by itself. -/
theorem safe_readPte_page {p i : Nat} {d : Arr} {b : Bool} (hr : Quiet r) :
    Safe (logic K) E (Prog.cmd (.readPte (p, i))) ({.page p d b} + r) fun w r' =>
      w = loadPte d i ∧ r' = {.page p d b} + r := by
  apply safe_ok
  intro F s hinv
  refine ⟨Adm.of_quiet ((quiet_page p d b).add hr) rfl, ?_⟩
  obtain ⟨hframe, hdata, -⟩ := hinv.ok (.page p d b) (by simp)
  exact ⟨loadPte (s.mem p) i, s, _, readPteAt_ok hframe.inRam, hinv, by rw [hdata], rfl⟩

theorem safe_writePte_page {p i : Nat} {d : Arr} {b : Bool} {w : Pte} (hr : Quiet r) :
    Safe (logic K) E (Prog.cmd (.writePte (p, i) w)) ({.page p d b} + r) fun _ r' =>
      r' = {.page p (storePte d i w) b} + r := by
  apply safe_ok
  intro F s hinv
  refine ⟨Adm.of_quiet ((quiet_page p d b).add hr) rfl, ?_⟩
  rw [add_assoc] at hinv
  obtain ⟨hframe, hdata, hinv'⟩ := hinv.wrote_page (storePte d i w)
  refine ⟨(), s.wrote p (storePte d i w), _, ?_, ?_, rfl⟩
  · rw [← hdata]
    exact writePteAt_ok hframe.inRam w
  · rwa [add_assoc]

/-- A program that stops with an allowed error. -/
theorem safe_stop {α : Type} {e : KErr} {post : α → Multiset Atom → Prop}
    (hr : Quiet r) (he : E e) : Safe (logic K) E (stop e) r post := by
  apply Safe.stop
  intro F s _
  exact ⟨Adm.of_quiet hr rfl, e, rfl, he⟩

end Xv6.Vm
