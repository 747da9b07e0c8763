/-
The loop of copyout over a range of pages: it writes all bytes of the range, or stops at the
first page that the user may not write.
-/
import Xv6.Vm.Copyout

namespace Xv6.Vm

open Bytes Program Interleave Refs

variable {K : Image} {s s' : Kmem} {S S' : Space} {F : Multiset Atom} {scause dstva n v : Nat}
  {src : List UInt8} {l : Leaf}

/-- A page that copyout may write: valid, the user's, and writable or copy-on-write. -/
def writableAt (mem : Nat → Arr) (pagetable v : Nat) : Bool :=
  let w := lookup mem pagetable (v * PGSIZE)
  decide (v * PGSIZE < MAXVA) && w.has PTE_V && w.has PTE_U && (w.has PTE_W || w.has PTE_COW)

def cowAt (mem : Nat → Arr) (pagetable v : Nat) : Bool :=
  (lookup mem pagetable (v * PGSIZE)).has PTE_COW

/-- A copy-on-write page with other references. -/
def sharedAt (s : Kmem) (pagetable v : Nat) : Bool :=
  cowAt s.mem pagetable v &&
    decide (1 < s.refCount (countIndex (PTE2PA (lookup s.mem pagetable (v * PGSIZE)))))

/-- The frames that copyout needs for `n` pages from `v` on. -/
def sharedPages (s : Kmem) (pagetable v n : Nat) : Nat :=
  (List.range n).countP fun i => sharedAt s pagetable (v + i)

/-- A page of the space that copyout may write. -/
def Space.Writable (S : Space) (v : Nat) (l : Leaf) : Prop :=
  S.leaf v = some l ∧ l.fl.has PTE_U = true ∧ (l.fl.has PTE_W = true ∨ l.fl.has PTE_COW = true)

section decode

variable (h : S.Ok K s)
include h

theorem Space.Ok.lookup_leaf (hv : v < USERPAGES) (hl : S.leaf v = some l) :
    lookup s.mem S.root (v * PGSIZE) = encodeLeaf (some l) := by
  rw [h.table.lookup (lt_MAXVA_of_page (by omega)), Nat.mul_div_cancel v (by decide), hl]

theorem Space.Ok.writableAt_iff :
    writableAt s.mem S.root v = true ↔ ∃ l, S.Writable v l := by
  simp only [writableAt, Bool.and_eq_true, Bool.or_eq_true, decide_eq_true_eq, and_assoc]
  constructor
  · rintro ⟨hva, hV, hU, hW⟩
    rw [h.table.lookup hva, Nat.mul_div_cancel v (by decide)] at hV hU hW
    cases hl : S.leaf v with
    | none =>
        rw [hl] at hV
        exact absurd hV (by decide)
    | some l =>
        rw [hl] at hU hW
        rw [h.has hl (by decide)] at hU
        rw [h.has hl (by decide), h.has hl (by decide)] at hW
        exact ⟨l, hl, hU, hW⟩
  · rintro ⟨l, hl, hU, hW⟩
    have hv := h.lt_of_user hl hU
    rw [h.lookup_leaf hv hl, h.has hl (by decide), h.has hl (by decide), h.has hl (by decide),
      h.has hl (by decide)]
    exact ⟨lt_MAXVA_of_page (by omega), h.valid hl, hU, hW⟩

theorem Space.Ok.cowAt_eq (hv : v < USERPAGES) (hl : S.leaf v = some l) :
    cowAt s.mem S.root v = l.fl.has PTE_COW := by
  rw [cowAt, h.lookup_leaf hv hl, h.has hl (by decide)]

theorem Space.Ok.sharedAt_iff (hv : v < USERPAGES) (hl : S.leaf v = some l) :
    sharedAt s S.root v = true ↔ l.Shared s := by
  rw [sharedAt, h.cowAt_eq hv hl, h.lookup_leaf hv hl, (h.user v l hv hl).PTE2PA,
    Bool.and_eq_true, decide_eq_true_eq]
  rfl

end decode

theorem sharedPages_zero (s : Kmem) (pagetable v : Nat) : sharedPages s pagetable v 0 = 0 := rfl

theorem sharedPages_succ (s : Kmem) (pagetable v n : Nat) :
    sharedPages s pagetable v (n + 1) =
      (if sharedAt s pagetable v then 1 else 0) + sharedPages s pagetable (v + 1) n := by
  have hshift : ((fun i => sharedAt s pagetable (v + i)) ∘ Nat.succ) =
      fun i => sharedAt s pagetable (v + 1 + i) := by
    funext i
    simp only [Function.comp, Nat.succ_eq_add_one]
    rw [Nat.add_comm i 1, Nat.add_assoc]
  rw [sharedPages, List.range_succ_eq_map, List.countP_cons, List.countP_map, hshift,
    Nat.add_comm]
  rfl

theorem sharedPages_succ' (s : Kmem) (pagetable v n : Nat) :
    sharedPages s pagetable v (n + 1) =
      sharedPages s pagetable v n + (if sharedAt s pagetable (v + n) then 1 else 0) := by
  simp only [sharedPages, List.range_succ, List.countP_append, List.countP_singleton]

theorem sharedPages_mono {pagetable m : Nat} (h : m ≤ n) :
    sharedPages s pagetable v m ≤ sharedPages s pagetable v n := by
  obtain ⟨d, rfl⟩ := Nat.exists_eq_add_of_le h
  induction d with
  | zero => exact le_rfl
  | succ d ih =>
      rw [← Nat.add_assoc, sharedPages_succ']
      exact (ih (Nat.le_add_right _ _)).trans (Nat.le_add_right _ _)

theorem sharedPages_eq_zero {pagetable : Nat}
    (h : ∀ i, i < n → cowAt s.mem pagetable (v + i) = false) :
    sharedPages s pagetable v n = 0 := by
  rw [sharedPages, List.countP_eq_zero]
  intro i hi
  rw [sharedAt, h i (List.mem_range.mp hi), Bool.false_and]
  exact Bool.false_ne_true

theorem sharedPages_congr {pagetable : Nat}
    (h : ∀ i, i < n → sharedAt s' pagetable (v + i) = sharedAt s pagetable (v + i)) :
    sharedPages s' pagetable v n = sharedPages s pagetable v n := by
  apply List.countP_congr
  intro i hi
  rw [h i (List.mem_range.mp hi)]

/-- The state of copyout after `k` pages, of which it has written the bytes `done`. -/
structure Progress (K : Image) (F : Multiset Atom) (S S' : Space) (s s' : Kmem)
    (dstva k : Nat) (done : List UInt8) : Prop where
  inv : Inv K ({.space S'} + F) s'
  root : S'.root = S.root
  node : S'.node = S.node
  leaf : ∀ u, u < dstva / PGSIZE ∨ dstva / PGSIZE + k ≤ u → S'.leaf u = S.leaf u
  entries : ∀ u, dstva / PGSIZE ≤ u → u < dstva / PGSIZE + k →
    ∃ l, S'.leaf u = some l ∧ l.fl.has PTE_W = true ∧ l.fl.has PTE_COW = false
  bytes : Wrote (userByte s.mem S.root) (userByte s'.mem S.root) dstva done
  short : dstva + done.length ≤ max dstva ((dstva / PGSIZE + k) * PGSIZE)
  free : (freeFrames K s').card + sharedPages s S.root (dstva / PGSIZE) k = (freeFrames K s).card
  count : ∀ u l, dstva / PGSIZE + k ≤ u → u < USERPAGES → S.leaf u = some l →
    s'.refCount (countIndex l.pa) = s.refCount (countIndex l.pa)

/-- copyout gets past the pages that it may write if there are frames for the shared ones. -/
theorem run_copyoutLoop_good (k scause n dstva : Nat) (src : List UInt8)
    (h : Inv K ({.space S} + F) s) (hn : src.length ≤ n)
    (hk : k ≤ pageCount dstva src.length)
    (hgood : ∀ i, i < k → ∃ l, S.Writable (dstva / PGSIZE + i) l ∧
      (l.fl.has PTE_COW = true → scause ≠ 13))
    (hfree : sharedPages s S.root (dstva / PGSIZE) k ≤ (freeFrames K s).card) :
    ∃ n' a done rest s' S', (copyoutLoop S.root scause n dstva src).run (handler K) s =
        (copyoutLoop S.root scause n' a rest).run (handler K) s' ∧ src = done ++ rest ∧
      rest.length ≤ n' ∧ a / PGSIZE = dstva / PGSIZE + k ∧
      pageCount a rest.length + k = pageCount dstva src.length ∧
      Progress K F S S' s s' dstva k done := by
  induction k generalizing S s dstva src n with
  | zero =>
      refine ⟨n, dstva, [], src, s, S, rfl, rfl, hn, (Nat.add_zero _).symm, Nat.add_zero _, h,
        rfl, rfl, fun _ _ => rfl, fun u hlo hhi => by omega, .nil _ _, Nat.le_max_left .., ?_,
        fun _ _ _ _ _ => rfl⟩
      rw [sharedPages_zero, Nat.add_zero]
  | succ k ih =>
      obtain ⟨l, ⟨hl, hu, hw⟩, hcause⟩ := hgood 0 (Nat.succ_pos k)
      rw [Nat.add_zero] at hl
      have hok := h.space_ok
      have hv := hok.lt_of_user hl hu
      have hpos : 0 < src.length := by
        by_contra hzero
        rw [pageCount, if_pos (by omega)] at hk
        omega
      obtain ⟨m, rfl⟩ : ∃ m, n = m + 1 := ⟨n - 1, by omega⟩
      obtain ⟨len, hlen⟩ : ∃ len,
        len = min (PGSIZE - (dstva - PGROUNDDOWN dstva)) src.length := ⟨_, rfl⟩
      have hchunk := chunk_pos dstva
      rw [sharedPages_succ] at hfree
      have hshared := hok.sharedAt_iff hv hl
      obtain ⟨s₁, S₁, hrun, hinv₁, hpage⟩ := run_copyoutPage_good h (src.take len) hl hu
        hw hcause fun hs => by
          rw [if_pos (hshared.mpr hs)] at hfree
          rw [ne_eq, h.free.freelist_eq_zero]
          omega
      have hok₁ := hinv₁.space_ok
      have htake : (src.take len).length = len := by
        rw [List.length_take]
        omega
      have hnext : (PGROUNDDOWN dstva + PGSIZE) / PGSIZE = dstva / PGSIZE + 1 := by
        rw [Nat.add_div_right _ (by decide), PGROUNDDOWN_div]
      have hcount := pageCount_step (a := dstva) hpos
      rw [← hlen, ← List.length_drop] at hcount
      -- the other pages keep their entries and their counts
      have hcounts : ∀ u l', u ≠ dstva / PGSIZE → u < USERPAGES → S.leaf u = some l' →
          s₁.refCount (countIndex l'.pa) = s.refCount (countIndex l'.pa) := by
        intro u l' hne hu' hl'
        have hleaf' := hok.user u l' hu' hl'
        refine hpage.count _ hleaf'.frame ?_ (h.count_pos_of_user hu' hl')
        intro heq
        exact hne (refs_inj (hok.inj l.pa) (mem_userIx.mpr hu') (mem_userIx.mpr hv)
          (Space.frames_eq_some.mpr ⟨l', hl', heq⟩) (Space.frames_eq_some.mpr ⟨l, hl, rfl⟩))
      have hsame : sharedPages s₁ S.root (dstva / PGSIZE + 1) k =
          sharedPages s S.root (dstva / PGSIZE + 1) k := by
        apply sharedPages_congr
        intro i hi
        obtain ⟨l', ⟨hl', hu', -⟩, -⟩ := hgood (i + 1) (by omega)
        rw [← Nat.add_assoc, Nat.add_right_comm] at hl'
        have hv' := hok.lt_of_user hl' hu'
        have hl₁ : S₁.leaf (dstva / PGSIZE + 1 + i) = some l' := by
          rw [hpage.leaf _ (by omega), hl']
        have hiff₁ := hok₁.sharedAt_iff hv' hl₁
        have hiff := hok.sharedAt_iff hv' hl'
        rw [hpage.root] at hiff₁
        rw [Bool.eq_iff_iff, hiff₁, hiff, Leaf.Shared, Leaf.Shared,
          hcounts _ l' (by omega) hv' hl']
      have hcard := hpage.free
      have hifs : (if sharedAt s S.root (dstva / PGSIZE) then 1 else 0) =
          if l.Shared s then 1 else 0 := if_congr hshared rfl rfl
      rw [hifs] at hfree
      obtain ⟨n', a, done, rest, s', S', hloop, hsplit, hn', ha, hpages, hprog⟩ :=
        ih (S := S₁) (s := s₁) m (PGROUNDDOWN dstva + PGSIZE) (src.drop len) hinv₁
          (by rw [List.length_drop]; omega) (by omega)
          (by
            intro i hi
            obtain ⟨l', ⟨hl', hu', hw'⟩, hcause'⟩ := hgood (i + 1) (by omega)
            refine ⟨l', ⟨?_, hu', hw'⟩, hcause'⟩
            rw [hnext, hpage.leaf _ (by omega), Nat.add_assoc, Nat.add_comm 1 i, hl'])
          (by
            rw [hnext, hpage.root, hsame]
            omega)
      rw [hpage.root] at hloop
      have hbytes := hprog.bytes
      rw [hpage.root] at hbytes
      refine ⟨n', a, src.take len ++ done, rest, s', S', ?_, ?_, hn', ?_, by omega,
        hprog.inv, hprog.root.trans hpage.root, hprog.node.trans hpage.node, ?_, ?_, ?_, ?_, ?_, ?_⟩
      · rw [copyoutLoop, if_neg (by omega), ← hlen, Prog.run_bind_ok hrun, if_neg (by decide)]
        exact hloop
      · rw [List.append_assoc, ← hsplit, List.take_append_drop]
      · rw [ha, hnext]
        omega
      · intro u hu'
        rw [hprog.leaf u (by omega), hpage.leaf u (by omega)]
      · intro u hlo hhi
        by_cases hfirst : u = dstva / PGSIZE
        · obtain ⟨l', hl', -, hw', hcow'⟩ := hpage.entry
          refine ⟨l', ?_, hw', hcow'⟩
          rw [hfirst, hprog.leaf _ (by omega), hl']
        · exact hprog.entries u (by omega) (by omega)
      · refine (hpage.wrote hok hok₁ hl hu (by omega)).append hbytes ?_
        intro hdone
        have hrest : 0 < (src.drop len).length := by
          rw [hsplit, List.length_append]
          exact Nat.add_pos_left (List.length_pos_of_ne_nil hdone) _
        rw [List.length_drop] at hrest
        have hchunks := next_chunk dstva
        omega
      · have hshort := hprog.short
        have hdown : PGROUNDDOWN dstva = dstva / PGSIZE * PGSIZE := rfl
        have hchunks := next_chunk dstva
        rw [hnext] at hshort
        rw [List.length_append, htake]
        simp only [PGSIZE] at hshort hchunks hdown hlen ⊢
        omega
      · have hfree' := hprog.free
        rw [hnext, hpage.root, hsame] at hfree'
        rw [sharedPages_succ, hifs]
        omega
      · intro u l' hlo hu' hl'
        have hl₁ : S₁.leaf u = some l' := by rw [hpage.leaf u (by omega), hl']
        rw [hprog.count u l' (by omega) hu' hl₁]
        exact hcounts u l' (by omega) hu' hl'

section stop

variable {a : Nat}

/-- copyout stops where a page is refused. -/
theorem run_copyoutLoop_refuse {pagetable : Nat} (hn : src.length ≤ n) (hpos : 0 < src.length)
    (hpage : ∀ chunk, (copyoutPage pagetable scause a chunk).run (handler K) s = .ok (-1, s)) :
    (copyoutLoop pagetable scause n a src).run (handler K) s = .ok (-1, s) := by
  obtain ⟨m, rfl⟩ : ∃ m, n = m + 1 := ⟨n - 1, by omega⟩
  rw [copyoutLoop, if_neg (by omega), Prog.run_bind_ok (hpage _), if_pos rfl]
  rfl

theorem run_copyoutLoop_error {pagetable : Nat} {e : KErr} (hn : src.length ≤ n)
    (hpos : 0 < src.length)
    (hpage : ∀ chunk, (copyoutPage pagetable scause a chunk).run (handler K) s = .error e) :
    (copyoutLoop pagetable scause n a src).run (handler K) s = .error e := by
  obtain ⟨m, rfl⟩ : ∃ m, n = m + 1 := ⟨n - 1, by omega⟩
  rw [copyoutLoop, if_neg (by omega)]
  exact Prog.run_bind_error (hpage _)

end stop

theorem pageCount_pos {a len : Nat} (h : 0 < pageCount a len) : 0 < len := by
  by_contra hzero
  rw [pageCount, if_pos (by omega)] at h
  omega

/-- The pages of a range, by their numbers. -/
theorem lt_pageCount (a len : Nat) {u : Nat} (hlen : 0 < len) (hlo : a / PGSIZE ≤ u) :
    u - a / PGSIZE < pageCount a len ↔ u * PGSIZE < a + len := by
  rw [pageCount, if_neg (by omega)]
  simp only [PGSIZE] at hlo ⊢
  omega

/-- Two processes at rest have two spaces in the ledger. -/
theorem Sys.Reachable.spaces {sys : Sys} (h : sys.Reachable K) {p q : Proc}
    (hp : p ∈ sys.procs) (hq : q ∈ sys.procs) (hne : q ≠ p) :
    ∃ S T m m' F, S.Is K p.mem m ∧ T.Is K q.mem m' ∧
      Inv K ({.space S} + ({.space T} + F)) sys.k := by
  obtain ⟨R, hok⟩ := h.ok
  obtain ⟨a, b, c, hledger⟩ := hok.ledger
  obtain ⟨i, hi⟩ := List.mem_iff_getElem?.mp hp
  obtain ⟨a₁, a₂, ⟨m, -, S, d, hS, rfl⟩, hrest, rfl⟩ := hledger.procs.get hi
  have hq' : q ∈ sys.procs.eraseIdx i := by
    have hperm := List.getElem_cons_eraseIdx_perm (List.getElem?_eq_some_iff.mp hi).1
    rcases List.mem_cons.mp (hperm.mem_iff.mpr hq) with heq | hmem
    · exact absurd (heq.trans (List.getElem?_eq_some_iff.mp hi).2) hne
    · exact hmem
  obtain ⟨j, hj⟩ := List.mem_iff_getElem?.mp hq'
  obtain ⟨a₃, a₄, ⟨m', -, T, d', hT, rfl⟩, -, rfl⟩ := hrest.get hj
  refine ⟨S, T, m, m', {.page p.mem.trapframe d false} + ({.page q.mem.trapframe d' false} +
    (a₄ + (c + (b + tokens sys.roots)))), hS, hT, ?_⟩
  have hinv := hledger.inv
  have hsum : c + ({.space S} + {.page p.mem.trapframe d false} +
      ({.space T} + {.page q.mem.trapframe d' false} + a₄) + (b + tokens sys.roots)) =
      {.space S} + ({.space T} + ({.page p.mem.trapframe d false} +
        ({.page q.mem.trapframe d' false} + (a₄ + (c + (b + tokens sys.roots)))))) := by
    ac_rfl
  rwa [hsum] at hinv

/-- copyin reads the bytes that were written. -/
theorem run_copyin_of_wrote {pagetable : Nat} {f : Nat → Option UInt8}
    (h : Resident s.mem pagetable) (hw : Wrote f (userByte s.mem pagetable) dstva src) :
    (copyin pagetable dstva src.length).run (handler K) s = .ok ((0, src), s) := by
  have hbyte : ∀ i, i < src.length →
      userByte s.mem pagetable (dstva + i) = some (src.getD i 0) := by
    intro i hi
    rw [hw, if_pos (by omega), Nat.add_sub_cancel_left]
  obtain ⟨⟨r, bytes⟩, hrun, hexact⟩ :=
    copyinLoop_exact (K := K) h dstva src.length (le_refl src.length)
  cases hexact with
  | bad hlen hread hbad =>
      rw [hbyte _ hlen] at hbad
      cases hbad
  | all hlen hread =>
      have heq : bytes = src := by
        apply List.ext_getElem?
        intro i
        rcases Nat.lt_or_ge i src.length with hlt | hge
        · have hb := List.getElem?_eq_getElem (l := bytes) (i := i) (by omega)
          have hval := (hread i _ hb).symm.trans (hbyte i hlt)
          rw [hb, hval, List.getD_eq_getElem?_getD, List.getElem?_eq_getElem hlt]
          rfl
        · rw [List.getElem?_eq_none (by omega), List.getElem?_eq_none hge]
      rw [heq] at hrun
      exact hrun.run

theorem pageCount_eq_zero {a len : Nat} (h : pageCount a len = 0) : len = 0 := by
  by_contra hne
  have hlt := (lt_pageCount a len (Nat.pos_of_ne_zero hne) (le_refl (a / PGSIZE))).mpr (by
    have := Nat.div_mul_le_self a PGSIZE
    omega)
  omega

/-- The pages of a range are the pages of its addresses. -/
theorem exists_address {a len i : Nat} (hi : i < pageCount a len) :
    ∃ va, a ≤ va ∧ va < a + len ∧ va / PGSIZE = a / PGSIZE + i := by
  have hlen := pageCount_pos (Nat.zero_lt_of_lt hi)
  have hlt := (lt_pageCount a len (u := a / PGSIZE + i) hlen (by omega)).mp (by omega)
  refine ⟨max a ((a / PGSIZE + i) * PGSIZE), by omega, by omega, ?_⟩
  simp only [PGSIZE]
  omega

/-- copyout to a range of pages that it may write. -/
theorem Inv.copyout_all (h : Inv K ({.space S} + F) s) (hcause : scause ≠ 13)
    (hpages : ∀ va, dstva ≤ va → va < dstva + src.length →
      writableAt s.mem S.root (va / PGSIZE) = true)
    (hfree : sharedPages s S.root (dstva / PGSIZE) (pageCount dstva src.length) ≤
      (freeFrames K s).card) :
    ∃ s' S', (copyout S.root dstva src scause).run (handler K) s = .ok (0, s') ∧
      Progress K F S S' s s' dstva (pageCount dstva src.length) src := by
  obtain ⟨n', a, done, rest, s', S', hloop, hsplit, -, -, hcount, hprog⟩ :=
    run_copyoutLoop_good (pageCount dstva src.length) scause _ dstva src h (le_refl _)
      le_rfl (fun i hi => by
        obtain ⟨va, hlo, hhi, hva⟩ := exists_address hi
        obtain ⟨l, hl⟩ := h.space_ok.writableAt_iff.mp (hpages va hlo hhi)
        exact ⟨l, hva ▸ hl, fun _ => hcause⟩) hfree
  have hrest : rest = [] :=
    List.eq_nil_of_length_eq_zero (pageCount_eq_zero (a := a) (by omega))
  rw [hrest, List.append_nil] at hsplit
  subst hsplit
  refine ⟨s', S', hloop.trans ?_, hprog⟩
  rw [hrest]
  cases n' with
  | zero => rfl
  | succ n' => rfl

theorem Inv.other_space {r : Multiset Atom} {T : Space} (h : Inv K (r + ({.space T} + F)) s) :
    T.Ok K s := h.ok (.space T) (by simp)

/-- copyout writes the requested bytes and nothing else. -/
theorem copyout_writes_exactly {sys : Sys} (h : sys.Reachable K) {p : Proc}
    (hp : p ∈ sys.procs) (hcause : scause ≠ 13)
    (hpages : ∀ va, dstva ≤ va → va < dstva + src.length →
      writableAt sys.k.mem p.mem.pagetable (va / PGSIZE) = true)
    (hfree : sharedPages sys.k p.mem.pagetable (dstva / PGSIZE) (pageCount dstva src.length) ≤
      (freeFrames K sys.k).card) :
    ∃ k, (copyout p.mem.pagetable dstva src scause).run (handler K) sys.k = .ok (0, k) ∧
      (copyin p.mem.pagetable dstva src.length).run (handler K) k = .ok ((0, src), k) ∧
      (∀ va, va < dstva ∨ dstva + src.length ≤ va →
        userByte k.mem p.mem.pagetable va = userByte sys.k.mem p.mem.pagetable va) ∧
      (∀ q ∈ sys.procs, q ≠ p → ∀ va,
        userByte k.mem q.mem.pagetable va = userByte sys.k.mem q.mem.pagetable va) ∧
      ∀ va, dstva ≤ va → va < dstva + src.length →
        (lookup k.mem p.mem.pagetable va).has PTE_W = true ∧
          (lookup k.mem p.mem.pagetable va).has PTE_COW = false := by
  obtain ⟨S, m, F, hS, hinv⟩ := h.space hp
  have hroot := hS.root
  rw [← hroot] at hpages hfree ⊢
  obtain ⟨k, S', hrun, hprog⟩ := hinv.copyout_all hcause hpages hfree
  have hok' := hprog.inv.space_ok
  refine ⟨k, hrun, ?_, ?_, ?_, ?_⟩
  · have hres := hok'.resident
    rw [hprog.root] at hres
    exact run_copyin_of_wrote hres hprog.bytes
  · intro va hva
    exact hprog.bytes.of_not_mem (by omega)
  · -- the run is the same one when the ledger is split at another process
    intro q hq hne va
    obtain ⟨S₂, T, m₂, m', F₂, hS₂, hT, hinv₂⟩ := h.spaces hp hq hne
    have hroots : S.root = S₂.root := hroot.trans hS₂.root.symm
    rw [hroots] at hpages hfree hrun
    obtain ⟨k₂, S₂', hrun₂, hprog₂⟩ := hinv₂.copyout_all hcause hpages hfree
    rw [hrun] at hrun₂
    obtain rfl : k = k₂ := (Prod.mk.inj (Except.ok.inj hrun₂)).2
    rw [← hT.root, hprog₂.inv.other_space.userByte, hinv₂.other_space.userByte]
  · intro va hlo hhi
    obtain ⟨l, hl, hu, -⟩ := hinv.space_ok.writableAt_iff.mp (hpages va hlo hhi)
    have hv := hinv.space_ok.lt_of_user hl hu
    have hva : va < MAXVA := by
      have hmax : USERPAGES * PGSIZE ≤ MAXVA := by decide
      rw [Nat.div_lt_iff_lt_mul (by decide)] at hv
      omega
    have hlast : va / PGSIZE < dstva / PGSIZE + pageCount dstva src.length := by
      have hle := Nat.div_mul_le_self va PGSIZE
      have hin := (lt_pageCount dstva src.length (u := va / PGSIZE) (by omega)
        (Nat.div_le_div_right hlo)).mpr (by omega)
      omega
    obtain ⟨l', hl', hw', hcow'⟩ :=
      hprog.entries (va / PGSIZE) (Nat.div_le_div_right hlo) hlast
    rw [← hprog.root, hok'.table.lookup hva, hl', hok'.has hl' (by decide),
      hok'.has hl' (by decide)]
    exact ⟨hw', hcow'⟩

/-- copyout returns -1, and has changed only pages before the page `b`. -/
def CopyoutRejects (K : Image) (k : Kmem) (pagetable dstva : Nat) (src : List UInt8)
    (scause b : Nat) : Prop :=
  ∃ k', (copyout pagetable dstva src scause).run (handler K) k = .ok (-1, k') ∧
    ∀ va, ¬ (dstva ≤ va ∧ va < b * PGSIZE) →
      userByte k'.mem pagetable va = userByte k.mem pagetable va

/-- The page is beyond MAXVA, or all its tables are there. -/
def reachedAt (mem : Nat → Arr) (pagetable v : Nat) : Bool :=
  decide (MAXVA ≤ v * PGSIZE) || (slotAt mem pagetable (v * PGSIZE)).isSome

/-- When copyout gets to the point where it can refuse the page `b`.  After a load page fault
it refuses the first copy-on-write page already. -/
def CanReject (K : Image) (k : Kmem) (pagetable dstva scause b : Nat) : Prop :=
  if scause = 13 then
    (∃ v, dstva / PGSIZE ≤ v ∧ v < b ∧ cowAt k.mem pagetable v = true) ∨
      reachedAt k.mem pagetable b = true
  else
    sharedPages k pagetable (dstva / PGSIZE) (b - dstva / PGSIZE) ≤ (freeFrames K k).card ∧
      reachedAt k.mem pagetable b = true

/-- The page `b` is the first one of the range that copyout may not write. -/
structure FirstBad (mem : Nat → Arr) (pagetable dstva len b : Nat) : Prop where
  len_pos : 0 < len
  le : dstva / PGSIZE ≤ b
  lt : b * PGSIZE < dstva + len
  before : ∀ v, dstva / PGSIZE ≤ v → v < b → writableAt mem pagetable v = true
  bad : writableAt mem pagetable b = false

section rejects

variable {b : Nat} (h : Inv K ({.space S} + F) s)
  (hb : FirstBad s.mem S.root dstva src.length b)
include h hb

/-- copyout gets to page `j` of the range. -/
theorem FirstBad.progress (scause j : Nat) (hj : dstva / PGSIZE + j ≤ b)
    (hcause : scause = 13 → ∀ i, i < j → cowAt s.mem S.root (dstva / PGSIZE + i) = false)
    (hfree : sharedPages s S.root (dstva / PGSIZE) j ≤ (freeFrames K s).card) :
    ∃ n' a rest done s' S', (copyout S.root dstva src scause).run (handler K) s =
        (copyoutLoop S.root scause n' a rest).run (handler K) s' ∧
      rest.length ≤ n' ∧ 0 < rest.length ∧ a / PGSIZE = dstva / PGSIZE + j ∧
      Progress K F S S' s s' dstva j done := by
  have hlast := (lt_pageCount dstva src.length hb.len_pos hb.le).mpr hb.lt
  obtain ⟨n', a, done, rest, s', S', hloop, -, hn', ha, hcount, hprog⟩ :=
    run_copyoutLoop_good j scause _ dstva src h (le_refl _) (by omega) (fun i hi => by
      obtain ⟨l, hl⟩ := h.space_ok.writableAt_iff.mp (hb.before _ (by omega)
        (show dstva / PGSIZE + i < b by omega))
      refine ⟨l, hl, fun hcow hload => ?_⟩
      have hv := h.space_ok.lt_of_user hl.1 hl.2.1
      have hnot := hcause hload i hi
      rw [h.space_ok.cowAt_eq hv hl.1, hcow] at hnot
      cases hnot) hfree
  exact ⟨n', a, rest, done, s', S', hloop, hn', pageCount_pos (a := a) (by omega), ha, hprog⟩

/-- copyout gets to the bad page. -/
theorem FirstBad.arrives (hcause : scause = 13 → ∀ i, dstva / PGSIZE + i < b →
      cowAt s.mem S.root (dstva / PGSIZE + i) = false)
    (hfree : sharedPages s S.root (dstva / PGSIZE) (b - dstva / PGSIZE) ≤
      (freeFrames K s).card) :
    ∃ n' a rest done s' S', (copyout S.root dstva src scause).run (handler K) s =
        (copyoutLoop S.root scause n' a rest).run (handler K) s' ∧
      rest.length ≤ n' ∧ 0 < rest.length ∧ a / PGSIZE = b ∧ PGROUNDDOWN a = b * PGSIZE ∧
      Progress K F S S' s s' dstva (b - dstva / PGSIZE) done := by
  have hle := hb.le
  obtain ⟨n', a, rest, done, s', S', hrun, hn', hpos, ha, hprog⟩ :=
    hb.progress h scause (b - dstva / PGSIZE) (by omega)
      (fun hload i hi => hcause hload i (by omega)) hfree
  have ha' : a / PGSIZE = b := by omega
  exact ⟨n', a, rest, done, s', S', hrun, hn', hpos, ha', by rw [PGROUNDDOWN, ha'], hprog⟩

/-- At a bad page beyond MAXVA or with all its tables copyout returns -1. -/
theorem FirstBad.refuses (hcause : scause = 13 → ∀ i, dstva / PGSIZE + i < b →
      cowAt s.mem S.root (dstva / PGSIZE + i) = false)
    (hfree : sharedPages s S.root (dstva / PGSIZE) (b - dstva / PGSIZE) ≤
      (freeFrames K s).card) (hreach : reachedAt s.mem S.root b = true) :
    CopyoutRejects K s S.root dstva src scause b := by
  obtain ⟨n', a, rest, done, s', S', hrun, hn', hpos, ha, hdown, hprog⟩ :=
    hb.arrives h hcause hfree
  have hle := hb.le
  have hpage : ∀ chunk,
      (copyoutPage S.root scause a chunk).run (handler K) s' = .ok (-1, s') := by
    intro chunk
    rw [← hprog.root]
    by_cases hmax : MAXVA ≤ b * PGSIZE
    · exact run_copyoutPage_high (by rwa [hdown])
    rw [reachedAt, decide_eq_false hmax, Bool.false_or] at hreach
    obtain ⟨pte, hpte⟩ := Option.isSome_iff_exists.mp hreach
    rw [h.space_ok.table.slotAt (by omega)] at hpte
    have hslot : S'.slot (PGROUNDDOWN a) = some pte := by
      rw [hdown, ← hpte, Space.slot, Space.slot, hprog.node]
    refine run_copyoutPage_bad hprog.inv (by omega) hslot ?_
    intro l hl hu
    rw [ha, hprog.leaf b (by omega)] at hl
    have hbad : ¬ ∃ l, S.Writable b l := by
      rw [← h.space_ok.writableAt_iff, hb.bad]
      exact Bool.false_ne_true
    constructor
    · by_contra hw
      exact hbad ⟨l, hl, hu, Or.inl (by simpa using hw)⟩
    · by_contra hcow
      exact hbad ⟨l, hl, hu, Or.inr (by simpa using hcow)⟩
  refine ⟨s', hrun.trans (run_copyoutLoop_refuse hn' hpos hpage), fun va hva => ?_⟩
  apply hprog.bytes.of_not_mem
  have hshort := hprog.short
  rw [Nat.add_sub_cancel' hle] at hshort
  omega

/-- Otherwise copyout reads the entry through a null pointer. -/
theorem FirstBad.reads_null (hcause : scause = 13 → ∀ i, dstva / PGSIZE + i < b →
      cowAt s.mem S.root (dstva / PGSIZE + i) = false)
    (hfree : sharedPages s S.root (dstva / PGSIZE) (b - dstva / PGSIZE) ≤
      (freeFrames K s).card) (hreach : reachedAt s.mem S.root b = false) :
    (copyout S.root dstva src scause).run (handler K) s = .error (.fault 0) := by
  obtain ⟨n', a, rest, done, s', S', hrun, hn', hpos, ha, hdown, hprog⟩ :=
    hb.arrives h hcause hfree
  rw [reachedAt, Bool.or_eq_false_iff, decide_eq_false_iff_not, Option.isSome_eq_false_iff,
    Option.isNone_iff_eq_none] at hreach
  rw [hrun]
  refine run_copyoutLoop_error hn' hpos fun chunk => ?_
  rw [← hprog.root]
  refine run_copyoutPage_null hprog.inv (by omega) ?_
  rw [hdown, Space.slot, hprog.node]
  have hnone := hreach.2
  rwa [h.space_ok.table.slotAt (by omega)] at hnone

/-- Whether copyout refuses a bad page that it gets to. -/
theorem FirstBad.stops (hcause : scause = 13 → ∀ i, dstva / PGSIZE + i < b →
      cowAt s.mem S.root (dstva / PGSIZE + i) = false)
    (hfree : sharedPages s S.root (dstva / PGSIZE) (b - dstva / PGSIZE) ≤
      (freeFrames K s).card) :
    CopyoutRejects K s S.root dstva src scause b ↔ reachedAt s.mem S.root b = true := by
  refine ⟨?_, hb.refuses h hcause hfree⟩
  rintro ⟨k', hret, -⟩
  by_contra hreach
  rw [hb.reads_null h hcause hfree (by simpa using hreach)] at hret
  cases hret

/-- After a load page fault copyout returns -1 at the first copy-on-write page. -/
theorem FirstBad.stops_load (hload : scause = 13)
    (hcow : ∃ i, dstva / PGSIZE + i < b ∧ cowAt s.mem S.root (dstva / PGSIZE + i) = true) :
    CopyoutRejects K s S.root dstva src scause b := by
  obtain ⟨j, ⟨hj, hcowj⟩, hmin⟩ : ∃ j, (dstva / PGSIZE + j < b ∧
      cowAt s.mem S.root (dstva / PGSIZE + j) = true) ∧
      ∀ i, i < j → cowAt s.mem S.root (dstva / PGSIZE + i) = false := by
    refine ⟨Nat.find hcow, Nat.find_spec hcow, fun i hi => ?_⟩
    have hnot := Nat.find_min hcow hi
    have hlt := (Nat.find_spec hcow).1
    simp only [not_and, Bool.not_eq_true] at hnot
    exact hnot (by omega)
  have hzero : sharedPages s S.root (dstva / PGSIZE) j = 0 := sharedPages_eq_zero hmin
  obtain ⟨n', a, rest, done, s', S', hrun, hn', hpos, ha, hprog⟩ :=
    hb.progress h scause j (by omega) (fun _ => hmin) (by omega)
  obtain ⟨l, hl, hu, -⟩ :=
    h.space_ok.writableAt_iff.mp (hb.before _ (Nat.le_add_right _ _) hj)
  have hv := h.space_ok.lt_of_user hl hu
  rw [h.space_ok.cowAt_eq hv hl] at hcowj
  have hl' : S'.leaf (a / PGSIZE) = some l := by rw [ha, hprog.leaf _ (by omega), hl]
  refine ⟨s', hrun.trans (run_copyoutLoop_refuse hn' hpos fun chunk => ?_), fun va hva => ?_⟩
  · rw [← hprog.root, hload]
    exact run_copyoutPage_load hprog.inv hl' hu hcowj
  · apply hprog.bytes.of_not_mem
    have hshort := hprog.short
    have hle : (dstva / PGSIZE + j) * PGSIZE ≤ b * PGSIZE := Nat.mul_le_mul_right _ hj.le
    omega

/-- Without frames for the shared pages copyout writes to address 0. -/
theorem FirstBad.runs_out (hload : scause ≠ 13)
    (hfree : (freeFrames K s).card <
      sharedPages s S.root (dstva / PGSIZE) (b - dstva / PGSIZE)) :
    (copyout S.root dstva src scause).run (handler K) s = .error (.fault 0) := by
  -- the first page for which there is no frame left
  have hex : ∃ j, (freeFrames K s).card < sharedPages s S.root (dstva / PGSIZE) j := ⟨_, hfree⟩
  obtain ⟨j, hj, hmin⟩ : ∃ j, (freeFrames K s).card <
      sharedPages s S.root (dstva / PGSIZE) (j + 1) ∧
      sharedPages s S.root (dstva / PGSIZE) j ≤ (freeFrames K s).card := by
    have hspec := Nat.find_spec hex
    obtain ⟨j, hj⟩ : ∃ j, Nat.find hex = j + 1 := by
      refine Nat.exists_eq_succ_of_ne_zero fun hzero => ?_
      rw [hzero, sharedPages_zero] at hspec
      omega
    refine ⟨j, by rwa [hj] at hspec, ?_⟩
    have hnot := Nat.find_min hex (m := j) (by omega)
    omega
  have hjb : dstva / PGSIZE + j < b := by
    by_contra hge
    have hmono : sharedPages s S.root (dstva / PGSIZE) (b - dstva / PGSIZE) ≤
        sharedPages s S.root (dstva / PGSIZE) j := sharedPages_mono (by omega)
    omega
  rw [sharedPages_succ'] at hj
  have hshared : sharedAt s S.root (dstva / PGSIZE + j) = true := by
    by_contra hnot
    rw [if_neg hnot] at hj
    omega
  rw [if_pos hshared] at hj
  obtain ⟨n', a, rest, done, s', S', hrun, hn', hpos, ha, hprog⟩ :=
    hb.progress h scause j hjb.le (fun hc => absurd hc hload) hmin
  obtain ⟨l, hl, hu, -⟩ :=
    h.space_ok.writableAt_iff.mp (hb.before _ (Nat.le_add_right _ _) hjb)
  have hv := h.space_ok.lt_of_user hl hu
  have hs := (h.space_ok.sharedAt_iff hv hl).mp hshared
  have hl' : S'.leaf (a / PGSIZE) = some l := by rw [ha, hprog.leaf _ (by omega), hl]
  have hs' : l.Shared s' := ⟨hs.1, by rw [hprog.count _ l (le_refl _) hv hl]; exact hs.2⟩
  have hempty : s'.freelist = 0 := by
    rw [hprog.inv.free.freelist_eq_zero]
    have hcard := hprog.free
    omega
  rw [hrun]
  refine run_copyoutLoop_error hn' hpos fun chunk => ?_
  rw [← hprog.root]
  exact run_copyoutPage_full hprog.inv hl' hu hs' hload hempty

end rejects

/-- copyout rejects a range with a page that the user may not write exactly when it gets to that
page: there are frames for the shared pages before it and its tables are there. -/
theorem copyout_rejects_iff {sys : Sys} (h : sys.Reachable K) {p : Proc} (hp : p ∈ sys.procs)
    {b : Nat} (hb : FirstBad sys.k.mem p.mem.pagetable dstva src.length b) :
    CopyoutRejects K sys.k p.mem.pagetable dstva src scause b ↔
      CanReject K sys.k p.mem.pagetable dstva scause b := by
  obtain ⟨S, m, F, hS, hinv⟩ := h.space hp
  rw [← hS.root] at hb ⊢
  have hle := hb.le
  unfold CanReject
  by_cases hload : scause = 13
  · rw [if_pos hload]
    by_cases hcow : ∃ i, dstva / PGSIZE + i < b ∧
        cowAt sys.k.mem S.root (dstva / PGSIZE + i) = true
    · refine iff_of_true (hb.stops_load hinv hload hcow) (Or.inl ?_)
      obtain ⟨i, hi, hcowi⟩ := hcow
      exact ⟨dstva / PGSIZE + i, Nat.le_add_right _ _, hi, hcowi⟩
    · have hnone : ∀ i, dstva / PGSIZE + i < b →
          cowAt sys.k.mem S.root (dstva / PGSIZE + i) = false := by
        intro i hi
        by_contra hne
        exact hcow ⟨i, hi, by simpa using hne⟩
      have hzero : sharedPages sys.k S.root (dstva / PGSIZE) (b - dstva / PGSIZE) = 0 :=
        sharedPages_eq_zero fun i hi => hnone i (by omega)
      rw [hb.stops hinv (fun _ => hnone) (by omega)]
      refine ⟨Or.inr, fun hor => hor.resolve_left ?_⟩
      rintro ⟨v, hlo, hhi, hcowv⟩
      exact hcow ⟨v - dstva / PGSIZE, by omega, by rwa [Nat.add_sub_cancel' hlo]⟩
  · rw [if_neg hload]
    by_cases hfree : sharedPages sys.k S.root (dstva / PGSIZE) (b - dstva / PGSIZE) ≤
        (freeFrames K sys.k).card
    · rw [hb.stops hinv (fun hc => absurd hc hload) hfree]
      exact ⟨fun hr => ⟨hfree, hr⟩, fun hand => hand.2⟩
    · refine iff_of_false ?_ fun hand => hfree hand.1
      rintro ⟨k', hret, -⟩
      rw [hb.runs_out hinv hload (by omega)] at hret
      cases hret

namespace CopyoutWitness

def table : Nat := Forked.parent.mem.pagetable

/-- A range whose first page is bad. -/
theorem firstBad_start {mem : Nat → Arr} {v : Nat} (h : writableAt mem table v = false) :
    FirstBad mem table (v * PGSIZE) 1 v := by
  have hdiv : v * PGSIZE / PGSIZE = v := Nat.mul_div_cancel v (by decide)
  exact ⟨by decide, by rw [hdiv], by omega, fun u hlo hhi => by omega, h⟩

theorem nothing_needed (s : Kmem) (v n : Nat) :
    sharedPages s table (v * PGSIZE / PGSIZE) (v - v * PGSIZE / PGSIZE) ≤ n := by
  rw [Nat.mul_div_cancel v (by decide), Nat.sub_self, sharedPages_zero]
  exact Nat.zero_le n

/-- The sample process has no tables for the second gigabyte. -/
theorem second_gigabyte : writableAt Forked.sys.k.mem table 0x40000 = false ∧
    reachedAt Forked.sys.k.mem table 0x40000 = false := by decide +kernel

/-- read(fd, (void *) 0x40000000, 1): copyout follows a null pointer. -/
theorem copyout_follows_null :
    Forked.sys.Reachable Forked.image ∧ Forked.parent ∈ Forked.sys.procs ∧
    FirstBad Forked.sys.k.mem table (0x40000 * PGSIZE) 1 0x40000 ∧
    (copyout table (0x40000 * PGSIZE) [7] 8).run (handler Forked.image) Forked.sys.k =
      .error (.fault 0) := by
  have hbad : FirstBad Forked.sys.k.mem table (0x40000 * PGSIZE) [(7 : UInt8)].length 0x40000 :=
    firstBad_start second_gigabyte.1
  refine ⟨Forked.sys_reachable, Forked.parent_mem, hbad, ?_⟩
  obtain ⟨S, m, F, hS, hinv⟩ := Forked.sys_reachable.space Forked.parent_mem
  have hneed := nothing_needed Forked.sys.k 0x40000 (freeFrames Forked.image Forked.sys.k).card
  have hreach := second_gigabyte.2
  have hroot : table = S.root := hS.root.symm
  rw [hroot] at hbad hneed hreach ⊢
  exact hbad.reads_null hinv (fun hload => absurd hload (by decide)) hneed hreach

/-- An address at MAXVA is refused. -/
theorem copyout_rejects_maxva :
    CopyoutRejects Forked.image Forked.sys.k table (0x4000000 * PGSIZE) [7] 8 0x4000000 := by
  have hmax : ¬ 0x4000000 * PGSIZE < MAXVA := by decide
  have hbad : writableAt Forked.sys.k.mem table 0x4000000 = false := by
    simp only [writableAt, decide_eq_false hmax, Bool.false_and]
  have hfirst : FirstBad Forked.sys.k.mem table (0x4000000 * PGSIZE) [(7 : UInt8)].length
      0x4000000 := firstBad_start hbad
  refine (copyout_rejects_iff Forked.sys_reachable Forked.parent_mem hfirst).mpr ?_
  rw [CanReject, if_neg (by decide), reachedAt, decide_eq_true (Nat.le_of_not_lt hmax)]
  exact ⟨nothing_needed _ _ _, rfl⟩

/-- After fork the page of the parent is shared. -/
theorem shared_page : writableAt Forked.sys.k.mem table 0 = true ∧
    cowAt Forked.sys.k.mem table 0 = true ∧ sharedAt Forked.sys.k table 0 = true := by
  decide +kernel

theorem free_frame : 0 < (freeFrames Forked.image Forked.sys.k).card := by
  have hzero : Forked.sys.k.refCount (countIndex Forked.image.end_) = 0 := by decide +kernel
  have hframe : Forked.image.Frame Forked.image.end_ := by decide
  exact Finset.card_pos.mpr ⟨_, mem_freeFrames.mpr ⟨hframe, hzero⟩⟩

/-- Three bytes into the shared page of the parent, which the child does not see. -/
theorem copyout_writes_shared : sharedAt Forked.sys.k table 0 = true ∧
    ∃ k, (copyout table 100 [1, 2, 3] 8).run (handler Forked.image) Forked.sys.k = .ok (0, k) ∧
      (copyin table 100 3).run (handler Forked.image) k = .ok ((0, [1, 2, 3]), k) ∧
      (∀ va, userByte k.mem Forked.child.mem.pagetable va =
        userByte Forked.sys.k.mem Forked.child.mem.pagetable va) ∧
      (lookup k.mem table 100).has PTE_W = true := by
  have hpage : 100 / PGSIZE = 0 := by decide
  have hcount : pageCount 100 [(1 : UInt8), 2, 3].length = 1 := by decide
  have hfree : sharedPages Forked.sys.k table (100 / PGSIZE)
      (pageCount 100 [(1 : UInt8), 2, 3].length) ≤
      (freeFrames Forked.image Forked.sys.k).card := by
    rw [hpage, hcount]
    exact List.countP_le_length.trans free_frame
  have hpages : ∀ va, 100 ≤ va → va < 100 + [(1 : UInt8), 2, 3].length →
      writableAt Forked.sys.k.mem table (va / PGSIZE) = true := by
    intro va _ hhi
    have hzero : va / PGSIZE = 0 := Nat.div_eq_of_lt (by
      simp only [List.length_cons, List.length_nil, PGSIZE] at hhi ⊢
      omega)
    rw [hzero]
    exact shared_page.1
  have hchild : Forked.child ∈ Forked.sys.procs := by
    rw [Forked.sys_procs]
    exact .tail _ (.head _)
  obtain ⟨k, hrun, hback, -, hothers, hbits⟩ := copyout_writes_exactly Forked.sys_reachable
    Forked.parent_mem (show (8 : Nat) ≠ 13 by decide) hpages hfree
  exact ⟨shared_page.2.2, k, hrun, hback, hothers _ hchild (by decide),
    (hbits 100 (Nat.le_refl _) (by decide)).1⟩

end CopyoutWitness

end Xv6.Vm
