/-
Commands on the table pages of an address space: reading entries, hanging new
pages into the tree, and the descent of walk.
-/
import Xv6.Vm.Logic

namespace Xv6.Vm

open Bytes Refs Program Interleave

variable {K : Image} {E : KErr → Prop} {r F : Multiset Atom} {s : Kmem} {S : Space}

theorem Inv.space_ok (h : Inv K ({.space S} + F) s) : S.Ok K s :=
  h.ok (.space S) (by simp)

theorem total_space (t : Tag) (S : Space) (f : Nat) :
    total t {Atom.space S} f = S.use t f := by simp [Atom.use]

/-- A table page is in one place of the tree. -/
theorem Inv.node_unique (h : Inv K ({.space S} + F) s) {x y : Nat × Nat} {p : Nat}
    (hx : S.node x = some p) (hy : S.node y = some p) : y = x := by
  have hok := h.space_ok
  have hxin := (hok.table.dom x p hx).1
  have hpos : 1 ≤ S.use .kernel p := refs_pos hxin hx
  have hone := ((h.sharing_split p).1 (by rw [total_space]; omega)).1
  rw [total_space] at hone
  have hle : refs nodeIx S.node p ≤ 1 := by
    have hdef : S.use .kernel p = refs nodeIx S.node p := rfl
    omega
  exact refs_inj hle (hok.table.dom y p hy).1 hxin hy hx

/-- Nobody else refers to a table page. -/
theorem Inv.node_alone (h : Inv K ({.space S} + F) s) {x : Nat × Nat} {p : Nat}
    (hx : S.node x = some p) :
    K.Frame p ∧ touched F p = 0 ∧ S.use .kernel p = 1 ∧ S.use .user p = 0 := by
  obtain ⟨hxin, hframe⟩ := h.space_ok.table.dom x p hx
  have hpos : 1 ≤ S.use .kernel p := refs_pos hxin hx
  have hkernel : 1 ≤ total .kernel {Atom.space S} p := by rwa [total_space]
  have hshare := (h.sharing_split p).1 (by omega)
  simp only [total_space] at hshare
  exact ⟨hframe, h.touched_eq_zero_of_kernel hkernel, by omega, by omega⟩

theorem safe_readPte {l j p : Nat} (hp : S.node (l, j / 512) = some p)
    (hr : Quiet r) :
    Safe (logic K) E (Prog.cmd (.readPte (p, j % 512))) ({.space S} + r)
      fun w r' => w = S.entry l j ∧ r' = {.space S} + r := by
  apply safe_ok
  intro F s hinv
  refine ⟨Adm.of_quiet ((quiet_space S).add hr) rfl, ?_⟩
  rw [add_assoc] at hinv
  have hframe := (hinv.node_alone hp).1
  refine ⟨_, s, _, readPteAt_ok hframe.inRam, ?_, ?_, rfl⟩
  · rwa [add_assoc]
  · exact hinv.space_ok.table.entries l j p hp

theorem Space.use_link (S : Space) {x : Nat × Nat} {p : Nat} (hx : x ∈ nodeIx)
    (hnone : S.node x = none) (t : Tag) (f : Nat) :
    (S.link x p).use t f = S.use t f + if t = .kernel then ind (some p) f else 0 := by
  cases t with
  | kernel =>
      have hmove := refs_update S.node f hx (some p)
      rw [hnone, ind_none] at hmove
      simpa [Space.use, Space.link] using hmove
  | user => simp [Space.use]
  | lag => simp [Space.use]
  | own => simp [Space.use]
  | root => simp [Space.use, Space.link]
  | token => simp [Space.use]

/-- The space after a table page was hung in. -/
theorem Space.Ok.link (h : S.Ok K s) {s' : Kmem} {x : Nat × Nat} {p q : Nat}
    (htable : (S.link x p).Table K s'.mem) (hq : S.use .user q = 0)
    (hmem : ∀ f, f ≠ q → s'.mem f = s.mem f) (hfirst : s'.first = s.first) :
    (S.link x p).Ok K s' where
  table := htable
  user v l hv hl := by
    have hne : l.pa ≠ q := by
      rintro heq
      have hpos : 1 ≤ S.use .user l.pa :=
        refs_pos (mem_userIx.mpr hv) (Space.frames_eq_some.mpr ⟨l, hl, rfl⟩)
      rw [heq] at hpos
      omega
    exact (h.user v l hv hl).congr (hmem l.pa hne) (by rw [hfirst])
  high := h.high
  inj := h.inj

/-- The store in walk that hangs a cleared page into the tree. -/
theorem Inv.link {l j p q : Nat} {b : Bool}
    (h : Inv K ({.space S} + ({.page p (fun _ => 0) b} + F)) s) (hl : l < 2)
    (hdom : (l, j) ∈ nodeIx) (hnone : S.node (l, j) = none)
    (hq : S.node (l + 1, j / 512) = some q) :
    Inv K ({.space (S.link (l, j) p)} + F)
      (s.wrote q (storePte (s.mem q) (j % 512) (PA2PTE p ||| PTE_V))) := by
  obtain ⟨hpframe, hzero, -⟩ := h.ok (.page p (fun _ => 0) b) (by simp)
  obtain ⟨hqframe, hqalone, hqone, hquser⟩ := h.node_alone hq
  have hpage : ∀ t f, total t {Atom.page p (fun _ => 0) b} f =
      if t = .kernel then ind (some p) f else 0 := by
    intro t f
    simp [Atom.use]
  have hpfresh : ∀ x, S.node x ≠ some p := by
    intro x hx
    have halone := (h.node_alone hx).2.1
    unfold touched at halone
    simp only [total_add, hpage, ↓reduceIte, ind_some_self] at halone
    omega
  have hqp : q ≠ p := fun heq => hpfresh _ (heq ▸ hq)
  have htable := h.space_ok.table.link hl hdom hpframe hnone hq hpfresh
    (fun x hx => h.node_unique hq hx) hzero
  rw [← add_assoc] at h
  refine h.rewrite (by rfl) (by rfl) (by rfl) ?_ ?_ ?_
  · intro f hf
    have hfq : f = q := by
      by_contra hne
      simp [hne] at hf
    subst hfq
    unfold touched at hqalone ⊢
    simp only [total_add, total_space] at hqalone ⊢
    exact ⟨by omega, fun _ => by omega⟩
  · intro a ha
    rw [Multiset.mem_singleton.mp ha]
    apply Space.Ok.link (h.ok (.space S) (by simp)) htable hquser
    · intro f hf
      simp [hf]
    · rfl
  · intro t f
    rw [total_space, Space.use_link S hdom hnone, total_add, total_space, hpage]

theorem safe_link {l j p q : Nat} {b : Bool} (hl : l < 2) (hdom : (l, j) ∈ nodeIx)
    (hnone : S.node (l, j) = none) (hq : S.node (l + 1, j / 512) = some q)
    (hr : Quiet r) :
    Safe (logic K) E (Prog.cmd (.writePte (q, j % 512) (PA2PTE p ||| PTE_V)))
      ({.space S} + ({.page p (fun _ => 0) b} + r))
      fun _ r' => r' = {.space (S.link (l, j) p)} + r := by
  apply safe_ok
  intro F s hinv
  refine ⟨Adm.of_quiet ((quiet_space S).add ((quiet_page _ _ _).add hr)) rfl, ?_⟩
  rw [add_assoc, add_assoc] at hinv
  have hframe := (hinv.node_alone hq).1
  refine ⟨(), _, _, writePteAt_ok hframe.inRam _, ?_, rfl⟩
  rw [add_assoc]
  exact hinv.link hl hdom hnone hq

/-- The same mappings, with possibly more table pages. -/
structure Space.Extends (S S' : Space) : Prop where
  root : S'.root = S.root
  leaf : S'.leaf = S.leaf
  data : S'.data = S.data

theorem Space.Extends.refl (S : Space) : S.Extends S := ⟨rfl, rfl, rfl⟩

/-- The quotient of an address by the span of an entry of this level. -/
def entryIx (l va : Nat) : Nat := va / 2 ^ (12 + 9 * l)

theorem entryIx_div (l va : Nat) : entryIx l va / 512 = entryIx (l + 1) va := by
  unfold entryIx
  have hpow : 2 ^ (12 + 9 * (l + 1)) = 2 ^ (12 + 9 * l) * 512 := by
    rw [show 12 + 9 * (l + 1) = 12 + 9 * l + 9 by ring, pow_add _ (12 + 9 * l)]
    norm_num
  rw [Nat.div_div_eq_div_mul, hpow]

theorem entryIx_zero (va : Nat) : entryIx 0 va = va / PGSIZE := rfl

/-- Below MAXVA all entries lie inside the three levels. -/
theorem entryIx_mem {l va : Nat} (hva : va < MAXVA) (hl : l < 2) :
    (l, entryIx (l + 1) va) ∈ nodeIx := by
  have hmax : MAXVA = 2 ^ 38 := rfl
  have hle : entryIx (l + 1) va ≤ entryIx 1 va := by
    unfold entryIx
    exact Nat.div_le_div_left (Nat.pow_le_pow_right (by omega) (by omega)) (by decide)
  have hone : entryIx 1 va < 2 ^ 17 := by
    unfold entryIx
    omega
  exact mem_nodeIx.mpr ⟨by omega, by omega⟩

theorem entryIx_two_div {va : Nat} (hva : va < MAXVA) : entryIx 3 va = 0 := by
  have hmax : MAXVA = 2 ^ 38 := rfl
  unfold entryIx
  exact Nat.div_eq_of_lt (by omega)

/-- Where walk finds the entry of a page in the tree. -/
def Space.slot (S : Space) (va : Nat) : Option PtePtr :=
  (S.node (0, entryIx 1 va)).map fun p => (p, PX 0 va)

/-- The descent of walk without allocation only reads. -/
theorem safe_walkFrom {va level p : Nat} (hlevel : level ≤ 2)
    (hp : S.node (level, entryIx (level + 1) va) = some p)
    (hr : Quiet r) :
    Safe (logic K) E (walkFrom va false level p) ({.space S} + r)
      fun o r' => o = S.slot va ∧ r' = {.space S} + r := by
  apply Safe.learn
  intro F s hinv
  rw [add_assoc] at hinv
  have htable := hinv.space_ok.table
  clear hinv
  induction level generalizing p with
  | zero =>
      apply Safe.pure
      simp [Space.slot, hp]
  | succ level ih =>
      rw [walkFrom]
      apply Safe.bind (safe_readPte (l := level + 1) (j := entryIx (level + 1) va)
        (by rwa [entryIx_div]) hr)
      rintro w r' ⟨rfl, rfl⟩
      cases hnode : S.node (level, entryIx (level + 1) va) with
      | none =>
          have hhas : Pte.has (S.entry (level + 1) (entryIx (level + 1) va)) PTE_V =
              false := by rw [htable.has_entry, hnode, Option.isSome_none]
          simp only [hhas, Bool.false_eq_true, ↓reduceIte, Bool.not_false]
          apply Safe.pure
          refine ⟨?_, rfl⟩
          -- a missing page on the way means that the lowest table is missing
          have hzero : S.node (0, entryIx 1 va) = none := by
            clear ih hhas hp
            induction level with
            | zero => exact hnode
            | succ level ih =>
                apply ih (by omega)
                by_contra hsome
                obtain ⟨c, hc⟩ := Option.ne_none_iff_exists'.mp hsome
                obtain ⟨q, hq⟩ := htable.parent _ _ c hc (by omega)
                rw [entryIx_div, hnode] at hq
                cases hq
          simp [Space.slot, hzero]
      | some q =>
          have hframe := (htable.dom _ q hnode).2
          have hhas : Pte.has (S.entry (level + 1) (entryIx (level + 1) va)) PTE_V =
              true := by rw [htable.has_entry, hnode, Option.isSome_some]
          have hpa : PTE2PA (S.entry (level + 1) (entryIx (level + 1) va)) = q := by
            rw [Space.entry, hnode, PTE2PA_encodeNode hframe]
          simp only [hhas, ↓reduceIte, hpa]
          exact ih (by omega) hnode

/-- walk without allocation finds the entry of the page, if there is one. -/
theorem safe_walk {va : Nat} (hva : va < MAXVA) (hr : Quiet r) :
    Safe (logic K) E (walk S.root va false) ({.space S} + r)
      fun o r' => o = S.slot va ∧ r' = {.space S} + r := by
  apply Safe.learn
  intro F s hinv
  rw [add_assoc] at hinv
  have hroot := hinv.space_ok.table.root
  have hnot : ¬ va ≥ MAXVA := by omega
  rw [walk, if_neg hnot]
  exact safe_walkFrom le_rfl (by rwa [entryIx_two_div hva]) hr

/-- The descent of walk with allocation hangs in the missing pages, as far as
there is memory. -/
theorem safe_walkFrom_alloc {va level p : Nat} (hva : va < MAXVA)
    (hlevel : level ≤ 2)
    (hp : S.node (level, entryIx (level + 1) va) = some p) (hr : Quiet r) :
    Safe (logic K) E (walkFrom va true level p) ({.space S} + r)
      fun o r' => ∃ S', S.Extends S' ∧ r' = {.space S'} + r ∧
        (o = none ∨ o = S'.slot va ∧ o.isSome) := by
  induction level generalizing p S with
  | zero =>
      apply Safe.pure
      refine ⟨S, .refl S, rfl, Or.inr ?_⟩
      simp [Space.slot, hp]
  | succ level ih =>
      apply Safe.learn
      intro F s hinv
      rw [add_assoc] at hinv
      have htable := hinv.space_ok.table
      clear hinv
      rw [walkFrom]
      apply Safe.bind (safe_readPte (l := level + 1) (j := entryIx (level + 1) va)
        (by rwa [entryIx_div]) hr)
      rintro w r' ⟨rfl, rfl⟩
      cases hnode : S.node (level, entryIx (level + 1) va) with
      | some q =>
          have hframe := (htable.dom _ q hnode).2
          have hhas : Pte.has (S.entry (level + 1) (entryIx (level + 1) va)) PTE_V =
              true := by rw [htable.has_entry, hnode, Option.isSome_some]
          have hpa : PTE2PA (S.entry (level + 1) (entryIx (level + 1) va)) = q := by
            rw [Space.entry, hnode, PTE2PA_encodeNode hframe]
          simp only [hhas, ↓reduceIte, hpa]
          exact ih (by omega) hnode
      | none =>
          have hhas : Pte.has (S.entry (level + 1) (entryIx (level + 1) va)) PTE_V =
              false := by rw [htable.has_entry, hnode, Option.isSome_none]
          simp only [hhas, Bool.false_eq_true, ↓reduceIte, Bool.not_true]
          apply Safe.bind (safe_kalloc ((quiet_space S).add hr))
          rintro page r' (⟨rfl, rfl⟩ | ⟨hframe, rfl⟩)
          · simp only [↓reduceIte]
            exact Safe.pure ⟨S, .refl S, rfl, Or.inl rfl⟩
          · simp only [hframe.ne_zero, ↓reduceIte]
            apply Safe.bind (safe_memset ((quiet_space S).add hr))
            rintro _ r' rfl
            rw [add_left_comm]
            have hup : S.node (level + 1, entryIx (level + 1) va / 512) = some p := by
              rwa [entryIx_div]
            apply Safe.bind
              (safe_link (by omega) (entryIx_mem hva (by omega)) hnode hup hr)
            rintro _ r' rfl
            have hnext := ih (S := S.link (level, entryIx (level + 1) va) page)
              (p := page) (by omega) (by simp [Space.link])
            apply hnext.mono
            rintro o r' ⟨S', hext, hr', ho⟩
            exact ⟨S', ⟨hext.root, hext.leaf, hext.data⟩, hr', ho⟩

/-- walk with allocation: no memory, or the entry of the page. -/
theorem safe_walk_alloc {va : Nat} (hva : va < MAXVA) (hr : Quiet r) :
    Safe (logic K) E (walk S.root va true) ({.space S} + r)
      fun o r' => ∃ S', S.Extends S' ∧ r' = {.space S'} + r ∧
        (o = none ∨ o = S'.slot va ∧ o.isSome) := by
  apply Safe.learn
  intro F s hinv
  rw [add_assoc] at hinv
  have hroot := hinv.space_ok.table.root
  have hnot : ¬ va ≥ MAXVA := by omega
  rw [walk, if_neg hnot]
  exact safe_walkFrom_alloc hva le_rfl (by rwa [entryIx_two_div hva]) hr

end Xv6.Vm
