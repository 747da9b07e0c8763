/-
uvmcopy: parent and child end up with the same pages, shared and not writable,
and neither can tell that from a copy.
-/
import Xv6.Vm.Resize

namespace Xv6.Vm

open Bytes Refs Program Interleave

variable {K : Image} {E : KErr → Prop} {r F : Multiset Atom} {s : Kmem} {S : Space}

/-- What a process can see of one of its pages.  A copy-on-write page counts as
writable. -/
structure UPage where
  write : Bool
  user : Bool
  exec : Bool
  data : Arr

def Leaf.view (l : Leaf) (d : Arr) : UPage where
  write := l.fl.has PTE_W || l.fl.has PTE_COW
  user := l.fl.has PTE_U
  exec := l.fl.has PTE_X
  data := d

/-- What a process can see of its memory. -/
def Space.view (S : Space) (v : Nat) : Option UPage :=
  (S.page v).map fun x => x.1.view x.2

theorem Space.view_eq_none {v : Nat} : S.view v = none ↔ S.page v = none := by
  simp [Space.view]

theorem Space.view_of_leaf {v : Nat} {l : Leaf} (h : S.leaf v = some l) :
    S.view v = some (l.view (S.data v)) := by
  simp [Space.view, Space.page, h]

theorem Space.view_congr {S' : Space} {v : Nat} (h : S'.page v = S.page v) :
    S'.view v = S.view v := by
  simp [Space.view, h]

/-- The page table may have changed, but no page looks different, and nothing
above the user part has changed. -/
structure Space.Looks (S S' : Space) : Prop where
  root : S'.root = S.root
  view : ∀ v, v < USERPAGES → S'.view v = S.view v
  high : ∀ v, USERPAGES ≤ v → S'.page v = S.page v

theorem Space.Looks.refl (S : Space) : S.Looks S := ⟨rfl, fun _ _ => rfl, fun _ _ => rfl⟩

theorem Space.Looks.trans {S' S'' : Space} (h : S.Looks S') (h' : S'.Looks S'') :
    S.Looks S'' where
  root := h'.root.trans h.root
  view v hv := (h'.view v hv).trans (h.view v hv)
  high v hv := (h'.high v hv).trans (h.high v hv)

theorem Space.Looks.sized {S' : Space} (h : S.Looks S') {n : Nat} (hn : S.Sized n) :
    S'.Sized n := by
  refine ⟨hn.1, ?_⟩
  intro v hv
  rw [← hn.2 v hv, not_iff_not, ← Space.view_eq_none, ← Space.view_eq_none, h.view v hv]

theorem Space.Same.looks {S' : Space} (h : S.Same S') : S.Looks S' where
  root := h.root
  view v _ := Space.view_congr (h.page v)
  high v _ := h.page v

/-- A changed entry that looks the same. -/
theorem Space.Looks.setLeaf {v : Nat} {l l' : Leaf} (hv : v < USERPAGES)
    (hl : S.leaf v = some l) (hview : l'.view (S.data v) = l.view (S.data v)) :
    S.Looks (S.setLeaf v (some l') (S.data v)) where
  root := rfl
  view u _ := by
    by_cases huv : u = v
    · subst huv
      rw [Space.view_of_leaf hl]
      simp [Space.view, Space.page_setLeaf_self, hview]
    · exact Space.view_congr (Space.page_setLeaf_of_ne S _ _ huv)
  high u hu := Space.page_setLeaf_of_ne S _ _ (by omega)

section share

variable {v q : Nat} {l : Leaf}

/-- A mapping that is not exclusive any more looks the same to everyone. -/
theorem Inv.disown (h : Inv K ({.space S} + F) s) (hv : v < USERPAGES)
    (hl : S.leaf v = some l) (hw : l.fl.has PTE_W = false) :
    Inv K ({.space (S.setLeaf v (some { l with own := false }) (S.data v))} + F) s := by
  have hS := h.space_ok
  obtain ⟨q, hq⟩ := hS.table.leafParent v l hl
  have hleaf := hS.user v l hv hl
  have hstore := h.storeLeaf (o := some { l with own := false }) (d := S.data v) hq
    (Space.use_user_setLeaf_same hl rfl) (fun f => Or.inl ?_) ?_ ?_
  · -- the stored entry is the one that is there
    have hsame : storePte (s.mem q) (v % 512) (encodeLeaf (some { l with own := false })) =
        s.mem q := by
      apply storePte_self
      rw [hS.table.entries 0 v q hq, Space.entry, hl]
      rfl
    rw [hsame] at hstore
    have hstate : s.wrote q (s.mem q) = s := by
      simp [Kmem.wrote]
    rwa [hstate] at hstore
  · have hmove := S.use_own_setLeaf hv (some { l with own := false }) (S.data v) f
    simp only [Option.bind_some, Bool.false_eq_true, ↓reduceIte, ind_none,
      add_zero] at hmove
    omega
  · rintro l' hl' -
    obtain rfl := Option.some.inj hl'
    exact ⟨hleaf.frame, hleaf.flags, hleaf.valid, hleaf.readable, hleaf.notBoth,
      fun hbit => by simp [hw] at hbit, hleaf.data, hleaf.origin⟩
  · intro l' _ hhigh
    omega

/-- The entry that parent and child share. -/
def Leaf.shared (l : Leaf) : Leaf where
  pa := l.pa
  fl := if l.fl.has PTE_W then cowFlags l.fl else l.fl
  own := false

theorem Leaf.view_shared (l : Leaf) (d : Arr) : l.shared.view d = l.view d := by
  by_cases hw : l.fl.has PTE_W = true
  · have hU : (cowFlags l.fl).has PTE_U = l.fl.has PTE_U :=
      has_cowFlags _ (by decide) (by decide) (by decide)
    have hX : (cowFlags l.fl).has PTE_X = l.fl.has PTE_X :=
      has_cowFlags _ (by decide) (by decide) (by decide)
    simp [Leaf.view, Leaf.shared, hw, hU, hX, has_cowFlags_W, has_cowFlags_COW]
  · simp [Leaf.view, Leaf.shared, hw]

theorem UserLeaf.cow {d : Arr} (h : UserLeaf K s l d) (hw : l.fl.has PTE_W = true) :
    UserLeaf K s ⟨l.pa, cowFlags l.fl, false⟩ d where
  frame := h.frame
  flags := isFlags_cowFlags h.flags
  valid := by
    rw [has_cowFlags _ (by decide) (by decide) (by decide)]
    exact h.valid
  readable := has_cowFlags_R _
  notBoth := by simp [has_cowFlags_W]
  owner hbit := by simp [has_cowFlags_W] at hbit
  data := h.data
  origin := by
    obtain ⟨fl, hfirst, hiff⟩ := h.origin
    refine ⟨fl, hfirst, ?_⟩
    simp [has_cowFlags_COW, hiff, hw]

/-- uvmcopy makes the parent's entry one that can be shared. -/
theorem safe_protectPage {va : Nat} {pte : PtePtr} (hva : va / PGSIZE = v)
    (hv : v < USERPAGES) (hl : S.leaf v = some l) (hslot : S.slot va = some pte)
    (hr : Quiet r) :
    Safe (logic K) E (protectPage pte (encodeLeaf (some l))) ({.space S} + r)
      fun _ r' => r' = {.space (S.setLeaf v (some l.shared) (S.data v))} + r := by
  obtain ⟨q, hq, rfl⟩ := Space.slot_eq_some hslot
  rw [hva] at hq ⊢
  rw [protectPage]
  apply Safe.learn
  intro F s hinv
  rw [add_assoc] at hinv
  have hleaf := hinv.space_ok.user v l hv hl
  clear hinv
  rw [hleaf.has (by decide), hleaf.PTE2PA, hleaf.PTE_FLAGS]
  by_cases hw : l.fl.has PTE_W = true
  · rw [if_pos hw]
    have hshared : l.shared = ⟨l.pa, cowFlags l.fl, false⟩ := by
      simp [Leaf.shared, hw]
    rw [hshared]
    apply safe_ok
    intro F s hinv
    refine ⟨Adm.of_quiet ((quiet_space S).add hr) rfl, ?_⟩
    rw [add_assoc] at hinv
    have hleaf := hinv.space_ok.user v l hv hl
    refine ⟨(), _, _, writePteAt_ok (hinv.node_alone hq).1.inRam _, ?_, rfl⟩
    rw [add_assoc]
    apply hinv.storeLeaf hq
    · exact Space.use_user_setLeaf_same hl rfl
    · intro f
      left
      have hmove := S.use_own_setLeaf hv (some ⟨l.pa, cowFlags l.fl, false⟩) (S.data v) f
      simp only [Option.bind_some, Bool.false_eq_true, ↓reduceIte, ind_none,
        add_zero] at hmove
      omega
    · rintro l' hl' -
      obtain rfl := Option.some.inj hl'
      exact hleaf.cow hw
    · intro l' _ hhigh
      omega
  · rw [if_neg hw]
    have hshared : l.shared = { l with own := false } := by
      simp [Leaf.shared, hw]
    apply Safe.shift
    intro F s hinv
    rw [add_assoc] at hinv
    refine ⟨{.space (S.setLeaf v (some l.shared) (S.data v))} + r, ?_, Safe.pure rfl⟩
    rw [add_assoc, hshared]
    exact hinv.disown hv hl (by simpa using hw)

variable {old new : Space}

/-- The store of mappages that maps the parent's page into the child. -/
theorem safe_share {va : Nat} {pte : PtePtr} (hva : va / PGSIZE = v)
    (hv : v < USERPAGES) (hl : old.leaf v = some l) (hown : l.own = false)
    (hslot : new.slot va = some pte) (hnone : new.leaf v = none)
    (hdist : ∀ u, u < USERPAGES → new.frames u ≠ some l.pa) (hr : Quiet r) :
    Safe (logic K) E (Prog.cmd (.mapPte pte (PA2PTE l.pa ||| l.fl ||| PTE_V)))
      ({.space new} + ({.space old} + r)) fun _ r' =>
        r' = {.copying old new v l} + r := by
  obtain ⟨q, hq, rfl⟩ := Space.slot_eq_some hslot
  rw [hva] at hq ⊢
  apply safe_ok
  intro F s hinv
  rw [add_assoc, add_assoc] at hinv
  have hqframe := (hinv.node_alone hq).1
  have hentry := hinv.space_ok.table.entries 0 v q hq
  rw [add_left_comm] at hinv
  have hleaf := hinv.space_ok.user v l hv hl
  refine ⟨⟨Quiet.awaits ?_ _, ?_⟩, ?_⟩
  · exact (quiet_space new).add ((quiet_space old).add hr)
  · rintro pte ⟨rfl⟩
    rw [hentry, Space.entry, hnone]
    rfl
  · have hword : PA2PTE l.pa ||| l.fl ||| PTE_V = encodeLeaf (some l) := by
      rw [BitVec.or_assoc, or_PTE_V hleaf.valid]
      rfl
    rw [hword]
    refine ⟨(), _, _, mapPteAt_ok hqframe.inRam _, ?_, rfl⟩
    rw [add_assoc]
    exact hinv.share hv hl hown hq hnone hdist

/-- lock_update_ref_count after the mapping. -/
theorem safe_count (hr : Quiet r) :
    Safe (logic K) E (Prog.cmd (.lockUpdateRefCount l.pa 1))
      ({.copying old new v l} + r) fun _ r' => r' = {.space old} +
        ({.space (new.setLeaf v (some l) (old.data v))} + r) := by
  apply safe_ok
  intro F s hinv
  refine ⟨⟨fun a ha => ?_, fun pte hpte => by cases hpte⟩, ?_⟩
  · rcases Multiset.mem_add.mp ha with ha | ha
    · rw [Multiset.mem_singleton.mp ha]
      rfl
    · exact hr.awaits _ a ha
  rw [add_assoc] at hinv
  obtain ⟨hframe, hinv'⟩ := hinv.countShare
  refine ⟨(), _, _, lockUpdateRefCount_inc hinv.unlocked hframe.inRam, ?_, rfl⟩
  rwa [add_assoc, add_assoc]

end share

section copy

variable {old new old' new' : Space}

/-- After `k` pages of uvmcopy: the parent looks as before, and the child has the
parent's first `k` entries. -/
structure Copied (old new old' new' : Space) (k : Nat) : Prop where
  looks : old.Looks old'
  root : new'.root = new.root
  high : ∀ v, USERPAGES ≤ v → new'.page v = new.page v
  sized : new'.Sized k
  same : ∀ u, u < k → new'.page u = old'.page u

theorem Copied.start (h : new.Sized 0) : Copied old new old new 0 :=
  ⟨.refl old, rfl, fun _ _ => rfl, h, fun u hu => by omega⟩

/-- One more page is shared. -/
theorem Copied.succ {new'' : Space} {k : Nat} {l : Leaf} (h : Copied old new old' new' k)
    (hk : k < USERPAGES) (hl : old'.leaf k = some l) (hext : new'.Extends new'') :
    Copied old new (old'.setLeaf k (some l.shared) (old'.data k))
      (new''.setLeaf k (some l.shared) (old'.data k)) (k + 1) where
  looks := h.looks.trans (.setLeaf hk hl (l.view_shared _))
  root := hext.root.trans h.root
  high v hv := by
    rw [Space.page_setLeaf_of_ne _ _ _ (by omega), hext.page]
    exact h.high v hv
  sized := by
    refine ⟨by omega, ?_⟩
    intro v hv
    by_cases hvk : v = k
    · subst hvk
      simp [Space.page_setLeaf_self]
    · rw [Space.page_setLeaf_of_ne _ _ _ hvk, hext.page, h.sized.2 v hv]
      omega
  same u hu := by
    by_cases huk : u = k
    · subst huk
      rw [Space.page_setLeaf_self, Space.page_setLeaf_self]
    · rw [Space.page_setLeaf_of_ne _ _ _ huk, Space.page_setLeaf_of_ne _ _ _ huk,
        hext.page]
      exact h.same u (by omega)

/-- Unmapping what the child has got restores it. -/
theorem Copied.undo {new'' : Space} {k : Nat} (h : Copied old new old' new' k)
    (hnew : new.Sized 0) (hext : new'.Extends new'') :
    new.Same (new''.cleared 0 k) where
  root := hext.root.trans h.root
  page v := by
    rw [Space.page_cleared, hext.page]
    by_cases hv : v < USERPAGES
    · have hnone : new.page v = none := by
        by_contra hne
        exact absurd ((hnew.2 v hv).mp hne) (by omega)
      rw [hnone]
      by_cases hk : 0 ≤ v ∧ v < 0 + k
      · rw [if_pos hk]
      · rw [if_neg hk]
        by_contra hne
        exact absurd ((h.sized.2 v hv).mp hne) (by omega)
    · have hk : ¬ (0 ≤ v ∧ v < 0 + k) := by
        have hbound := h.sized.1
        omega
      rw [if_neg hk]
      exact h.high v (by omega)

/-- The child does not map the page of the parent that comes next. -/
theorem Copied.frames_ne {k : Nat} {l : Leaf} (h : Copied old new old' new' k)
    (hinj : ∀ f, refs userIx old'.frames f ≤ 1) (hk : k < USERPAGES)
    (hl : old'.leaf k = some l) (u : Nat) (hu : u < USERPAGES) :
    new'.frames u ≠ some l.pa := by
  intro hfr
  obtain ⟨l', hl', hpa⟩ := Space.frames_eq_some.mp hfr
  have hpage : new'.page u ≠ none := by
    rw [ne_eq, Space.page_eq_none, hl']
    exact Option.some_ne_none l'
  have huk : u < k := (h.sized.2 u hu).mp hpage
  have hsame := h.same u huk
  have hold : old'.leaf u = some l' := by
    have hp : old'.page u = some (l', new'.data u) := by
      rw [← hsame]
      exact Space.page_eq_some.mpr ⟨hl', rfl⟩
    exact (Space.page_eq_some.mp hp).1
  have huk' : u = k := refs_inj (hinj l.pa) (mem_userIx.mpr hu) (mem_userIx.mpr hk)
    (Space.frames_eq_some.mpr ⟨l', hold, hpa⟩) (Space.frames_eq_some.mpr ⟨l, hl, rfl⟩)
  omega

variable {sz : Nat}

/-- `S'` has the tables of `S` and maps the same frames. -/
def Space.SameRefs (S S' : Space) : Prop := S'.node = S.node ∧ S'.frames = S.frames

/-- Protecting a page keeps its frame. -/
theorem Space.SameRefs.protect {k : Nat} {l : Leaf} (h : old.SameRefs old')
    (hl : old'.leaf k = some l) :
    old.SameRefs (old'.setLeaf k (some l.shared) (old'.data k)) := by
  refine ⟨h.1, ?_⟩
  have hframe : old'.frames k = some l.shared.pa := Space.frames_eq_some.mpr ⟨l, hl, rfl⟩
  rw [Space.frames_setLeaf, Option.map_some, ← hframe, Function.update_eq_self, h.2]

/-- The loop of uvmcopy: the child shares all pages, or it is as before. -/
theorem safe_copyLoop {k c : Nat} (h : Copied old new old' new' k) (hrefs : old.SameRefs old')
    (hold : old.Sized (pagesOf sz)) (hnew : new.Sized 0) (hk : k ≤ pagesOf sz)
    (hfuel : sz - k * PGSIZE ≤ c) (hr : Quiet r) :
    Safe (logic K) E (copyLoop old.root new.root sz c (k * PGSIZE))
      ({.space old'} + ({.space new'} + r)) fun x r' => ∃ old'' new'',
        r' = {.space old''} + ({.space new''} + r) ∧ old.Looks old'' ∧ old.SameRefs old'' ∧
          ((x = 0 ∧ Copied old new old'' new'' (pagesOf sz)) ∨
            (x = -1 ∧ new.Same new'')) := by
  have hdone : sz ≤ k * PGSIZE → k = pagesOf sz := by
    intro hle
    have hmono := pagesOf_mono hle
    rw [pagesOf_mul] at hmono
    omega
  induction c generalizing k old' new' with
  | zero =>
      apply Safe.pure
      rw [hdone (by omega)] at h
      exact ⟨old', new', rfl, h.looks, hrefs, Or.inl ⟨rfl, h⟩⟩
  | succ c ih =>
      rw [copyLoop]
      by_cases hlt : k * PGSIZE < sz
      · rw [if_pos hlt]
        have hkn : k < pagesOf sz := by
          simp only [pagesOf, PGROUNDUP, PGSIZE] at hlt ⊢
          omega
        have hbound := hold.1
        have hku : k < USERPAGES := by omega
        have hdiv := mul_PGSIZE_div k
        have hsized := h.looks.sized hold
        have hleaf : old'.leaf k ≠ none :=
          mt Space.page_eq_none.mpr ((hsized.2 k hku).mpr hkn)
        obtain ⟨l, hl⟩ := Option.ne_none_iff_exists'.mp hleaf
        have hquiet : Quiet ({.space new'} + r) := (quiet_space new').add hr
        apply Safe.learn
        intro F s hinv
        rw [add_assoc] at hinv
        have hok := hinv.space_ok
        have huser := hok.user k l hku hl
        have hslot : (old'.slot (k * PGSIZE)).isSome = true :=
          hok.table.slot_isSome (by rwa [hdiv])
        obtain ⟨pte, hpte⟩ := Option.isSome_iff_exists.mp hslot
        have hinj := hok.inj
        clear hinv hok
        rw [← h.looks.root]
        apply Safe.bind (safe_walk (lt_MAXVA_of_page (by omega)) hquiet)
        rintro o r' ⟨rfl, rfl⟩
        rw [hpte]
        apply Safe.bind (safe_readLeaf hpte hquiet)
        rintro w r' ⟨rfl, rfl⟩
        rw [hdiv, hl]
        have hvalid : (encodeLeaf (some l)).has PTE_V = true := by
          rw [huser.has (by decide)]
          exact huser.valid
        rw [hvalid]
        simp only [Bool.not_true, Bool.false_eq_true, ↓reduceIte]
        apply Safe.bind (safe_protectPage hdiv hku hl hpte hquiet)
        rintro _ r' rfl
        rw [add_left_comm]
        have hflags : shareFlags (encodeLeaf (some l)) = l.shared.fl := by
          rw [shareFlags, huser.has (by decide), huser.PTE_FLAGS]
          rfl
        rw [huser.PTE2PA, hflags, ← h.root]
        have hnone : new'.leaf k = none := by
          by_contra hne
          exact absurd ((h.sized.2 k hku).mp (mt Space.page_eq_none.mp hne)) (by omega)
        apply Safe.bind (safe_mappages (S := new') (p := l.pa) (w := l.shared.fl)
          (X := {.space (old'.setLeaf k (some l.shared) (old'.data k))} + r)
          (Q := fun r' => ∃ new'', new'.Extends new'' ∧ r' = {.copying
            (old'.setLeaf k (some l.shared) (old'.data k)) new'' k l.shared} + r)
          (lt_MAXVA_of_page (by omega)) (by simp) ((quiet_space _).add hr)
          (fun new'' pte hext hslot => by
            have hstore := safe_share (K := K) (E := E) (v := k) (l := l.shared)
              hdiv hku
              (show (old'.setLeaf k (some l.shared) (old'.data k)).leaf k = some l.shared by
                simp [Space.setLeaf]) rfl hslot
              (by rw [hext.leaf]; exact hnone) (fun u hu hfr => by
                apply h.frames_ne hinj hku hl u hu
                rwa [Space.frames, ← hext.leaf]) hr
            apply hstore.mono
            rintro _ r' rfl
            exact ⟨new'', hext, rfl⟩))
        rintro x r' (⟨rfl, new'', hext, rfl⟩ | ⟨rfl, new'', hext, rfl⟩)
        · rw [if_pos (by decide)]
          have hunmap := safe_uvmunmap (K := K) (E := E) (S := new'') (a := 0) (n := k)
            (r := {.space (old'.setLeaf k (some l.shared) (old'.data k))} + r)
            (by omega) (fun v _ hv => by
              rw [hext.page]
              exact (h.sized.2 v (by omega)).mpr (by omega))
            ((quiet_space _).add hr)
          rw [Nat.zero_mul, hext.root] at hunmap
          apply Safe.bind hunmap
          rintro _ r' rfl
          apply Safe.pure
          refine ⟨old'.setLeaf k (some l.shared) (old'.data k), new''.cleared 0 k,
            add_left_comm _ _ _, ?_, hrefs.protect hl, Or.inr ⟨rfl, h.undo hnew hext⟩⟩
          exact h.looks.trans (.setLeaf hku hl (l.view_shared _))
        · rw [if_neg (by decide)]
          apply Safe.bind (safe_count (l := l.shared) hr)
          rintro _ r' rfl
          have hdata : (old'.setLeaf k (some l.shared) (old'.data k)).data k =
              old'.data k := by simp [Space.setLeaf]
          have hnext : k * PGSIZE + PGSIZE = (k + 1) * PGSIZE := by ring
          have hcopied := h.succ hku hl hext
          rw [hdata, hnext, h.looks.root, h.root]
          apply ih hcopied (hrefs.protect hl) (by omega) (fuel_step hfuel)
          intro hle
          have hmono := pagesOf_mono hle
          rw [pagesOf_mul] at hmono
          omega
      · rw [if_neg hlt]
        apply Safe.pure
        rw [hdone (by omega)] at h
        exact ⟨old', new', rfl, h.looks, hrefs, Or.inl ⟨rfl, h⟩⟩

/-- uvmcopy into an empty space: the child sees what the parent sees, or nothing
has been added to it; the parent sees what it saw. -/
theorem safe_uvmcopy (hold : old.Sized (pagesOf sz)) (hnew : new.Sized 0)
    (hr : Quiet r) :
    Safe (logic K) E (uvmcopy old.root new.root sz)
      ({.space old} + ({.space new} + r)) fun x r' => ∃ old'' new'',
        r' = {.space old''} + ({.space new''} + r) ∧ old.Looks old'' ∧ old.SameRefs old'' ∧
          ((x = 0 ∧ Copied old new old'' new'' (pagesOf sz)) ∨
            (x = -1 ∧ new.Same new'')) := by
  have hloop := safe_copyLoop (K := K) (E := E) (k := 0) (c := sz)
    (Copied.start hnew) ⟨rfl, rfl⟩ hold hnew (Nat.zero_le _) (Nat.sub_le _ _) hr
  rwa [Nat.zero_mul] at hloop

end copy

end Xv6.Vm
