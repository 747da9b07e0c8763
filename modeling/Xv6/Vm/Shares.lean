/-
Commands that move references of user mappings: sharing a page with a child,
counting the share, and unmapping a page.
-/
import Xv6.Vm.Leaves

namespace Xv6.Vm

open Bytes Refs Program Interleave

variable {K : Image} {E : KErr → Prop} {r F : Multiset Atom} {s s' : Kmem} {S : Space}
variable {v q : Nat} {l : Leaf}

theorem Atom.own_le_user (a : Atom) (f : Nat) : a.use .own f ≤ a.use .user f := by
  cases a with
  | page pa data fresh => simp [Atom.use]
  | space S => exact S.own_le_user f
  | copying old new u l =>
      have hold := old.own_le_user f
      have hnew := new.own_le_user f
      simp only [Atom.use, reduceCtorEq, ↓reduceIte]
      omega
  | clearing S u l first => exact (S.setLeaf u none (S.data u)).own_le_user f
  | token root => simp [Atom.use]

/-- A mapping that is not exclusive has no exclusive one beside it. -/
theorem Space.own_eq_zero (hinj : ∀ f, refs userIx S.frames f ≤ 1)
    (hv : v < USERPAGES) (hl : S.leaf v = some l) (hown : l.own = false) :
    S.use .own l.pa = 0 := by
  apply refs_eq_zero
  intro u hu howned
  obtain ⟨l', hl', hif⟩ := Option.bind_eq_some_iff.mp howned
  have hframe : S.frames u = some l.pa := by
    have hle : refs userIx S.owned l.pa ≤ refs userIx S.frames l.pa :=
      S.own_le_user l.pa
    apply Space.frames_eq_some.mpr
    refine ⟨l', hl', ?_⟩
    by_contra hne
    simp [hne] at hif
  have huv : u = v := refs_inj (hinj l.pa) hu (mem_userIx.mpr hv) hframe
    (Space.frames_eq_some.mpr ⟨l, hl, rfl⟩)
  subst huv
  obtain rfl := Option.some.inj (hl'.symm.trans hl)
  simp [hown] at hif

theorem total_own_le_user (F : Multiset Atom) (f : Nat) :
    total .own F f ≤ total .user F f := by
  unfold total
  apply Multiset.sum_map_le_sum_map
  intro a _
  exact a.own_le_user f

/-- Nothing maps the frame of a shared mapping exclusively. -/
theorem Inv.own_eq_zero_of_shared (h : Inv K ({.space S} + F) s)
    (hv : v < USERPAGES) (hl : S.leaf v = some l) (hown : l.own = false) :
    total .own F l.pa = 0 ∧ S.use .own l.pa = 0 := by
  have hself := Space.own_eq_zero h.space_ok.inj hv hl hown
  have hpos := Space.use_user_pos hv hl
  have hle := total_own_le_user F l.pa
  have hshare := (h.sharing_split l.pa).2
  simp only [total_space, Space.use_lag] at hshare
  omega

/-- The frame of a user mapping is not a page of the kernel. -/
theorem Inv.kernel_eq_zero_of_user (h : Inv K ({.space S} + F) s)
    (hv : v < USERPAGES) (hl : S.leaf v = some l) :
    S.use .kernel l.pa = 0 ∧ total .kernel F l.pa = 0 := by
  have hpos := Space.use_user_pos hv hl
  have hshare := (h.sharing_split l.pa).1
  simp only [total_space, Space.use_lag] at hshare
  omega

section share

variable {old new : Space}

theorem total_copying (t : Tag) (f : Nat) : total t {Atom.copying old new v l} f =
    old.use t f + new.use t f + if t = .lag then ind (some l.pa) f else 0 := by
  simp [Atom.use]

/-- uvmcopy maps the parent's page into the child before it is counted. -/
theorem Inv.share (h : Inv K ({.space old} + ({.space new} + F)) s)
    (hv : v < USERPAGES) (hl : old.leaf v = some l) (hown : l.own = false)
    (hq : new.node (0, v / 512) = some q) (hnone : new.leaf v = none)
    (hdist : ∀ u, u < USERPAGES → new.frames u ≠ some l.pa) :
    Inv K ({.copying old new v l} + F)
      (s.mapped (q, v % 512) (encodeLeaf (some l))) := by
  have hold := h.space_ok
  obtain ⟨hownzero, -⟩ := h.own_eq_zero_of_shared hv hl hown
  obtain ⟨holdkernel, hkernel⟩ := h.kernel_eq_zero_of_user hv hl
  have hleaf := hold.user v l hv hl
  have hswap := h
  rw [add_left_comm] at hswap
  have hnew := hswap.space_ok
  obtain ⟨hqframe, hqalone, hqone, hquser⟩ := hswap.node_alone hq
  have hqold : old.use .kernel q = 0 ∧ old.use .user q = 0 ∧
      total .kernel F q + total .user F q + total .lag F q = 0 := by
    unfold touched at hqalone
    simp only [total_add, total_space] at hqalone
    omega
  -- the page is mapped already, so this is not its first entry
  have hfirst : (s.mapped (q, v % 512) (encodeLeaf (some l))).first = s.first := by
    obtain ⟨fl, hfl, -⟩ := hleaf.origin
    simp [Kmem.mapped, hleaf.PTE2PA, hfl]
  have hmem : ∀ f, f ≠ q →
      (s.mapped (q, v % 512) (encodeLeaf (some l))).mem f = s.mem f := by
    intro f hf
    simp [Kmem.mapped, hf]
  have hlq : l.pa ≠ q := by
    rintro rfl
    have := Space.use_user_pos hv hl
    omega
  simp only [total_add, total_space] at hownzero hkernel
  rw [← add_assoc] at h
  refine h.stored (by rfl) (by rfl) (by rfl) ?_ ?_ ?_ ?_ ?_
  · intro f hf
    have hfq : f = q := by
      by_contra hne
      rcases hf with hf | hf
      · exact hf (hmem f hne)
      · exact hf (by rw [hfirst])
    subst hfq
    unfold touched
    simp only [total_add, total_space]
    exact ⟨by omega, fun _ => by omega⟩
  · intro a ha
    rw [Multiset.mem_singleton.mp ha]
    refine ⟨?_, hnone, hv, ?_, hown, l, hl, rfl⟩
    · apply hold.congr
      intro f hf
      have hne : f ≠ q := by
        rintro rfl
        omega
      exact ⟨hmem f hne, by rw [hfirst]⟩
    · apply hnew.setLeaf hq (fun x hx => hswap.node_unique hq hx)
      case htable => exact fun x y _ hyq => hmem y hyq
      case hentry => simp [Kmem.mapped]
      case hkeep =>
        intro u l' _ hu hl'
        exact ⟨hmem _ (hswap.leaf_ne_node hq hu hl'), by rw [hfirst]⟩
      case huser =>
        rintro l' hl' -
        obtain rfl := Option.some.inj hl'
        exact hleaf.congr (hmem _ hlq) (by rw [hfirst])
      case hhigh =>
        intro l' _ hhigh
        omega
      case hinj => exact Space.inj_setLeaf_some hnew.inj _ fun u hu _ => hdist u hu
  · intro f
    simp only [total_add, total_space, total_copying, reduceCtorEq, ↓reduceIte, add_zero]
  · intro f
    have hshare := h.sharing_split f
    simp only [total_add, total_space, total_copying, reduceCtorEq, ↓reduceIte,
      Space.use_lag, add_zero, zero_add] at hshare ⊢
    by_cases hf : f = l.pa
    · subst hf
      have hownold := Space.own_eq_zero hold.inj hv hl hown
      constructor <;> omega
    · rw [ind_some_of_ne (Ne.symm hf)]
      simpa only [zero_add] using hshare
  · intro x
    simp only [total_add, total_space, total_copying, reduceCtorEq, ↓reduceIte,
      Space.use_token, add_zero]
    exact le_refl _

/-- lock_update_ref_count makes up for the mapping that was not counted. -/
theorem Inv.countShare (h : Inv K ({.copying old new v l} + F) s) :
    K.Frame l.pa ∧ Inv K ({.space old} +
      ({.space (new.setLeaf v (some l) (old.data v))} + F))
      (s.counted l.pa (s.refCount (countIndex l.pa) + 1)) := by
  obtain ⟨hold, hnone, hv, hnew, hown, l', hl', hpa⟩ :=
    h.ok (.copying old new v l) (by simp)
  have hleaf := hold.user v l' hv hl'
  have hframe : K.Frame l.pa := hpa ▸ hleaf.frame
  have hpos : 1 ≤ old.use .user l.pa := hpa ▸ Space.use_user_pos hv hl'
  have hfr : new.frames v = none := by simp [Space.frames, hnone]
  have how : new.owned v = none := by simp [Space.owned, hnone]
  have huse : ∀ f, (new.setLeaf v (some l) (old.data v)).use .user f =
      new.use .user f + ind (some l.pa) f := by
    intro f
    have hmove := new.use_user_setLeaf hv (some l) (old.data v) f
    rw [hfr, ind_none] at hmove
    simpa using hmove
  refine ⟨hframe, ?_⟩
  rw [← add_assoc]
  apply h.change
  case hok =>
    intro a ha
    rcases Multiset.mem_add.mp ha with ha | ha
    · rw [Multiset.mem_singleton.mp ha]
      exact hold.congr fun f _ => ⟨rfl, rfl⟩
    · rw [Multiset.mem_singleton.mp ha]
      exact hnew.congr fun f _ => ⟨rfl, rfl⟩
  case hsame => exact fun f _ => ⟨rfl, rfl⟩
  case hcount =>
    intro f hf
    simp only [total_add, total_space, total_copying, reduceCtorEq, ↓reduceIte,
      huse, Space.use_kernel_setLeaf]
    by_cases hfl : f = l.pa
    · subst hfl
      simp only [Kmem.counted_refCount, Function.update_self, ind_some_self]
      omega
    · rw [Kmem.counted_refCount, refCount_update_of_ne hframe hf hfl,
        ind_some_of_ne (Ne.symm hfl)]
      omega
  case hsharing =>
    intro f
    have hshare := h.sharing_split f
    have hmove := new.use_own_setLeaf hv (some l) (old.data v) f
    simp only [Option.bind_some, hown, Bool.false_eq_true, ↓reduceIte, how,
      ind_none, add_zero] at hmove
    simp only [total_add, total_space, total_copying, reduceCtorEq, ↓reduceIte,
      huse, hmove, Space.use_kernel_setLeaf, Space.use_lag] at hshare ⊢
    unfold Sharing at hshare ⊢
    constructor <;> omega
  case hfree =>
    have hcount := h.count_split hframe
    simp only [total_copying, reduceCtorEq, ↓reduceIte] at hcount
    exact h.free.counted hframe (by omega) (by omega)
  case hunlocked => exact h.unlocked
  case htokens =>
    intro x
    simp only [total_add, total_space, total_copying, reduceCtorEq, ↓reduceIte,
      Space.use_root_setLeaf, Space.use_token, add_zero]
    exact le_refl _

end share

section unmap

variable {first : Option Pte}

theorem total_clearing (t : Tag) (f : Nat) : total t {Atom.clearing S v l first} f =
    (S.setLeaf v none (S.data v)).use t f := by simp [Atom.use]

/-- One reference to the frame of a leaf is given back, which leaves a state `s'`; the frame
itself may have changed only with its last reference. -/
theorem Inv.giveBack (h : Inv K ({.space S} + F) s) (hv : v < USERPAGES)
    (hl : S.leaf v = some l)
    (hmem : ∀ f, f ≠ l.pa → s'.mem f = s.mem f) (hfirst : s'.first = s.first)
    (hself : s'.refCount (countIndex l.pa) = s.refCount (countIndex l.pa) - 1)
    (hothers : ∀ f, K.Frame f → f ≠ l.pa →
      s'.refCount (countIndex f) = s.refCount (countIndex f))
    (hlast : s'.mem l.pa = s.mem l.pa ∨ s.refCount (countIndex l.pa) = 1)
    (hfree : FreeOk K s') (hunlocked : s'.locked = false) :
    Inv K ({.clearing S v l (s.first l.pa)} + F) s' := by
  have hS := h.space_ok
  have hleaf := hS.user v l hv hl
  have hpos := Space.use_user_pos hv hl
  obtain ⟨hkzero, hkF⟩ := h.kernel_eq_zero_of_user hv hl
  have hcount := h.count_split hleaf.frame
  have hlagF : total .lag F l.pa ≤ total .user F l.pa :=
    total_lag_le_user (fun a ha => h.ok a (Multiset.mem_add.mpr (Or.inr ha))) l.pa
  simp only [total_space] at hcount
  have huse : ∀ f, (S.setLeaf v none (S.data v)).use .user f + ind (some l.pa) f =
      S.use .user f := by
    intro f
    have hmove := S.use_user_setLeaf hv none (S.data v) f
    rw [Space.frames_eq_some.mpr ⟨l, hl, rfl⟩] at hmove
    simpa using hmove
  apply h.change
  case hok =>
    intro a ha
    rw [Multiset.mem_singleton.mp ha]
    refine ⟨hv, hl, fun x hx => h.leaf_ne_node hx hv hl rfl, hS.congr fun f _ => ?_⟩
    by_cases hfl : f = l.pa
    · simp [Kmem.restored, hfl, hleaf.data]
    · simp [Kmem.restored, hfl, hmem f hfl, hfirst]
  case hsame =>
    intro f hf
    rw [hfirst]
    refine ⟨?_, rfl⟩
    by_cases hfl : f = l.pa
    · subst hfl
      rcases hlast with hkeep | hone
      · exact hkeep
      · unfold touched at hf
        omega
    · exact hmem f hfl
  case hcount =>
    intro f hf
    have hmove := huse f
    simp only [total_space, total_clearing, Space.use_kernel_setLeaf]
    by_cases hfl : f = l.pa
    · subst hfl
      rw [ind_some_self] at hmove
      rw [hself]
      omega
    · rw [ind_some_of_ne (Ne.symm hfl)] at hmove
      rw [hothers f hf hfl]
      omega
  case hsharing =>
    intro f
    have hshare := h.sharing_split f
    have hmove := huse f
    have hown' := (S.setLeaf v none (S.data v)).own_le_user f
    have hmoveown := S.use_own_setLeaf hv none (S.data v) f
    have hownF := total_own_le_user F f
    simp only [Option.bind_none, ind_none, add_zero] at hmoveown
    simp only [total_space, total_clearing, Space.use_kernel_setLeaf, Space.use_lag] at hshare ⊢
    by_cases hfl : f = l.pa
    · subst hfl
      rw [ind_some_self] at hmove
      have hselfle := hS.inj l.pa
      have hdef : S.use .user l.pa = refs userIx S.frames l.pa := rfl
      unfold Sharing at hshare ⊢
      constructor <;> omega
    · rw [ind_some_of_ne (Ne.symm hfl), add_zero] at hmove
      have hle : (S.setLeaf v none (S.data v)).use .own f ≤ S.use .own f := by omega
      rw [hmove]
      unfold Sharing at hshare ⊢
      constructor <;> omega
  case hfree => exact hfree
  case hunlocked => exact hunlocked
  case htokens =>
    intro x
    simp only [total_space, total_clearing, Space.use_root_setLeaf, Space.use_token]
    exact le_refl _

/-- The entry of a page that was given back is cleared. -/
theorem Inv.clearLeaf (h : Inv K ({.clearing S v l first} + F) s)
    (hq : S.node (0, v / 512) = some q) : K.Frame q ∧
      Inv K ({.space (S.setLeaf v none (S.data v))} + F)
        (s.wrote q (storePte (s.mem q) (v % 512) 0)) := by
  obtain ⟨hv, hl, hnode, hS⟩ := h.ok (.clearing S v l first) (by simp)
  have hdom := hS.table.dom _ q hq
  have hone : 1 ≤ refs nodeIx S.node q := refs_pos hdom.1 hq
  have huse : total .kernel {Atom.clearing S v l first} q = refs nodeIx S.node q :=
    total_clearing .kernel q
  have hqone := (h.sharing_split q).1 (by omega)
  have hlq : l.pa ≠ q := fun heq => hnode _ (heq ▸ hq)
  -- other leaves keep their frames
  have hapart : ∀ u l', u ≠ v → u < USERPAGES → S.leaf u = some l' →
      l'.pa ≠ l.pa ∧ l'.pa ≠ q := by
    intro u l' huv hu hl'
    have hpos : 1 ≤ (S.setLeaf v none (S.data v)).use .user l'.pa :=
      Space.use_user_pos hu (by simp [Space.setLeaf, huv, hl'])
    have htotal : total .user {Atom.clearing S v l first} l'.pa =
        (S.setLeaf v none (S.data v)).use .user l'.pa := total_clearing .user l'.pa
    rw [← htotal] at hpos
    refine ⟨fun heq => huv (refs_inj (hS.inj l.pa) (mem_userIx.mpr hu) (mem_userIx.mpr hv)
      (Space.frames_eq_some.mpr ⟨l', hl', heq⟩) (Space.frames_eq_some.mpr ⟨l, hl, rfl⟩)), ?_⟩
    rintro rfl
    omega
  refine ⟨hdom.2, h.rewrite (by rfl) (by rfl) (by rfl) ?_ ?_ ?_⟩
  · intro f hf
    have hfq : f = q := by
      by_contra hne
      simp [hne] at hf
    subst hfq
    exact ⟨h.touched_eq_zero_of_kernel (by omega), fun _ => by omega⟩
  · intro a ha
    rw [Multiset.mem_singleton.mp ha]
    apply hS.setLeaf hq
    case hunique =>
      exact fun x hx => refs_inj (by omega) (hS.table.dom x q hx).1 hdom.1 hx hq
    case htable =>
      intro x y hx hyq
      have hyl : y ≠ l.pa := fun heq => hnode x (heq ▸ hx)
      simp [Kmem.restored, hyq, hyl]
    case hentry => simp [Kmem.restored, Ne.symm hlq, encodeLeaf]
    case hkeep =>
      intro u l' huv hu hl'
      obtain ⟨hne, hneq⟩ := hapart u l' huv hu hl'
      simp [Kmem.restored, hne, hneq]
    case huser =>
      intro l' hl'
      cases hl'
    case hhigh =>
      intro l' hl'
      cases hl'
    case hinj => exact Space.inj_setLeaf_none hS.inj v _
  · intro t f
    rw [total_space, total_clearing]

theorem Inv.count_pos_of_user (h : Inv K ({.space S} + F) s) (hv : v < USERPAGES)
    (hl : S.leaf v = some l) : 1 ≤ s.refCount (countIndex l.pa) := by
  have hcount := h.count_split (h.space_ok.user v l hv hl).frame
  have hpos := Space.use_user_pos hv hl
  simp only [total_space] at hcount
  omega

/-- One of several references is given back. -/
theorem Inv.giveShared (h : Inv K ({.space S} + F) s) (hv : v < USERPAGES)
    (hl : S.leaf v = some l) (hmany : 2 ≤ s.refCount (countIndex l.pa)) :
    Inv K ({.clearing S v l (s.first l.pa)} + F)
      (s.counted l.pa (s.refCount (countIndex l.pa) - 1)) := by
  have hframe := (h.space_ok.user v l hv hl).frame
  apply h.giveBack hv hl
  case hmem => exact fun f _ => rfl
  case hfirst => rfl
  case hself => simp
  case hothers =>
    intro f hf hne
    rw [Kmem.counted_refCount, refCount_update_of_ne hframe hf hne]
  case hlast => exact Or.inl rfl
  case hfree => exact h.free.counted hframe (by omega) (by omega)
  case hunlocked => exact h.unlocked

/-- The last reference is given back. -/
theorem Inv.giveLast (h : Inv K ({.space S} + F) s) (hv : v < USERPAGES)
    (hl : S.leaf v = some l) (hone : s.refCount (countIndex l.pa) = 1) :
    Inv K ({.clearing S v l (s.first l.pa)} + F) (s.pushed l.pa) := by
  have hframe := (h.space_ok.user v l hv hl).frame
  apply h.giveBack hv hl
  case hmem =>
    intro f hf
    simp [hf]
  case hfirst => rfl
  case hself => simp [hone]
  case hothers =>
    intro f hf hne
    rw [Kmem.pushed_refCount, refCount_update_of_ne hframe hf hne]
  case hlast => exact Or.inr hone
  case hfree => exact h.free.pushed hframe (by omega)
  case hunlocked => exact h.unlocked

/-- uvmunmap gives back the frame of a page. -/
theorem safe_giveBack (hv : v < USERPAGES) (hl : S.leaf v = some l) (hr : Quiet r) :
    Safe (logic K) E (Prog.cmd (.kfree l.pa)) ({.space S} + r)
      fun _ r' => ∃ first, r' = {.clearing S v l first} + r := by
  apply safe_ok
  intro F s hinv
  refine ⟨Adm.of_quiet ((quiet_space S).add hr) rfl, ?_⟩
  rw [add_assoc] at hinv
  have hframe := (hinv.space_ok.user v l hv hl).frame
  have hpos := hinv.count_pos_of_user hv hl
  by_cases hone : s.refCount (countIndex l.pa) = 1
  · refine ⟨(), _, _, kfree_last hinv.unlocked hframe (Or.inl hone), ?_, s.first l.pa, rfl⟩
    rw [add_assoc]
    exact hinv.giveLast hv hl hone
  · refine ⟨(), _, _, kfree_more hinv.unlocked hframe.inRam (by omega), ?_, s.first l.pa, rfl⟩
    rw [add_assoc]
    exact hinv.giveShared hv hl (by omega)

/-- uvmunmap clears the entry of a page that it has given back. -/
theorem safe_clearPte (hq : S.node (0, v / 512) = some q) (hr : Quiet r) :
    Safe (logic K) E (Prog.cmd (.clearPte (q, v % 512))) ({.clearing S v l first} + r)
      fun _ r' => r' = {.space (S.setLeaf v none (S.data v))} + r := by
  apply safe_ok
  intro F s hinv
  refine ⟨⟨fun a ha => ?_, fun pte hpte => by cases hpte⟩, ?_⟩
  · rcases Multiset.mem_add.mp ha with ha | ha
    · rw [Multiset.mem_singleton.mp ha]
      exact ⟨q, hq, rfl⟩
    · exact hr.awaits _ a ha
  rw [add_assoc] at hinv
  obtain ⟨hframe, hinv'⟩ := hinv.clearLeaf hq
  refine ⟨(), _, _, writePteAt_ok hframe.inRam 0, ?_, rfl⟩
  rwa [add_assoc]

end unmap

end Xv6.Vm
