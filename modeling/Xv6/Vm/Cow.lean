/-
Copy on write: the flags that uvmcopy and update give to a page, and the two
ways in which update makes a page writable again.
-/
import Xv6.Vm.Shares

namespace Xv6.Vm

open Bytes Refs Program Interleave

section flags

/-- Clearing bits does not change the others. -/
theorem has_and_not {a b bit : Pte} (h : bit &&& b = 0) :
    (a &&& ~~~b).has bit = a.has bit := by
  have hand : a &&& ~~~b &&& bit = a &&& bit := by
    apply BitVec.eq_of_getLsbD_eq
    intro i hi
    have hbit := congrArg (fun w => BitVec.getLsbD w i) h
    simp only [BitVec.getLsbD_and] at hbit
    simp only [BitVec.getLsbD_and, BitVec.getLsbD_not, hi, decide_true, Bool.true_and]
    cases ha : bit.getLsbD i <;> cases hb : b.getLsbD i <;> simp_all
  unfold Pte.has
  rw [hand]

theorem has_and_not_self (a bit : Pte) : (a &&& ~~~bit).has bit = false := by
  have hand : a &&& ~~~bit &&& bit = 0 := by
    rw [BitVec.and_assoc, BitVec.and_comm (~~~bit), BitVec.and_not_self]
    exact BitVec.and_zero
  unfold Pte.has
  rw [hand]
  rfl

variable (fl : Pte)

theorem has_cowFlags {bit : Pte} (hW : bit &&& PTE_W = 0) (hR : PTE_R.has bit = false)
    (hC : PTE_COW.has bit = false) : (cowFlags fl).has bit = fl.has bit := by
  rw [cowFlags, Pte.has_or_flags, Pte.has_or_flags, has_and_not hW, hR, hC,
    Bool.or_false, Bool.or_false]

theorem has_cowFlags_R : (cowFlags fl).has PTE_R = true := by
  rw [cowFlags, Pte.has_or_flags, Pte.has_or_flags]
  simp [show PTE_R.has PTE_R = true from rfl]

theorem has_cowFlags_W : (cowFlags fl).has PTE_W = false := by
  rw [cowFlags, Pte.has_or_flags, Pte.has_or_flags, has_and_not_self]
  rfl

theorem has_cowFlags_COW : (cowFlags fl).has PTE_COW = true := by
  rw [cowFlags, Pte.has_or_flags]
  simp [show PTE_COW.has PTE_COW = true from rfl]

theorem has_writableFlags {b : Pte} (hC : b &&& PTE_COW = 0)
    (hW : PTE_W.has b = false) : (writableFlags fl).has b = fl.has b := by
  rw [writableFlags, has_and_not hC, Pte.has_or_flags, hW, Bool.or_false]

theorem has_writableFlags_W : (writableFlags fl).has PTE_W = true := by
  rw [writableFlags, has_and_not (by decide), Pte.has_or_flags]
  simp [show PTE_W.has PTE_W = true from rfl]

theorem has_writableFlags_COW : (writableFlags fl).has PTE_COW = false :=
  has_and_not_self _ _

theorem isFlags_cowFlags {fl : Pte} (h : IsFlags fl) : IsFlags (cowFlags fl) :=
  ((h.and _).or (by decide)).or (by decide)

theorem isFlags_writableFlags {fl : Pte} (h : IsFlags fl) : IsFlags (writableFlags fl) :=
  (h.or (by decide)).and _

theorem or_PTE_V {fl : Pte} (h : fl.has PTE_V = true) : fl ||| PTE_V = fl := by
  rw [Pte.has_V] at h
  apply BitVec.eq_of_getLsbD_eq
  intro i hi
  by_cases hzero : i = 0
  · subst hzero
    simp [h]
  · have hbit : PTE_V.getLsbD i = false := by
      simp [PTE_V, hzero]
    rw [BitVec.getLsbD_or, hbit, Bool.or_false]

end flags

section update

variable {K : Image} {E : KErr → Prop} {r F : Multiset Atom} {s s' : Kmem} {S : Space}
variable {va v q p : Nat} {l : Leaf} {pte : PtePtr}

/-- With all tables present walk changes nothing, also when it may allocate. -/
theorem run_walkFrom (h : S.Table K s.mem) {alloc : Bool} {level p : Nat}
    (hlevel : level ≤ 2) (hp : S.node (level, entryIx (level + 1) va) = some p)
    (hslot : S.slot va = some pte) :
    (walkFrom va alloc level p).run (baseHandler K) s = .ok (some pte, s) := by
  have hup : ∀ k, k ≤ 2 → ∃ c, S.node (k, entryIx (k + 1) va) = some c := by
    intro k
    induction k with
    | zero =>
        intro _
        obtain ⟨c, hc, -⟩ := Option.map_eq_some_iff.mp hslot
        exact ⟨c, hc⟩
    | succ k ih =>
        intro hk
        obtain ⟨c, hc⟩ := ih (by omega)
        obtain ⟨c', hc'⟩ := h.parent k _ c hc (by omega)
        exact ⟨c', by rwa [← entryIx_div]⟩
  induction level generalizing p with
  | zero =>
      simp only [Space.slot, hp, Option.map_some] at hslot
      rw [walkFrom, ← hslot]
      rfl
  | succ level ih =>
      obtain ⟨c, hc⟩ := hup level (by omega)
      have hframe := (h.dom _ p hp).2
      have hentry := h.entries (level + 1) (entryIx (level + 1) va) p
        (by rwa [entryIx_div])
      have hread : baseHandler K _ (.readPte (p, PX (level + 1) va)) s =
          .ok (S.entry (level + 1) (entryIx (level + 1) va), s) := by
        rw [← hentry]
        exact readPteAt_ok hframe.inRam
      have hhas : (S.entry (level + 1) (entryIx (level + 1) va)).has PTE_V = true := by
        rw [h.has_entry, hc, Option.isSome_some]
      have hpa : PTE2PA (S.entry (level + 1) (entryIx (level + 1) va)) = c := by
        rw [Space.entry, hc, PTE2PA_encodeNode (h.dom _ c hc).2]
      rw [walkFrom, Prog.cmd_bind, Prog.run]
      simp only [hread, hhas, ↓reduceIte, hpa]
      exact ih (by omega) hc

/-- Inside update mappages finds the entry and writes it, nothing else. -/
theorem run_mappages (h : S.Table K s.mem) {pa : Nat} {perm : Pte}
    (hva : va < MAXVA) (halign : va % PGSIZE = 0) (hslot : S.slot va = some pte) :
    (mappages S.root va PGSIZE pa perm).run (baseHandler K) s =
      .ok (0, s.mapped pte (PA2PTE pa ||| perm ||| PTE_V)) := by
  have hnot : ¬ va % PGSIZE ≠ 0 := by omega
  have hwalk : (walk S.root va true).run (baseHandler K) s = .ok (some pte, s) := by
    have hlt : ¬ va ≥ MAXVA := by omega
    rw [walk, if_neg hlt]
    exact run_walkFrom h le_rfl (by rw [entryIx_two_div hva]; exact h.root) hslot
  obtain ⟨q, hq, rfl⟩ := Space.slot_eq_some hslot
  have hmap : baseHandler K _
      (.mapPte (q, va / PGSIZE % 512) (PA2PTE pa ||| perm ||| PTE_V)) s =
      .ok ((), s.mapped (q, va / PGSIZE % 512) (PA2PTE pa ||| perm ||| PTE_V)) :=
    mapPteAt_ok (h.dom _ q hq).2.inRam _
  rw [mappages, if_neg hnot, if_neg (by decide), if_neg (by decide)]
  change (mapLoop S.root perm 1 va pa).run _ s = _
  rw [mapLoop, Prog.run_bind_ok hwalk]
  simp only [Prog.cmd_bind, Prog.run, hmap]
  rfl

/-- The entry that update writes. -/
theorem update_word (pa : Nat) {fl : Pte} (h : fl.has PTE_V = true) :
    PA2PTE pa ||| writableFlags fl ||| PTE_V = PA2PTE pa ||| writableFlags fl := by
  rw [BitVec.or_assoc, or_PTE_V]
  rwa [has_writableFlags fl (by decide) (by decide)]

/-- update copies a shared page to the frame that it allocates. -/
theorem update_copy (pte' : PtePtr) (h : Inv K ({.space S} + F) s)
    (hva : va < MAXVA) (halign : va % PGSIZE = 0) (hv : va / PGSIZE < USERPAGES)
    (hl : S.leaf (va / PGSIZE) = some l) (hslot : S.slot va = some pte)
    (hmany : 2 ≤ s.refCount (countIndex l.pa)) (hp : s.freelist = p) (hne : p ≠ 0) :
    update K S.root va pte' l.pa l.fl s =
      .ok (0, (((s.popped p).wrote p (s.mem l.pa)).mapped pte
        (PA2PTE p ||| writableFlags l.fl)).counted l.pa
          (s.refCount (countIndex l.pa) - 1)) := by
  have hleaf := h.space_ok.user _ l hv hl
  obtain ⟨hframe, hinv'⟩ := h.popped hp hne
  have hzero := (h.free.popped hp hne).2.1
  have hlp : l.pa ≠ p := by
    rintro rfl
    omega
  have hcount : Function.update s.refCount (countIndex p) 1 (countIndex l.pa) =
      s.refCount (countIndex l.pa) := refCount_update_of_ne hframe hleaf.frame hlp 1
  have hnode : ∀ x c, S.node x = some c → c ≠ p := by
    rintro x c hx rfl
    have halone := (h.node_alone hx).2.2.1
    have hc := h.count_split hframe
    simp only [total_space] at hc
    omega
  rw [update, KM.bind_ok (acquire_ok h.unlocked),
    KM.bind_ok (getRefCount_ok hleaf.frame.inRam)]
  rw [if_pos (show s.refCount (countIndex l.pa) > 1 by omega)]
  rw [KM.bind_ok (kallocNoLock_pop (s := { s with locked := true }) hp hne hframe.inRam),
    KM.bind_ok (readPage_ok hleaf.frame.inRam), KM.bind_ok (writePage_ok hframe.inRam _)]
  have htable : S.Table K
      (((({ s with locked := true } : Kmem).popped p).wrote p (s.mem l.pa))).mem := by
    apply h.space_ok.table.congr
    intro x c hc
    simp [hnode x c hc]
  have hmem : (({ s with locked := true } : Kmem).popped p).mem l.pa = s.mem l.pa := by
    simp [hlp]
  rw [hmem, KM.bind_ok (run_mappages htable hva halign hslot), update_word p hleaf.valid]
  rw [KM.bind_ok (kfreeNoLock_more hleaf.frame.inRam (by
    simpa [Kmem.mapped, hcount] using hmany))]
  beta_reduce
  rw [KM.bind_ok (release_ok rfl)]
  simp [Kmem.mapped, Kmem.counted, Kmem.wrote, Kmem.popped, hcount, h.unlocked,
    pure, KM.pure_ok]

theorem Inv.update_copy (h : Inv K ({.space S} + F) s)
    (hv : v < USERPAGES) (hl : S.leaf v = some l)
    (hq : S.node (0, v / 512) = some q)
    (hmany : 2 ≤ s.refCount (countIndex l.pa)) (hp : s.freelist = p) (hne : p ≠ 0) :
    Inv K ({.space (S.setLeaf v (some ⟨p, writableFlags l.fl, true⟩) (S.data v))} + F)
      ((((s.popped p).wrote p (s.mem l.pa)).mapped (q, v % 512)
        (PA2PTE p ||| writableFlags l.fl)).counted l.pa
          (s.refCount (countIndex l.pa) - 1)) := by
  have hleaf := h.space_ok.user v l hv hl
  obtain ⟨hframe, hpopped⟩ := h.popped hp hne
  have hzero := (h.free.popped hp hne).2.1
  have hlp : l.pa ≠ p := by
    rintro rfl
    omega
  have hcount : ((s.popped p).wrote p (s.mem l.pa)).refCount (countIndex l.pa) =
      s.refCount (countIndex l.pa) := refCount_update_of_ne hframe hleaf.frame hlp 1
  -- the copy is a page of the kernel until its entry is written
  obtain ⟨-, -, hcopied⟩ := hpopped.wrote_page (s.mem l.pa)
  rw [add_left_comm] at hcopied
  have hcleared := ((hcopied.giveShared hv hl (by rwa [hcount])).clearLeaf hq).2
  rw [hcount, hleaf.data] at hcleared
  rw [hleaf.data]
  have hmapped := hcleared.mapPage (w := writableFlags l.fl) hv hq
    (by simp [Space.setLeaf]) (isFlags_writableFlags hleaf.flags)
    (by rw [has_writableFlags _ (by decide) (by decide), hleaf.valid])
    (by rw [has_writableFlags _ (by decide) (by decide), hleaf.readable])
    (has_writableFlags_COW _)
  rw [Space.setLeaf_setLeaf] at hmapped
  have hstate : ∀ (t : Kmem) (c : Int) (w : Pte),
      ((t.counted l.pa c).wrote q (storePte ((t.counted l.pa c).mem q) (v % 512) 0)).mapped
        (q, v % 512) w = (t.mapped (q, v % 512) w).counted l.pa c := by
    intro t c w
    simp only [Kmem.mapped, Kmem.counted, Kmem.wrote, Function.update_self,
      Function.update_idem, storePte_storePte]
    rfl
  rwa [hstate] at hmapped

/-- Without memory for the copy of a shared page, update writes to address 0. -/
theorem update_fault {table : Nat} {pa : Nat} {fl : Pte} (pte' : PtePtr)
    (hlock : s.locked = false) (hram : inRam pa = true)
    (hmany : 1 < s.refCount (countIndex pa)) (hp : s.freelist = 0) :
    update K table va pte' pa fl s = .error (.fault 0) := by
  rw [update, KM.bind_ok (acquire_ok hlock), KM.bind_ok (getRefCount_ok hram)]
  rw [if_pos (show s.refCount (countIndex pa) > 1 from hmany)]
  rw [KM.bind_ok (kallocNoLock_zero (s := { s with locked := true }) hp),
    KM.bind_ok (readPage_ok hram)]
  rfl

theorem update_copy_fault (pte' : PtePtr) (h : Inv K ({.space S} + F) s)
    (hv : v < USERPAGES) (hl : S.leaf v = some l)
    (hmany : 2 ≤ s.refCount (countIndex l.pa)) (hp : s.freelist = 0) :
    update K S.root va pte' l.pa l.fl s = .error (.fault 0) :=
  update_fault pte' h.unlocked (h.space_ok.user v l hv hl).frame.inRam (by omega) hp

/-- update makes the only mapping of a page writable in place. -/
theorem update_inPlace (pte' : PtePtr) (h : Inv K ({.space S} + F) s)
    (hva : va < MAXVA) (halign : va % PGSIZE = 0) (hv : va / PGSIZE < USERPAGES)
    (hl : S.leaf (va / PGSIZE) = some l) (hslot : S.slot va = some pte)
    (hone : s.refCount (countIndex l.pa) = 1) :
    update K S.root va pte' l.pa l.fl s =
      .ok (0, s.wrote pte.1
        (storePte (s.mem pte.1) pte.2 (PA2PTE l.pa ||| writableFlags l.fl))) := by
  have hleaf := h.space_ok.user _ l hv hl
  have hfl := isFlags_writableFlags hleaf.flags
  obtain ⟨fl, hfirst, -⟩ := hleaf.origin
  rw [update, KM.bind_ok (acquire_ok h.unlocked),
    KM.bind_ok (getRefCount_ok hleaf.frame.inRam)]
  rw [if_neg (show ¬ s.refCount (countIndex l.pa) > 1 by omega)]
  rw [KM.bind_ok (getRefCount_ok hleaf.frame.inRam), if_pos hone]
  have htable : S.Table K ({ s with locked := true } : Kmem).mem := h.space_ok.table
  rw [KM.bind_ok (run_mappages htable hva halign hslot), update_word l.pa hleaf.valid]
  beta_reduce
  rw [KM.bind_ok (release_ok rfl)]
  have hpa : PTE2PA (PA2PTE l.pa ||| writableFlags l.fl) = l.pa :=
    PTE2PA_or hleaf.frame.lt_pow hleaf.frame.1 hfl
  simp [Kmem.mapped, Kmem.wrote, hpa, hfirst, h.unlocked, pure, KM.pure_ok]

theorem Inv.update_inPlace (h : Inv K ({.space S} + F) s) (hv : v < USERPAGES)
    (hl : S.leaf v = some l) (hcow : l.fl.has PTE_COW = true)
    (hq : S.node (0, v / 512) = some q)
    (hone : s.refCount (countIndex l.pa) = 1) :
    Inv K ({.space (S.setLeaf v (some ⟨l.pa, writableFlags l.fl, true⟩) (S.data v))} + F)
      (s.wrote q (storePte (s.mem q) (v % 512) (PA2PTE l.pa ||| writableFlags l.fl))) := by
  have hleaf := h.space_ok.user v l hv hl
  have hcount := h.count_split hleaf.frame
  have hpos := Space.use_user_pos hv hl
  have hlagF : total .lag F l.pa ≤ total .user F l.pa :=
    total_lag_le_user (fun a ha => h.ok a (Multiset.mem_add.mpr (Or.inr ha))) l.pa
  simp only [total_space] at hcount
  apply h.storeLeaf hq
  · exact Space.use_user_setLeaf_same hl rfl
  · intro f
    by_cases hf : f = l.pa
    · right
      subst hf
      omega
    · left
      have hmove := S.use_own_setLeaf hv (some ⟨l.pa, writableFlags l.fl, true⟩)
        (S.data v) f
      simp only [Option.bind_some, ↓reduceIte, ind_some_of_ne (Ne.symm hf)] at hmove
      omega
  · rintro l' hl' -
    obtain rfl := Option.some.inj hl'
    obtain ⟨fl, hfirst, hiff⟩ := hleaf.origin
    constructor
    case frame => exact hleaf.frame
    case flags => exact isFlags_writableFlags hleaf.flags
    case valid => rw [has_writableFlags _ (by decide) (by decide), hleaf.valid]
    case readable => rw [has_writableFlags _ (by decide) (by decide), hleaf.readable]
    case notBoth => simp [has_writableFlags_COW]
    case owner => exact fun _ => rfl
    case data => exact hleaf.data
    case origin =>
      refine ⟨fl, hfirst, ?_⟩
      simp [has_writableFlags_W, hiff, hcow]
  · intro l' _ hhigh
    omega

/-- update on a copy-on-write page: it fails only for want of memory, and then
the page is writable and exclusive with the same contents. -/
theorem safe_update {e : PtePtr} (hE : E (.fault 0)) (hva : va < MAXVA)
    (halign : va % PGSIZE = 0) (hv : va / PGSIZE < USERPAGES)
    (hl : S.leaf (va / PGSIZE) = some l) (hcow : l.fl.has PTE_COW = true)
    (hslot : S.slot va = some pte) (hr : Quiet r) :
    Safe (logic K) E (Prog.cmd (.update S.root va e l.pa l.fl)) ({.space S} + r)
      fun _ r' => ∃ pa, r' = {.space (S.setLeaf (va / PGSIZE)
        (some ⟨pa, writableFlags l.fl, true⟩) (S.data (va / PGSIZE)))} + r := by
  obtain ⟨q, hq, rfl⟩ := Space.slot_eq_some hslot
  apply Safe.cmd
  intro F s hinv
  refine ⟨Adm.of_quiet ((quiet_space S).add hr) rfl, ?_⟩
  have hinv' : Inv K ({.space S} + (r + F)) s := by rwa [← add_assoc]
  have hpos := hinv'.count_pos_of_user hv hl
  by_cases hone : s.refCount (countIndex l.pa) = 1
  · have hexec : (logic K).exec _ (.update S.root va e l.pa l.fl) s = _ :=
      Vm.update_inPlace e hinv' hva halign hv hl hslot hone
    simp only [hexec]
    refine ⟨_, ?_, l.pa, rfl⟩
    rw [add_assoc]
    exact hinv'.update_inPlace hv hl hcow hq hone
  · by_cases hzero : s.freelist = 0
    · have hexec : (logic K).exec _ (.update S.root va e l.pa l.fl) s = _ :=
        update_copy_fault e hinv' hv hl (by omega) hzero
      simp only [hexec]
      exact hE
    · have hexec : (logic K).exec _ (.update S.root va e l.pa l.fl) s = _ :=
        Vm.update_copy e hinv' hva halign hv hl hslot (by omega) rfl hzero
      simp only [hexec]
      refine ⟨_, ?_, s.freelist, rfl⟩
      rw [add_assoc]
      exact hinv'.update_copy hv hl hq (by omega) rfl hzero

end update

end Xv6.Vm
