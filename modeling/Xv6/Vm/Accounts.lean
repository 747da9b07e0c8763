/-
The references of frames in all states of the memory system: the page tables and the pages of the
kernel that they come from, the free list, and which entries are writable.
-/
import Xv6.Vm.ExecProc
import Xv6.Vm.Shape

namespace Xv6.Vm

open Bytes Refs Program Interleave

section tasks

/-- The entry that a running operation is about to clear in uvmunmap, whose page it has freed. -/
def clearsNext (t : Task MemCmd Op.Result) : Option PtePtr :=
  match t.prog with
  | .ret _ => none
  | .call c _ => c.clearsAt

/-- A running operation has mapped a page of the child in uvmcopy and is about to count it. -/
def countsNext (t : Task MemCmd Op.Result) : Bool :=
  match t.prog with
  | .ret _ => false
  | .call c _ => c.isCount

def inWindow (t : Task MemCmd Op.Result) : Bool := countsNext t || (clearsNext t).isSome

/-- The entries of pages that uvmunmap has freed, but not cleared yet. -/
def Sys.clearing (sys : Sys) : List PtePtr := sys.busy.filterMap clearsNext

/-- Whether the entry for a page is one of them. -/
def Sys.Stale (sys : Sys) (x v : Nat) : Prop :=
  ∃ pte ∈ sys.clearing, slotAt sys.k.mem x (v * PGSIZE) = some pte

variable {K : Image} {R : Eager} {s : Kmem} {t : Task MemCmd Op.Result} {r : Multiset Atom}

theorem quiet_of_rests (h : Task.Rests (logic K) (contract K R) s t r)
    (hwindow : inWindow t = false) : Quiet r := by
  obtain ⟨o, prog⟩ := t
  cases prog with
  | ret value => exact h.1
  | call c next =>
      obtain ⟨hcount, hclears⟩ := Bool.or_eq_false_iff.mp hwindow
      change c.isCount = false at hcount
      change c.clearsAt.isSome = false at hclears
      intro a ha
      have hawaits : a.Awaits c := Adm.window h a ha
      cases a with
      | copying old new v l =>
          rw [show c.isCount = true from hawaits] at hcount
          cases hcount
      | clearing S v l first =>
          obtain ⟨q, -, hc⟩ := hawaits
          rw [hc] at hclears
          cases hclears
      | _ => rfl

theorem quiet_pool {pool : List (Task MemCmd Op.Result)}
    (h : Each (Task.Rests (logic K) (contract K R) s) pool r)
    (hwindow : ∀ t ∈ pool, inWindow t = false) : Quiet r := by
  induction pool generalizing r with
  | nil =>
      obtain rfl : r = 0 := h
      exact quiet_zero
  | cons t pool ih =>
      obtain ⟨a, b, ha, hb, rfl⟩ := h
      exact (quiet_of_rests ha (hwindow t List.mem_cons_self)).add
        (ih hb fun t' ht' => hwindow t' (List.mem_cons_of_mem t ht'))

/-- Who has a page to clear is about to clear it. -/
theorem clearing_of_pool {pool : List (Task MemCmd Op.Result)} {S : Space} {v : Nat} {l : Leaf}
    {first : Option Pte} (h : Each (Task.Rests (logic K) (contract K R) s) pool r)
    (ha : .clearing S v l first ∈ r) :
    ∃ q, S.node (0, v / 512) = some q ∧ (q, v % 512) ∈ pool.filterMap clearsNext := by
  induction pool generalizing r with
  | nil =>
      obtain rfl : r = 0 := h
      exact absurd ha (Multiset.notMem_zero _)
  | cons t pool ih =>
      obtain ⟨x, y, hx, hy, rfl⟩ := h
      rcases Multiset.mem_add.mp ha with ha | ha
      · obtain ⟨o, prog⟩ := t
        cases prog with
        | ret value => cases hx.1 _ ha
        | call c next =>
            obtain ⟨q, hq, hc⟩ := Adm.window hx _ ha
            exact ⟨q, hq, List.mem_filterMap.mpr ⟨_, List.mem_cons_self, hc⟩⟩
      · obtain ⟨q, hq, hmem⟩ := ih hy ha
        obtain ⟨t', ht', hc⟩ := List.mem_filterMap.mp hmem
        exact ⟨q, hq, List.mem_filterMap.mpr ⟨t', List.mem_cons_of_mem t ht', hc⟩⟩

end tasks

/-! ### Page tables and kernel pages -/

/-- The address spaces in memory that an entry of the ledger stands for, each with the page that
uvmunmap has freed, but not cleared.  In the middle of uvmcopy the new page is mapped already. -/
def Atom.spaces : Atom → Multiset (Space × Option Nat)
  | .space S => {(S, none)}
  | .copying old new v l => {(old, none)} + {(new.setLeaf v (some l) (old.data v), none)}
  | .clearing S v _ _ => {(S, some v)}
  | .page .. | .token _ => 0

/-- The space without the page that was freed. -/
def counted (T : Space × Option Nat) : Space :=
  T.2.elim T.1 fun v => T.1.setLeaf v none (T.1.data v)

def Atom.pages : Atom → Multiset Nat
  | .page pa _ _ => {pa}
  | .space _ | .copying .. | .clearing .. | .token _ => 0

def spacesIn (r : Multiset Atom) : Multiset (Space × Option Nat) := r.bind Atom.spaces

def tablesIn (r : Multiset Atom) : Multiset Nat := (spacesIn r).map fun T => T.1.root

/-- The table of a space is in memory, and its leaves are those of a state in which it was in
order, with the same first mappings of their frames but for the one that was freed. -/
def Kept (K : Image) (k : Kmem) (T : Space × Option Nat) : Prop :=
  T.1.Table K k.mem ∧ ∃ s, T.1.Ok K s ∧ ∀ v l, v < USERPAGES → T.2 ≠ some v →
    T.1.leaf v = some l → k.first l.pa = s.first l.pa

def pagesIn (r : Multiset Atom) : Multiset Nat := r.bind Atom.pages

section ledger

variable {K : Image} {k : Kmem} {a : Atom} {r r' : Multiset Atom} {f : Nat}

theorem tablesIn_add : tablesIn (r + r') = tablesIn r + tablesIn r' := by
  rw [tablesIn, tablesIn, tablesIn, spacesIn, spacesIn, spacesIn, Multiset.add_bind,
    Multiset.map_add]

theorem pagesIn_add : pagesIn (r + r') = pagesIn r + pagesIn r' := Multiset.add_bind ..

theorem Space.Ok.kept {S : Space} (h : S.Ok K k) : Kept K k (S, none) :=
  ⟨h.table, k, h, fun _ _ _ _ _ => rfl⟩

theorem Atom.Ok.spaces (h : a.Ok K k) {T : Space × Option Nat} (hT : T ∈ a.spaces) :
    Kept K k T := by
  cases a with
  | space S =>
      obtain rfl := Multiset.mem_singleton.mp hT
      exact Space.Ok.kept h
  | copying old new v l =>
      obtain ⟨hold, -, -, hnew, -⟩ := h
      rcases Multiset.mem_add.mp hT with hT | hT
      · obtain rfl := Multiset.mem_singleton.mp hT
        exact hold.kept
      · obtain rfl := Multiset.mem_singleton.mp hT
        exact hnew.kept
  | clearing S v l first =>
      obtain rfl := Multiset.mem_singleton.mp hT
      obtain ⟨hv, hl, hnode, hS⟩ := h
      refine ⟨hS.table.congr fun x p hp => ?_, _, hS, fun u l' hu hne hl' => ?_⟩
      · have hpa : p ≠ l.pa := fun heq => hnode x (heq ▸ hp)
        simp [Kmem.restored, hpa]
      · have hpa : l'.pa ≠ l.pa := fun heq => hne (congrArg some
          (refs_inj (hS.inj l.pa) (mem_userIx.mpr hv) (mem_userIx.mpr hu)
            (Space.frames_eq_some.mpr ⟨l, hl, rfl⟩) (Space.frames_eq_some.mpr ⟨l', hl', heq⟩)))
        simp [Kmem.restored, hpa]
  | page pa d b => exact absurd hT (Multiset.notMem_zero T)
  | token root => exact absurd hT (Multiset.notMem_zero T)

theorem Kept.frameAt {T : Space × Option Nat} (h : Kept K k T) {v : Nat} (hv : v < USERPAGES) :
    validPage (lookup k.mem T.1.root (v * PGSIZE)) = T.1.frames v := by
  obtain ⟨htable, s, hS, -⟩ := h
  have hva : v * PGSIZE < MAXVA := lt_MAXVA_of_page (by omega)
  rw [htable.lookup hva, ← hS.table.lookup hva]
  exact hS.frameAt hv

/-- The references of a table in memory are those of its space, the freed page included. -/
theorem Kept.refsOf {T : Space × Option Nat} (h : Kept K k T) (f : Nat) :
    refsOf k.mem T.1.root f = T.1.use .kernel f + T.1.use .user f := by
  rw [Vm.refsOf, refs_congr fun x hx => h.1.tableAt hx,
    refs_congr fun v hv => h.frameAt (mem_userIx.mp hv)]
  rfl

theorem counted_leaf {T : Space × Option Nat} {v : Nat} (h : T.2 ≠ some v) :
    (counted T).leaf v = T.1.leaf v := by
  obtain ⟨S, o⟩ := T
  cases o with
  | none => rfl
  | some u =>
      have hne : v ≠ u := fun heq => h (congrArg some heq.symm)
      simp [counted, Space.setLeaf, hne]

theorem counted_use_user (T : Space × Option Nat) (f : Nat) :
    (counted T).use .user f ≤ T.1.use .user f := by
  apply refs_le_refs
  intro v hv hsome
  obtain ⟨l, hl, hpa⟩ := Space.frames_eq_some.mp hsome
  have hstale : T.2 ≠ some v := by
    intro heq
    simp [counted, heq, Space.setLeaf] at hl
  rw [counted_leaf hstale] at hl
  exact Space.frames_eq_some.mpr ⟨l, hl, hpa⟩

/-- A new leaf adds a mapping of its frame. -/
theorem Space.use_user_map {S : Space} {v : Nat} (hv : v < USERPAGES) (hnone : S.leaf v = none)
    (l : Leaf) (d : Arr) (f : Nat) :
    (S.setLeaf v (some l) d).use .user f = S.use .user f + ind (some l.pa) f := by
  have hmove := S.use_user_setLeaf hv (some l) d f
  have hframes : S.frames v = none := by
    unfold Space.frames
    rw [hnone]
    exact Option.map_none _
  rw [hframes, ind_none, Nat.add_zero, Option.map_some] at hmove
  exact hmove

theorem Space.use_own_map {S : Space} {v : Nat} {l : Leaf} (hv : v < USERPAGES)
    (hnone : S.leaf v = none) (hown : l.own = false) (d : Arr) (f : Nat) :
    (S.setLeaf v (some l) d).use .own f = S.use .own f := by
  have hmove := S.use_own_setLeaf hv (some l) d f
  have howned : S.owned v = none := by
    unfold Space.owned
    rw [hnone]
    exact Option.bind_none _
  rw [howned, ind_none, Nat.add_zero, Option.bind_some, hown, if_neg Bool.false_ne_true, ind_none,
    Nat.add_zero] at hmove
  exact hmove

theorem Atom.sum_space (S : Space) (g : Space × Option Nat → Nat) :
    ((Atom.space S).spaces.map g).sum = g (S, none) := by
  rw [Atom.spaces, Multiset.map_singleton, Multiset.sum_singleton]

theorem Atom.sum_copying (old new : Space) (v : Nat) (l : Leaf) (g : Space × Option Nat → Nat) :
    ((Atom.copying old new v l).spaces.map g).sum =
      g (old, none) + g (new.setLeaf v (some l) (old.data v), none) := by
  rw [Atom.spaces, Multiset.map_add, Multiset.map_singleton, Multiset.map_singleton,
    Multiset.sum_add, Multiset.sum_singleton, Multiset.sum_singleton]

theorem Atom.sum_clearing (S : Space) (v : Nat) (l : Leaf) (first : Option Pte)
    (g : Space × Option Nat → Nat) :
    ((Atom.clearing S v l first).spaces.map g).sum = g (S, some v) := by
  rw [Atom.spaces, Multiset.map_singleton, Multiset.sum_singleton]

theorem Atom.sum_zero (h : a.spaces = 0) (g : Space × Option Nat → Nat) :
    (a.spaces.map g).sum = 0 := by
  rw [h, Multiset.map_zero, Multiset.sum_zero]

/-- The mappings of one entry, counted or not. -/
theorem Atom.Ok.sum_user (h : a.Ok K k) (f : Nat) :
    (a.spaces.map fun T => (counted T).use .user f).sum = a.use .user f + a.use .lag f := by
  cases a with
  | space S =>
      rw [Atom.sum_space, Atom.use, Atom.use, Space.use_lag, Nat.add_zero]
      rfl
  | clearing S v l first =>
      rw [Atom.sum_clearing, Atom.use, Atom.use, Space.use_lag, Nat.add_zero]
      rfl
  | copying old new v l =>
      obtain ⟨-, hnone, hv, -⟩ := h
      rw [Atom.sum_copying, Atom.use, Atom.use, Space.use_lag, Space.use_lag, if_neg (by decide),
        if_pos rfl]
      change old.use .user f + (new.setLeaf v (some l) (old.data v)).use .user f = _
      rw [Space.use_user_map hv hnone]
      generalize old.use .user f = x
      generalize new.use .user f = y
      omega
  | page pa d b =>
      rw [Atom.sum_zero rfl, Atom.use, Atom.use, if_neg (by decide), if_neg (by decide)]
  | token root =>
      rw [Atom.sum_zero rfl, Atom.use, Atom.use, if_neg (by decide), if_neg (by decide)]

theorem Atom.Ok.sum_own (h : a.Ok K k) (f : Nat) :
    (a.spaces.map fun T => (counted T).use .own f).sum = a.use .own f := by
  cases a with
  | space S => exact Atom.sum_space S _
  | clearing S v l first => exact Atom.sum_clearing S v l first _
  | copying old new v l =>
      obtain ⟨-, hnone, hv, -, hown, -⟩ := h
      rw [Atom.sum_copying, Atom.use, if_neg (by decide), Nat.add_zero]
      change old.use .own f + (new.setLeaf v (some l) (old.data v)).use .own f = _
      rw [Space.use_own_map hv hnone hown]
  | page pa d b => rw [Atom.sum_zero rfl, Atom.use, if_neg (by decide)]
  | token root => rw [Atom.sum_zero rfl, Atom.use, if_neg (by decide)]

theorem Atom.sum_kernel (a : Atom) (f : Nat) :
    (a.spaces.map fun T => T.1.use .kernel f).sum + a.pages.count f = a.use .kernel f := by
  cases a with
  | space S => rw [Atom.sum_space, Atom.pages, Multiset.count_zero, Atom.use, Nat.add_zero]
  | clearing S v l first =>
      rw [Atom.sum_clearing, Atom.pages, Multiset.count_zero, Atom.use, Nat.add_zero,
        Space.use_kernel_setLeaf]
  | copying old new v l =>
      rw [Atom.sum_copying, Space.use_kernel_setLeaf, Atom.pages, Multiset.count_zero, Atom.use,
        if_neg (by decide)]
  | page pa d b =>
      rw [Atom.sum_zero rfl, Atom.pages, Multiset.count_singleton, Atom.use, if_pos rfl, ind,
        Nat.zero_add]
      simp only [Option.some.injEq, eq_comm]
  | token root =>
      rw [Atom.sum_zero rfl, Atom.pages, Multiset.count_zero, Atom.use, if_neg (by decide)]

theorem sum_spacesIn {g : Space × Option Nat → Nat} {u : Atom → Nat}
    (h : ∀ a ∈ r, (a.spaces.map g).sum = u a) : ((spacesIn r).map g).sum = (r.map u).sum := by
  rw [spacesIn, Multiset.map_bind, Multiset.sum_bind]
  exact congrArg Multiset.sum (Multiset.map_congr rfl h)

theorem total_kernel (r : Multiset Atom) (f : Nat) :
    ((spacesIn r).map fun T => T.1.use .kernel f).sum + (pagesIn r).count f =
      total .kernel r f := by
  rw [sum_spacesIn (u := fun a => (a.spaces.map fun T => T.1.use .kernel f).sum) fun a _ => rfl,
    pagesIn, Multiset.count_bind, ← Multiset.sum_map_add, total]
  exact congrArg Multiset.sum (Multiset.map_congr rfl fun a _ => a.sum_kernel f)

variable (h : Inv K r k)
include h

theorem Inv.spaces {T : Space × Option Nat} (hT : T ∈ spacesIn r) : Kept K k T := by
  obtain ⟨a, ha, hTa⟩ := Multiset.mem_bind.mp hT
  exact (h.ok a ha).spaces hTa

theorem Inv.sum_user (f : Nat) :
    ((spacesIn r).map fun T => (counted T).use .user f).sum =
      total .user r f + total .lag r f := by
  have hsum := sum_spacesIn fun a ha => (h.ok a ha).sum_user f
  rw [Multiset.sum_map_add] at hsum
  rw [total, total]
  exact hsum

theorem Inv.sum_own (f : Nat) :
    ((spacesIn r).map fun T => (counted T).use .own f).sum = total .own r f := by
  rw [total]
  exact sum_spacesIn fun a ha => (h.ok a ha).sum_own f

theorem Inv.sum_tables (f : Nat) :
    ((tablesIn r).map fun x => refsOf k.mem x f).sum + (pagesIn r).count f =
      total .kernel r f + ((spacesIn r).map fun T => T.1.use .user f).sum := by
  have hrefs : ((tablesIn r).map fun x => refsOf k.mem x f).sum =
      ((spacesIn r).map fun T => T.1.use .kernel f).sum +
        ((spacesIn r).map fun T => T.1.use .user f).sum := by
    rw [tablesIn, Multiset.map_map, ← Multiset.sum_map_add]
    have hmap := Multiset.map_congr (rfl : spacesIn r = spacesIn r) fun T hT =>
      (h.spaces hT).refsOf f
    exact congrArg Multiset.sum hmap
  rw [hrefs, ← total_kernel, Nat.add_right_comm]

/-- The references in memory are those of the ledger, counted or not, unless an entry was freed
and is not cleared. -/
theorem Inv.sum_refsOf (hclear : ∀ T ∈ spacesIn r, T.2 = none) (f : Nat) :
    ((tablesIn r).map fun x => refsOf k.mem x f).sum + (pagesIn r).count f =
      total .kernel r f + (total .user r f + total .lag r f) := by
  have hmap := Multiset.map_congr (rfl : spacesIn r = spacesIn r) fun T hT =>
    show T.1.use .user f = (counted T).use .user f by rw [counted, hclear T hT, Option.elim_none]
  rw [h.sum_tables, hmap, h.sum_user]

/-- The ledger counts no reference that is not in memory. -/
theorem Inv.le_sum_refsOf (f : Nat) : total .kernel r f + (total .user r f + total .lag r f) ≤
    ((tablesIn r).map fun x => refsOf k.mem x f).sum + (pagesIn r).count f := by
  rw [h.sum_tables, ← h.sum_user]
  exact Nat.add_le_add_left (Multiset.sum_map_le_sum_map _ _ fun T _ => counted_use_user T f) _

/-- A page of the kernel has one owner, and no page table refers to it. -/
theorem Inv.page_alone (hf : f ∈ pagesIn r) : (pagesIn r).count f = 1 ∧
    ((∀ T ∈ spacesIn r, T.2 = none) → ∀ x ∈ tablesIn r, refsOf k.mem x f = 0) := by
  have hone := Multiset.one_le_count_iff_mem.mpr hf
  have hkernel := total_kernel r f
  have hshare := (h.sharing f).1
  have hrefs := h.sum_refsOf (f := f)
  generalize ((spacesIn r).map fun T => T.1.use .kernel f).sum = x at hkernel
  generalize (pagesIn r).count f = n at hone hkernel hrefs ⊢
  generalize total .kernel r f = kernel at hkernel hrefs hshare
  generalize total .user r f = user at hrefs hshare
  generalize total .lag r f = lag at hrefs hshare
  obtain ⟨htotal, huser⟩ := hshare (by omega)
  refine ⟨by omega, fun hclear y hy => ?_⟩
  have hsum := hrefs hclear
  have hle := Multiset.single_le_sum (fun _ _ => Nat.zero_le _) _
    (Multiset.mem_map_of_mem (fun x => refsOf k.mem x f) hy)
  generalize ((tablesIn r).map fun x => refsOf k.mem x f).sum = total at hsum hle
  generalize refsOf k.mem y f = m at hle ⊢
  omega

/-- The page tables that the system knows are in the ledger. -/
theorem Inv.root_mem {x : Nat} (hx : 1 ≤ total .token r x) : x ∈ tablesIn r := by
  have hroot : total .root r x ≠ 0 := Nat.one_le_iff_ne_zero.mp (Nat.le_trans hx (h.tokens x))
  obtain ⟨a, ha, hne⟩ : ∃ a ∈ r, a.use .root x ≠ 0 := by
    by_contra hnone
    push Not at hnone
    exact hroot (total_eq_zero hnone)
  have hspace : ∀ S : Space, S.use .root x ≠ 0 → S.root = x := fun S hS =>
    Option.some.inj (ind_pos_iff.mp (Nat.one_le_iff_ne_zero.mpr hS))
  have hmem : ∀ T ∈ a.spaces, T.1.root = x → x ∈ tablesIn r := fun T hT hTx =>
    Multiset.mem_map.mpr ⟨T, Multiset.mem_bind.mpr ⟨a, ha, hT⟩, hTx⟩
  cases a with
  | space S => exact hmem _ (Multiset.mem_singleton_self _) (hspace S hne)
  | clearing S v l first => exact hmem _ (Multiset.mem_singleton_self _) (hspace S hne)
  | copying old new v l =>
      by_cases hold : old.use .root x = 0
      · have hnew : new.use .root x ≠ 0 := by
          intro hzero
          apply hne
          rw [Atom.use, hold, hzero, if_neg (by decide)]
        exact hmem _ (Multiset.mem_add.mpr (Or.inr (Multiset.mem_singleton_self _)))
          (hspace new hnew)
      · exact hmem _ (Multiset.mem_add.mpr (Or.inl (Multiset.mem_singleton_self _)))
          (hspace old hold)
  | page pa d b => exact absurd (by rw [Atom.use, if_neg (by decide)]) hne
  | token root => exact absurd (by rw [Atom.use, if_neg (by decide)]) hne

/-- A writable page is mapped by one page table only. -/
theorem Inv.writable_alone {T T' : Space × Option Nat} (hT : T ∈ spacesIn r)
    (hT' : T' ∈ spacesIn r) (hne : T'.1.root ≠ T.1.root) {u v : Nat} {l l' : Leaf}
    (hv : v < USERPAGES) (hu : u < USERPAGES) (hstale : T.2 ≠ some v) (hstale' : T'.2 ≠ some u)
    (hl : T.1.leaf v = some l) (hl' : T'.1.leaf u = some l') (hpa : l'.pa = l.pa) :
    l.fl.has PTE_W = false := by
  by_contra hw
  obtain ⟨-, s, hS, -⟩ := h.spaces hT
  have hown := (hS.user v l hv hl).owner (by simpa using hw)
  rw [← counted_leaf hstale] at hl
  rw [← counted_leaf hstale'] at hl'
  have hone : 1 ≤ (counted T).use .own l.pa :=
    refs_pos (mem_userIx.mpr hv) (by rw [Space.owned, hl, Option.bind_some, if_pos hown])
  have huse : 1 ≤ (counted T).use .user l.pa :=
    refs_pos (mem_userIx.mpr hv) (by rw [Space.frames, hl]; rfl)
  have huse' : 1 ≤ (counted T').use .user l.pa :=
    refs_pos (mem_userIx.mpr hu) (by rw [Space.frames, hl', ← hpa]; rfl)
  have hle := Multiset.single_le_sum (fun _ _ => Nat.zero_le _) _
    (Multiset.mem_map_of_mem (fun T => (counted T).use .own l.pa) hT)
  rw [h.sum_own] at hle
  have hshare := (h.sharing l.pa).2 (Nat.le_trans hone hle)
  rw [← h.sum_user] at hshare
  -- both spaces contribute to the sum
  obtain ⟨rest, hrest⟩ := Multiset.exists_cons_of_mem hT
  have hmem : T' ∈ rest := by
    rw [hrest, Multiset.mem_cons] at hT'
    exact hT'.resolve_left fun heq => hne (by rw [heq])
  have hle' := Multiset.single_le_sum (fun _ _ => Nat.zero_le _) _
    (Multiset.mem_map_of_mem (fun T => (counted T).use .user l.pa) hmem)
  rw [hrest, Multiset.map_cons, Multiset.sum_cons] at hshare
  generalize (counted T).use .user l.pa = m at huse hshare
  generalize (rest.map fun T => (counted T).use .user l.pa).sum = n at hle' hshare
  generalize (counted T').use .user l.pa = m' at huse' hle'
  omega

end ledger

/-- The page tables and the pages of the kernel in a state of the system: those of the processes
at rest, those that the running operations work on, and those that they are making or taking down.
Every counted reference comes from one of them. -/
structure Sys.Owners (K : Image) (sys : Sys) (tables pages : Multiset Nat) : Prop where
  roots : ∀ x ∈ sys.roots, x ∈ tables
  trapframes : ∀ p ∈ sys.procs, p.mem.trapframe ∈ pages
  frames : ∀ f ∈ sys.frames, f ∈ pages
  alone : ∀ f ∈ pages, pages.count f = 1 ∧
    (sys.clearing = [] → ∀ x ∈ tables, refsOf sys.k.mem x f = 0)
  covered : ∀ f, K.Frame f → sys.k.refCount (countIndex f) ≤
    ((tables.map fun x => refsOf sys.k.mem x f).sum + pages.count f : Nat)
  atRest : sys.busy = [] →
    tables = ((sys.procs.map fun p => p.mem.pagetable : List Nat) : Multiset Nat) ∧
    pages = ((sys.procs.map fun p => p.mem.trapframe : List Nat) : Multiset Nat) +
      (sys.frames : Multiset Nat)

section owners

variable {K : Image} {R : Eager} {sys : Sys} {a b c : Multiset Atom}

theorem tablesIn_idle {procs : List Proc} (h : Each (idleShare K R) procs a) :
    tablesIn a = ((procs.map fun p => p.mem.pagetable : List Nat) : Multiset Nat) ∧
      pagesIn a = ((procs.map fun p => p.mem.trapframe : List Nat) : Multiset Nat) := by
  induction procs generalizing a with
  | nil =>
      obtain rfl : a = 0 := h
      exact ⟨rfl, rfl⟩
  | cons p procs ih =>
      obtain ⟨x, y, ⟨m, -, S, d, hS, rfl⟩, hy, rfl⟩ := h
      obtain ⟨htables, hpages⟩ := ih hy
      have hroot : S.root = p.mem.pagetable := hS.root
      constructor
      · rw [tablesIn_add, htables, List.map_cons, ← Multiset.cons_coe, ← Multiset.singleton_add,
          ← hroot]
        simp [tablesIn, spacesIn, Atom.spaces]
      · rw [pagesIn_add, hpages, List.map_cons, ← Multiset.cons_coe, ← Multiset.singleton_add]
        simp [pagesIn, Atom.pages]

theorem tablesIn_frames {frames : List Nat} (h : Each frameShare frames b) :
    tablesIn b = 0 ∧ pagesIn b = (frames : Multiset Nat) := by
  induction frames generalizing b with
  | nil =>
      obtain rfl : b = 0 := h
      exact ⟨rfl, rfl⟩
  | cons f frames ih =>
      obtain ⟨x, y, ⟨d, fresh, rfl⟩, hy, rfl⟩ := h
      obtain ⟨htables, hpages⟩ := ih hy
      constructor
      · rw [tablesIn_add, htables]
        simp [tablesIn, spacesIn, Atom.spaces]
      · rw [pagesIn_add, hpages, ← Multiset.cons_coe, ← Multiset.singleton_add]
        simp [pagesIn, Atom.pages]

theorem tablesIn_tokens (xs : List Nat) : tablesIn (tokens xs) = 0 ∧ pagesIn (tokens xs) = 0 := by
  constructor
  · rw [tablesIn, spacesIn, tokens, Multiset.bind_map]
    exact congrArg _ (Multiset.bind_zero _)
  · rw [pagesIn, tokens, Multiset.bind_map]
    exact Multiset.bind_zero _

theorem one_le_tokens {xs : List Nat} {x : Nat} (hx : x ∈ xs) : 1 ≤ total .token (tokens xs) x := by
  have hmem : Atom.token x ∈ tokens xs := Multiset.mem_map_of_mem _ hx
  have hle := use_le_total (t := .token) hmem x
  rw [Atom.use, if_pos rfl, ind_some_self] at hle
  exact hle

/-- The pages that were freed, but not cleared, in the ledger are those of the system. -/
theorem clearing_of_spaces (hprocs : Each (idleShare K R) sys.procs a)
    (hframes : Each frameShare sys.frames b)
    (hrest : Each (Task.Rests (logic K) (contract K R) sys.k) sys.busy c)
    {T : Space × Option Nat} (hT : T ∈ spacesIn (c + (a + (b + tokens sys.roots)))) {v : Nat}
    (hv : T.2 = some v) : ∃ q, T.1.node (0, v / 512) = some q ∧ (q, v % 512) ∈ sys.clearing := by
  obtain ⟨x, hx, hTx⟩ := Multiset.mem_bind.mp hT
  cases x with
  | clearing S u l first =>
      obtain rfl := Multiset.mem_singleton.mp hTx
      obtain rfl := Option.some.inj hv
      rcases Multiset.mem_add.mp hx with hx | hx
      · exact clearing_of_pool hrest hx
      · have hquiet := (quiet_idle hprocs).add ((quiet_frames hframes).add
          (quiet_tokens sys.roots))
        cases hquiet _ hx
  | space S =>
      obtain rfl := Multiset.mem_singleton.mp hTx
      cases hv
  | copying old new u l =>
      rcases Multiset.mem_add.mp hTx with hTx | hTx
      all_goals
        obtain rfl := Multiset.mem_singleton.mp hTx
        cases hv
  | page pa d fresh => exact absurd hTx (Multiset.notMem_zero T)
  | token root => exact absurd hTx (Multiset.notMem_zero T)

/-- The ledger names the owners. -/
theorem owners_of_inv (hprocs : Each (idleShare K R) sys.procs a)
    (hframes : Each frameShare sys.frames b)
    (hrest : Each (Task.Rests (logic K) (contract K R) sys.k) sys.busy c)
    (hinv : Inv K (c + (a + (b + tokens sys.roots))) sys.k) :
    sys.Owners K (tablesIn (c + (a + (b + tokens sys.roots))))
      (pagesIn (c + (a + (b + tokens sys.roots)))) := by
  obtain ⟨htables, hpages⟩ := tablesIn_idle hprocs
  obtain ⟨htables', hpages'⟩ := tablesIn_frames hframes
  obtain ⟨htables'', hpages''⟩ := tablesIn_tokens sys.roots
  refine ⟨fun x hx => ?_, fun p hp => ?_, fun f hf => ?_, fun f hf => ?_,
    fun f hf => ?_, fun hnil => ?_⟩
  · apply hinv.root_mem
    have hone := one_le_tokens hx
    rw [total_add, total_add, total_add]
    exact Nat.le_trans hone (Nat.le_trans (Nat.le_add_left _ _)
      (Nat.le_trans (Nat.le_add_left _ _) (Nat.le_add_left _ _)))
  · rw [pagesIn_add, pagesIn_add, hpages]
    exact Multiset.mem_add.mpr (Or.inr (Multiset.mem_add.mpr (Or.inl
      (Multiset.mem_coe.mpr (List.mem_map.mpr ⟨p, hp, rfl⟩)))))
  · rw [pagesIn_add, pagesIn_add, pagesIn_add, hpages']
    exact Multiset.mem_add.mpr (Or.inr (Multiset.mem_add.mpr (Or.inr (Multiset.mem_add.mpr
      (Or.inl (Multiset.mem_coe.mpr hf))))))
  · obtain ⟨hone, hrefs⟩ := hinv.page_alone hf
    refine ⟨hone, fun hnil => hrefs fun T hT => ?_⟩
    by_contra hne
    obtain ⟨v, hv⟩ := Option.ne_none_iff_exists'.mp hne
    obtain ⟨q, -, hmem⟩ := clearing_of_spaces hprocs hframes hrest hT hv
    rw [hnil] at hmem
    cases hmem
  · rw [hinv.count f hf, Int.ofNat_le]
    refine Nat.le_trans ?_ (hinv.le_sum_refsOf f)
    rw [← Nat.add_assoc]
    exact Nat.le_add_right _ _
  · rw [hnil] at hrest
    obtain rfl : c = 0 := hrest
    rw [zero_add, tablesIn_add, tablesIn_add, pagesIn_add, pagesIn_add, htables, htables',
      htables'', hpages, hpages', hpages'']
    exact ⟨by simp, by simp⟩

/-- In every state there is a ledger in which the shares of the running operations have the form
that their next commands need. -/
theorem Sys.Ok.rest (h : sys.Ok K R) : ∃ a b c, Each (idleShare K R) sys.procs a ∧
    Each frameShare sys.frames b ∧
    Each (Task.Rests (logic K) (contract K R) sys.k) sys.busy c ∧
    Inv K (c + (a + (b + tokens sys.roots))) sys.k := by
  obtain ⟨a, b, c, hledger⟩ := h.ledger
  obtain ⟨c', hrest, hinv⟩ := hledger.busy.rest hledger.inv
  exact ⟨a, b, c', hledger.procs, hledger.frames, hrest, hinv⟩

theorem lag_eq_zero {r : Multiset Atom} (hr : Quiet r) (f : Nat) : total .lag r f = 0 := by
  apply total_eq_zero
  intro a ha
  have hquiet := hr a ha
  cases a with
  | copying old new v l => cases hquiet
  | clearing S v l first => cases hquiet
  | space S => rw [Atom.use, Space.use_lag]
  | page pa d b => rw [Atom.use, if_neg (by decide)]
  | token root => rw [Atom.use, if_neg (by decide)]

theorem Quiet.spaces {r : Multiset Atom} (hr : Quiet r) {T : Space × Option Nat}
    (hT : T ∈ spacesIn r) : T.2 = none := by
  obtain ⟨x, hx, hTx⟩ := Multiset.mem_bind.mp hT
  have hquiet := hr x hx
  cases x with
  | space S =>
      obtain rfl := Multiset.mem_singleton.mp hTx
      rfl
  | copying old new v l => cases hquiet
  | clearing S v l first => cases hquiet
  | page pa d fresh => exact absurd hTx (Multiset.notMem_zero T)
  | token root => exact absurd hTx (Multiset.notMem_zero T)

end owners

/-- The counts are exact: unless an operation is between the mapping of a page in uvmcopy and its
count, or between kfree and the clearing of the entry in uvmunmap, the count of every frame is
the number of its references from page tables and from the kernel; and the free list holds the
frames without references, each once. -/
theorem counts_are_exact {K : Image} {sys : Sys} (h : sys.Reachable K) :
    ∃ tables pages, sys.Owners K tables pages ∧
      ((∀ t ∈ sys.busy, inWindow t = false) → ∀ f, K.Frame f →
        sys.k.refCount (countIndex f) =
          ((tables.map fun x => refsOf sys.k.mem x f).sum + pages.count f : Nat)) ∧
      ∃ L, FreeChain sys.k.mem sys.k.freelist L ∧ ∀ f, K.Frame f →
        L.count f = if sys.k.refCount (countIndex f) = 0 then 1 else 0 := by
  obtain ⟨R, hok⟩ := h.ok
  obtain ⟨a, b, c, hprocs, hframes, hrest, hinv⟩ := hok.rest
  refine ⟨_, _, owners_of_inv hprocs hframes hrest hinv, fun hwindow f hf => ?_, ?_⟩
  · have hquiet : Quiet (c + (a + (b + tokens sys.roots))) :=
      (quiet_pool hrest hwindow).add ((quiet_idle hprocs).add
        ((quiet_frames hframes).add (quiet_tokens _)))
    rw [hinv.count f hf, hinv.sum_refsOf (fun T hT => hquiet.spaces hT) f, lag_eq_zero hquiet f,
      Nat.add_zero]
  · obtain ⟨L, hchain, hnodup, hmem⟩ := hinv.free
    refine ⟨L, hchain, fun f hf => ?_⟩
    by_cases hzero : sys.k.refCount (countIndex f) = 0
    · rw [if_pos hzero]
      exact List.count_eq_one_of_mem hnodup ((hmem f).mpr ⟨hf, hzero⟩)
    · rw [if_neg hzero]
      exact List.count_eq_zero.mpr fun hin => hzero ((hmem f).mp hin).2

/-- What holds of an entry for a user page in the page table `x`, unless uvmunmap has freed the
page and not cleared the entry yet. -/
structure EntryOk (sys : Sys) (tables : Multiset Nat) (x : Nat) (w : Pte) : Prop where
  origin : w.has PTE_COW = true → ∃ fl, sys.k.first (PTE2PA w) = some fl ∧ fl.has PTE_W = true
  shared : ∀ y ∈ tables, y ≠ x → ∀ u < USERPAGES, ¬ sys.Stale y u →
    (lookup sys.k.mem y (u * PGSIZE)).has PTE_V = true →
    PTE2PA (lookup sys.k.mem y (u * PGSIZE)) = PTE2PA w →
      w.has PTE_W = false ∧ (lookup sys.k.mem y (u * PGSIZE)).has PTE_W = false

/-- The leaf behind a valid entry. -/
theorem Kept.leaf_of_lookup {K : Image} {k : Kmem} {T : Space × Option Nat} (h : Kept K k T)
    {v : Nat} (hv : v < USERPAGES)
    (hvalid : (lookup k.mem T.1.root (v * PGSIZE)).has PTE_V = true) :
    ∃ l, T.1.leaf v = some l ∧ PTE2PA (lookup k.mem T.1.root (v * PGSIZE)) = l.pa ∧
      (lookup k.mem T.1.root (v * PGSIZE)).has PTE_W = l.fl.has PTE_W ∧
      (lookup k.mem T.1.root (v * PGSIZE)).has PTE_COW = l.fl.has PTE_COW := by
  obtain ⟨htable, s, hS, -⟩ := h
  have hva : v * PGSIZE < MAXVA := lt_MAXVA_of_page (by omega)
  rw [htable.lookup hva, ← hS.table.lookup hva] at hvalid ⊢
  rw [hS.lookup_valid hva, mul_PGSIZE_div] at hvalid
  obtain ⟨l, hl⟩ := Option.ne_none_iff_exists'.mp hvalid
  rw [hS.lookup_leaf hv hl]
  exact ⟨l, hl, (hS.user v l hv hl).PTE2PA, hS.has hl (by decide), hS.has hl (by decide)⟩

/-- Shared frames are never writable, in all states and all page tables, but for the entries
between kfree and the clearing in uvmunmap. -/
theorem shared_frames_never_writable {K : Image} {sys : Sys} (h : sys.Reachable K) :
    ∃ tables pages, sys.Owners K tables pages ∧ ∀ x ∈ tables, ∀ v < USERPAGES,
      (lookup sys.k.mem x (v * PGSIZE)).has PTE_V = true →
        ¬ ((lookup sys.k.mem x (v * PGSIZE)).has PTE_W = true ∧
          (lookup sys.k.mem x (v * PGSIZE)).has PTE_COW = true) ∧
        (¬ sys.Stale x v → EntryOk sys tables x (lookup sys.k.mem x (v * PGSIZE))) := by
  obtain ⟨R, hok⟩ := h.ok
  obtain ⟨a, b, c, hprocs, hframes, hrest, hinv⟩ := hok.rest
  -- an entry of a freed page is stale
  have hfreed : ∀ T ∈ spacesIn (c + (a + (b + tokens sys.roots))), ∀ v < USERPAGES,
      ¬ sys.Stale T.1.root v → T.2 ≠ some v := by
    intro T hT v hv hstale heq
    obtain ⟨q, hq, hmem⟩ := clearing_of_spaces hprocs hframes hrest hT heq
    refine hstale ⟨_, hmem, ?_⟩
    rw [(hinv.spaces hT).1.slotAt (lt_MAXVA_of_page (by omega))]
    rw [← mul_PGSIZE_div v, ← entryIx_zero, entryIx_div] at hq
    rw [Space.slot, hq, Option.map_some]
    exact congrArg (fun u => some (q, u % 512)) (mul_PGSIZE_div v)
  refine ⟨_, _, owners_of_inv hprocs hframes hrest hinv, fun x hx v hv hvalid => ?_⟩
  obtain ⟨T, hT, rfl⟩ := Multiset.mem_map.mp hx
  obtain ⟨l, hl, hpa, hW, hCOW⟩ := (hinv.spaces hT).leaf_of_lookup hv hvalid
  obtain ⟨-, s, hS, hfirsts⟩ := hinv.spaces hT
  have huser := hS.user v l hv hl
  refine ⟨?_, fun hstale => ⟨fun hcow => ?_, fun y hy hne u hu hstale' hvalid' hframe => ?_⟩⟩
  · rw [hW, hCOW]
    exact huser.notBoth
  · rw [hCOW] at hcow
    obtain ⟨fl, hfirst, hiff⟩ := huser.origin
    rw [hpa, hfirsts v l hv (hfreed T hT v hv hstale) hl]
    exact ⟨fl, hfirst, hiff.mpr (Or.inr hcow)⟩
  · obtain ⟨T', hT', rfl⟩ := Multiset.mem_map.mp hy
    obtain ⟨l', hl', hpa', hW', -⟩ := (hinv.spaces hT').leaf_of_lookup hu hvalid'
    have hkept := hfreed T hT v hv hstale
    have hkept' := hfreed T' hT' u hu hstale'
    rw [hpa, hpa'] at hframe
    rw [hW, hW']
    exact ⟨hinv.writable_alone hT hT' hne hv hu hkept hkept' hl hl' hframe,
      hinv.writable_alone hT' hT (Ne.symm hne) hu hv hkept' hkept hl' hl hframe.symm⟩

namespace AccountsWitness

open Forked (image parent child)

def grown : Proc := ⟨1, ⟨0x87ffe000, 2 * PGSIZE, 0x87fff000⟩⟩

def allowed (s : Sys) : Action → Bool
  | .start (.growproc ..) => true
  | a => Forked.allowed s a

theorem allowed_ready (s : Sys) (a : Action) (h : allowed s a = true) : s.Allowed a := by
  cases a with
  | start o =>
      cases o with
      | growproc p n => trivial
      | _ => exact Forked.allowed_ready s _ h
  | run i => trivial
  | finish i => trivial

def runFrom (acts : List Action) : Option Sys :=
  Transition.runAll allowed (Sys.stepStrict image) Forked.boot (Forked.acts ++ acts)

theorem runFrom_reachable {acts : List Action} (h : (runFrom acts).isSome = true) :
    ((runFrom acts).get h).Reachable image := by
  have hrun := (Option.some_get h).symm
  conv at hrun => lhs; rw [runFrom, Sys.stepStrict_eq]
  exact Transition.Reach.runAll allowed_ready (.start Forked.boot_booted) hrun

/-- A process grows by a page and shrinks again: it has freed the page. -/
def freeing : List Action :=
  [.start (.growproc parent PGSIZE)] ++ List.replicate 5 (.run 0) ++
    [.finish 0, .start (.growproc grown (-PGSIZE))] ++ List.replicate 4 (.run 0)

theorem freeing_isSome : (runFrom freeing).isSome = true := by decide +kernel

def freed : Sys := (runFrom freeing).get freeing_isSome

/-- Another process grows and is given the frame before the first one clears its entry. -/
def reusing : List Action :=
  freeing ++ [.start (.growproc child PGSIZE)] ++ List.replicate 5 (.run 0)

theorem reusing_isSome : (runFrom reusing).isSome = true := by decide +kernel

def reused : Sys := (runFrom reusing).get reusing_isSome

/-- The page below the size of a process is mapped, and its frame is free. -/
theorem freed_page_mapped : freed.Reachable image ∧
    (∀ t ∈ freed.busy, countsNext t = false) ∧ grown.mem.pagetable ∈ freed.roots ∧
    PGSIZE < grown.mem.sz ∧ ∃ f, image.Frame f ∧ freed.k.refCount (countIndex f) = 0 ∧
      ∀ tables pages : Multiset Nat, grown.mem.pagetable ∈ tables →
        freed.k.refCount (countIndex f) ≠
          ((tables.map fun x => refsOf freed.k.mem x f).sum + pages.count f : Nat) := by
  have hcount : freed.k.refCount (countIndex 0x87ff2000) = 0 := by decide +kernel
  have hpage : validPage (lookup freed.k.mem grown.mem.pagetable (1 * PGSIZE)) =
      some 0x87ff2000 := by decide +kernel
  refine ⟨runFrom_reachable freeing_isSome, by decide +kernel, by decide +kernel, by decide,
    0x87ff2000, ⟨by decide, by decide, by decide⟩, hcount, fun tables pages hx => ?_⟩
  have hone : 1 ≤ refs userIx
      (fun v => validPage (lookup freed.k.mem grown.mem.pagetable (v * PGSIZE))) 0x87ff2000 :=
    refs_pos (mem_userIx.mpr (by decide)) hpage
  have hle := Multiset.single_le_sum (fun _ _ => Nat.zero_le _) _
    (Multiset.mem_map_of_mem (fun x => refsOf freed.k.mem x 0x87ff2000) hx)
  rw [hcount]
  generalize (tables.map fun x => refsOf freed.k.mem x 0x87ff2000).sum = n at hle ⊢
  rw [refsOf] at hle
  omega

theorem counts_are_exact_forked : ∃ tables pages, Forked.sys.Owners image tables pages ∧
    ((∀ t ∈ Forked.sys.busy, inWindow t = false) → ∀ f, image.Frame f →
      Forked.sys.k.refCount (countIndex f) =
        ((tables.map fun x => refsOf Forked.sys.k.mem x f).sum + pages.count f : Nat)) ∧
    ∃ L, FreeChain Forked.sys.k.mem Forked.sys.k.freelist L ∧ ∀ f, image.Frame f →
      L.count f = if Forked.sys.k.refCount (countIndex f) = 0 then 1 else 0 :=
  counts_are_exact Forked.sys_reachable

/-- Two processes map the frame, both writable. -/
theorem freed_page_reused : reused.Reachable image ∧ parent.mem.pagetable ∈ reused.roots ∧
    child.mem.pagetable ∈ reused.roots ∧ parent.mem.pagetable ≠ child.mem.pagetable ∧
    validPage (lookup reused.k.mem parent.mem.pagetable PGSIZE) = some 0x87ff2000 ∧
    validPage (lookup reused.k.mem child.mem.pagetable PGSIZE) = some 0x87ff2000 ∧
    (lookup reused.k.mem parent.mem.pagetable PGSIZE).has PTE_W = true ∧
    (lookup reused.k.mem child.mem.pagetable PGSIZE).has PTE_W = true :=
  ⟨runFrom_reachable reusing_isSome, by decide +kernel, by decide +kernel, by decide,
    by decide +kernel, by decide +kernel, by decide +kernel, by decide +kernel⟩

theorem shared_frames_never_writable_reused :
    ∃ tables pages, reused.Owners image tables pages ∧ ∀ x ∈ tables, ∀ v < USERPAGES,
      (lookup reused.k.mem x (v * PGSIZE)).has PTE_V = true →
        ¬ ((lookup reused.k.mem x (v * PGSIZE)).has PTE_W = true ∧
          (lookup reused.k.mem x (v * PGSIZE)).has PTE_COW = true) ∧
        (¬ reused.Stale x v → EntryOk reused tables x (lookup reused.k.mem x (v * PGSIZE))) :=
  shared_frames_never_writable (runFrom_reachable reusing_isSome)

end AccountsWitness

end Xv6.Vm
