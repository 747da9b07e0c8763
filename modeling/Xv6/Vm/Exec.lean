/-
Building the image of a program: the first process and exec.  A page table that
is being filled belongs to one process alone, so the kernel may store into its
pages whatever their flags are.
-/
import Xv6.Vm.ExecStack

namespace Xv6.Vm

open Bytes Refs Program Interleave

variable {K : Image} {E : KErr → Prop} {r F : Multiset Atom} {s : Kmem} {S S' : Space}
variable {v : Nat} {l : Leaf}

section clear

theorem PA2PTE_and_not_U (pa : Nat) : PA2PTE pa &&& ~~~PTE_U = PA2PTE pa := by
  have hbits : PTE_U = BitVec.twoPow 64 4 := rfl
  apply BitVec.eq_of_getLsbD_eq
  intro i hi
  by_cases h4 : i = 4
  · subst h4
    simp [PA2PTE]
  · simp [hbits, h4, hi]

/-- The entry without PTE_U. -/
def Leaf.kernelOnly (l : Leaf) : Leaf := { l with fl := l.fl &&& ~~~PTE_U }

theorem encodeLeaf_kernelOnly (l : Leaf) :
    encodeLeaf (some l) &&& ~~~PTE_U = encodeLeaf (some l.kernelOnly) := by
  rw [encodeLeaf, encodeLeaf, Leaf.kernelOnly, BitVec.and_or_distrib_right,
    PA2PTE_and_not_U]

theorem UserLeaf.kernelOnly {d : Arr} (h : UserLeaf K s l d) :
    UserLeaf K s l.kernelOnly d := by
  have hbit : ∀ bit, bit &&& PTE_U = 0 → l.kernelOnly.fl.has bit = l.fl.has bit :=
    fun bit => has_and_not
  obtain ⟨fl, hfirst, hiff⟩ := h.origin
  refine ⟨h.frame, h.flags.and _, ?_, ?_, ?_, ?_, h.data, fl, hfirst, ?_⟩
  · rw [hbit _ (by decide)]
    exact h.valid
  · rw [hbit _ (by decide)]
    exact h.readable
  · rw [hbit _ (by decide), hbit _ (by decide)]
    exact h.notBoth
  · rw [hbit _ (by decide)]
    exact h.owner
  · rw [hbit _ (by decide), hbit _ (by decide)]
    exact hiff

/-- uvmclear takes the page away from user code. -/
theorem safe_uvmclear (hv : v < USERPAGES) (hl : S.leaf v = some l) (hr : Quiet r) :
    Safe (logic K) E (uvmclear S.root (v * PGSIZE)) ({.space S} + r) fun _ r' =>
      r' = {.space (S.setLeaf v (some l.kernelOnly) (S.data v))} + r := by
  have hdiv := mul_PGSIZE_div v
  apply Safe.learn
  intro F s hinv
  rw [add_assoc] at hinv
  have hslot : (S.slot (v * PGSIZE)).isSome = true :=
    hinv.space_ok.table.slot_isSome (by rw [hdiv, hl]; exact Option.some_ne_none l)
  obtain ⟨pte, hpte⟩ := Option.isSome_iff_exists.mp hslot
  clear hinv
  rw [uvmclear]
  apply Safe.bind (safe_walk (lt_MAXVA_of_page (by omega)) hr)
  rintro o r' ⟨rfl, rfl⟩
  rw [hpte]
  apply Safe.bind (safe_readLeaf hpte hr)
  rintro w r' ⟨rfl, rfl⟩
  obtain ⟨q, hq, rfl⟩ := Space.slot_eq_some hpte
  rw [hdiv] at hq ⊢
  rw [hl, encodeLeaf_kernelOnly]
  apply safe_ok
  intro F s hinv
  refine ⟨Adm.of_quiet ((quiet_space S).add hr) rfl, ?_⟩
  rw [add_assoc] at hinv
  refine ⟨(), _, _, writePteAt_ok (hinv.node_alone hq).1.inRam _, ?_, rfl⟩
  rw [add_assoc]
  apply hinv.storeLeaf hq
  · exact Space.use_user_setLeaf_same hl rfl
  · intro f
    left
    have hmove := S.use_own_setLeaf hv (some l.kernelOnly) (S.data v) f
    have howned : S.owned v = if l.own then some l.pa else none := by
      simp [Space.owned, hl]
    simp only [Option.bind_some, howned, Leaf.kernelOnly] at hmove ⊢
    omega
  · rintro l' hl' -
    obtain rfl := Option.some.inj hl'
    exact (hinv.space_ok.user v l hv hl).kernelOnly
  · intro l' _ hhigh
    omega

theorem Leaf.view_kernelOnly (l : Leaf) (d : Arr) :
    l.kernelOnly.view d = { l.view d with user := false } := by
  have hbit : ∀ bit, bit &&& PTE_U = 0 → l.kernelOnly.fl.has bit = l.fl.has bit :=
    fun bit => has_and_not
  simp only [Leaf.view, hbit PTE_W (by decide), hbit PTE_COW (by decide),
    hbit PTE_X (by decide)]
  simp only [Leaf.kernelOnly, has_and_not_self]

end clear

section load

variable {sz tf : Nat}

/-- A page table that is being filled: its user pages belong to it alone, and user
code may use them. -/
structure Space.Loading (K : Image) (S : Space) (sz tf : Nat) : Prop where
  shape : S.Shape K (pagesOf sz) tf
  fresh : ∀ v l, v < USERPAGES → S.leaf v = some l →
    l.own = true ∧ l.fl.has PTE_COW = false ∧ l.fl.has PTE_U = true

theorem Space.leaf_of_page (h : S'.page v = S.page v) : S'.leaf v = S.leaf v := by
  cases hl : S.leaf v with
  | none =>
      rw [Space.page_eq_none.mpr hl] at h
      exact Space.page_eq_none.mp h
  | some l =>
      rw [Space.page_eq_some.mpr ⟨hl, rfl⟩] at h
      exact (Space.page_eq_some.mp h).1

theorem Space.Loading.setData (h : S.Loading K sz tf) (d : Arr) :
    (S.setData v d).Loading K sz tf where
  shape := by
    have hsized : (S.setData v d).Sized (pagesOf sz) := by
      refine ⟨h.shape.sized.1, fun u hu => ?_⟩
      rw [← h.shape.sized.2 u hu, ne_eq, Space.page_eq_none, ne_eq, Space.page_eq_none]
      rfl
    exact ⟨hsized, h.shape.trapframe, h.shape.trampoline, h.shape.top⟩
  fresh := h.fresh

theorem Space.Loading.same (h : S.Loading K sz tf) (hsame : S.Same S') :
    S'.Loading K sz tf where
  shape := h.shape.of_high (fun u _ => hsame.page u) (hsame.looks.sized h.shape.sized)
  fresh v l hv hl := by
    rw [Space.leaf_of_page (hsame.page v)] at hl
    exact h.fresh v l hv hl

theorem Space.Loading.grown {newsz : Nat} {xperm : Pte} (h : S.Loading K sz tf)
    (hgrown : S.Grown S' (pagesOf sz) (pagesOf newsz) (allocFlags xperm))
    (hle : sz ≤ newsz) (hmax : pagesOf newsz ≤ NFRAMES)
    (hcow : xperm.has PTE_COW = false) : S'.Loading K newsz tf where
  shape := by
    have huser := nframes_lt_userpages
    have hsized := hgrown.sized h.shape.sized (pagesOf_mono hle) (by omega)
    exact h.shape.of_high (fun v hv => hgrown.page v (by omega)) hsized
  fresh v l hv hl := by
    by_cases hnew : pagesOf sz ≤ v ∧ v < pagesOf newsz
    · obtain ⟨pa, hpage⟩ := hgrown.fresh v hnew.1 hnew.2
      obtain rfl : l = ⟨pa, allocFlags xperm, true⟩ :=
        Option.some.inj (hl.symm.trans (Space.page_eq_some.mp hpage).1)
      have hV : PTE_V.has PTE_COW = false ∧ (PTE_R ||| PTE_U).has PTE_COW = false ∧
        (PTE_R ||| PTE_U).has PTE_U = true := by decide
      simp only [allocFlags, Pte.has_or_flags _ _ PTE_COW, Pte.has_or_flags _ PTE_V PTE_U,
        Pte.has_or_flags _ xperm PTE_U, hcow, hV]
      simp [← Pte.has_or_flags, hV]
    · rw [Space.leaf_of_page (hgrown.page v (by omega))] at hl
      exact h.fresh v l hv hl

theorem Space.Loading.leaf (h : S.Loading K sz tf) (hv : v < pagesOf sz) :
    ∃ l, S.leaf v = some l := by
  have hlt : v < USERPAGES := lt_of_lt_of_le hv h.shape.sized.1
  exact Option.ne_none_iff_exists'.mp
    (mt Space.page_eq_none.mpr ((h.shape.sized.2 v hlt).mpr hv))

/-- loadseg fills mapped pages and does not reach its panic. -/
theorem safe_loadLoop {va offset n fuel i : Nat} {file : ProgFile}
    (hS : S.Loading K sz tf) (hsz : va + n ≤ sz) (hr : Quiet r) :
    Safe (logic K) E (loadLoop S.root va file offset n fuel i) ({.space S} + r)
      fun _ r' => ∃ S', r' = {.space S'} + r ∧ S'.root = S.root ∧
        S'.Loading K sz tf := by
  induction fuel generalizing S i with
  | zero => exact Safe.pure ⟨S, rfl, rfl, hS⟩
  | succ fuel ih =>
      rw [loadLoop]
      by_cases hlt : i < n
      · rw [if_pos hlt]
        have hpage : (va + i) / PGSIZE < pagesOf sz := by
          simp only [pagesOf, PGROUNDUP, PGSIZE]
          omega
        obtain ⟨l, hl⟩ := hS.leaf hpage
        have hv : (va + i) / PGSIZE < USERPAGES :=
          lt_of_lt_of_le hpage hS.shape.sized.1
        obtain ⟨hown, -, hu⟩ := hS.fresh _ l hv hl
        apply Safe.bind (safe_walkaddr hr)
        rintro pa r' ⟨rfl, ⟨rfl, hnone⟩ | ⟨l', -, hl', -, rfl, hne⟩⟩
        · have hfalse := hnone _ (Space.user_eq_some.mpr ⟨hv, l, hl, rfl⟩)
          rw [Leaf.view, hu] at hfalse
          cases hfalse
        · obtain rfl : l = l' := Option.some.inj (hl.symm.trans hl')
          rw [if_neg hne]
          apply Safe.bind (safe_poke hv hl hown hr)
          rintro _ r' rfl
          by_cases hshort : (file.readi ((offset + i) % 2 ^ 32) (min (n - i) PGSIZE)).length ≠
              min (n - i) PGSIZE
          · rw [if_pos hshort]
            exact Safe.pure ⟨_, rfl, rfl, hS.setData _⟩
          · rw [if_neg hshort]
            exact ih (hS.setData _)
      · rw [if_neg hlt]
        exact Safe.pure ⟨S, rfl, rfl, hS⟩

theorem isFlags_flags2perm (flags : Nat) : IsFlags (flags2perm flags) := by
  unfold flags2perm
  split <;> split <;> decide

theorem flags2perm_COW (flags : Nat) : (flags2perm flags).has PTE_COW = false := by
  unfold flags2perm
  split <;> split <;> decide

theorem safe_loadHeader {off : Nat} {file : ProgFile} (hS : S.Loading K sz tf)
    (hr : Quiet r) :
    Safe (logic K) E (loadHeader S.root file off sz) ({.space S} + r) fun x r' =>
      ∃ S', r' = {.space S'} + r ∧ S'.root = S.root ∧ S'.Loading K x.2 tf := by
  have hstay : ∃ S', {Atom.space S} + r = {.space S'} + r ∧ S'.root = S.root ∧
      S'.Loading K sz tf := ⟨S, rfl, rfl, hS⟩
  rw [loadHeader]
  split
  · exact Safe.pure hstay
  split
  · exact Safe.pure hstay
  split
  · exact Safe.pure hstay
  split
  · exact Safe.pure hstay
  split
  · exact Safe.pure hstay
  next hmem _ _ =>
  generalize ProgHdr.ofBytes (file.readi (off % 2 ^ 32) 56) = ph at *
  apply Safe.bind (safe_uvmalloc (isFlags_flags2perm ph.flags) (flags2perm_COW ph.flags)
    hS.shape.sized hr)
  rintro sz1 r' ⟨S', rfl, hcases⟩
  have hload : S'.root = S.root ∧ (sz1 = 0 → S'.Loading K sz tf) ∧
      (sz1 ≠ 0 → S'.Loading K sz1 tf ∧ ph.vaddr + ph.memsz ≤ sz1) := by
    rcases hcases with ⟨rfl, hle, hmax, hgrown⟩ | ⟨rfl, hlt, rfl⟩ | ⟨rfl, -, hsame⟩
    · have hgrown' := hS.grown hgrown hle hmax (flags2perm_COW ph.flags)
      refine ⟨hgrown.root, fun hzero => ?_, fun _ => ⟨hgrown', le_rfl⟩⟩
      have hsz : sz = 0 := by omega
      rwa [hzero, ← hsz] at hgrown'
    · exact ⟨rfl, fun _ => hS, fun _ => ⟨hS, by omega⟩⟩
    · exact ⟨hsame.root, fun _ => hS.same hsame, fun hne => absurd rfl hne⟩
  obtain ⟨hroot, hzero, hnew⟩ := hload
  by_cases h0 : sz1 = 0
  · rw [if_pos h0]
    exact Safe.pure ⟨S', rfl, hroot, hzero h0⟩
  · rw [if_neg h0, loadseg, ← hroot]
    obtain ⟨hS', hend⟩ := hnew h0
    have hfilesz : ph.vaddr + ph.filesz % 2 ^ 32 ≤ sz1 := by
      have hmod := Nat.mod_le ph.filesz (2 ^ 32)
      omega
    apply Safe.bind (safe_loadLoop hS' hfilesz hr)
    rintro x r' ⟨S'', rfl, hroot', hS''⟩
    exact Safe.pure ⟨S'', rfl, hroot', hS''⟩

theorem safe_loadHeaders {n off : Nat} {file : ProgFile} (hS : S.Loading K sz tf)
    (hr : Quiet r) :
    Safe (logic K) E (loadHeaders S.root file n off sz) ({.space S} + r) fun x r' =>
      ∃ S', r' = {.space S'} + r ∧ S'.root = S.root ∧ S'.Loading K x.2 tf := by
  induction n generalizing S off sz with
  | zero => exact Safe.pure ⟨S, rfl, rfl, hS⟩
  | succ n ih =>
      rw [loadHeaders]
      apply Safe.bind (safe_loadHeader hS hr)
      rintro ⟨ok, sz1⟩ r' ⟨S', rfl, hroot, hS'⟩
      cases ok with
      | false => exact Safe.pure ⟨S', rfl, hroot, hS'⟩
      | true =>
          simp only [↓reduceIte]
          rw [← hroot]
          exact ih hS'

end load

section stack

variable {n tf b : Nat} {scause : Nat}

/-- A page table with a stack page that is not shared. -/
structure Space.Stacked (K : Image) (S : Space) (n tf b : Nat) : Prop where
  shape : S.Shape K n tf
  stack : ∃ l, S.leaf b = some l ∧ l.fl.has PTE_COW = false

/-- copyout to the stack page does not run into a missing table, whatever the cause of the last
trap was. -/
theorem safe_stackCopyout {dst : Nat} {src : List UInt8} (hS : S.Stacked K n tf b)
    (hlo : b * PGSIZE ≤ dst) (hhi : dst + src.length ≤ (b + 1) * PGSIZE) (hr : Quiet r) :
    Safe (logic K) E (copyout S.root dst src scause) ({.space S} + r) fun x r' =>
      ∃ S', r' = {.space S'} + r ∧ S'.root = S.root ∧ S'.Stacked K n tf b ∧
        x = (Mem.copyout src.length dst src S.user).1 ∧
        S'.user = (Mem.copyout src.length dst src S.user).2 := by
  have hpage : ∀ u, dst / PGSIZE ≤ u → u * PGSIZE < dst + src.length → u = b := by
    intro u hu hlt
    simp only [PGSIZE] at *
    omega
  rw [copyout]
  apply (safe_copyoutLoop (fun u hu hlt => ?_) hr).mono
  · rintro x r' ⟨S', rfl, hx, hS', hkeeps⟩
    obtain ⟨l, hl, hcow⟩ := hS.stack
    refine ⟨S', rfl, hS'.root, ⟨?_, l, hkeeps b l hl hcow, hcow⟩, hx, hS'.user⟩
    apply hS.shape.of_high hS'.high
    have hsized := Space.sized_iff.mp hS.shape.sized
    refine Space.sized_iff.mpr ⟨hsized.1, fun v => ?_⟩
    rw [hS'.user, Mem.copyout_pages]
    exact hsized.2 v
  · rw [hpage u hu hlt]
    exact Or.inr hS.stack

/-- The strings go to the stack one below the other. -/
theorem safe_pushArgs {argv : List (List UInt8)} {argc sp : Nat}
    (hS : S.Stacked K n tf b) (hb : 1 ≤ b) (hlo : b * PGSIZE ≤ sp)
    (hsp : sp ≤ (b + 1) * PGSIZE) (halign : sp % 16 = 0) (hr : Quiet r) :
    Safe (logic K) E (pushArgs S.root (b * PGSIZE) scause argv argc sp) ({.space S} + r)
      fun o r' => ∃ S', r' = {.space S'} + r ∧ S'.root = S.root ∧ S'.Stacked K n tf b ∧
        ∀ sp' addrs, o = some (sp', addrs) →
          b * PGSIZE ≤ sp' ∧ S.user.Pushed S'.user argv sp sp' addrs := by
  induction argv generalizing S argc sp with
  | nil =>
      refine Safe.pure ⟨S, rfl, rfl, hS, fun sp' addrs h => ?_⟩
      obtain ⟨rfl, rfl⟩ := Prod.mk.inj (Option.some.inj h)
      exact ⟨hlo, .nil _ _⟩
  | cons arg rest ih =>
      have hfail : ∀ T : Space, T.root = S.root → T.Stacked K n tf b →
          ∃ S', {Atom.space T} + r = {.space S'} + r ∧ S'.root = S.root ∧
            S'.Stacked K n tf b ∧ ∀ sp' addrs, (none : Option (Nat × List Nat)) =
              some (sp', addrs) → b * PGSIZE ≤ sp' ∧
                S.user.Pushed S'.user (arg :: rest) sp sp' addrs := fun T hroot hT =>
        ⟨T, rfl, hroot, hT, fun _ _ h => by cases h⟩
      rw [pushArgs]
      split
      · exact Safe.pure (hfail S rfl hS)
      dsimp only
      generalize ha : sp - (arg.length + 1) - (sp - (arg.length + 1)) % 16 = a
      split
      · exact Safe.pure (hfail S rfl hS)
      next hbase =>
      have hpage : 0 < b * PGSIZE := Nat.mul_pos hb (by decide)
      have hdown : a + round16 (arg.length + 1) = sp := by
        rw [← ha]
        exact round16_down halign (by omega)
      have hround := le_round16 (arg.length + 1)
      have hlength : (arg ++ [(0 : UInt8)]).length = arg.length + 1 := by simp
      apply Safe.bind (safe_stackCopyout hS (by omega) (by rw [hlength]; omega) hr)
      rintro x r' ⟨S₁, rfl, hroot₁, hS₁, rfl, huser₁⟩
      split
      · exact Safe.pure (hfail S₁ hroot₁ hS₁)
      next hok =>
      have hfirst := Mem.copyout_byte (le_refl (arg ++ [(0 : UInt8)]).length) hok
      rw [← huser₁] at hfirst
      rw [← hroot₁]
      apply Safe.bind (ih hS₁ (by omega) (by omega) (by omega))
      rintro o r' ⟨S₂, rfl, hroot₂, hS₂, hsome⟩
      have hroot := hroot₂.trans hroot₁
      cases o with
      | none => exact Safe.pure (hroot₁.symm ▸ hfail S₂ hroot hS₂)
      | some found =>
          obtain ⟨sp', addrs⟩ := found
          obtain ⟨hsp', hpushed⟩ := hsome sp' addrs rfl
          refine Safe.pure ⟨S₂, rfl, hroot₂, hS₂, fun sp'' addrs' h => ?_⟩
          obtain ⟨rfl, rfl⟩ := Prod.mk.inj (Option.some.inj h)
          exact ⟨hsp', hpushed.cons hdown hfirst⟩

theorem pagesOf_PGROUNDUP (sz : Nat) : pagesOf (PGROUNDUP sz) = pagesOf sz := by
  rw [PGROUNDUP_eq_pagesOf, pagesOf_mul]

/-- The guard page is taken from user code and leaves the stack page alone. -/
theorem Space.Loading.guard {sz : Nat} (h : S.Loading K sz tf) (hsz : pagesOf sz = b + 1)
    {g : Nat} (hg : g < b) (hl : S.leaf g = some l) :
    (S.setLeaf g (some l.kernelOnly) (S.data g)).Stacked K (pagesOf sz) tf b := by
  have hpage : ∀ v, v ≠ g → (S.setLeaf g (some l.kernelOnly) (S.data g)).page v = S.page v :=
    fun v hv => S.page_setLeaf_of_ne _ _ hv
  have hlt : g < USERPAGES := by
    have := h.shape.sized.1
    omega
  constructor
  · apply h.shape.of_high (fun v hv => hpage v (by omega))
    refine ⟨h.shape.sized.1, fun v hv => ?_⟩
    rw [← h.shape.sized.2 v hv]
    by_cases hvg : v = g
    · subst hvg
      simp [Space.page_setLeaf_self, Space.page_eq_none, hl]
    · rw [hpage v hvg]
  · obtain ⟨lb, hlb⟩ := h.leaf (v := b) (by omega)
    have hb : b < USERPAGES := by
      have := h.shape.sized.1
      omega
    refine ⟨lb, ?_, (h.fresh b lb hb hlb).2.1⟩
    rw [Space.leaf_of_page (hpage b (by omega)), hlb]

/-- The arguments and their addresses on the stack. -/
theorem safe_pushStack {sz entry : Nat} {argv : List (List UInt8)}
    (hS : S.Stacked K n tf b) (hb : 1 ≤ b) (hsz : sz = (b + 1) * PGSIZE) (hr : Quiet r) :
    Safe (logic K) E (pushStack S.root sz (b * PGSIZE) entry argv scause)
      ({.space S} + r) fun x r' => ∃ S', r' = {.space S'} + r ∧ S'.root = S.root ∧
        S'.Stacked K n tf b ∧ (x = .error sz ∨ ∃ sp addrs,
          x = .ok ⟨sz, argv.length, sp, entry⟩ ∧ b * PGSIZE ≤ sp ∧
            S.user.Stack S'.user argv sz sp addrs) := by
  have hpage : 0 < b * PGSIZE := Nat.mul_pos hb (by decide)
  have halign : sz % 16 = 0 := by
    rw [hsz, PGSIZE]
    omega
  have hle : b * PGSIZE ≤ sz := by
    rw [hsz]
    exact Nat.mul_le_mul_right _ (Nat.le_succ b)
  rw [pushStack]
  apply Safe.bind (safe_pushArgs hS hb hle (le_of_eq hsz) halign hr)
  rintro o r' ⟨S₁, rfl, hroot₁, hS₁, hsome⟩
  cases o with
  | none => exact Safe.pure ⟨S₁, rfl, hroot₁, hS₁, Or.inl rfl⟩
  | some found =>
      obtain ⟨sp₁, addrs⟩ := found
      obtain ⟨hlo, hpushed⟩ := hsome sp₁ addrs rfl
      dsimp only
      generalize hsp : sp₁ - (argv.length + 1) * 8 - (sp₁ - (argv.length + 1) * 8) % 16 = sp
      split
      · exact Safe.pure ⟨S₁, rfl, hroot₁, hS₁, Or.inl rfl⟩
      next hbase =>
      have hused := hpushed.used
      have hmod := argBytes_mod argv
      have hdown : sp + round16 ((argv.length + 1) * 8) = sp₁ := by
        rw [← hsp]
        exact round16_down (by omega) (by omega)
      have hround := le_round16 ((argv.length + 1) * 8)
      have hustack : ((addrs ++ [0]).flatMap wordBytes).length = (argv.length + 1) * 8 := by
        rw [length_wordBytes, List.length_append, ← hpushed.strings.length_eq,
          List.length_singleton]
        omega
      rw [← hroot₁]
      apply Safe.bind (safe_stackCopyout hS₁ (by omega) (by rw [hustack]; omega) hr)
      rintro x r' ⟨S₂, rfl, hroot₂, hS₂, rfl, huser₂⟩
      rw [hroot₁] at hroot₂ ⊢
      split
      · exact Safe.pure ⟨S₂, rfl, hroot₂, hS₂, Or.inl rfl⟩
      next hok =>
      have hlast := Mem.copyout_byte (le_refl ((addrs ++ [0]).flatMap wordBytes).length) hok
      rw [← huser₂] at hlast
      exact Safe.pure ⟨S₂, rfl, hroot₂, hS₂, Or.inr ⟨sp, addrs, rfl, by omega,
        hpushed.stack hdown hlast⟩⟩

end stack

section exec

variable {p : ProcMem} {m : Mem} {d : Arr}

theorem Space.Shape.loading {tf : Nat} (h : S.Shape K 0 tf) : S.Loading K 0 tf where
  shape := by
    have hzero : pagesOf 0 = 0 := by decide
    rwa [hzero]
  fresh v l hv hl := by
    have hpage := (h.sized.2 v hv).mp
      (by rw [ne_eq, Space.page_eq_none, hl]; exact Option.some_ne_none l)
    omega

/-- exec up to the pushes: the page table with the pages of the file and of the stack, its size
and the entry point, or nothing with all pages given back. -/
def execLoad (K : Image) (trapframe : Nat) (file : Option ProgFile) :
    P (Option (Nat × Nat × Nat)) :=
  match file with
  | none => pure none
  | some file =>
      let b := file.readi 0 64
      let elf := ElfHdr.ofBytes b
      if b.length ≠ 64 then
        pure none
      else if elf.magic ≠ ELF_MAGIC then
        pure none
      else do
        let pagetable ← procPagetable K trapframe
        if pagetable = 0 then
          pure none
        else do
          let (ok, sz0) ← loadHeaders pagetable file elf.phnum elf.phoff 0
          if !ok then do
            procFreepagetable pagetable sz0
            pure none
          else do
            let sz := PGROUNDUP sz0
            let sz1 ← uvmalloc pagetable sz (sz + (USERSTACK + 1) * PGSIZE) PTE_W
            if sz1 = 0 then do
              procFreepagetable pagetable sz
              pure none
            else do
              uvmclear pagetable (sz1 - (USERSTACK + 1) * PGSIZE)
              pure (some (pagetable, sz1, elf.entry))

/-- The rest of exec. -/
def execPush (p : ProcMem) (argv : List (List UInt8)) (scause : Nat) :
    Option (Nat × Nat × Nat) → P (Option (ProcMem × ExecImage))
  | none => pure none
  | some (pagetable, sz, entry) => do
      match ← pushStack pagetable sz (sz - USERSTACK * PGSIZE) entry argv scause with
      | .error sz => execBad pagetable sz
      | .ok image => do
          procFreepagetable p.pagetable p.sz
          pure (some ({ p with pagetable := pagetable, sz := image.sz }, image))

/-- exec pushes the arguments after it has loaded the file. -/
theorem exec_eq (K : Image) (p : ProcMem) (file : Option ProgFile) (argv : List (List UInt8))
    (scause : Nat) :
    exec K p file argv scause = execLoad K p.trapframe file >>= execPush p argv scause := by
  cases file with
  | none => rfl
  | some file =>
      rw [exec, execLoad]
      dsimp only
      split
      · rfl
      split
      · rfl
      rw [Prog.bind_assoc]
      refine congrArg (Bind.bind _) (funext fun pagetable => ?_)
      split
      · rfl
      rw [Prog.bind_assoc]
      refine congrArg (Bind.bind _) (funext fun x => ?_)
      obtain ⟨ok, sz⟩ := x
      cases ok with
      | false =>
          simp only [Bool.not_false, if_true, execBad, Prog.bind_assoc, Prog.pure_bind]
          rfl
      | true =>
          simp only [Bool.not_true, Bool.false_eq_true, if_false, buildStack, Prog.bind_assoc]
          refine congrArg (Bind.bind _) (funext fun sz1 => ?_)
          split
          · simp only [execBad, Prog.bind_assoc, Prog.pure_bind]
            rfl
          · simp only [Prog.bind_assoc, Prog.pure_bind]
            rfl

/-- Either all pages are given back, or there is a page table with a stack page above the
guard page. -/
theorem safe_execLoad {file : Option ProgFile} {tf : Nat} (hr : Quiet r) :
    Safe (logic K) E (execLoad K tf file) ({.page tf d false} + r) fun o r' =>
      (o = none ∧ r' = {.page tf d false} + r) ∨
      ∃ T b entry, o = some (T.root, (b + 1) * PGSIZE, entry) ∧ 1 ≤ b ∧
        T.Stacked K (b + 1) tf b ∧
        r' = {.space T} + ({.page tf d false} + ({.token T.root} + r)) := by
  have hpage := quiet_page tf d false
  cases file with
  | none => exact Safe.pure (Or.inl ⟨rfl, rfl⟩)
  | some file =>
  rw [execLoad]
  dsimp only
  split
  · exact Safe.pure (Or.inl ⟨rfl, rfl⟩)
  split
  · exact Safe.pure (Or.inl ⟨rfl, rfl⟩)
  generalize ElfHdr.ofBytes (file.readi 0 64) = elf
  apply Safe.bind (safe_procPagetable hr)
  rintro x r' (⟨rfl, rfl⟩ | ⟨hx, T, rfl, hT, rfl⟩)
  · rw [if_pos rfl]
    exact Safe.pure (Or.inl ⟨rfl, rfl⟩)
  rw [if_neg hx]
  have hquiet : Quiet ({.page tf d false} + ({.token T.root} + r)) :=
    hpage.add ((quiet_token _).add hr)
  have hbad : ∀ (T' : Space) (sz : Nat), T'.root = T.root → T'.Shape K (pagesOf sz) tf →
      Safe (logic K) E (do
          procFreepagetable T.root sz
          pure (none : Option (Nat × Nat × Nat)))
        ({.space T'} + ({.page tf d false} + ({.token T.root} + r))) fun o r' =>
          o = none ∧ r' = {.page tf d false} + r := by
    intro T' sz hroot hT'
    rw [← hroot, add_left_comm {Atom.page tf d false}]
    apply Safe.bind (safe_procFreepagetable hT' (hpage.add hr))
    rintro _ r' rfl
    exact Safe.pure ⟨rfl, rfl⟩
  apply Safe.bind (safe_loadHeaders hT.loading hquiet)
  rintro ⟨ok, sz0⟩ r' ⟨T₁, rfl, hroot₁, hT₁⟩
  cases ok with
  | false =>
      simp only [Bool.not_false, ↓reduceIte]
      exact (hbad T₁ sz0 hroot₁ hT₁.shape).mono fun _ _ h => Or.inl h
  | true =>
      simp only [Bool.not_true, Bool.false_eq_true, ↓reduceIte]
      have hround : PGROUNDUP sz0 = pagesOf sz0 * PGSIZE := PGROUNDUP_eq_pagesOf sz0
      have hT₀ : T₁.Loading K (PGROUNDUP sz0) tf := by
        refine ⟨?_, hT₁.fresh⟩
        rw [pagesOf_PGROUNDUP]
        exact hT₁.shape
      have hnew : PGROUNDUP sz0 + (USERSTACK + 1) * PGSIZE =
          (pagesOf sz0 + 1 + 1) * PGSIZE := by
        rw [hround, USERSTACK]
        ring
      rw [← hroot₁] at hquiet ⊢
      apply Safe.bind (safe_uvmalloc (by decide) (by decide) hT₀.shape.sized hquiet)
      rintro sz1 r' ⟨T₂, rfl, ⟨rfl, hle, hmax, hgrown⟩ | ⟨rfl, hlt, rfl⟩ | ⟨rfl, -, hsame⟩⟩
      · have hT₂ := hT₀.grown hgrown hle hmax (by decide)
        rw [hnew] at hT₂ ⊢
        have hpages : pagesOf ((pagesOf sz0 + 1 + 1) * PGSIZE) = pagesOf sz0 + 1 + 1 :=
          pagesOf_mul _
        obtain ⟨l, hl⟩ := hT₂.leaf (v := pagesOf sz0) (by rw [hpages]; omega)
        have hguard : (pagesOf sz0 + 1 + 1) * PGSIZE - (USERSTACK + 1) * PGSIZE =
            pagesOf sz0 * PGSIZE := by
          simp only [USERSTACK, PGSIZE]
          omega
        have hlt : pagesOf sz0 < USERPAGES := by
          have := hT₂.shape.sized.1
          omega
        have hroot : T₂.root = T₁.root := hgrown.root
        rw [if_neg (by simp only [PGSIZE]; omega), hguard, ← hroot]
        apply Safe.bind (safe_uvmclear hlt hl (hroot.symm ▸ hquiet))
        rintro _ r' rfl
        have hstacked := hT₂.guard (b := pagesOf sz0 + 1) hpages (by omega) hl
        rw [hpages] at hstacked
        exact Safe.pure (Or.inr ⟨T₂.setLeaf (pagesOf sz0) (some l.kernelOnly)
          (T₂.data (pagesOf sz0)), pagesOf sz0 + 1, elf.entry, rfl, by omega, hstacked, rfl⟩)
      · omega
      · rw [if_pos rfl, hroot₁]
        exact (hbad T₂ _ (hsame.root.trans hroot₁) (hT₀.same hsame).shape).mono
          fun _ _ h => Or.inl h

/-- exec fails and leaves the process as it was and nothing behind, or replaces its
memory by a new one. -/
theorem safe_exec {file : Option ProgFile} {argv : List (List UInt8)} {scause : Nat}
    (hS : S.Is K p m) (hr : Quiet r) :
    Safe (logic K) E (exec K p file argv scause)
      ({.space S} + ({.page p.trapframe d false} + ({.token p.pagetable} + r)))
      fun o r' =>
        (o = none ∧
          r' = {.space S} + ({.page p.trapframe d false} + ({.token p.pagetable} + r))) ∨
        ∃ p' image S' m', o = some (p', image) ∧ S'.Is K p' m' ∧
          p'.trapframe = p.trapframe ∧
          r' = {.space S'} + ({.page p.trapframe d false} + ({.token p'.pagetable} + r)) := by
  have hold : Quiet ({.space S} + ({.token p.pagetable} + r)) :=
    (quiet_space S).add ((quiet_token _).add hr)
  have hpage := quiet_page p.trapframe d false
  rw [exec_eq, add_left_comm]
  apply Safe.bind (safe_execLoad hold)
  rintro o r' (⟨rfl, rfl⟩ | ⟨T, b, entry, rfl, hb, hT, rfl⟩)
  · exact Safe.pure (Or.inl ⟨rfl, rfl⟩)
  have hbase : (b + 1) * PGSIZE - USERSTACK * PGSIZE = b * PGSIZE := by
    simp only [USERSTACK, PGSIZE]
    omega
  have hquiet : Quiet ({.page p.trapframe d false} + ({.token T.root} +
      ({.space S} + ({.token p.pagetable} + r)))) := hpage.add ((quiet_token _).add hold)
  rw [execPush, hbase]
  apply Safe.bind (safe_pushStack hT hb rfl hquiet)
  rintro x r' ⟨T', rfl, hroot, hT', rfl | ⟨sp, addrs, rfl, -, -⟩⟩
  all_goals
    have hshape : T'.Shape K (pagesOf ((b + 1) * PGSIZE)) p.trapframe := by
      rw [pagesOf_mul]
      exact hT'.shape
  · dsimp only
    rw [execBad, ← hroot, add_left_comm {Atom.page p.trapframe d false}]
    apply Safe.bind (safe_procFreepagetable hshape (hpage.add hold))
    rintro _ r' rfl
    exact Safe.pure (Or.inl ⟨rfl, rfl⟩)
  · have hshuffle : {Atom.space T'} + ({Atom.page p.trapframe d false} +
        ({Atom.token T.root} + ({Atom.space S} + ({Atom.token p.pagetable} +
          r)))) = {Atom.space S} + ({Atom.token S.root} + ({Atom.space T'} +
            ({Atom.page p.trapframe d false} + ({Atom.token T'.root} + r)))) := by
      rw [hS.root, hroot]
      ac_rfl
    rw [hshuffle]
    dsimp only
    rw [← hS.root]
    apply Safe.bind (safe_procFreepagetable hS.shape
      ((quiet_space T').add (hpage.add ((quiet_token _).add hr))))
    rintro _ r' rfl
    refine Safe.pure (Or.inr ⟨_, _, T', T'.user, rfl, ⟨hroot, hshape, rfl⟩, rfl, ?_⟩)
    rw [hroot]

end exec

section first

variable {q tf : Nat} {d : Arr} {b : Bool}

/-- A store to a page of the kernel. -/
theorem safe_poke_page {off : Nat} {src : List UInt8} (hr : Quiet r) :
    Safe (logic K) E (Prog.cmd (.poke q off src)) ({.page q d b} + r) fun _ r' =>
      r' = {.page q (pokeBytes d off src) b} + r := by
  apply safe_ok
  intro F s hinv
  rw [add_assoc] at hinv
  obtain ⟨hframe, hdata, hinv'⟩ := hinv.wrote_page (pokeBytes d off src)
  refine ⟨Adm.of_quiet ((quiet_page q d b).add hr) rfl, (),
    s.wrote q (pokeBytes d off src), _, ?_, ?_, rfl⟩
  · change pokeAt q off src s = _
    rw [pokeAt, KM.bind_ok (readPage_ok hframe.inRam), writePage_ok hframe.inRam, hdata]
  · rw [add_assoc]
    exact hinv'

/-- The flags of the first page. -/
def firstPerm : Pte := PTE_W ||| PTE_R ||| PTE_X ||| PTE_U

theorem safe_mapFirst (hS : S.Sized 0) (hr : Quiet r) :
    Safe (logic K) E (mappages S.root 0 PGSIZE q firstPerm)
      ({.space S} + ({.page q d true} + r)) fun x r' => ∃ S', S.Extends S' ∧
        ((x = -1 ∧ r' = {.space S'} + ({.page q d true} + r)) ∨
          (x = 0 ∧ r' = {.space (S'.setLeaf 0 (some ⟨q, firstPerm ||| PTE_V, true⟩) d)} +
            r)) := by
  have hnone : S.leaf 0 = none := by
    by_contra hne
    have hlt := (hS.2 0 (by decide)).mp (mt Space.page_eq_none.mp hne)
    omega
  have hmap := safe_mappages (K := K) (E := E) (S := S) (X := {.page q d true} + r)
    (p := q) (w := firstPerm) (Q := fun r' => ∃ S', S.Extends S' ∧ r' =
      {.space (S'.setLeaf 0 (some ⟨q, firstPerm ||| PTE_V, true⟩) d)} + r)
    (by decide : 0 < MAXVA) (by decide) ((quiet_page q d true).add hr)
    fun S' pte hext hslot =>
      (safe_mapPage (a := 0) (by decide) (by rw [hext.leaf]; exact hnone) hslot
        (by decide) (by decide) (by decide) hr).mono fun _ r' hr' => ⟨S', hext, hr'⟩
  apply hmap.mono
  rintro x r' (⟨rfl, S', hext, rfl⟩ | ⟨rfl, S', hext, rfl⟩)
  · exact ⟨S', hext, Or.inl ⟨rfl, rfl⟩⟩
  · exact ⟨S', hext, Or.inr ⟨rfl, rfl⟩⟩

/-- The first page of a new process. -/
theorem Space.Shape.first (h : S.Shape K 0 tf) (hext : S.Extends S') (l : Leaf) (d : Arr) :
    (S'.setLeaf 0 (some l) d).Shape K (pagesOf PGSIZE) tf := by
  have hone : pagesOf PGSIZE = 1 := by decide
  have hpage : ∀ v, v ≠ 0 → (S'.setLeaf 0 (some l) d).page v = S.page v := by
    intro v hv
    rw [Space.page_setLeaf_of_ne _ _ _ hv, hext.page]
  have hpos : 0 < USERPAGES := by decide
  apply h.of_high (fun v hv => hpage v (by omega))
  rw [hone]
  refine ⟨by decide, fun v hv => ?_⟩
  by_cases hv0 : v = 0
  · subst hv0
    simp [Space.page_setLeaf_self]
  · rw [hpage v hv0, h.sized.2 v hv]
    omega

theorem safe_memset_null (hr : Quiet r) (hE : E (.fault 0))
    {post : Unit → Multiset Atom → Prop} :
    Safe (logic K) E (Prog.cmd (.memset 0 0)) r post := by
  apply Safe.cmd
  intro F s _
  exact ⟨Adm.of_quiet hr rfl, hE⟩

theorem safe_uvmfirst {src : List UInt8} (hS : S.Shape K 0 tf) (hsrc : src.length < PGSIZE)
    (hE : E (.fault 0)) (hr : Quiet r) :
    Safe (logic K) E (uvmfirst S.root src) ({.space S} + r) fun x r' =>
      Quiet r' ∧ (x = 0 → ∃ S', r' = {.space S'} + r ∧ S'.root = S.root ∧
        S'.Shape K (pagesOf PGSIZE) tf) := by
  have hquiet := (quiet_space S).add hr
  rw [uvmfirst, if_neg (by omega)]
  apply Safe.bind (safe_kalloc hquiet)
  rintro q r' (⟨rfl, rfl⟩ | ⟨hq, rfl⟩)
  · apply Safe.bind (M := fun _ _ => False) (safe_memset_null hquiet hE)
    exact fun _ _ hfalse => hfalse.elim
  apply Safe.bind (safe_memset hquiet)
  rintro _ r' rfl
  rw [add_left_comm]
  apply Safe.bind (safe_mapFirst hS.sized hr)
  rintro x r' ⟨S', hext, ⟨rfl, rfl⟩ | ⟨rfl, rfl⟩⟩
  · rw [add_left_comm]
    apply Safe.bind (safe_poke_page ((quiet_space S').add hr))
    rintro _ r' rfl
    refine Safe.pure ⟨?_, fun hfalse => absurd hfalse (by decide)⟩
    exact (quiet_page q _ true).add ((quiet_space S').add hr)
  · have hshape := hS.first hext ⟨q, firstPerm ||| PTE_V, true⟩ fun _ => 0
    set T := S'.setLeaf 0 (some ⟨q, firstPerm ||| PTE_V, true⟩) fun _ => 0 with hT
    have hl : T.leaf 0 = some ⟨q, firstPerm ||| PTE_V, true⟩ := by simp [hT, Space.setLeaf]
    apply Safe.bind (safe_poke (S := T) (by decide) hl rfl hr)
    rintro _ r' rfl
    refine Safe.pure ⟨(quiet_space _).add hr, fun _ => ⟨_, rfl, hext.root, ?_⟩⟩
    have hsized : (T.setData 0 (pokeBytes (T.data 0) 0 src)).Sized (pagesOf PGSIZE) := by
      refine ⟨hshape.sized.1, fun v hv => ?_⟩
      rw [← hshape.sized.2 v hv, ne_eq, Space.page_eq_none, ne_eq, Space.page_eq_none]
      rfl
    exact ⟨hsized, hshape.trapframe, hshape.trampoline, hshape.top⟩

/-- The first process, if its page was mapped. -/
theorem safe_userinit {initcode : List UInt8} (hsrc : initcode.length < PGSIZE)
    (hE : E (.fault 0)) (hr : Quiet r) :
    Safe (logic K) E (userinit K initcode) r fun x r' => Quiet r' ∧ (x.2 = 0 → ∃ h m,
      Holding K x.1 m h ∧ r' = h + ({.token x.1.pagetable} + r)) := by
  rw [userinit]
  apply Safe.bind (safe_allocproc hr)
  rintro o r' (⟨rfl, rfl⟩ | ⟨S, tf, d, rfl, hS, rfl⟩)
  · exact safe_stop hr hE
  · apply Safe.bind (safe_uvmfirst hS hsrc hE
      ((quiet_page tf d false).add ((quiet_token _).add hr)))
    rintro x r' ⟨hquiet, hx⟩
    refine Safe.pure ⟨hquiet, fun hzero => ?_⟩
    obtain ⟨S', rfl, hroot, hS'⟩ := hx hzero
    refine ⟨_, S'.user, ⟨S', d, ⟨hroot, hS', rfl⟩, rfl⟩, ?_⟩
    rw [add_assoc]

end first

end Xv6.Vm
