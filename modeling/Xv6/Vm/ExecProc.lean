/-
exec of kernel/exec.c in a process: the reference to the inode, the name and the trapframe of
the process, the references of the old and the new page table, and the initial stack.
-/
import Xv6.Vm.ForkSlot

namespace Xv6.Vm

open Bytes Program Interleave Refs

section references

variable {K : Image} {s : Kmem} {S : Space}

/-- The page that a valid entry names. -/
def validPage (w : Pte) : Option Nat := if w.has PTE_V then some (PTE2PA w) else none

/-- The table with number `i` on the level below the root. -/
def middleAt (mem : Nat → Arr) (root i : Nat) : Option Nat :=
  if i < 512 then validPage (loadPte (mem root) i) else none

/-- The tables of a tree by level and number. -/
def tableAt (mem : Nat → Arr) (root : Nat) : Nat × Nat → Option Nat
  | (0, i) => (middleAt mem root (i / 512)).bind fun q => validPage (loadPte (mem q) (i % 512))
  | (1, i) => middleAt mem root i
  | (2, 0) => some root
  | _ => none

/-- How often a page table refers to a frame: as one of its tables and as a user page. -/
def refsOf (mem : Nat → Arr) (root f : Nat) : Nat :=
  refs nodeIx (tableAt mem root) f +
    refs userIx (fun v => validPage (lookup mem root (v * PGSIZE))) f

theorem validPage_encodeNode {o : Option Nat} (h : ∀ p, o = some p → K.Frame p) :
    validPage (encodeNode o) = o := by
  rw [validPage, has_encodeNode o h]
  cases o with
  | none => rfl
  | some p => rw [Option.isSome_some, if_pos rfl, PTE2PA_encodeNode (h p rfl)]

theorem Space.Table.middleAt {mem : Nat → Arr} (h : S.Table K mem) (i : Nat) :
    middleAt mem S.root i = S.node (1, i) := by
  rw [Vm.middleAt]
  by_cases hi : i < 512
  · have hentry := h.entries 2 i S.root (by rw [Nat.div_eq_of_lt hi]; exact h.root)
    rw [Nat.mod_eq_of_lt hi] at hentry
    rw [if_pos hi, hentry]
    exact validPage_encodeNode fun p hp => (h.dom _ p hp).2
  · rw [if_neg hi]
    by_contra hne
    obtain ⟨p, hp⟩ := Option.ne_none_iff_exists'.mp (Ne.symm hne)
    obtain ⟨q, hq⟩ := h.parent 1 i p hp (by decide)
    have hzero := h.top (i / 512) (by rw [hq]; exact Option.some_ne_none q)
    omega

/-- The tables in memory are the nodes of the space. -/
theorem Space.Table.tableAt {mem : Nat → Arr} (h : S.Table K mem) {x : Nat × Nat}
    (hx : x ∈ nodeIx) : tableAt mem S.root x = S.node x := by
  obtain ⟨level, i⟩ := x
  have hlevel := (mem_nodeIx.mp hx).1
  obtain rfl | rfl | rfl : level = 0 ∨ level = 1 ∨ level = 2 := by omega
  · rw [Vm.tableAt, h.middleAt]
    cases hp : S.node (1, i / 512) with
    | none =>
        rw [Option.bind_none]
        by_contra hne
        obtain ⟨c, hc⟩ := Option.ne_none_iff_exists'.mp (Ne.symm hne)
        obtain ⟨q, hq⟩ := h.parent 0 i c hc (by decide)
        rw [hp] at hq
        cases hq
    | some p =>
        rw [Option.bind_some, h.entries 1 i p hp]
        exact validPage_encodeNode fun c hc => (h.dom _ c hc).2
  · exact h.middleAt i
  · cases i with
    | zero => exact h.root.symm
    | succ i =>
        change none = S.node (2, i + 1)
        by_contra hne
        exact absurd (h.top (i + 1) (Ne.symm hne)) (by omega)

theorem Space.Ok.frameAt (h : S.Ok K s) {v : Nat} (hv : v < USERPAGES) :
    validPage (lookup s.mem S.root (v * PGSIZE)) = S.frames v := by
  have hva : v * PGSIZE < MAXVA := lt_MAXVA_of_page (by omega)
  rw [h.table.lookup hva, mul_PGSIZE_div, Space.frames]
  cases hl : S.leaf v with
  | none => rfl
  | some l =>
      rw [validPage, h.has hl (by decide), h.valid hl, if_pos rfl, (h.user v l hv hl).PTE2PA]
      rfl

/-- The references of a page table in memory are those that the ledger counts. -/
theorem Space.Ok.refsOf (h : S.Ok K s) (f : Nat) :
    refsOf s.mem S.root f = S.use .kernel f + S.use .user f := by
  rw [Vm.refsOf, refs_congr fun x hx => h.table.tableAt hx,
    refs_congr fun v hv => h.frameAt (mem_userIx.mp hv)]
  rfl

end references

/-- Offsets in struct trapframe. -/
def EPC : Nat := 24
def SP : Nat := 48
def A1 : Nat := 120

/-- What follows the last slash of a path. -/
def lastName : List UInt8 → List UInt8 → List UInt8
  | last, [] => last
  | last, c :: s => lastName (if c = 47 then s else last) s

/-- The array `s` of a string after safestrcpy of `t` to it. -/
def safestrcpy (s t : List UInt8) (n : Nat) : List UInt8 :=
  -- the byte after the end of a short string is cleared as well
  let copied := (if t.length < n - 1 then t ++ [0] else t.take (n - 1)) ++ [0]
  copied ++ s.drop copied.length

/-- iunlockput gives a reference back. -/
def ProcTable.iput (t : ProcTable) (ip : Nat) : ProcTable :=
  { t with inodeRef := Function.update t.inodeRef ip (t.inodeRef ip - 1) }

theorem ProcTable.iput_idup (t : ProcTable) (ip : Nat) : (t.idup ip).iput ip = t := by
  simp [ProcTable.iput, ProcTable.idup]

/-- The label `bad` of exec. -/
def badExec (t : ProcTable) (p : Slot) (ip : Option Nat) (pagetable sz : Nat) :
    P (Int × ProcTable × Slot) := do
  if pagetable ≠ 0 then procFreepagetable pagetable sz else pure ()
  match ip with
  | some ip => pure (-1, t.iput ip, p)
  | none => pure (-1, t, p)

/-- The end of exec: the process gets the new image. -/
def commitExec (t : ProcTable) (p : Slot) (path : List UInt8) (pagetable : Nat)
    (image : ExecImage) : P (Int × ProcTable × Slot) := do
  Prog.cmd (.poke p.trapframe A1 (wordBytes image.sp))
  let name := safestrcpy p.name (lastName path path) 16
  Prog.cmd (.poke p.trapframe EPC (wordBytes image.entry))
  Prog.cmd (.poke p.trapframe SP (wordBytes image.sp))
  procFreepagetable p.pagetable p.sz
  pure (image.argc, t, { p with pagetable := pagetable, sz := image.sz, name := name })

/-- exec in the process `p`; `found` is the inode that namei finds at the path, with the
contents of the file. -/
def execProc (K : Image) (t : ProcTable) (p : Slot) (path : List UInt8)
    (found : Option (Nat × ProgFile)) (argv : List (List UInt8)) (scause : Nat) :
    P (Int × ProcTable × Slot) :=
  match found with
  | none => pure (-1, t, p)
  | some (ip, file) =>
      -- namei returns the inode with a reference
      let t := t.idup ip
      let b := file.readi 0 64
      let elf := ElfHdr.ofBytes b
      if b.length ≠ 64 then
        badExec t p (some ip) 0 0
      else if elf.magic ≠ ELF_MAGIC then
        badExec t p (some ip) 0 0
      else do
        let pagetable ← procPagetable K p.trapframe
        if pagetable = 0 then
          badExec t p (some ip) 0 0
        else do
          let (ok, sz) ← loadHeaders pagetable file elf.phnum elf.phoff 0
          if !ok then
            badExec t p (some ip) pagetable sz
          else do
            let t := t.iput ip
            match ← buildStack pagetable sz elf.entry argv scause with
            | .error sz => badExec t p none pagetable sz
            | .ok image => commitExec t p path pagetable image

section decompose

variable (K : Image) (t : ProcTable) (p : Slot) (path : List UInt8)
variable (found : Option (Nat × ProgFile)) (argv : List (List UInt8)) (scause : Nat)

/-- exec after the file has been loaded. -/
def execRest : Option (Nat × Nat × Nat) → P (Int × ProcTable × Slot)
  | none => pure (-1, t, p)
  | some (pagetable, sz, entry) => do
      match ← pushStack pagetable sz (sz - USERSTACK * PGSIZE) entry argv scause with
      | .error sz => do
          procFreepagetable pagetable sz
          pure (-1, t, p)
      | .ok image => commitExec t p path pagetable image

theorem badExec_zero (ip : Nat) : badExec (t.idup ip) p (some ip) 0 0 = pure (-1, t, p) := by
  rw [badExec, if_neg (by simp), ProcTable.iput_idup]

theorem badExec_some {pagetable : Nat} (h : ¬ pagetable = 0) (ip sz : Nat) :
    badExec (t.idup ip) p (some ip) pagetable sz =
      procFreepagetable pagetable sz >>= fun _ => pure (-1, t, p) := by
  rw [badExec, if_pos h, ProcTable.iput_idup]

theorem badExec_none {pagetable : Nat} (h : ¬ pagetable = 0) (sz : Nat) :
    badExec t p none pagetable sz =
      procFreepagetable pagetable sz >>= fun _ => pure (-1, t, p) := by
  rw [badExec, if_pos h]

/-- On every way through exec the reference to the inode is given back once, and the pages of a
file that could not be loaded are. -/
theorem execProc_eq : execProc K t p path found argv scause =
    execLoad K p.trapframe (found.map Prod.snd) >>= execRest t p path argv scause := by
  cases found with
  | none => rfl
  | some pair =>
      obtain ⟨ip, file⟩ := pair
      rw [Option.map_some, execProc, execLoad]
      dsimp only
      split
      · exact badExec_zero t p ip
      split
      · exact badExec_zero t p ip
      rw [Prog.bind_assoc]
      refine congrArg (Bind.bind _) (funext fun pagetable => ?_)
      by_cases hzero : pagetable = 0
      · rw [if_pos hzero, if_pos hzero]
        exact badExec_zero t p ip
      rw [if_neg hzero, if_neg hzero, Prog.bind_assoc]
      refine congrArg (Bind.bind _) (funext fun x => ?_)
      obtain ⟨ok, sz⟩ := x
      cases ok with
      | false =>
          simp only [Bool.not_false, if_true, badExec_some t p hzero, Prog.bind_assoc,
            Prog.pure_bind, execRest]
      | true =>
          simp only [Bool.not_true, Bool.false_eq_true, if_false, buildStack, Prog.bind_assoc,
            ProcTable.iput_idup, badExec_none t p hzero]
          refine congrArg (Bind.bind _) (funext fun sz1 => ?_)
          split
          · simp only [Prog.bind_assoc, Prog.pure_bind, execRest]
          · simp only [Prog.bind_assoc, Prog.pure_bind, execRest]

end decompose

section run

variable {K : Image} {k : Kmem} {S : Space} {F : Multiset Atom} {m : Mem} {d : Arr}

/-- The trapframe after exec. -/
def execFrame (d : Arr) (sp entry : Nat) : Arr :=
  pokeBytes (pokeBytes (pokeBytes d A1 (wordBytes sp)) EPC (wordBytes entry)) SP (wordBytes sp)

/-- A run of exec fails with the ledger as it was, or the file was loaded in a state `k₁` with
the pages of `T`, and then the arguments were pushed to `T'`. -/
theorem run_execProc (t : ProcTable) {p : Slot} (path : List UInt8)
    (found : Option (Nat × ProgFile)) (argv : List (List UInt8)) (scause : Nat)
    (hS : S.Is K p.mem m) (hinv : Inv K ({.space S} + {.page p.trapframe d false} +
      ({.token p.pagetable} + F)) k) :
    ∃ x k', (execProc K t p path found argv scause).run (handler K) k = .ok (x, k') ∧
      ((x = (-1, t, p) ∧ Inv K ({.space S} + {.page p.trapframe d false} +
          ({.token p.pagetable} + F)) k') ∨
        ∃ (T T' : Space) (b entry sp : Nat) (addrs : List Nat) (k₁ : Kmem),
          x = ((argv.length : Int), t, { p with
            pagetable := T'.root
            sz := (b + 1) * PGSIZE
            name := safestrcpy p.name (lastName path path) 16 }) ∧
          (execLoad K p.trapframe (found.map Prod.snd)).run (handler K) k =
            .ok (some (T.root, (b + 1) * PGSIZE, entry), k₁) ∧
          T.Ok K k₁ ∧ T'.root = T.root ∧ T'.Stacked K (b + 1) p.trapframe b ∧
          b * PGSIZE ≤ sp ∧ T.user.Stack T'.user argv ((b + 1) * PGSIZE) sp addrs ∧
          Inv K ({.space T'} + {.page p.trapframe (execFrame d sp entry) false} +
            ({.token T'.root} + F)) k') := by
  have hpage := quiet_page p.trapframe d false
  have htoken := (quiet_token p.pagetable).add quiet_zero
  have hold : Quiet ({.space S} + ({.token p.pagetable} + 0)) := (quiet_space S).add htoken
  have hstart : ∀ G, ({Atom.space S} + {Atom.page p.trapframe d false} +
      ({Atom.token p.pagetable} + G) : Multiset Atom) = {Atom.page p.trapframe d false} +
        ({Atom.space S} + ({Atom.token p.pagetable} + 0)) + G := by
    intro G
    rw [add_zero]
    ac_rfl
  rw [hstart] at hinv
  rw [execProc_eq, hstart]
  obtain ⟨o, k₁, r', hload, hinv₁, ⟨rfl, rfl⟩ | ⟨T, b, entry, rfl, hb, hT, rfl⟩⟩ :=
    safe_returns (safe_execLoad hold) hinv
  · exact ⟨_, k₁, Prog.run_bind_ok hload, Or.inl ⟨rfl, hinv₁⟩⟩
  have hbase : (b + 1) * PGSIZE - USERSTACK * PGSIZE = b * PGSIZE := by
    simp only [USERSTACK, PGSIZE]
    omega
  have hquiet : Quiet ({.page p.trapframe d false} + ({.token T.root} +
      ({.space S} + ({.token p.pagetable} + 0)))) := hpage.add ((quiet_token _).add hold)
  have hok₁ : T.Ok K k₁ := by
    apply Inv.space_ok (F := {.page p.trapframe d false} + ({.token T.root} +
      ({.space S} + ({.token p.pagetable} + 0))) + F)
    rw [← add_assoc]
    exact hinv₁
  obtain ⟨y, k₂, r'', hpush, hinv₂, T', rfl, hroot, hT', hcases⟩ :=
    safe_returns (safe_pushStack hT hb rfl hquiet) hinv₁
  have hshape : T'.Shape K (pagesOf ((b + 1) * PGSIZE)) p.trapframe := by
    rw [pagesOf_mul]
    exact hT'.shape
  rw [Prog.run_bind_ok hload, execRest, hbase, Prog.run_bind_ok hpush]
  rcases hcases with rfl | ⟨sp, addrs, rfl, hsp, hstack⟩
  · rw [← hroot] at hinv₂ ⊢
    rw [add_left_comm {Atom.page p.trapframe d false}] at hinv₂
    obtain ⟨_, k₃, r₃, hfree, hinv₃, rfl⟩ :=
      safe_returns (safe_procFreepagetable hshape (hpage.add hold)) hinv₂
    exact ⟨_, k₃, Prog.run_bind_ok hfree, Or.inl ⟨rfl, hinv₃⟩⟩
  · have hsafe : Safe (logic K) (fun _ => False) (commitExec t p path T.root
        ⟨(b + 1) * PGSIZE, argv.length, sp, entry⟩)
        ({.space T'} + ({.page p.trapframe d false} + ({.token T.root} +
          ({.space S} + ({.token p.pagetable} + 0))))) fun x r' =>
            x = ((argv.length : Int), t, { p with
              pagetable := T'.root
              sz := (b + 1) * PGSIZE
              name := safestrcpy p.name (lastName path path) 16 }) ∧
            r' = {.page p.trapframe (execFrame d sp entry) false} +
              ({.space T'} + ({.token T'.root} + 0)) := by
      have hrest : Quiet ({.space T'} + ({.token T.root} +
          ({.space S} + ({.token p.pagetable} + 0)))) :=
        (quiet_space T').add ((quiet_token _).add hold)
      rw [commitExec, add_left_comm {Atom.space T'}]
      apply Safe.bind (safe_poke_page hrest)
      rintro _ r' rfl
      apply Safe.bind (safe_poke_page hrest)
      rintro _ r' rfl
      apply Safe.bind (safe_poke_page hrest)
      rintro _ r' rfl
      -- the old page table, for which there is a token, is freed
      have hshuffle : ∀ d' : Arr, ({Atom.page p.trapframe d' false} + ({Atom.space T'} +
          ({Atom.token T.root} + ({Atom.space S} + ({Atom.token p.pagetable} + 0)))) :
          Multiset Atom) = {Atom.space S} + ({Atom.token S.root} +
            ({Atom.page p.trapframe d' false} + ({Atom.space T'} +
              ({Atom.token T'.root} + 0)))) := by
        intro d'
        rw [hS.root, hroot]
        change _ = {Atom.space S} + ({Atom.token p.pagetable} + _)
        ac_rfl
      rw [hshuffle]
      have hfree := safe_procFreepagetable (K := K) (E := fun _ => False) hS.shape
        ((quiet_page p.trapframe (execFrame d sp entry) false).add
          ((quiet_space T').add ((quiet_token T'.root).add quiet_zero)))
      rw [hS.root] at hfree
      rw [hS.root]
      apply Safe.bind hfree
      rintro _ r' rfl
      exact Safe.pure ⟨by rw [hroot], rfl⟩
    obtain ⟨x, k₃, r₃, hcommit, hinv₃, rfl, rfl⟩ := safe_returns hsafe hinv₂
    refine ⟨_, k₃, hcommit, Or.inr ⟨T, T', b, entry, sp, addrs, k₁, rfl, hload, hok₁, hroot,
      hT', hsp, hstack, ?_⟩⟩
    have hback : ({Atom.space T'} + {Atom.page p.trapframe (execFrame d sp entry) false} +
        ({Atom.token T'.root} + F) : Multiset Atom) =
          {Atom.page p.trapframe (execFrame d sp entry) false} +
            ({Atom.space T'} + ({Atom.token T'.root} + 0)) + F := by
      rw [add_zero]
      ac_rfl
    rw [hback]
    exact hinv₃

end run

section outcome

variable {K : Image} {k k' : Kmem} {S T : Space} {F G : Multiset Atom} {d d' : Arr}
variable {tf x y : Nat}

end outcome

section stack

/-- The word that user code reads at an address. -/
def userWord (mem : Nat → Arr) (pagetable va : Nat) : Option Nat :=
  if (List.range 8).all fun j => (userByte mem pagetable (va + j)).isSome then
    some (getLE 8 (fun a => (userByte mem pagetable a).getD 0) va)
  else none

/-- The byte that memory holds for an address, whether user code may read it or not. -/
def storedByte (mem : Nat → Arr) (pagetable va : Nat) : Option UInt8 :=
  (validPage (lookup mem pagetable (va / PGSIZE * PGSIZE))).map fun pa => mem pa (va % PGSIZE)

/-- User code reads the string with the 0 at its end at an address. -/
def UserString (mem : Nat → Arr) (pagetable : Nat) (arg : List UInt8) (a : Nat) : Prop :=
  0 ∉ arg ∧ ∀ j, j ≤ arg.length → userByte mem pagetable (a + j) = some ((arg ++ [0]).getD j 0)

/-- The arguments that sys_exec passes to exec. -/
structure SysExecArgv (argv : List (List UInt8)) : Prop where
  count : argv.length < MAXARG
  strings : ∀ arg ∈ argv, arg.length < PGSIZE ∧ 0 ∉ arg

/-- The initial stack of the process `p` in the state `k`; `k₁` is the state before the first
argument was pushed. -/
structure ExecStack (k₁ k : Kmem) (p : Slot) (argv : List (List UInt8)) (sp : Nat)
    (addrs : List Nat) : Prop where
  aligned : sp % 16 = 0
  stackbase : p.sz - USERSTACK * PGSIZE ≤ sp
  below : sp < p.sz
  a1 : getLE 8 (k.mem p.trapframe) A1 = sp
  stackPointer : getLE 8 (k.mem p.trapframe) SP = sp
  addresses : addrs.length = argv.length
  /-- No index past the end of `ustack` is used. -/
  ustack : (addrs ++ [0]).length ≤ MAXARG
  words : ∀ i, i ≤ argv.length →
    userWord k.mem p.pagetable (sp + 8 * i) = some ((addrs ++ [0]).getD i 0)
  strings : List.Forall₂ (UserString k.mem p.pagetable) argv addrs
  within : ∀ x ∈ argv.zip addrs,
    sp + (argv.length + 1) * 8 ≤ x.2 ∧ x.2 + x.1.length + 1 ≤ p.sz
  apart : (argv.zip addrs).Pairwise fun x y => y.2 + y.1.length + 1 ≤ x.2
  unwritten : ∀ va, va < sp ∨ p.sz ≤ va →
    userByte k.mem p.pagetable va = userByte k₁.mem p.pagetable va
  /-- This includes the guard page below the stack, which user code may not read. -/
  contents : ∀ va, va < sp ∨ p.sz ≤ va → va < TRAPFRAME →
    storedByte k.mem p.pagetable va = storedByte k₁.mem p.pagetable va

theorem getD_wordBytes_self (v : Nat) {j : Nat} (hj : j < 8) :
    (wordBytes v).getD j 0 = UInt8.ofNat (v / 256 ^ j) := by
  simp [wordBytes, List.getD_eq_getElem?_getD, hj]

/-- The eight bytes of a word are its little-endian form. -/
theorem pokeBytes_wordBytes (d : Arr) (off v : Nat) :
    pokeBytes d off (wordBytes v) = putLE 8 d off v := by
  funext j
  have hlength : (wordBytes v).length = 8 := rfl
  rw [pokeBytes, blit, putLE, hlength]
  by_cases hj : off ≤ j ∧ j < off + 8
  · rw [if_pos hj, if_pos hj, Nat.zero_add, getD_wordBytes_self v (by omega)]
  · rw [if_neg hj, if_neg hj]

theorem userWord_of_bytes {mem : Nat → Arr} {pagetable va v : Nat} (hv : v < 256 ^ 8)
    (h : ∀ j, j < 8 → userByte mem pagetable (va + j) = some ((wordBytes v).getD j 0)) :
    userWord mem pagetable va = some v := by
  have hall : ((List.range 8).all fun j => (userByte mem pagetable (va + j)).isSome) = true := by
    rw [List.all_eq_true]
    intro j hj
    rw [h j (List.mem_range.mp hj)]
    rfl
  have hget : getLE 8 (fun a => (userByte mem pagetable a).getD 0) va =
      getLE 8 (putLE 8 (fun _ => 0) va v) va := by
    apply getLE_congr
    intro j hlo hhi
    have hbyte := h (j - va) (by omega)
    rw [Nat.add_sub_cancel' hlo, getD_wordBytes_self v (by omega)] at hbyte
    rw [hbyte, putLE, if_pos ⟨hlo, hhi⟩]
    rfl
  rw [userWord, if_pos hall, hget, getLE_putLE_self, Nat.mod_eq_of_lt hv]

theorem execFrame_a1 (d : Arr) {sp : Nat} (entry : Nat) (h : sp < 256 ^ 8) :
    getLE 8 (execFrame d sp entry) A1 = sp := by
  simp only [execFrame, pokeBytes_wordBytes]
  rw [getLE_putLE_of_disjoint (by decide), getLE_putLE_of_disjoint (by decide),
    getLE_putLE_self, Nat.mod_eq_of_lt h]

theorem execFrame_sp (d : Arr) {sp : Nat} (entry : Nat) (h : sp < 256 ^ 8) :
    getLE 8 (execFrame d sp entry) SP = sp := by
  simp only [execFrame, pokeBytes_wordBytes]
  rw [getLE_putLE_self, Nat.mod_eq_of_lt h]

theorem round16_mod (n : Nat) : round16 n % 16 = 0 := Nat.mul_mod_left _ _

theorem stackUse_mod (argv : List (List UInt8)) : stackUse argv % 16 = 0 := by
  have hargs := argBytes_mod argv
  have harray := round16_mod ((argv.length + 1) * 8)
  rw [stackUse]
  omega

theorem stackUse_pos (argv : List (List UInt8)) : 0 < stackUse argv := by
  have harray := le_round16 ((argv.length + 1) * 8)
  rw [stackUse]
  omega

/-- Every address of the array lies below the end of the stack. -/
theorem Mem.Stack.getD_lt {m m' : Mem} {argv : List (List UInt8)} {sz sp : Nat}
    {addrs : List Nat} (h : m.Stack m' argv sz sp addrs) (i : Nat) :
    (addrs ++ [0]).getD i 0 ≤ sz := by
  have hlength := h.strings.length_eq
  by_cases hi : i < addrs.length
  · have hzip : (argv[i], addrs[i]) ∈ argv.zip addrs := by
      rw [← List.getElem_zip (h := by rw [List.length_zip]; omega)]
      exact List.getElem_mem _
    have hle := (h.within _ hzip).2
    rw [List.getD_append _ _ _ _ hi, List.getD_eq_getElem _ _ hi]
    simp only at hle
    omega
  · rw [List.getD_append_right _ _ _ _ (Nat.le_of_not_lt hi)]
    cases hsub : i - addrs.length with
    | zero => exact Nat.zero_le _
    | succ n => exact Nat.zero_le _

theorem userStrings {mem : Nat → Arr} {pagetable : Nat} {m : Mem} {argv : List (List UInt8)}
    {addrs : List Nat} (hbyte : ∀ va, userByte mem pagetable va = m.load va)
    (h : List.Forall₂ m.StringAt argv addrs) (hnul : ∀ arg ∈ argv, 0 ∉ arg) :
    List.Forall₂ (UserString mem pagetable) argv addrs := by
  induction h with
  | nil => exact .nil
  | cons hfirst _ ih =>
      refine .cons ⟨hnul _ List.mem_cons_self, fun j hj => ?_⟩
        (ih fun arg harg => hnul arg (List.mem_cons_of_mem _ harg))
      rw [hbyte, hfirst j hj]

variable {K : Image} {k₁ k : Kmem} {T T' : Space} {F : Multiset Atom} {d : Arr}

/-- Memory holds the bytes of the space. -/
theorem Space.Ok.storedByte (h : T.Ok K k) {va : Nat} (hva : va < TRAPFRAME) :
    storedByte k.mem T.root va = T.user.byte true va := by
  have hv : va / PGSIZE < USERPAGES := by
    rw [USERPAGES]
    exact Nat.div_lt_div_of_lt_of_dvd (by decide) hva
  rw [Vm.storedByte, h.frameAt hv, Space.frames]
  cases hl : T.leaf (va / PGSIZE) with
  | none =>
      rw [Mem.byte, Space.user_eq_none.mpr (Or.inr hl)]
      rfl
  | some l =>
      rw [Mem.byte, Space.user_eq_some.mpr ⟨hv, l, hl, rfl⟩]
      exact congrArg (fun page : Arr => some (page (va % PGSIZE))) (h.user _ l hv hl).data

/-- The stack in the pages of the new space is the stack that user code reads. -/
theorem Inv.execStack {p : Slot} {argv : List (List UInt8)} {b sp entry : Nat}
    {addrs : List Nat} (hargv : SysExecArgv argv) (hT : T.Ok K k₁) (hroot : T'.root = T.root)
    (hT' : T'.Stacked K (b + 1) p.trapframe b) (hsp : b * PGSIZE ≤ sp)
    (hstack : T.user.Stack T'.user argv ((b + 1) * PGSIZE) sp addrs)
    (hpt : p.pagetable = T'.root) (hsz : p.sz = (b + 1) * PGSIZE)
    (h : Inv K ({.space T'} + {.page p.trapframe (execFrame d sp entry) false} + F) k) :
    ExecStack k₁ k p argv sp addrs := by
  have hbound : (b + 1) * PGSIZE < 256 ^ 8 := by
    have hpages := hT'.shape.sized.1
    simp only [USERPAGES, TRAPFRAME, TRAMPOLINE, MAXVA, PGSIZE] at hpages ⊢
    omega
  have hused := hstack.used
  have hmod := stackUse_mod argv
  have hpos := stackUse_pos argv
  have hlength := hstack.strings.length_eq
  obtain ⟨-, hpage, -⟩ := h.ok (.page p.trapframe (execFrame d sp entry) false) (by simp)
  rw [add_assoc] at h
  have hok := h.space_ok
  have hbyte : ∀ va, userByte k.mem p.pagetable va = T'.user.load va := by
    intro va
    rw [hpt, hok.userByte]
  have hbyte₁ : ∀ va, userByte k₁.mem p.pagetable va = T.user.load va := by
    intro va
    rw [hpt, hroot, hT.userByte]
  have hcount := hargv.count
  refine ⟨?_, ?_, ?_, ?_, ?_, hlength.symm, ?_, fun i hi => ?_, ?_, ?_, hstack.apart, ?_, ?_⟩
  · simp only [PGSIZE] at hused
    omega
  · rw [hsz]
    simp only [USERSTACK, PGSIZE] at hsp ⊢
    omega
  · rw [hsz]
    omega
  · rw [hpage, execFrame_a1 d entry (by omega)]
  · rw [hpage, execFrame_sp d entry (by omega)]
  · rw [List.length_append, List.length_singleton]
    omega
  · apply userWord_of_bytes (Nat.lt_of_le_of_lt (hstack.getD_lt i) hbound)
    intro j hj
    rw [hbyte, hstack.words i j hi hj]
  · exact userStrings hbyte hstack.strings fun arg harg => (hargv.strings arg harg).2
  · rw [hsz]
    exact hstack.within
  · rw [hsz]
    intro va hva
    rw [hbyte, hbyte₁]
    exact hstack.frame false va hva
  · rw [hsz]
    intro va hva hlt
    rw [hpt, hok.storedByte hlt, hroot, hT.storedByte hlt, hstack.frame true va hva]

end stack

/-- The initial stack of exec is well formed, and arguments that do not fit make exec fail. -/
theorem exec_stack_well_formed {K : Image} {sys : Sys} (h : sys.Reachable K) {p : Proc}
    (hp : p ∈ sys.procs) (t : ProcTable) {slot : Slot} (hslot : slot.mem = p.mem)
    (path : List UInt8) (found : Option (Nat × ProgFile)) {argv : List (List UInt8)}
    (hargv : SysExecArgv argv) (scause : Nat) :
    ∃ r t' slot' k', (execProc K t slot path found argv scause).run (handler K) sys.k =
        .ok ((r, t', slot'), k') ∧
      (r ≠ -1 → ∃ entry sp addrs k₁,
        (execLoad K slot.trapframe (found.map Prod.snd)).run (handler K) sys.k =
          .ok (some (slot'.pagetable, slot'.sz, entry), k₁) ∧
        ExecStack k₁ k' slot' argv sp addrs) ∧
      (¬ stackUse argv ≤ USERSTACK * PGSIZE → r = -1) := by
  obtain ⟨S, m, d, F, hS, hinv⟩ := h.holding hp
  rw [← hslot] at hS hinv
  obtain ⟨x, k', hrun, ⟨rfl, -⟩ | ⟨T, T', b, entry, sp, addrs, k₁, rfl, hload, hT, hroot, hT',
    hsp, hstack, hinv'⟩⟩ := run_execProc t path found argv scause hS hinv
  · exact ⟨_, _, _, k', hrun, fun hne => absurd rfl hne, fun _ => rfl⟩
  · refine ⟨_, _, _, k', hrun, fun _ => ⟨entry, sp, addrs, k₁, ?_, ?_⟩, fun hfit => ?_⟩
    · rw [hload, hroot]
    · exact hinv'.execStack hargv hT hroot hT' hsp hstack rfl rfl
    · have hused := hstack.used
      simp only [USERSTACK, PGSIZE] at hused hsp hfit
      omega

/-- The number of arguments, if the file is loaded and they are pushed. -/
def pushed (K : Image) (trapframe : Nat) (file : ProgFile) (argv : List (List UInt8))
    (scause : Nat) (k : Kmem) : Option Nat :=
  match runStrict K (execLoad K trapframe (some file)) k with
  | .ok (some (pagetable, sz, entry), k₁) =>
      match runStrict K
        (pushStack pagetable sz (sz - USERSTACK * PGSIZE) entry argv scause) k₁ with
      | .ok (.ok image, _) => some image.argc
      | _ => none
  | _ => none

/-- Then exec returns it. -/
theorem execProc_argc {K : Image} {k k' : Kmem} {t : ProcTable} {p : Slot} {path : List UInt8}
    {ip : Nat} {file : ProgFile} {argv : List (List UInt8)} {scause argc : Nat}
    {x : Int × ProcTable × Slot} (h : pushed K p.trapframe file argv scause k = some argc)
    (hrun : (execProc K t p path (some (ip, file)) argv scause).run (handler K) k =
      .ok (x, k')) : x.1 = argc := by
  simp only [pushed, runStrict_eq] at h
  split at h
  · next hload =>
      split at h
      · next image _ hpush =>
          rw [execProc_eq, Option.map_some, Prog.run_bind_ok hload, execRest,
            Prog.run_bind_ok hpush] at hrun
          obtain ⟨-, s₁, -, hrun⟩ := Prog.run_bind_inv hrun
          obtain ⟨-, s₂, -, hrun⟩ := Prog.run_bind_inv hrun
          obtain ⟨-, s₃, -, hrun⟩ := Prog.run_bind_inv hrun
          obtain ⟨-, s₄, -, hrun⟩ := Prog.run_bind_inv hrun
          obtain rfl := Option.some.inj h
          cases hrun
          rfl
      · cases h
  · cases h

namespace ExecWitness

open Forked (image)
open ForkWitness

/-- The first process. -/
def starting : Option Sys := Transition.runAll Forked.allowed (Sys.stepStrict image) Forked.boot
  ([.start (.userinit 1 [7])] ++ List.replicate 27 (.run 0) ++ [.finish 0])

theorem starting_isSome : starting.isSome = true := by decide +kernel

def started : Sys := starting.get starting_isSome

theorem started_reachable : started.Reachable image := by
  have hrun := (Option.some_get starting_isSome).symm
  conv at hrun => lhs; rw [starting, Sys.stepStrict_eq]
  exact Transition.Reach.runAll Forked.allowed_ready (.start Forked.boot_booted) hrun

theorem parent_mem : Forked.parent ∈ started.procs := by decide +kernel

theorem slot_mem : slot.mem = Forked.parent.mem := rfl

def word (n v : Nat) : List UInt8 := (List.range n).map fun i => UInt8.ofNat (v / 256 ^ i)

def progHdr (flags off vaddr filesz memsz : Nat) : List UInt8 :=
  word 4 ELF_PROG_LOAD ++ word 4 flags ++ word 8 off ++ word 8 vaddr ++ word 8 0 ++
    word 8 filesz ++ word 8 memsz ++ word 8 PGSIZE

/-- A file with a segment of code and one of data. -/
def elf : ProgFile where
  readi off n := ((word 4 ELF_MAGIC ++ word 20 0 ++ word 8 2 ++ word 8 64 ++ word 16 0 ++
    word 2 2 ++ word 6 0 ++ progHdr 5 176 0 4 4 ++ progHdr 6 180 PGSIZE 2 16 ++
    [1, 2, 3, 4, 5, 6]).drop off).take n
  length_le _ n := by simp

def args : List (List UInt8) := [[105], [45, 97]]

theorem started_pushed : pushed image slot.trapframe elf args 8 started.k = some 2 := by
  decide +kernel

theorem exec_stack_well_formed_loaded : SysExecArgv args ∧ ∃ r t' slot' k' entry sp addrs k₁,
    (execProc image procTable slot [105] (some (1, elf)) args 8).run (handler image) started.k =
      .ok ((r, t', slot'), k') ∧ r = 2 ∧
    (execLoad image slot.trapframe (some elf)).run (handler image) started.k =
      .ok (some (slot'.pagetable, slot'.sz, entry), k₁) ∧
    ExecStack k₁ k' slot' args sp addrs := by
  have hargv : SysExecArgv args := ⟨by decide, by simp [args, PGSIZE]⟩
  obtain ⟨r, t', slot', k', hrun, hstack, -⟩ := exec_stack_well_formed started_reachable
    parent_mem procTable slot_mem [105] (some (1, elf)) hargv 8
  have hr : r = 2 := execProc_argc started_pushed hrun
  obtain ⟨entry, sp, addrs, k₁, hload, hok⟩ := hstack (by rw [hr]; decide)
  exact ⟨hargv, r, t', slot', k', entry, sp, addrs, k₁, hrun, hr, hload, hok⟩

end ExecWitness

end Xv6.Vm
