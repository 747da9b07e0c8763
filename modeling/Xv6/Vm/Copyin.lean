/-
copyin and copyinstr of kernel/vm.c against the bytes that user code sees.  Both read any page
table whose tables and user pages are in RAM, and change nothing.
-/
import Xv6.Vm.Decode

namespace Xv6.Vm

open Bytes Program

/-- The inner loop of copyinstr: at most `n` bytes of a page, up to a NUL.  It returns whether
there was one, and what it stored. -/
def copyUntilNul (pa : Nat) : Nat → Nat → P (Bool × List UInt8)
  | _, 0 => pure (false, [])
  | off, n + 1 => do
      let bytes ← Prog.cmd (.peek pa off 1)
      if bytes.headD 0 = 0 then
        pure (true, [0])
      else do
        let (gotNull, rest) ← copyUntilNul pa (off + 1) n
        pure (gotNull, bytes.headD 0 :: rest)

/-- The loop of copyinstr; the first argument bounds the number of iterations. -/
def copyinstrLoop (pagetable : Nat) : Nat → Nat → Nat → P (Int × List UInt8)
  | 0, _, _ => pure (-1, [])
  | k + 1, srcva, max =>
      if max = 0 then
        pure (-1, [])
      else do
        let va0 := PGROUNDDOWN srcva
        let pa0 ← walkaddr pagetable va0
        if pa0 = 0 then
          pure (-1, [])
        else do
          let n := min (PGSIZE - (srcva - va0)) max
          let (gotNull, bytes) ← copyUntilNul pa0 (srcva - va0) n
          if gotNull then
            pure (0, bytes)
          else do
            let (r, rest) ← copyinstrLoop pagetable k (va0 + PGSIZE) (max - n)
            pure (r, bytes ++ rest)

/-- The result, and the bytes that reached the kernel. -/
def copyinstr (pagetable srcva max : Nat) : P (Int × List UInt8) :=
  copyinstrLoop pagetable max srcva max

/-- The tables and the user pages of a page table are in RAM. -/
structure Resident (mem : Nat → Arr) (pagetable : Nat) : Prop where
  root : inRam pagetable = true
  top : ∀ va, va < MAXVA → (loadPte (mem pagetable) (PX 2 va)).has PTE_V = true →
    inRam (PTE2PA (loadPte (mem pagetable) (PX 2 va))) = true
  slot : ∀ va pte, va < MAXVA → slotAt mem pagetable va = some pte → inRam pte.1 = true
  user : ∀ va pa, userPage mem pagetable va = some pa → inRam pa = true

/-- The commands of code that reads nothing but page tables and user pages. -/
def ReadsUser (mem : Nat → Arr) (pagetable : Nat) : ∀ β : Type, MemCmd β → Prop
  | _, .readPte _ => True
  | _, .peek pa _ _ => ∃ va, userPage mem pagetable va = some pa
  | _, _ => False

variable {K : Image} {s : Kmem} {mem : Nat → Arr} {pagetable va : Nat}

/-- Addresses of one page have one entry. -/
theorem userPage_congr {a b : Nat} (h : a / PGSIZE = b / PGSIZE) :
    userPage mem pagetable a = userPage mem pagetable b := by
  have hlookup : lookup mem pagetable a = lookup mem pagetable b := by
    simp only [lookup, PX_congr h]
  have hmax : a < MAXVA ↔ b < MAXVA := by
    have hdiv : MAXVA = MAXVA / PGSIZE * PGSIZE := by decide
    rw [hdiv, ← Nat.div_lt_iff_lt_mul (by decide), ← Nat.div_lt_iff_lt_mul (by decide), h]
  simp only [userPage, hlookup, hmax]

theorem peekAt_ok {pa off n : Nat} (h : inRam pa = true) :
    peekAt pa off n s = .ok (peekBytes (s.mem pa) off n, s) := by
  rw [peekAt, KM.bind_ok (readPage_ok h)]
  rfl

theorem length_peekBytes (page : Arr) (off n : Nat) : (peekBytes page off n).length = n := by
  rw [peekBytes, List.length_map, List.length_range]

theorem peekBytes_getElem? {page : Arr} {off n i : Nat} {b : UInt8} :
    (peekBytes page off n)[i]? = some b ↔ i < n ∧ page (off + i) = b := by
  rcases Nat.lt_or_ge i n with hlt | hge
  · simp [peekBytes, hlt]
  · have hnone : (peekBytes page off n)[i]? = none :=
      List.getElem?_eq_none (by rw [length_peekBytes]; exact hge)
    rw [hnone]
    exact iff_of_false (by simp) fun hand => by omega

theorem finishes_readPte (pte : PtePtr) (hpte : inRam pte.1 = true) :
    (Prog.cmd (.readPte pte)).Finishes (handler K) (ReadsUser s.mem pagetable) s
      (loadPte (s.mem pte.1) pte.2) s :=
  .cmd trivial (readPteAt_ok hpte)

section walk

variable (h : Resident s.mem pagetable)
include h

theorem finishes_walk (hva : va < MAXVA) :
    (walk pagetable va false).Finishes (handler K) (ReadsUser s.mem pagetable) s
      (slotAt s.mem pagetable va) s := by
  have htop := h.top va hva
  rw [walk, if_neg (by omega), walkFrom]
  apply (finishes_readPte (pagetable, PX 2 va) h.root).bind
  simp only [slotAt]
  by_cases hone : (loadPte (s.mem pagetable) (PX 2 va)).has PTE_V = true
  · simp only [hone, if_true]
    rw [walkFrom]
    apply (finishes_readPte
      (PTE2PA (loadPte (s.mem pagetable) (PX 2 va)), PX 1 va) (htop hone)).bind
    split
    · rw [walkFrom]
      exact .pure ..
    · exact .pure ..
  · simp only [hone]
    exact .pure ..

theorem finishes_walkaddr :
    (walkaddr pagetable va).Finishes (handler K) (ReadsUser s.mem pagetable) s
      ((userPage s.mem pagetable va).getD 0) s := by
  rw [walkaddr]
  simp only [userPage]
  by_cases hva : va < MAXVA
  · rw [if_neg (by omega)]
    apply (finishes_walk h hva).bind
    rw [lookup_eq_slotAt]
    cases hslot : slotAt s.mem pagetable va with
    | none =>
        have hzero : Pte.has ((none : Option Pte).getD 0) PTE_V = false := rfl
        simp only [Option.map_none, hzero]
        simp only [Bool.false_eq_true, false_and, and_false, if_false]
        exact .pure ..
    | some pte =>
        apply (finishes_readPte pte (h.slot va pte hva hslot)).bind
        simp only [Option.map_some, Option.getD_some, hva, true_and, Bool.and_eq_true]
        split
        · exact .pure ..
        · exact .pure ..
  · rw [if_pos (by omega), if_neg fun hand => hva hand.1]
    exact .pure ..

theorem finishes_peek {pa : Nat} (hpa : userPage s.mem pagetable va = some pa) (off n : Nat) :
    (Prog.cmd (.peek pa off n)).Finishes (handler K) (ReadsUser s.mem pagetable) s
      (peekBytes (s.mem pa) off n) s :=
  .cmd ⟨va, hpa⟩ (peekAt_ok (h.user va pa hpa))

end walk

/-- The bytes are those that `f` has from `a` on. -/
def Reads (f : Nat → Option UInt8) (a : Nat) (bytes : List UInt8) : Prop :=
  ∀ i b, bytes[i]? = some b → f (a + i) = some b

section reads

variable {f : Nat → Option UInt8} {a : Nat} {bs cs : List UInt8}

theorem Reads.nil : Reads f a [] := fun i b hb => by simp at hb

theorem Reads.append (hb : Reads f a bs) (hc : Reads f (a + bs.length) cs) :
    Reads f a (bs ++ cs) := by
  intro i b hi
  rcases Nat.lt_or_ge i bs.length with hlt | hge
  · exact hb i b (by rwa [List.getElem?_append_left hlt] at hi)
  · rw [List.getElem?_append_right hge] at hi
    have hread := hc _ b hi
    rwa [show a + bs.length + (i - bs.length) = a + i by omega] at hread

theorem Reads.cons {b : UInt8} (hb : f a = some b) (hc : Reads f (a + 1) cs) :
    Reads f a (b :: cs) := by
  intro i c hi
  cases i with
  | zero =>
      rw [List.getElem?_cons_zero, Option.some.injEq] at hi
      rw [← hi]
      exact hb
  | succ i =>
      have hread := hc i c hi
      rwa [show a + 1 + i = a + (i + 1) by omega] at hread

end reads

section page

variable {pa : Nat} {i : Nat}

/-- The first bytes of a chunk lie in one page. -/
theorem chunk_div (hi : va - PGROUNDDOWN va + i < PGSIZE) :
    (va + i) / PGSIZE = va / PGSIZE ∧ (va + i) % PGSIZE = va - PGROUNDDOWN va + i := by
  simp only [PGROUNDDOWN, PGSIZE] at hi ⊢
  omega

/-- Inside a page the user's bytes are those of the frame. -/
theorem userByte_page (hpa : userPage mem pagetable (PGROUNDDOWN va) = some pa)
    (hi : va - PGROUNDDOWN va + i < PGSIZE) :
    userByte mem pagetable (va + i) = some (mem pa (va - PGROUNDDOWN va + i)) := by
  obtain ⟨hdiv, hmod⟩ := chunk_div hi
  rw [userByte_eq, userPage_congr (hdiv.trans (PGROUNDDOWN_div va).symm), hpa, hmod]
  rfl

theorem userByte_none (hpa : userPage mem pagetable (PGROUNDDOWN va) = none) :
    userByte mem pagetable va = none := by
  rw [userByte_eq, userPage_congr (PGROUNDDOWN_div va).symm, hpa]
  rfl

/-- The next chunk starts at the next page. -/
theorem next_chunk (va : Nat) :
    va + (PGSIZE - (va - PGROUNDDOWN va)) = PGROUNDDOWN va + PGSIZE := by
  simp only [PGROUNDDOWN, PGSIZE]
  omega

theorem chunk_pos (va : Nat) : 0 < PGSIZE - (va - PGROUNDDOWN va) := by
  simp only [PGROUNDDOWN, PGSIZE]
  omega

theorem reads_peekBytes {n : Nat} (hpa : userPage mem pagetable (PGROUNDDOWN va) = some pa)
    (hn : n ≤ PGSIZE - (va - PGROUNDDOWN va)) :
    Reads (userByte mem pagetable) va (peekBytes (mem pa) (va - PGROUNDDOWN va) n) := by
  intro i b hi
  obtain ⟨hlt, rfl⟩ := peekBytes_getElem?.mp hi
  exact userByte_page hpa (by omega)

theorem getD_zero_ne (h : Resident mem pagetable) (hpa : userPage mem pagetable va = some pa) :
    (userPage mem pagetable va).getD 0 = pa ∧ pa ≠ 0 := by
  refine ⟨by rw [hpa]; rfl, ?_⟩
  rintro rfl
  have hram := h.user va 0 hpa
  exact absurd hram (by decide)

end page

/-- What copyin does: all bytes, or those before the first page that is not the user's. -/
inductive CopyinExact (f : Nat → Option UInt8) (srcva len : Nat) : Int × List UInt8 → Prop
  | all {bytes : List UInt8} (hlen : bytes.length = len) (h : Reads f srcva bytes) :
      CopyinExact f srcva len (0, bytes)
  | bad {bytes : List UInt8} (hlen : bytes.length < len) (h : Reads f srcva bytes)
      (hbad : f (srcva + bytes.length) = none) : CopyinExact f srcva len (-1, bytes)

theorem copyinLoop_exact (h : Resident s.mem pagetable) {n : Nat} (srcva len : Nat)
    (hlen : len ≤ n) :
    ∃ x, (copyinLoop pagetable n srcva len).Finishes (handler K) (ReadsUser s.mem pagetable)
        s x s ∧ CopyinExact (userByte s.mem pagetable) srcva len x := by
  induction n generalizing srcva len with
  | zero => exact ⟨(0, []), .pure .., .all (by simp; omega) .nil⟩
  | succ n ih =>
      rw [copyinLoop]
      by_cases hzero : len = 0
      · rw [if_pos hzero]
        exact ⟨(0, []), .pure .., .all hzero.symm .nil⟩
      rw [if_neg hzero]
      cases hpage : userPage s.mem pagetable (PGROUNDDOWN srcva) with
      | none =>
          refine ⟨(-1, []), (finishes_walkaddr h).bind ?_, ?_⟩
          · rw [hpage]
            exact .pure ..
          · exact .bad (Nat.pos_of_ne_zero hzero) .nil (userByte_none hpage)
      | some pa =>
          obtain ⟨hget, hne⟩ := getD_zero_ne h hpage
          obtain ⟨k, hk⟩ : ∃ k, k = min (PGSIZE - (srcva - PGROUNDDOWN srcva)) len := ⟨_, rfl⟩
          have hpos := chunk_pos srcva
          have hread := reads_peekBytes (n := k) hpage (by omega)
          have hcount := length_peekBytes (s.mem pa) (srcva - PGROUNDDOWN srcva) k
          obtain ⟨⟨r, rest⟩, hrest, hexact⟩ :=
            ih (PGROUNDDOWN srcva + PGSIZE) (len - k) (by omega)
          refine ⟨(r, peekBytes (s.mem pa) (srcva - PGROUNDDOWN srcva) k ++ rest),
            (finishes_walkaddr h).bind ?_, ?_⟩
          · rw [hget, if_neg hne, ← hk]
            exact (finishes_peek h hpage _ _).bind (hrest.bind (.pure ..))
          · -- a full chunk ends where the next page starts, any other one ends the copy
            have hnext : k < len → srcva + k = PGROUNDDOWN srcva + PGSIZE := by
              intro hlt
              rw [← next_chunk srcva]
              omega
            cases hexact with
            | all hlen' hrd =>
                refine .all (by rw [List.length_append]; omega) (hread.append ?_)
                rcases Nat.lt_or_ge k len with hlt | hge
                · rwa [hcount, hnext hlt]
                · rw [List.eq_nil_of_length_eq_zero (by omega : rest.length = 0)]
                  exact .nil
            | bad hlen' hrd hbad =>
                have hlt : k < len := by omega
                refine .bad (by rw [List.length_append]; omega) (hread.append ?_) ?_
                · rwa [hcount, hnext hlt]
                · rwa [List.length_append, hcount, ← Nat.add_assoc, hnext hlt]

/-- What the inner loop of copyinstr does with a page. -/
theorem copyUntilNul_exact (h : Resident s.mem pagetable) {pa : Nat} (off n : Nat)
    (hpage : userPage s.mem pagetable va = some pa) :
    ∃ got bytes, (copyUntilNul pa off n).Finishes (handler K) (ReadsUser s.mem pagetable) s
        (got, bytes) s ∧
      Reads (fun i => some (s.mem pa i)) off bytes ∧ bytes.length ≤ n ∧
      ((got = true ∧ ∃ xs, bytes = xs ++ [0] ∧ 0 ∉ xs) ∨
        (got = false ∧ 0 ∉ bytes ∧ bytes.length = n)) := by
  induction n generalizing off with
  | zero =>
      rw [copyUntilNul]
      exact ⟨false, [], .pure .., .nil, Nat.le_refl _, Or.inr ⟨rfl, List.not_mem_nil, rfl⟩⟩
  | succ n ih =>
      have hhead : (peekBytes (s.mem pa) off 1).headD 0 = s.mem pa off := rfl
      rw [copyUntilNul]
      by_cases hnul : s.mem pa off = 0
      · refine ⟨true, [0], (finishes_peek h hpage off 1).bind ?_,
          .cons (by rw [hnul]) .nil, by simp, Or.inl ⟨rfl, [], rfl, List.not_mem_nil⟩⟩
        rw [hhead, if_pos hnul]
        exact .pure ..
      · obtain ⟨got, bytes, hrest, hread, hlen, hend⟩ := ih (off + 1)
        refine ⟨got, s.mem pa off :: bytes, (finishes_peek h hpage off 1).bind ?_,
          .cons rfl hread, by simpa using hlen, ?_⟩
        · rw [hhead, if_neg hnul]
          exact hrest.bind (.pure ..)
        · rcases hend with ⟨hgot, xs, rfl, hxs⟩ | ⟨hgot, hnone, hcount⟩
          · exact Or.inl ⟨hgot, s.mem pa off :: xs, rfl,
              List.not_mem_cons_of_ne_of_not_mem (Ne.symm hnul) hxs⟩
          · exact Or.inr ⟨hgot, List.not_mem_cons_of_ne_of_not_mem (Ne.symm hnul) hnone,
              by rw [List.length_cons, hcount]⟩

/-- What copyinstr does: a string with its NUL, or no NUL within the limit, or one of the
bytes before the first NUL is not the user's. -/
inductive CopyinstrExact (f : Nat → Option UInt8) (srcva max : Nat) : Int × List UInt8 → Prop
  | string {xs : List UInt8} (hnul : 0 ∉ xs) (hlen : xs.length < max)
      (h : Reads f srcva (xs ++ [0])) : CopyinstrExact f srcva max (0, xs ++ [0])
  | long {bytes : List UInt8} (hnul : 0 ∉ bytes) (hlen : bytes.length = max)
      (h : Reads f srcva bytes) : CopyinstrExact f srcva max (-1, bytes)
  | bad {bytes : List UInt8} (hnul : 0 ∉ bytes) (hlen : bytes.length < max)
      (h : Reads f srcva bytes) (hbad : f (srcva + bytes.length) = none) :
      CopyinstrExact f srcva max (-1, bytes)

theorem copyinstrLoop_exact (h : Resident s.mem pagetable) {k : Nat} (srcva max : Nat)
    (hmax : max ≤ k) :
    ∃ x, (copyinstrLoop pagetable k srcva max).Finishes (handler K) (ReadsUser s.mem pagetable)
        s x s ∧ CopyinstrExact (userByte s.mem pagetable) srcva max x := by
  induction k generalizing srcva max with
  | zero => exact ⟨(-1, []), .pure .., .long List.not_mem_nil (by simp; omega) .nil⟩
  | succ k ih =>
      rw [copyinstrLoop]
      by_cases hzero : max = 0
      · rw [if_pos hzero]
        exact ⟨(-1, []), .pure .., .long List.not_mem_nil hzero.symm .nil⟩
      rw [if_neg hzero]
      cases hpage : userPage s.mem pagetable (PGROUNDDOWN srcva) with
      | none =>
          refine ⟨(-1, []), (finishes_walkaddr h).bind ?_, ?_⟩
          · rw [hpage]
            exact .pure ..
          · exact .bad List.not_mem_nil (Nat.pos_of_ne_zero hzero) .nil (userByte_none hpage)
      | some pa =>
          obtain ⟨hget, hne⟩ := getD_zero_ne h hpage
          obtain ⟨n, hn⟩ : ∃ n, n = min (PGSIZE - (srcva - PGROUNDDOWN srcva)) max := ⟨_, rfl⟩
          have hpos := chunk_pos srcva
          obtain ⟨got, bytes, hbytes, hread, hle, hend⟩ := copyUntilNul_exact (K := K) h
            (srcva - PGROUNDDOWN srcva) n hpage
          have hchunk : Reads (userByte s.mem pagetable) srcva bytes := by
            intro i b hi
            have hlt := (List.getElem?_eq_some_iff.mp hi).1
            rw [userByte_page hpage (by omega)]
            exact hread i b hi
          rcases hend with ⟨rfl, xs, rfl, hxs⟩ | ⟨rfl, hnone, hcount⟩
          · have hlen : xs.length < max := by
              rw [List.length_append, List.length_singleton] at hle
              omega
            refine ⟨(0, xs ++ [0]), (finishes_walkaddr h).bind ?_, .string hxs hlen hchunk⟩
            rw [hget, if_neg hne, ← hn]
            exact hbytes.bind (.pure ..)
          · obtain ⟨⟨r, rest⟩, hrest, hexact⟩ :=
              ih (PGROUNDDOWN srcva + PGSIZE) (max - n) (by omega)
            refine ⟨(r, bytes ++ rest), (finishes_walkaddr h).bind ?_, ?_⟩
            · rw [hget, if_neg hne, ← hn]
              exact hbytes.bind (hrest.bind (.pure ..))
            · have hnext : n < max → srcva + bytes.length = PGROUNDDOWN srcva + PGSIZE := by
                intro hlt
                rw [← next_chunk srcva]
                omega
              cases hexact with
              | @string ys hys hlen hrd =>
                  rw [← List.append_assoc]
                  refine .string ?_ (by rw [List.length_append]; omega) ?_
                  · simp only [List.mem_append, not_or]
                    exact ⟨hnone, hys⟩
                  · rw [List.append_assoc]
                    exact hchunk.append (by rwa [hnext (by omega)])
              | long hys hlen hrd =>
                  refine .long ?_ (by rw [List.length_append]; omega) (hchunk.append ?_)
                  · simp only [List.mem_append, not_or]
                    exact ⟨hnone, hys⟩
                  · rcases Nat.lt_or_ge n max with hlt | hge
                    · rwa [hnext hlt]
                    · rw [List.eq_nil_of_length_eq_zero (by omega : rest.length = 0)]
                      exact .nil
              | bad hys hlen hrd hbad =>
                  have hlt : n < max := by omega
                  refine .bad ?_ (by rw [List.length_append]; omega) (hchunk.append ?_) ?_
                  · simp only [List.mem_append, not_or]
                    exact ⟨hnone, hys⟩
                  · rwa [hnext hlt]
                  · rwa [List.length_append, ← Nat.add_assoc, hnext hlt]

section exact

variable {f : Nat → Option UInt8} {srcva len max : Nat} {r : Int} {bytes : List UInt8}

theorem CopyinExact.zero_iff (h : CopyinExact f srcva len (r, bytes)) :
    r = 0 ↔ ∀ i, i < len → (f (srcva + i)).isSome = true := by
  cases h with
  | all hlen hread =>
      refine iff_of_true rfl fun i hi => ?_
      have hb := List.getElem?_eq_getElem (l := bytes) (i := i) (by omega)
      rw [hread i _ hb]
      rfl
  | bad hlen hread hbad =>
      refine iff_of_false (by decide) fun hall => ?_
      have hsome := hall _ hlen
      rw [hbad] at hsome
      cases hsome

theorem CopyinstrExact.zero_iff (h : CopyinstrExact f srcva max (r, bytes)) :
    r = 0 ↔ ∃ k, k < max ∧ f (srcva + k) = some 0 ∧
      ∀ i, i < k → ∃ b, b ≠ 0 ∧ f (srcva + i) = some b := by
  -- a byte of the string cannot be a NUL before the first one
  have hnone : ∀ bs : List UInt8, 0 ∉ bs → Reads f srcva bs → ∀ i, i < bs.length →
      ∃ b, b ≠ 0 ∧ f (srcva + i) = some b := by
    intro bs hnul hread i hi
    refine ⟨bs[i], fun hz => hnul (hz ▸ List.getElem_mem hi), ?_⟩
    exact hread i _ (List.getElem?_eq_getElem hi)
  cases h with
  | @string xs hnul hlen hread =>
      refine iff_of_true rfl ⟨xs.length, hlen, ?_, hnone xs hnul ?_⟩
      · exact hread _ 0 (by simp)
      · intro i b hi
        have hlt := (List.getElem?_eq_some_iff.mp hi).1
        exact hread i b (by rwa [List.getElem?_append_left hlt])
  | long hnul hlen hread =>
      refine iff_of_false (by decide) ?_
      rintro ⟨k, hk, hzero, -⟩
      obtain ⟨b, hb, hfb⟩ := hnone bytes hnul hread k (by omega)
      exact hb (Option.some.inj (hfb.symm.trans hzero))
  | bad hnul hlen hread hbad =>
      refine iff_of_false (by decide) ?_
      rintro ⟨k, hk, hzero, hbefore⟩
      rcases Nat.lt_trichotomy k bytes.length with hlt | rfl | hgt
      · obtain ⟨b, hb, hfb⟩ := hnone bytes hnul hread k hlt
        exact hb (Option.some.inj (hfb.symm.trans hzero))
      · rw [hbad] at hzero
        cases hzero
      · obtain ⟨b, -, hfb⟩ := hbefore _ hgt
        rw [hbad] at hfb
        cases hfb

end exact

/-- copyin and copyinstr are exact on every page table in RAM. -/
theorem copyin_copyinstr_exact (h : Resident s.mem pagetable) (srcva len max : Nat) :
    (∃ r dst, (copyin pagetable srcva len).Finishes (handler K) (ReadsUser s.mem pagetable) s
        (r, dst) s ∧ (r = 0 ∨ r = -1) ∧
      (r = 0 ↔ ∀ i, i < len → (userByte s.mem pagetable (srcva + i)).isSome = true) ∧
      (r = 0 → dst.length = len ∧ Reads (userByte s.mem pagetable) srcva dst)) ∧
    ∃ r dst, (copyinstr pagetable srcva max).Finishes (handler K) (ReadsUser s.mem pagetable) s
        (r, dst) s ∧ (r = 0 ∨ r = -1) ∧
      (r = 0 ↔ ∃ k, k < max ∧ userByte s.mem pagetable (srcva + k) = some 0 ∧
        ∀ i, i < k → ∃ b, b ≠ 0 ∧ userByte s.mem pagetable (srcva + i) = some b) ∧
      (r = 0 → ∃ str, 0 ∉ str ∧ dst = str ++ [0] ∧
        Reads (userByte s.mem pagetable) srcva dst) ∧
      dst.length ≤ max := by
  constructor
  · obtain ⟨⟨r, dst⟩, hrun, hexact⟩ :=
      copyinLoop_exact (K := K) h srcva len (le_refl len)
    refine ⟨r, dst, hrun, ?_, hexact.zero_iff, ?_⟩
    · cases hexact with
      | all => exact Or.inl rfl
      | bad => exact Or.inr rfl
    · rintro rfl
      cases hexact with
      | all hlen hread => exact ⟨hlen, hread⟩
  · obtain ⟨⟨r, dst⟩, hrun, hexact⟩ :=
      copyinstrLoop_exact (K := K) h srcva max (le_refl max)
    refine ⟨r, dst, hrun, ?_, hexact.zero_iff, ?_, ?_⟩
    · cases hexact with
      | string => exact Or.inl rfl
      | long => exact Or.inr rfl
      | bad => exact Or.inr rfl
    · rintro rfl
      cases hexact with
      | string hnul hlen hread => exact ⟨_, hnul, rfl, hread⟩
    · cases hexact with
      | string hnul hlen hread =>
          rw [List.length_append, List.length_singleton]
          omega
      | long hnul hlen hread => exact hlen.le
      | bad hnul hlen hread hbad => exact hlen.le

/-- The page tables of the ledger are in RAM. -/
theorem Space.Ok.resident {S : Space} (h : S.Ok K s) : Resident s.mem S.root where
  root := (h.table.dom _ _ h.table.root).2.inRam
  top va hva := by
    rw [h.table.load_node 1 (h.table.node_root hva)]
    cases hone : S.node (1, entryIx 2 va) with
    | none => exact fun hV => absurd hV (by decide)
    | some p =>
        have hp := (h.table.dom _ _ hone).2
        intro _
        rw [PTE2PA_encodeNode hp]
        exact hp.inRam
  slot va pte hva hslot := by
    rw [h.table.slotAt hva] at hslot
    obtain ⟨p, hp, rfl⟩ := Option.map_eq_some_iff.mp hslot
    exact (h.table.dom _ _ hp).2.inRam
  user va pa hpa := by
    obtain ⟨l, hv, hl, -, rfl⟩ := h.userPage hpa
    exact (h.user _ l hv hl).frame.inRam

namespace CopyinWitness

/-- The first process of the sample reads its page and a string in it. -/
theorem copyin_copyinstr_forked : ∃ r dst,
    (copyin Forked.parent.mem.pagetable 4000 200).Finishes (handler Forked.image)
      (ReadsUser Forked.sys.k.mem Forked.parent.mem.pagetable) Forked.sys.k (r, dst)
      Forked.sys.k ∧
    (r = 0 ↔ ∀ i, i < 200 → (userByte Forked.sys.k.mem Forked.parent.mem.pagetable
      (4000 + i)).isSome = true) := by
  obtain ⟨S, m, F, hS, hinv⟩ := Forked.sys_reachable.space Forked.parent_mem
  have hres := hinv.space_ok.resident
  rw [hS.root] at hres
  obtain ⟨⟨r, dst, hrun, -, hiff, -⟩, -⟩ :=
    copyin_copyinstr_exact (K := Forked.image) hres 4000 200 10
  exact ⟨r, dst, hrun, hiff⟩

end CopyinWitness

end Xv6.Vm
