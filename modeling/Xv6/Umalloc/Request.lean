/-
The request of malloc on its way to the kernel: nunits is an unsigned int, the number of bytes a
64-bit product, and sbrk takes an int.
-/
import Xv6.Umalloc.Integrity

namespace Xv6.Umalloc

/-- The int that a number is converted to. -/
def toInt32 (n : Nat) : Int :=
  if n % 2 ^ 32 < 2 ^ 31 then (n % 2 ^ 32 : Nat) else (n % 2 ^ 32 : Nat) - 2 ^ 32

/-- growproc of the process of size `sz`: its new size.  `sz + n` is computed modulo 2^64, and
uvmdealloc ignores an end of memory that is not below the old one. -/
def growproc (grant : Nat → Bool) (sz : Nat) (n : Int) : Option Nat :=
  if 0 < n then
    if grant sz = true ∧ sz + n.toNat ≤ USERTOP then some (sz + n.toNat) else none
  else if n < 0 then
    if sz < (-n).toNat then some sz else some (sz - (-n).toNat)
  else some sz

/-- The program may store a header at `p`: pages are mapped up to the end of memory. -/
def Mapped (brk p : Nat) : Prop := p + 16 ≤ (brk + 4095) / 4096 * 4096

instance (brk p : Nat) : Decidable (Mapped brk p) := inferInstanceAs (Decidable (_ ≤ _))

inductive Trap
  | fuel
  | fault
deriving DecidableEq

/-- A call of sbrk by morecore: the argument, the units of the new block, and whether the kernel
has granted it. -/
structure Ask where
  passed : Int
  nu : Nat
  granted : Bool

namespace Request

/-- A result with the calls of sbrk. -/
abbrev Result := List Ask × Except Trap (Option Nat × Heap)

def morecore (h : Heap) (grant : Nat → Bool) (fuel nu : Nat) : Result :=
  let nu := if nu < 4096 then 4096 else nu
  let n := toInt32 (nu * 16)
  match growproc grant h.brk n with
  | none => ([⟨n, nu, false⟩], .ok (none, h))
  | some brk =>
      ([⟨n, nu, true⟩],
        if Mapped brk h.brk then
          match ({ h with brk := brk }.setSize h.brk nu).free fuel (h.brk + 16) with
          | .error _ => .error .fuel
          | .ok h => .ok (some h.freep, h)
        else .error .fault)

/-- The loop of malloc. -/
def search (grant : Nat → Bool) (nunits : Nat) : Nat → Heap → Nat → Nat → Result
  | 0, _, _, _ => ([], .error .fuel)
  | n + 1, h, prevp, p =>
      if h.size p ≥ nunits then ([], .ok (h.take nunits prevp p))
      else if p = h.freep then
        match morecore h grant n nunits with
        | (asks, .error e) => (asks, .error e)
        | (asks, .ok (none, h)) => (asks, .ok (none, h))
        | (asks, .ok (some p, h)) =>
            let r := search grant nunits n h p (h.next p)
            (asks ++ r.1, r.2)
      else search grant nunits n h p (h.next p)

def malloc (h : Heap) (base : Nat) (grant : Nat → Bool) (fuel : Nat) (nbytes : UInt32) : Result :=
  let h := h.ready base
  search grant (unitsFor nbytes) fuel h h.freep (h.next h.freep)

end Request

/-! ### Requests that an int can hold -/

section requests

variable {h : Heap} {grant : Nat → Bool} {fuel nunits prevp p : Nat}

theorem toInt32_of_lt {n : Nat} (h : n < 2 ^ 31) : toInt32 n = n := by
  rw [toInt32, Nat.mod_eq_of_lt (by omega), if_pos h]

theorem toInt32_lt (n : Nat) : toInt32 n < 2 ^ 31 := by
  rw [toInt32]
  split <;> omega

/-- The kernel has been asked for the size of the new block. -/
def Honest (asks : List Ask) : Prop := ∀ a ∈ asks, a.granted = true → a.passed = 16 * a.nu

/-- morecore is the one of the heap without conversions. -/
theorem Request.morecore_small (h : Heap) (grant : Nat → Bool) (fuel : Nat)
    (hsmall : 16 * nunits < 2 ^ 31) :
    Honest (Request.morecore h grant fuel nunits).1 ∧
      ∀ r, h.morecore grant fuel nunits = .ok r →
        (Request.morecore h grant fuel nunits).2 = .ok r := by
  obtain ⟨nu, hnu⟩ : ∃ nu, nu = if nunits < 4096 then 4096 else nunits := ⟨_, rfl⟩
  have hbound : 4096 ≤ nu ∧ nu * 16 < 2 ^ 31 := by
    rw [hnu]
    split <;> omega
  have hint : toInt32 (nu * 16) = (nu * 16 : Nat) := toInt32_of_lt hbound.2
  have hpos : (0 : Int) < (nu * 16 : Nat) := by omega
  simp only [Request.morecore, Heap.morecore, Heap.sbrk, ← hnu, hint, growproc, if_pos hpos,
    Int.toNat_natCast, if_neg (Nat.not_le.mpr hbound.2)]
  by_cases hgrant : grant h.brk = true ∧ h.brk + nu * 16 ≤ USERTOP
  · have hmapped : Mapped (h.brk + nu * 16) h.brk := by
      unfold Mapped
      omega
    simp only [if_pos hgrant, if_pos hmapped]
    constructor
    · intro a ha _
      obtain rfl := List.mem_singleton.mp ha
      simp only
      omega
    · intro r hr
      change (Heap.free _ fuel (h.brk + 16) >>= fun h => Except.ok (some h.freep, h)) = _ at hr
      cases hfree : ({ h with brk := h.brk + nu * 16 }.setSize h.brk nu).free fuel (h.brk + 16) with
      | error e =>
          rw [hfree] at hr
          cases hr
      | ok h' =>
          rw [hfree] at hr
          cases hr
          rfl
  · simp only [if_neg hgrant]
    constructor
    · intro a ha hgranted
      obtain rfl := List.mem_singleton.mp ha
      cases hgranted
    · intro r hr
      cases hr
      rfl

theorem Honest.append {asks asks' : List Ask} (h : Honest asks) (h' : Honest asks') :
    Honest (asks ++ asks') := fun a ha => (List.mem_append.mp ha).elim (h a) (h' a)

/-- The loop of malloc when it comes back to freep. -/
def Request.more (grant : Nat → Bool) (nunits n : Nat) (h : Heap) : Request.Result :=
  match Request.morecore h grant n nunits with
  | (asks, .error e) => (asks, .error e)
  | (asks, .ok (none, h)) => (asks, .ok (none, h))
  | (asks, .ok (some p, h)) =>
      let r := Request.search grant nunits n h p (h.next p)
      (asks ++ r.1, r.2)

theorem Request.search_succ (grant : Nat → Bool) (nunits n : Nat) (h : Heap) (prevp p : Nat) :
    Request.search grant nunits (n + 1) h prevp p =
      if h.size p ≥ nunits then ([], .ok (h.take nunits prevp p))
      else if p = h.freep then Request.more grant nunits n h
      else Request.search grant nunits n h p (h.next p) := rfl

theorem Request.search_small (h : Heap) (grant : Nat → Bool) (fuel prevp p : Nat)
    (hsmall : 16 * nunits < 2 ^ 31) :
    Honest (Request.search grant nunits fuel h prevp p).1 ∧
      ∀ r, Heap.search grant nunits fuel h prevp p = .ok r →
        (Request.search grant nunits fuel h prevp p).2 = .ok r := by
  induction fuel generalizing h prevp p with
  | zero => exact ⟨fun _ ha => absurd ha List.not_mem_nil, fun _ hr => by cases hr⟩
  | succ n ih =>
      rw [Request.search_succ, Heap.search]
      split
      · refine ⟨fun _ ha => absurd ha List.not_mem_nil, fun r hr => ?_⟩
        cases hr
        rfl
      split
      · obtain ⟨hhonest, hsame⟩ := Request.morecore_small h grant n hsmall
        change _ ∧ ∀ r, Umalloc.more grant nunits n h = .ok r → _
        unfold Request.more Umalloc.more
        generalize Request.morecore h grant n nunits = core at hhonest hsame
        obtain ⟨asks, _ | ⟨_ | p', h'⟩⟩ := core
        · refine ⟨hhonest, fun r hr => ?_⟩
          cases hcore : h.morecore grant n nunits with
          | error e =>
              rw [hcore] at hr
              cases hr
          | ok r' => cases hsame r' hcore
        · refine ⟨hhonest, fun r hr => ?_⟩
          cases hcore : h.morecore grant n nunits with
          | error e =>
              rw [hcore] at hr
              cases hr
          | ok r' =>
              obtain rfl := Except.ok.inj (hsame r' hcore)
              rw [hcore] at hr
              cases hr
              rfl
        · obtain ⟨hrest, hsame'⟩ := ih h' p' (h'.next p')
          refine ⟨hhonest.append hrest, fun r hr => ?_⟩
          cases hcore : h.morecore grant n nunits with
          | error e =>
              rw [hcore] at hr
              cases hr
          | ok r' =>
              obtain rfl := Except.ok.inj (hsame r' hcore)
              rw [hcore] at hr
              exact hsame' r hr
      · exact ih h p (h.next p)

/-! ### Larger requests -/

/-- A request that an int cannot hold reaches morecore with the heap as it is. -/
theorem Request.search_large
    (hneg : Heap.search grant nunits fuel h prevp p = .error .negative) :
    ∃ n, Request.search grant nunits fuel h prevp p = Request.more grant nunits n h := by
  induction fuel generalizing prevp p with
  | zero => cases hneg
  | succ n ih =>
      rw [Heap.search] at hneg
      rw [Request.search_succ]
      split at hneg
      · cases hneg
      next hsize =>
        rw [if_neg hsize]
        split at hneg
        · next hfreep => exact ⟨n, if_pos hfreep⟩
        · next hfreep =>
            rw [if_neg hfreep]
            exact ih hneg

theorem Heap.morecore_large (h : Heap) (grant : Nat → Bool) (n : Nat)
    (hlarge : 2 ^ 31 ≤ 16 * nunits) : h.morecore grant n nunits = .error .negative := by
  have hnu : (if nunits < 4096 then 4096 else nunits) = nunits := if_neg (by omega)
  simp only [Heap.morecore, hnu, Heap.sbrk]
  rw [if_pos (by omega)]
  rfl

variable {base lo : Nat} {T : List Tile}

/-- No free block is that large. -/
theorem Tiled.search_large (ht : Tiled base lo h T) (grant : Nat → Bool)
    (hfuel : (nodes lo T).length < fuel) (hlarge : 2 ^ 31 ≤ 16 * nunits) :
    Heap.search grant nunits fuel h h.freep (h.next h.freep) = .error .negative := by
  have hpos : 0 < nunits := by omega
  rcases ht.search grant hpos fuel hfuel with
    ⟨b, h', T', -, htaken⟩ | ⟨-, n, -, hmore⟩
  · have hmem : (b, nunits) ∈ blocks true lo T' := htaken.live.mem_iff.mpr (.head _)
    have hbounds := blocks_bounds hmem
    have htop := htaken.tiled.top
    simp only [USERTOP] at htop
    simp only at hbounds
    omega
  · rw [hmore, more, Heap.morecore_large h grant n hlarge]
    rfl

/-- What morecore passes to sbrk for such a request. -/
theorem Request.more_large (h : Heap) (grant : Nat → Bool) (hlarge : 2 ^ 31 ≤ 16 * nunits)
    (n : Nat) :
    (growproc grant h.brk (toInt32 (16 * nunits)) = none →
      Request.more grant nunits n h = ([⟨toInt32 (16 * nunits), nunits, false⟩], .ok (none, h))) ∧
    (growproc grant h.brk (toInt32 (16 * nunits)) ≠ none →
      ⟨toInt32 (16 * nunits), nunits, true⟩ ∈ (Request.more grant nunits n h).1) := by
  have hnu : (if nunits < 4096 then 4096 else nunits) = nunits := if_neg (by omega)
  have hcore : ∀ brk, growproc grant h.brk (toInt32 (16 * nunits)) = some brk →
      (Request.morecore h grant n nunits).1 = [⟨toInt32 (16 * nunits), nunits, true⟩] := by
    intro brk hbrk
    simp only [Request.morecore, hnu, Nat.mul_comm nunits 16, hbrk]
  constructor
  · intro hnone
    simp only [Request.more, Request.morecore, hnu, Nat.mul_comm nunits 16, hnone]
  · intro hsome
    obtain ⟨brk, hbrk⟩ := Option.ne_none_iff_exists'.mp hsome
    have hasks := hcore brk hbrk
    unfold Request.more
    generalize Request.morecore h grant n nunits = core at hasks
    obtain ⟨asks, _ | ⟨_ | p', h'⟩⟩ := core
    · rw [show asks = _ from hasks]
      exact .head _
    · rw [show asks = _ from hasks]
      exact .head _
    · rw [show asks = _ from hasks]
      exact .head _

end requests

/-! ### malloc -/

section malloc

variable {base lo : Nat} {s : Sys}

/-- What malloc should do: it asks the kernel for what it records, and returns 0 with the heap in
order, or a block inside the memory from sbrk. -/
structure Safe (base lo : Nat) (s : Sys) (nbytes : UInt32) (r : Request.Result) : Prop where
  asked : Honest r.1
  returned : (∃ h, r.2 = .ok (none, h) ∧ Sys.Inv base lo { heap := h, live := s.live }) ∨
    ∃ p h, r.2 = .ok (some p, h) ∧ lo ≤ p ∧ p + nbytes.toNat ≤ h.brk ∧
      Sys.Inv base lo { heap := h, live := (p, nbytes) :: s.live }

/-- The call of malloc in a state of the program. -/
def Sys.malloc (s : Sys) (base : Nat) (nbytes : UInt32) (grant : Nat → Bool) : Request.Result :=
  Request.malloc { s.heap with wrote := [] } base grant s.fuel nbytes

theorem Sys.Inv.block {b : Nat × UInt32} (hs : s.Inv base lo) (hb : b ∈ s.live) :
    lo ≤ b.1 ∧ b.1 + b.2.toNat ≤ s.heap.brk := by
  obtain ⟨-, ⟨-, hlive, -⟩ | ⟨T, hrow⟩⟩ := hs
  · rw [hlive] at hb
    cases hb
  · have hinside := hrow.blocks.inside b hb
    have henough := hrow.blocks.enough b hb
    omega

/-- A request that an int can hold. -/
theorem Sys.Inv.safe_small (hs : s.Inv base lo) (nbytes : UInt32) (grant : Nat → Bool)
    (hsmall : 16 * unitsFor nbytes < 2 ^ 31) :
    Safe base lo s nbytes (s.malloc base nbytes grant) := by
  unfold Sys.malloc Request.malloc
  generalize hready : { s.heap with wrote := [] }.ready base = h₀
  obtain ⟨hhonest, hsame⟩ :=
    Request.search_small h₀ grant s.fuel h₀.freep (h₀.next h₀.freep) hsmall
  refine ⟨hhonest, ?_⟩
  rcases hs.malloc nbytes grant with ⟨-, hlarge⟩ | ⟨s', hstep, hinv, -⟩
  · omega
  · simp only [Sys.step, Option.some.injEq, Heap.malloc_eq, hready] at hstep
    cases hheap : Heap.search grant (unitsFor nbytes) s.fuel h₀ h₀.freep (h₀.next h₀.freep) with
    | error e =>
        rw [hheap] at hstep
        cases hstep
    | ok r =>
        rw [hheap] at hstep
        obtain ⟨_ | p, h⟩ := r
        · obtain rfl := Except.ok.inj hstep
          exact .inl ⟨h, hsame _ hheap, hinv⟩
        · obtain rfl := Except.ok.inj hstep
          have hblock := hinv.block (.head _)
          exact .inr ⟨p, h, hsame _ hheap, hblock.1, hblock.2, hinv⟩

/-- A request that an int cannot hold is safe only when the kernel refuses it. -/
theorem Sys.Inv.safe_large (hs : s.Inv base lo) (nbytes : UInt32) (grant : Nat → Bool)
    (hlarge : 2 ^ 31 ≤ 16 * unitsFor nbytes) :
    Safe base lo s nbytes (s.malloc base nbytes grant) ↔
      growproc grant s.heap.brk (toInt32 (16 * unitsFor nbytes)) = none := by
  obtain ⟨h, T, hready, ht, hbrk, hlive, hptr, -⟩ := hs.ready
  have hfuel : (nodes lo T).length < s.fuel := by
    have hlength := nodes_length lo ht.pos
    have htotal := ht.brk
    simp only [Sys.fuel]
    omega
  have hneg := ht.search_large grant hfuel hlarge
  obtain ⟨n, hmore⟩ := Request.search_large hneg
  have hmalloc : s.malloc base nbytes grant = Request.more grant (unitsFor nbytes) n h := by
    rw [← hmore, hready]
    rfl
  obtain ⟨hrefused, hgranted⟩ := Request.more_large h grant hlarge n
  rw [hbrk] at hrefused hgranted
  rw [hmalloc]
  constructor
  · intro hsafe
    by_contra hsome
    have hpassed := hsafe.asked _ (hgranted hsome) rfl
    have hlt := toInt32_lt (16 * unitsFor nbytes)
    simp only at hpassed
    omega
  · intro hnone
    rw [hrefused hnone]
    refine ⟨fun a ha hgrant => ?_, .inl ⟨h, rfl, ht.static, .inr ⟨T, ht, hlive, hptr⟩⟩⟩
    obtain rfl := List.mem_singleton.mp ha
    cases hgrant

/-- malloc is safe for a request exactly when the number of bytes that morecore would ask for is
an int, or when growproc refuses what the conversion to int has made of it. -/
theorem malloc_safe_iff (h : s.Run base lo) (nbytes : UInt32) (grant : Nat → Bool) :
    Safe base lo s nbytes (s.malloc base nbytes grant) ↔
      (16 * unitsFor nbytes < 2 ^ 31 ∨
        growproc grant s.heap.brk (toInt32 (16 * unitsFor nbytes)) = none) := by
  by_cases hsmall : 16 * unitsFor nbytes < 2 ^ 31
  · exact iff_of_true (h.inv.safe_small nbytes grant hsmall) (.inl hsmall)
  · rw [h.inv.safe_large nbytes grant (Nat.le_of_not_lt hsmall)]
    exact ⟨.inr, fun hor => hor.resolve_left hsmall⟩

end malloc

namespace RequestWitness

theorem malloc_safe_iff_page : Safe 1024 4096 HeapWitness.state 4096
    (HeapWitness.state.malloc 1024 4096 fun _ => true) :=
  (malloc_safe_iff HeapWitness.state_run 4096 fun _ => true).mpr (.inl (by decide))

/-- malloc(0xffffffff) asks for 16 bytes and returns a block of 2^28 + 1 units, which is far above
the end of memory. -/
theorem malloc_returns_block_above_break :
    (HeapWitness.init.malloc 1024 0xffffffff fun _ => true).1.map
      (fun a => (a.passed, a.nu, a.granted)) = [(16, 2 ^ 28 + 1, true)] ∧
    (HeapWitness.init.malloc 1024 0xffffffff fun _ => true).2.toOption.map
      (fun r => (r.1, r.2.brk)) = some (some 4112, 4112) ∧
    ¬ 4112 + (0xffffffff : UInt32).toNat ≤ 4112 := by
  decide +kernel

end RequestWitness

end Xv6.Umalloc
