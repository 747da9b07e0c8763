/-
The heap of a program that calls malloc and free as it likes, frees only what it has, and
writes only to what it has.
-/
import Xv6.Umalloc.Malloc

namespace Xv6.Umalloc

open Circular Transition

variable {base lo : Nat} {s s' : Sys} {T : List Tile}

theorem unitsFor_bytes (nbytes : UInt32) : nbytes.toNat + 16 ≤ 16 * unitsFor nbytes := by
  simp only [unitsFor]
  omega

/-- The row of blocks of a program. -/
structure Sys.Row (base lo : Nat) (s : Sys) (T : List Tile) : Prop where
  tiled : Tiled base lo s.heap T
  live : (s.live.map fun b => (b.1 - 16, unitsFor b.2)).Perm (blocks true lo T)
  ptr : ∀ b ∈ s.live, 16 ≤ b.1

/-- Before the first malloc and after it. -/
def Sys.Inv (base lo : Nat) (s : Sys) : Prop :=
  (0 < base ∧ base + 16 ≤ lo) ∧
    ((s.heap.freep = 0 ∧ s.live = [] ∧ s.heap.brk = lo) ∨ ∃ T, s.Row base lo T)

/-- The stores of a call stay out of the blocks that the program has. -/
def Kept (s s' : Sys) : Prop :=
  ∀ a ∈ s'.heap.wrote, ∀ b ∈ s.live, b ∈ s'.live → a + 16 ≤ b.1 ∨ b.1 + b.2.toNat ≤ a

theorem Sys.Row.mem (hrow : s.Row base lo T) {b : Nat × UInt32} (hb : b ∈ s.live) :
    (b.1 - 16, unitsFor b.2) ∈ blocks true lo T :=
  hrow.live.mem_iff.mp (List.mem_map_of_mem hb)

/-- An address that is clear of the blocks is clear of what the program sees of them. -/
theorem Sys.Row.outside (hrow : s.Row base lo T) {a : Nat} (ha : Clear (blocks true lo T) a)
    {b : Nat × UInt32} (hb : b ∈ s.live) : a + 16 ≤ b.1 ∨ b.1 + b.2.toNat ≤ a := by
  have hptr := hrow.ptr b hb
  have hbytes := unitsFor_bytes b.2
  have hclear := ha _ (hrow.mem hb)
  simp only at hclear
  omega

theorem Tiled.quiet {h : Heap} (ht : Tiled base lo h T) : Tiled base lo { h with wrote := [] } T :=
  ⟨ht.static, ht.pos, ht.apart, ht.brk, ht.top, ht.sizes, ht.ring, ht.zero, ht.freep⟩

/-- The first malloc starts with the empty row. -/
theorem tiled_init {h : Heap} (hstatic : 0 < base ∧ base + 16 ≤ lo) (hbrk : h.brk = lo) :
    Tiled base lo { (h.setPtr base base).setSize base 0 with freep := base } [] := by
  refine ⟨hstatic, nofun, .nil, hbrk, Nat.zero_le _, nofun, ?_, ?_, .head _⟩
  · show ((h.setPtr base base).setSize base 0).next base = base
    rw [Heap.next_setSize, Heap.next_setPtr, Function.update_self]
  · show ((h.setPtr base base).setSize base 0).size base = 0
    rw [Heap.size_setSize, Function.update_self]

/-- malloc makes the list first if it has to. -/
def Heap.ready (h : Heap) (base : Nat) : Heap :=
  if h.freep = 0 then { (h.setPtr base base).setSize base 0 with freep := base } else h

theorem Heap.malloc_eq (h : Heap) (base : Nat) (grant : Nat → Bool) (fuel : Nat)
    (nbytes : UInt32) : h.malloc base grant fuel nbytes =
      Heap.search grant (unitsFor nbytes) fuel (h.ready base) (h.ready base).freep
        ((h.ready base).next (h.ready base).freep) := rfl

/-- The list that malloc searches. -/
theorem Sys.Inv.ready (hs : s.Inv base lo) : ∃ h T,
    h = { s.heap with wrote := [] }.ready base ∧ Tiled base lo h T ∧ h.brk = s.heap.brk ∧
      (s.live.map fun b => (b.1 - 16, unitsFor b.2)).Perm (blocks true lo T) ∧
      (∀ b ∈ s.live, 16 ≤ b.1) ∧ ∀ a ∈ h.wrote, a = base := by
  obtain ⟨hstatic, ⟨hfreep, hlive, hbrk⟩ | ⟨T, hrow⟩⟩ := hs
  · refine ⟨_, [], (if_pos hfreep).symm,
      tiled_init (h := { s.heap with wrote := [] }) hstatic hbrk, rfl, ?_, ?_, ?_⟩
    · rw [hlive]
      exact .nil
    · rw [hlive]
      exact fun _ hb => absurd hb List.not_mem_nil
    · intro a ha
      simpa [Heap.setPtr, Heap.setSize] using ha
  · have hne : s.heap.freep ≠ 0 := by
      rcases List.mem_cons.mp hrow.tiled.freep with heq | hmem
      · omega
      · have hbounds := nodes_bounds hrow.tiled.pos hmem
        omega
    exact ⟨_, T, (if_neg hne).symm, hrow.tiled.quiet, rfl, hrow.live, hrow.ptr,
      fun _ ha => absurd ha List.not_mem_nil⟩

/-- malloc keeps the row, or asks for more than an int can say. -/
theorem Sys.Inv.malloc (hs : s.Inv base lo) (nbytes : UInt32) (grant : Nat → Bool) :
    (s.step base (.malloc nbytes grant) = some (.error .negative) ∧
      2 ^ 31 ≤ 16 * unitsFor nbytes) ∨
    ∃ s', s.step base (.malloc nbytes grant) = some (.ok s') ∧ s'.Inv base lo ∧ Kept s s' := by
  obtain ⟨h, T, hready, ht, hbrk, hlive, hptr, hwrote⟩ := hs.ready
  have hpos : 0 < unitsFor nbytes := Nat.succ_pos _
  have hfuel : 2 * (nodes lo T).length + 3 < s.fuel := by
    have hlength := nodes_length lo ht.pos
    have htotal := ht.brk
    simp only [Sys.fuel]
    omega
  have hbase : Clear (blocks true lo T) base := ht.clear (.head _)
  have hkept : ∀ {b : Nat × UInt32} {a : Nat}, b ∈ s.live → Clear (blocks true lo T) a →
      a + 16 ≤ b.1 ∨ b.1 + b.2.toNat ≤ a := by
    intro b a hb hclear
    have hmem := hlive.mem_iff.mp (List.mem_map_of_mem hb)
    have hclear' := hclear _ hmem
    have h16 := hptr b hb
    have hbytes := unitsFor_bytes b.2
    simp only at hclear'
    omega
  simp only [Sys.step, Heap.malloc_eq, ← hready]
  rcases ht.malloc grant hpos hfuel with
    ⟨hneg, hlarge⟩ | hnone | ⟨b, h', T', hsome, htaken⟩
  · rw [hneg]
    exact .inl ⟨rfl, hlarge⟩
  · rw [hnone]
    refine .inr ⟨_, rfl, ⟨ht.static, .inr ⟨T, ht, hlive, hptr⟩⟩, ?_⟩
    intro a ha b hb _
    rw [hwrote a ha]
    exact hkept hb hbase
  · rw [hsome]
    refine .inr ⟨_, rfl, ⟨ht.static, .inr ⟨T', htaken.tiled, ?_, ?_⟩⟩, ?_⟩
    · simp only [List.map_cons, Nat.add_sub_cancel]
      exact (hlive.cons _).trans htaken.live.symm
    · intro c hc
      rcases List.mem_cons.mp hc with rfl | hc
      · exact Nat.le_add_left ..
      · exact hptr c hc
    · intro a ha c hc _
      rcases htaken.wrote a ha with hclear | ha
      · exact hkept hc hclear
      · rw [hwrote a ha]
        exact hkept hc hbase

/-- free keeps the row. -/
theorem Sys.Inv.free (hs : s.Inv base lo) {p : Nat} (hp : p ∈ s.live.map Prod.fst) :
    ∃ s', s.step base (.free p) = some (.ok s') ∧ s'.Inv base lo ∧ Kept s s' := by
  obtain ⟨hstatic, ⟨-, hlive, -⟩ | ⟨T, hrow⟩⟩ := hs
  · rw [hlive] at hp
    cases hp
  · obtain ⟨b, hb, rfl⟩ := List.mem_map.mp hp
    obtain ⟨T₁, T₂, hT, haddr⟩ := exists_split (hrow.mem hb)
    simp only at hT haddr
    subst hT
    have h16 := hrow.ptr b hb
    have hfuel : (nodes lo (T₁ ++ ⟨unitsFor b.2, true⟩ :: T₂)).length < s.fuel := by
      have hlength := nodes_length lo hrow.tiled.pos
      have htotal := hrow.tiled.brk
      simp only [Sys.fuel]
      omega
    obtain ⟨h', T', hfree, hfreed⟩ := hrow.tiled.quiet.free s.fuel hfuel
    have hptr : lo + 16 * total T₁ + 16 = b.1 := by omega
    rw [hptr] at hfree
    have hold : blocks true lo (T₁ ++ ⟨unitsFor b.2, true⟩ :: T₂) = blocks true lo T₁ ++
        (b.1 - 16, unitsFor b.2) :: blocks true (lo + 16 * total T₁ + 16 * unitsFor b.2) T₂ := by
      rw [blocks_append, ← haddr]
      rfl
    have hunits : 0 < unitsFor b.2 := Nat.succ_pos _
    have hpos₁ : ∀ t ∈ T₁, 0 < t.units := fun t ht => hrow.tiled.pos t (by simp [ht])
    have hsub : ∀ x ∈ blocks true lo T',
        x ∈ blocks true lo (T₁ ++ ⟨unitsFor b.2, true⟩ :: T₂) ∧ x.1 ≠ b.1 - 16 := by
      intro x hx
      rw [hfreed.live, List.mem_append] at hx
      rw [hold, List.mem_append, List.mem_cons]
      rcases hx with hx | hx
      · have hbounds := blocks_bounds hx
        have hx0 := blocks_units hpos₁ hx
        exact ⟨.inl hx, by omega⟩
      · have hbounds := blocks_bounds hx
        exact ⟨.inr (.inr hx), by omega⟩
    have hperm : ((s.live.filter fun c => c.1 ≠ b.1).map fun c => (c.1 - 16, unitsFor c.2)).Perm
        (blocks true lo T') := by
      have hfilter : (s.live.filter fun c => c.1 ≠ b.1).map
          (fun c => (c.1 - 16, unitsFor c.2)) =
          (s.live.map fun c => (c.1 - 16, unitsFor c.2)).filter fun x => x.1 ≠ b.1 - 16 := by
        rw [List.filter_map]
        congr 1
        apply List.filter_congr
        intro c hc
        have hc16 := hrow.ptr c hc
        simp only [Function.comp_apply, decide_eq_decide]
        omega
      rw [hfilter]
      refine (hrow.live.filter _).trans ?_
      rw [hold, List.filter_append, List.filter_cons_of_neg (by simp), ← List.filter_append,
        ← hfreed.live, List.filter_eq_self.mpr]
      intro x hx
      simpa using (hsub x hx).2
    have hclear : ∀ a, Clear (blocks true lo (T₁ ++ ⟨unitsFor b.2, true⟩ :: T₂)) a →
        Clear (blocks true lo T') a := fun a ha x hx => ha x (hsub x hx).1
    have hrow' : Sys.Row base lo
        { heap := h', live := s.live.filter fun c => c.1 ≠ b.1 } T' :=
      ⟨hfreed.tiled, hperm, fun c hc => hrow.ptr c (List.mem_filter.mp hc).1⟩
    refine ⟨{ heap := h', live := s.live.filter fun c => c.1 ≠ b.1 }, ?_,
      ⟨hstatic, .inr ⟨T', hrow'⟩⟩, ?_⟩
    · simp only [Sys.step, if_pos hp, hfree]
      rfl
    · intro a ha c _ hc
      apply hrow'.outside _ hc
      rcases hfreed.wrote a ha with rfl | ha | ha
      · apply hclear
        rw [← haddr]
        exact hrow.tiled.clear_live (hrow.mem hb)
      · apply hclear
        apply hrow.tiled.clear
        rw [nodes_append, ← List.cons_append]
        exact List.mem_append_left _ ha
      · cases ha

/-- A store of the program does not reach what the allocator reads. -/
theorem Sys.Inv.store (hs : s.Inv base lo) {a : Nat} {v : Header}
    (hin : ∃ b ∈ s.live, b.1 ≤ a ∧ a < b.1 + b.2.toNat) :
    Sys.Inv base lo { s with heap :=
      { s.heap with mem := Function.update s.heap.mem a v, wrote := [] } } := by
  obtain ⟨b, hb, hle, hlt⟩ := hin
  obtain ⟨hstatic, ⟨-, hlive, -⟩ | ⟨T, hrow⟩⟩ := hs
  · rw [hlive] at hb
    cases hb
  · have ht := hrow.tiled
    have hne : ∀ x, Clear (blocks true lo T) x → x ≠ a := by
      rintro x hclear rfl
      have hout := hrow.outside hclear hb
      omega
    refine ⟨hstatic, .inr ⟨T, ⟨ht.static, ht.pos, ht.apart, ht.brk, ht.top, ?_, ?_, ?_, ht.freep⟩,
      hrow.live, hrow.ptr⟩⟩
    · intro live x hx
      have hx' : x.1 ≠ a := by
        apply hne
        cases live with
        | true => exact ht.clear_live hx
        | false => exact ht.clear (.tail _ (List.mem_map_of_mem hx))
      simp only [Heap.size, Function.update_of_ne hx']
      exact ht.sizes live x hx
    · refine ht.ring.congr fun x hx => ?_
      simp only [Heap.next, Function.update_of_ne (hne x (ht.clear hx))]
    · simp only [Heap.size, Function.update_of_ne (hne base (ht.clear (.head _)))]
      exact ht.zero

theorem Sys.Inv.step (hs : s.Inv base lo) {c : Call} (hstep : s.step base c = some (.ok s')) :
    s'.Inv base lo ∧ Kept s s' := by
  cases c with
  | malloc nbytes grant =>
      rcases hs.malloc nbytes grant with ⟨herror, -⟩ | ⟨t, ht, hinv, hkept⟩
      · rw [hstep] at herror
        cases herror
      · rw [hstep] at ht
        cases ht
        exact ⟨hinv, hkept⟩
  | free p =>
      by_cases hp : p ∈ s.live.map Prod.fst
      · obtain ⟨t, ht, hinv, hkept⟩ := hs.free hp
        rw [hstep] at ht
        cases ht
        exact ⟨hinv, hkept⟩
      · rw [Sys.step, if_neg hp] at hstep
        cases hstep
  | store a v =>
      rw [Sys.step] at hstep
      split at hstep
      next hin =>
        cases hstep
        exact ⟨hs.store hin.2, nofun⟩
      next => cases hstep

theorem Sys.Run.inv (h : s.Run base lo) : s.Inv base lo := by
  refine Reach.invariant ?_ (fun _ _ _ _ hstep hs => (hs.step hstep).1) h
  intro s hstart
  exact ⟨hstart.static, .inl ⟨hstart.freep, hstart.live, hstart.brk⟩⟩

/-- Free blocks are not next to each other. -/
theorem blocks_gap {a : Nat} (hpos : ∀ t ∈ T, 0 < t.units)
    (hapart : T.IsChain fun t t' => t.live = true ∨ t'.live = true) :
    (blocks false a T).Pairwise fun x y => x.1 + 16 * x.2 < y.1 := by
  induction T generalizing a with
  | nil => exact .nil
  | cons t T ih =>
      have hpos' : ∀ t ∈ T, 0 < t.units := fun t' ht' => hpos t' (.tail _ ht')
      have hchain := List.isChain_cons.mp hapart
      have htail := ih (a := a + 16 * t.units) hpos' hchain.2
      obtain ⟨n, live⟩ := t
      cases live with
      | true => exact htail
      | false =>
          refine List.pairwise_cons.mpr ⟨fun y hy => ?_, htail⟩
          cases T with
          | nil => cases hy
          | cons t T =>
              obtain ⟨m, live⟩ := t
              obtain rfl : live = true := (hchain.1 _ rfl).resolve_left nofun
              have hm : 0 < m := hpos' ⟨m, true⟩ (.head _)
              have hbounds := blocks_bounds (show y ∈ blocks false (a + 16 * n + 16 * m) T from hy)
              simp only
              omega

theorem blocks_sorted (live : Bool) (a : Nat) (T : List Tile) :
    (blocks live a T).Pairwise fun x y => x.1 + 16 * x.2 ≤ y.1 := by
  induction T generalizing a with
  | nil => exact .nil
  | cons t T ih =>
      rw [blocks]
      split
      · exact List.pairwise_cons.mpr ⟨fun y hy => (blocks_bounds hy).1, ih _⟩
      · exact ih _

theorem sum_blocks (a : Nat) (T : List Tile) :
    ((blocks true a T).map Prod.snd).sum + ((blocks false a T).map Prod.snd).sum = total T := by
  induction T generalizing a with
  | nil => rfl
  | cons t T ih =>
      have htail := ih (a + 16 * t.units)
      obtain ⟨n, live⟩ := t
      rw [total_cons]
      cases live with
      | true =>
          simp only [blocks, if_true, Bool.true_eq_false, if_false, List.map_cons, List.sum_cons]
          simp only at htail
          omega
      | false =>
          simp only [blocks, if_true, Bool.false_eq_true, if_false, List.map_cons, List.sum_cons]
          simp only at htail
          omega

/-- The units of the block of a pointer. -/
def Sys.units (s : Sys) (b : Nat × UInt32) : Nat := s.heap.size (b.1 - 16)

/-- The blocks in use are large enough, inside memory from sbrk and apart from each other. -/
structure Sys.Blocks (lo : Nat) (s : Sys) : Prop where
  enough : ∀ b ∈ s.live, b.2.toNat + 16 ≤ 16 * s.units b
  inside : ∀ b ∈ s.live, lo + 16 ≤ b.1 ∧ b.1 - 16 + 16 * s.units b ≤ s.heap.brk
  apart : s.live.Pairwise fun b c =>
    b.1 + 16 * s.units b ≤ c.1 ∨ c.1 + 16 * s.units c ≤ b.1

/-- The free list: circular, increasing from base, with gaps between its blocks, apart from the
blocks in use, and with them all that sbrk has given. -/
structure Sys.FreeList (base lo : Nat) (s : Sys) (F : List Nat) : Prop where
  ring : Leads s.heap.next base F base
  freep : s.heap.freep ∈ base :: F
  base : base < lo ∧ s.heap.size base = 0
  inside : ∀ a ∈ F, lo ≤ a ∧ a + 16 * s.heap.size a ≤ s.heap.brk
  gaps : F.Pairwise fun a c => a + 16 * s.heap.size a < c
  apart : ∀ a ∈ F, ∀ b ∈ s.live,
    a + 16 * s.heap.size a + 16 ≤ b.1 ∨ b.1 - 16 + 16 * s.units b ≤ a
  units : lo + 16 * ((s.live.map s.units).sum + (F.map s.heap.size).sum) = s.heap.brk

theorem Sys.Row.units_eq (hrow : s.Row base lo T) {b : Nat × UInt32} (hb : b ∈ s.live) :
    s.units b = unitsFor b.2 :=
  hrow.tiled.sizes true _ (hrow.mem hb)

theorem Sys.Row.blocks (hrow : s.Row base lo T) : s.Blocks lo := by
  have ht := hrow.tiled
  refine ⟨fun b hb => ?_, fun b hb => ?_, ?_⟩
  · rw [hrow.units_eq hb]
    exact unitsFor_bytes b.2
  · have hbounds := blocks_bounds (hrow.mem hb)
    have h16 := hrow.ptr b hb
    have hbrk := ht.brk
    rw [hrow.units_eq hb]
    simp only at hbounds
    omega
  · have hsymm : ∀ {x y : Nat × Nat}, (x.1 + 16 * x.2 ≤ y.1 ∨ y.1 + 16 * y.2 ≤ x.1) →
        y.1 + 16 * y.2 ≤ x.1 ∨ x.1 + 16 * x.2 ≤ y.1 := Or.symm
    have hdisjoint := (hrow.live.pairwise_iff hsymm).mpr
      ((blocks_sorted true lo T).imp fun h => .inl h)
    refine (List.pairwise_map.mp hdisjoint).imp_of_mem fun {b c} hb hc h => ?_
    have hb16 := hrow.ptr b hb
    have hc16 := hrow.ptr c hc
    rw [hrow.units_eq hb, hrow.units_eq hc]
    simp only at h
    omega

theorem Sys.Row.freeList (hrow : s.Row base lo T) : s.FreeList base lo (nodes lo T) := by
  have ht := hrow.tiled
  have hbrk := ht.brk
  have hsize : ∀ x ∈ Umalloc.blocks false lo T, s.heap.size x.1 = x.2 := ht.sizes false
  refine ⟨ht.ring, ht.freep, ⟨by have hstatic := ht.static; omega, ht.zero⟩, ?_, ?_, ?_, ?_⟩
  · intro a ha
    obtain ⟨x, hx, rfl⟩ := List.mem_map.mp ha
    have hbounds := blocks_bounds hx
    rw [hsize x hx]
    omega
  · refine List.pairwise_map.mpr ((blocks_gap ht.pos ht.apart).imp_of_mem fun {x y} hx _ h => ?_)
    rw [hsize x hx]
    exact h
  · intro a ha b hb
    obtain ⟨x, hx, rfl⟩ := List.mem_map.mp ha
    have h16 := hrow.ptr b hb
    rw [hsize x hx, hrow.units_eq hb]
    rcases blocks_apart ht.pos hx (hrow.mem hb) with ⟨-, hlive⟩ | hle | hle
    · cases hlive
    · simp only at hle
      omega
    · exact .inr hle
  · have hfree : (nodes lo T).map s.heap.size = (Umalloc.blocks false lo T).map Prod.snd := by
      rw [nodes, List.map_map]
      exact List.map_congr_left hsize
    have hlive : (s.live.map s.units).sum = ((Umalloc.blocks true lo T).map Prod.snd).sum := by
      rw [← (hrow.live.map Prod.snd).sum_eq, List.map_map]
      congr 1
      exact List.map_congr_left fun b hb => hrow.units_eq hb
    rw [hfree, hlive, sum_blocks, hbrk]

/-- In every state that a program can reach, the blocks it has are large enough, inside memory
from sbrk and apart; the free list is in order; no loop of malloc or free runs on; and no
call stores to a block that the program has.  A call fails only if it asks for more than an
int can say. -/
theorem heap_integrity (h : s.Run base lo) :
    s.Blocks lo ∧
    ((s.heap.freep = 0 ∧ s.live = [] ∧ s.heap.brk = lo) ∨ ∃ F, s.FreeList base lo F) ∧
    (∀ c e, s.step base c = some (.error e) →
      ∃ nbytes grant, c = .malloc nbytes grant ∧ 2 ^ 31 ≤ 16 * unitsFor nbytes) ∧
    ∀ c s', s.step base c = some (.ok s') → Kept s s' := by
  have hs := h.inv
  refine ⟨?_, ?_, ?_, fun c s' hstep => (hs.step hstep).2⟩
  · obtain ⟨-, ⟨-, hlive, -⟩ | ⟨T, hrow⟩⟩ := hs
    · constructor <;> rw [hlive]
      · exact nofun
      · exact nofun
      · exact .nil
    · exact hrow.blocks
  · obtain ⟨-, hfresh | ⟨T, hrow⟩⟩ := hs
    · exact .inl hfresh
    · exact .inr ⟨_, hrow.freeList⟩
  · intro c e hstep
    cases c with
    | malloc nbytes grant =>
        rcases hs.malloc nbytes grant with ⟨-, hlarge⟩ | ⟨t, ht, -⟩
        · exact ⟨nbytes, grant, rfl, hlarge⟩
        · rw [hstep] at ht
          cases ht
    | free p =>
        by_cases hp : p ∈ s.live.map Prod.fst
        · obtain ⟨t, ht, -⟩ := hs.free hp
          rw [hstep] at ht
          cases ht
        · rw [Sys.step, if_neg hp] at hstep
          cases hstep
    | store a v =>
        rw [Sys.step] at hstep
        split at hstep <;> cases hstep

namespace HeapWitness

def init : Sys :=
  { heap := { mem := fun _ => {}, freep := 0, brk := 4096, wrote := [] }, live := [] }

def acts : List Call :=
  [.malloc 100 fun _ => true, .malloc 20 fun _ => true, .free 69520, .malloc 65536 fun _ => true]

def final : Option Sys := runAll (fun _ _ => true) (Sys.step 1024) init acts

theorem final_isSome : final.isSome = true := by decide +kernel

def state : Sys := final.get final_isSome

theorem state_run : state.Run 1024 4096 :=
  Reach.runAll (fun _ _ _ => trivial) (.start ⟨by decide, by decide, rfl, rfl, rfl⟩)
    (Option.some_get final_isSome).symm

/-- The third block needs new memory, which joins with what free has given back. -/
theorem heap_integrity_grown : state.live.map Prod.snd = [65536, 20] ∧
    state.heap.brk = 4096 + 16 * (4096 + 4097) ∧ state.Blocks 4096 :=
  ⟨by decide +kernel, by decide +kernel, (heap_integrity state_run).1⟩

end HeapWitness

end Xv6.Umalloc
