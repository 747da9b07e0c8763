/-
free on a row of blocks: it finds the node of the free list below the block and joins the
block with its neighbours.
-/
import Xv6.Umalloc.Tiling

namespace Xv6.Umalloc

open Circular

section stores

variable (h : Heap) (p v : Nat)

@[simp] theorem Heap.size_setPtr : (h.setPtr p v).size = h.size := by
  funext a
  by_cases ha : a = p
  · subst ha
    simp [Heap.size, Heap.setPtr]
  · simp [Heap.size, Heap.setPtr, Function.update_of_ne ha]

@[simp] theorem Heap.next_setPtr : (h.setPtr p v).next = Function.update h.next p v := by
  funext a
  by_cases ha : a = p
  · subst ha
    simp [Heap.next, Heap.setPtr]
  · simp [Heap.next, Heap.setPtr, Function.update_of_ne ha]

@[simp] theorem Heap.next_setSize : (h.setSize p v).next = h.next := by
  funext a
  by_cases ha : a = p
  · subst ha
    simp [Heap.next, Heap.setSize]
  · simp [Heap.next, Heap.setSize, Function.update_of_ne ha]

@[simp] theorem Heap.size_setSize : (h.setSize p v).size = Function.update h.size p v := by
  funext a
  by_cases ha : a = p
  · subst ha
    simp [Heap.size, Heap.setSize]
  · simp [Heap.size, Heap.setSize, Function.update_of_ne ha]

@[simp] theorem Heap.wrote_setPtr : (h.setPtr p v).wrote = p :: h.wrote := rfl

@[simp] theorem Heap.wrote_setSize : (h.setSize p v).wrote = p :: h.wrote := rfl

@[simp] theorem Heap.brk_setPtr : (h.setPtr p v).brk = h.brk := rfl

@[simp] theorem Heap.brk_setSize : (h.setSize p v).brk = h.brk := rfl

end stores

section find

variable {h : Heap} {bp p q fuel : Nat} {l : List Nat}

/-- Where the loop of free ends. -/
def Fits (h : Heap) (bp p : Nat) : Prop :=
  (bp > p ∧ bp < h.next p) ∨ (p ≥ h.next p ∧ (bp > p ∨ bp < h.next p))

/-- The loop of free ends at a node where the block fits. -/
theorem findPrev_some (hl : Leads h.next p l q) (hfits : ∃ x ∈ p :: l, Fits h bp x)
    (hfuel : l.length < fuel) : ∃ x ∈ p :: l, Fits h bp x ∧ h.findPrev bp fuel p = some x := by
  induction l generalizing p fuel with
  | nil =>
      obtain ⟨x, hx, hfits⟩ := hfits
      obtain rfl := List.mem_singleton.mp hx
      obtain ⟨n, rfl⟩ : ∃ n, fuel = n + 1 := ⟨fuel - 1, by omega⟩
      refine ⟨x, .head _, hfits, ?_⟩
      rw [Heap.findPrev]
      rcases hfits with hbetween | hlast
      · rw [if_pos hbetween]
      · rw [if_pos hlast, ite_self]
  | cons a l ih =>
      obtain ⟨n, rfl⟩ : ∃ n, fuel = n + 1 := ⟨fuel - 1, by omega⟩
      rw [List.length_cons] at hfuel
      by_cases hp : Fits h bp p
      · refine ⟨p, .head _, hp, ?_⟩
        rw [Heap.findPrev]
        rcases hp with hbetween | hlast
        · rw [if_pos hbetween]
        · rw [if_pos hlast, ite_self]
      · obtain ⟨x, hx, hfits⟩ := hfits
        have hx' : x ∈ a :: l := by
          rcases List.mem_cons.mp hx with rfl | hx
          · exact absurd hfits hp
          · exact hx
        obtain ⟨y, hy, hyfits, hfind⟩ := ih hl.2 ⟨x, hx', hfits⟩ (Nat.lt_of_succ_lt_succ hfuel)
        refine ⟨y, .tail _ hy, hyfits, ?_⟩
        rw [Heap.findPrev, if_neg fun hb => hp (.inl hb), if_neg fun hb => hp (.inr hb), hl.1,
          hfind]

end find

section free

variable {base lo n bp p fuel : Nat} {h : Heap} {T T₁ T₂ : List Tile} {front : List Nat}

theorem Tiled.sorted (ht : Tiled base lo h T) : (base :: nodes lo T).Pairwise (· < ·) := by
  rw [List.pairwise_cons]
  refine ⟨fun y hy => ?_, nodes_sorted ht.pos lo⟩
  have hbounds := nodes_bounds ht.pos hy
  have hbase := ht.static.2
  omega

/-- The node below a block of the row is the only one where the block fits. -/
theorem Tiled.findPrev (ht : Tiled base lo h (T₁ ++ ⟨n, true⟩ :: T₂))
    (hbp : bp = lo + 16 * total T₁) (hfront : base :: nodes lo T₁ = front ++ [p])
    (hfuel : (nodes lo (T₁ ++ ⟨n, true⟩ :: T₂)).length < fuel) :
    h.findPrev bp fuel h.freep = some p := by
  have hsplit : nodes lo (T₁ ++ ⟨n, true⟩ :: T₂) = nodes lo T₁ ++ nodes (bp + 16 * n) T₂ := by
    rw [nodes_append, nodes_cons_live, hbp]
  have hpos₁ : ∀ t ∈ T₁, 0 < t.units := fun t ht' => ht.pos t (List.mem_append_left _ ht')
  have hpos₂ : ∀ t ∈ T₂, 0 < t.units := fun t ht' => ht.pos t (by simp [ht'])
  have hn : 0 < n := ht.pos ⟨n, true⟩ (by simp)
  have hbase := ht.static
  have hlow : ∀ x ∈ base :: nodes lo T₁, x < bp := by
    intro x hx
    rcases List.mem_cons.mp hx with rfl | hx
    · omega
    · have hbounds := nodes_bounds hpos₁ hx
      omega
  have hhigh : ∀ x ∈ nodes (bp + 16 * n) T₂, bp < x := by
    intro x hx
    have hbounds := nodes_bounds hpos₂ hx
    omega
  have hp : p ∈ base :: nodes lo T₁ := by
    rw [hfront]
    simp
  have hmem : ∀ x ∈ base :: nodes lo (T₁ ++ ⟨n, true⟩ :: T₂), x < bp →
      x ∈ base :: nodes lo T₁ := by
    intro x hx hlt
    rw [hsplit, ← List.cons_append, List.mem_append] at hx
    rcases hx with hx | hx
    · exact hx
    · exact absurd (hhigh x hx) (by omega)
  have hmax : ∀ x ∈ base :: nodes lo T₁, x ≤ p := by
    intro x hx
    have hsorted := ht.sorted
    rw [hsplit, ← List.cons_append, List.pairwise_append, hfront, List.pairwise_append] at hsorted
    rw [hfront, List.mem_append, List.mem_singleton] at hx
    rcases hx with hx | rfl
    · exact le_of_lt (hsorted.1.2.2 x hx p (.head _))
    · exact le_rfl
  have hsub : ∀ x ∈ base :: nodes lo T₁, x ∈ base :: nodes lo (T₁ ++ ⟨n, true⟩ :: T₂) := by
    intro x hx
    rw [hsplit, ← List.cons_append]
    exact List.mem_append_left _ hx
  have hfits : Fits h bp p := by
    rcases ht.ring.succ ht.sorted (hsub p hp) with ⟨hnext, hlt, -⟩ | ⟨hnext, -⟩
    · refine .inl ⟨hlow p hp, ?_⟩
      rw [hsplit, List.mem_append] at hnext
      rcases hnext with hnext | hnext
      · have hle := hmax _ (.tail _ hnext)
        omega
      · exact hhigh _ hnext
    · refine .inr ⟨?_, .inl (hlow p hp)⟩
      rw [hnext]
      exact hmax base (.head _)
  have hunique : ∀ x ∈ base :: nodes lo (T₁ ++ ⟨n, true⟩ :: T₂), Fits h bp x → x = p := by
    intro x hx hfits
    rcases ht.ring.succ ht.sorted hx with ⟨-, hlt, hbetween⟩ | ⟨hnext, hlast⟩
    · have hx' : x < bp ∧ bp < h.next x := by
        rcases hfits with hfits | hfits
        · exact hfits
        · exact absurd hfits.1 (by omega)
      have hle := hmax x (hmem x hx hx'.1)
      rcases hbetween p (hsub p hp) with hpx | hpx
      · omega
      · have hplow := hlow p hp
        omega
    · rw [Fits, hnext] at hfits
      have hbp : base < bp := hlow base (.head _)
      have hx' : x < bp := by omega
      have hle := hmax x (hmem x hx hx')
      have hge := hlast p (hsub p hp)
      omega
  obtain ⟨l, hl, hperm⟩ := ht.ring.rotate ht.freep
  have hlen : l.length < fuel := by
    have hlength := hperm.length_eq
    simp only [List.length_cons] at hlength
    omega
  obtain ⟨x, hx, hxfits, hfind⟩ := findPrev_some hl ⟨p, hperm.mem_iff.mpr (hsub p hp), hfits⟩ hlen
  rw [hfind, hunique x (hperm.mem_iff.mp hx) hxfits]

/-- A block of `m` units at `bp`, in front of the blocks `T'`, in place of one of `n` units in
front of `T`. -/
structure Joined (h h' : Heap) (base bp n m : Nat) (T T' : List Tile) : Prop where
  le : n ≤ m
  total : m + Umalloc.total T' = n + Umalloc.total T
  size : h'.size = Function.update h.size bp m
  next : ∃ v, h'.next = Function.update h.next bp v
  ring : Leads h'.next bp (nodes (bp + 16 * m) T') base
  brk : h'.brk = h.brk
  wrote : ∀ a ∈ h'.wrote, a = bp ∨ a ∈ h.wrote
  live : blocks true (bp + 16 * m) T' = blocks true (bp + 16 * n) T
  free : ∀ x ∈ blocks false (bp + 16 * m) T', x ∈ blocks false (bp + 16 * n) T
  count : (nodes (bp + 16 * m) T').length ≤ (nodes (bp + 16 * n) T).length
  tiles : ∀ t ∈ T', t ∈ T
  apart : (Tile.mk m false :: T').IsChain fun t t' => t.live = true ∨ t'.live = true

/-- With no free block above, only the list changes. -/
theorem joined_same (hn : 0 < n) (hsize : h.size bp = n) (hpos : ∀ t ∈ T₂, 0 < t.units)
    (hrest : Leads h.next p (nodes (bp + 16 * n) T₂) base)
    (hne : bp + 16 * n ≠ h.next p)
    (hapart : (Tile.mk n false :: T₂).IsChain fun t t' => t.live = true ∨ t'.live = true) :
    Joined h (h.joinUpper p bp) base bp n n T₂ T₂ := by
  have hjoin : h.joinUpper p bp = h.setPtr bp (h.next p) := by
    rw [Heap.joinUpper, hsize, if_neg hne]
  rw [hjoin]
  refine ⟨Nat.le_refl n, rfl, ?_, ⟨_, h.next_setPtr ..⟩, ?_, rfl, ?_, rfl, fun _ hx => hx,
    Nat.le_refl _, fun _ ht => ht, hapart⟩
  · rw [Heap.size_setPtr, ← hsize, Function.update_eq_self]
  · rw [Heap.next_setPtr]
    refine hrest.head_congr (Function.update_self ..) fun x hx => ?_
    have hbounds := nodes_bounds hpos hx
    exact Function.update_of_ne (by omega) ..
  · rintro a (_ | _)
    · exact .inl rfl
    · exact .inr ‹_›

/-- free joins the block with the free block above it, if there is one. -/
theorem Tiled.joinUpper (ht : Tiled base lo h (T₁ ++ ⟨n, true⟩ :: T₂))
    (hbp : bp = lo + 16 * total T₁)
    (hrest : Leads h.next p (nodes (bp + 16 * n) T₂) base) :
    ∃ m T₂', Joined h (h.joinUpper p bp) base bp n m T₂ T₂' := by
  have hn : 0 < n := ht.pos ⟨n, true⟩ (by simp)
  have hpos₂ : ∀ t ∈ T₂, 0 < t.units := fun t ht' => ht.pos t (by simp [ht'])
  have hblocks : ∀ live, blocks live lo (T₁ ++ ⟨n, true⟩ :: T₂) =
      blocks live lo T₁ ++ blocks live bp (⟨n, true⟩ :: T₂) := by
    intro live
    rw [blocks_append, hbp]
  have hsize : h.size bp = n := by
    apply ht.sizes true (bp, n)
    rw [hblocks]
    simp [blocks]
  have hapart := (List.isChain_append.mp ht.apart).2.1
  have hstatic := ht.static
  have hbase : bp + 16 * n ≠ base := by omega
  cases T₂ with
  | nil =>
      refine ⟨n, [], joined_same hn hsize hpos₂ hrest ?_ (.singleton _)⟩
      rwa [show h.next p = base from hrest]
  | cons t T₂ =>
      obtain ⟨k, live⟩ := t
      have hk : 0 < k := hpos₂ ⟨k, live⟩ (.head _)
      have hpos : ∀ t ∈ T₂, 0 < t.units := fun t ht' => hpos₂ t (.tail _ ht')
      cases live with
      | true =>
          refine ⟨n, _, joined_same hn hsize hpos₂ hrest ?_ ?_⟩
          · rw [nodes_cons_live] at hrest
            cases hF : nodes (bp + 16 * n + 16 * k) T₂ with
            | nil =>
                rw [hF] at hrest
                rwa [show h.next p = base from hrest]
            | cons c F =>
                rw [hF] at hrest
                have hbounds := nodes_bounds hpos (hF ▸ List.mem_cons_self : c ∈ _)
                rw [hrest.1]
                omega
          · exact .cons_cons (.inr rfl) (List.isChain_cons.mp hapart).2
      | false =>
          rw [nodes_cons_free] at hrest
          have hupper : h.size (bp + 16 * n) = k := by
            apply ht.sizes false (bp + 16 * n, k)
            rw [hblocks]
            simp [blocks]
          have htop := ht.top
          simp only [total_append, total_cons] at htop
          have hsum : (n + k) % 2 ^ 32 = n + k := by
            simp only [USERTOP] at htop
            omega
          have hjoin : h.joinUpper p bp =
              (h.setSize bp (n + k)).setPtr bp (h.next (bp + 16 * n)) := by
            rw [Heap.joinUpper, hsize, if_pos hrest.1.symm, hrest.1, hupper, hsum]
          have haddr : bp + 16 * (n + k) = bp + 16 * n + 16 * k := by ring
          rw [hjoin]
          refine ⟨n + k, T₂, Nat.le_add_right .., ?_, ?_, ⟨h.next (bp + 16 * n), ?_⟩, ?_, rfl, ?_,
            ?_, ?_, ?_, fun t ht' => .tail _ ht', ?_⟩
          · rw [total_cons]
            ring
          · rw [Heap.size_setPtr, Heap.size_setSize]
          · rw [Heap.next_setPtr, Heap.next_setSize]
          · rw [Heap.next_setPtr, Heap.next_setSize, haddr]
            refine hrest.2.head_congr (Function.update_self ..) fun x hx => ?_
            have hbounds := nodes_bounds hpos hx
            exact Function.update_of_ne (by omega) ..
          · intro a ha
            simp only [Heap.wrote_setPtr, Heap.wrote_setSize, List.mem_cons] at ha
            rcases ha with ha | ha | ha
            · exact .inl ha
            · exact .inl ha
            · exact .inr ha
          · rw [haddr]
            rfl
          · intro x hx
            rw [haddr] at hx
            exact .tail _ hx
          · rw [haddr, nodes_cons_free, List.length_cons]
            exact Nat.le_succ _
          · have hchain := List.isChain_cons.mp (List.isChain_cons.mp hapart).2
            rw [List.isChain_cons]
            refine ⟨fun t ht' => .inr ?_, hchain.2⟩
            exact (hchain.1 t ht').resolve_left (by simp)

/-- What free makes of the row: the block is free, perhaps as a part of a larger one, and the
other blocks in use are as they were. -/
structure Freed (base lo n : Nat) (h h' : Heap) (T₁ T₂ T' : List Tile) : Prop where
  tiled : Tiled base lo h' T'
  room : ∃ x ∈ blocks false lo T', n ≤ x.2
  total : Umalloc.total T' = Umalloc.total T₁ + n + Umalloc.total T₂
  live : blocks true lo T' =
    blocks true lo T₁ ++ blocks true (lo + 16 * Umalloc.total T₁ + 16 * n) T₂
  count : (nodes lo T').length ≤
    (nodes lo T₁).length + (nodes (lo + 16 * Umalloc.total T₁ + 16 * n) T₂).length + 1
  wrote : ∀ a ∈ h'.wrote, a = lo + 16 * Umalloc.total T₁ ∨ a ∈ base :: nodes lo T₁ ∨ a ∈ h.wrote

/-- The row with a free block of `m` units in the middle, given what memory says of it. -/
theorem Tiled.middle {h' : Heap} {m : Nat} {T₂' : List Tile}
    (ht : Tiled base lo h (T₁ ++ ⟨n, true⟩ :: T₂)) (hbp : bp = lo + 16 * total T₁)
    (hjoin : Joined h h' base bp n m T₂ T₂') :
    (∀ live, ∀ x ∈ blocks live lo T₁, h'.size x.1 = x.2) ∧
    (∀ live, ∀ x ∈ blocks live (bp + 16 * m) T₂', h'.size x.1 = x.2) ∧ h'.size bp = m ∧
    h'.size base = 0 ∧ (∀ t ∈ T₁ ++ T₂', 0 < t.units) ∧ bp ∉ base :: nodes lo T₁ := by
  have hn : 0 < n := ht.pos ⟨n, true⟩ (by simp)
  have hstatic := ht.static
  have hle := hjoin.le
  have hblocks : ∀ live, blocks live lo (T₁ ++ ⟨n, true⟩ :: T₂) =
      blocks live lo T₁ ++ blocks live bp (⟨n, true⟩ :: T₂) := by
    intro live
    rw [blocks_append, hbp]
  have hpos₁ : ∀ t ∈ T₁, 0 < t.units := fun t ht' => ht.pos t (List.mem_append_left _ ht')
  have hpos₂ : ∀ t ∈ T₂', 0 < t.units := fun t ht' => ht.pos t (by simp [hjoin.tiles t ht'])
  rw [hjoin.size]
  refine ⟨fun live x hx => ?_, fun live x hx => ?_, Function.update_self .., ?_, ?_, ?_⟩
  · have hbounds := blocks_bounds hx
    have hunits := blocks_units hpos₁ hx
    rw [Function.update_of_ne (by omega)]
    exact ht.sizes live x (hblocks live ▸ List.mem_append_left _ hx)
  · have hbounds := blocks_bounds hx
    rw [Function.update_of_ne (by omega)]
    have hold : x ∈ blocks live (bp + 16 * n) T₂ := by
      cases live with
      | true => exact hjoin.live ▸ hx
      | false => exact hjoin.free x hx
    apply ht.sizes live x
    rw [hblocks live, List.mem_append, blocks]
    split
    · exact .inr (.tail _ hold)
    · exact .inr hold
  · rw [Function.update_of_ne (by omega)]
    exact ht.zero
  · intro t ht'
    rcases List.mem_append.mp ht' with ht' | ht'
    · exact hpos₁ t ht'
    · exact hpos₂ t ht'
  · intro hmem
    rcases List.mem_cons.mp hmem with heq | hmem
    · omega
    · have hbounds := nodes_bounds hpos₁ hmem
      omega

/-- With no free block below, the block is a node of its own. -/
theorem Tiled.joinLower_apart {h' : Heap} {m : Nat} {T₂' : List Tile}
    (ht : Tiled base lo h (T₁ ++ ⟨n, true⟩ :: T₂)) (hbp : bp = lo + 16 * total T₁)
    (hjoin : Joined h h' base bp n m T₂ T₂') (hfront : base :: nodes lo T₁ = front ++ [p])
    (hgraft : ∀ (next' : Nat → Nat) (l : List Nat) (q : Nat),
      (∀ x ∈ front, next' x = h.next x) → Leads next' p l q →
        Leads next' base (nodes lo T₁ ++ l) q)
    (hlast : ∀ t ∈ T₁.getLast?, t.live = true) :
    Freed base lo n h { h'.joinLower p bp with freep := p } T₁ T₂
      (T₁ ++ ⟨m, false⟩ :: T₂') := by
  obtain ⟨hsizes₁, hsizes₂, hsize, hzero, hpos, hnotMem⟩ := ht.middle hbp hjoin
  have hp : p ∈ base :: nodes lo T₁ := by
    rw [hfront]
    simp
  have hne : p ≠ bp := fun heq => hnotMem (heq ▸ hp)
  have hn : 0 < n := ht.pos ⟨n, true⟩ (by simp)
  have hle := hjoin.le
  have htotal := hjoin.total
  have hpos₁ : ∀ t ∈ T₁, 0 < t.units := fun t ht' => hpos t (List.mem_append_left _ ht')
  have hpos₂ : ∀ t ∈ T₂', 0 < t.units := fun t ht' => hpos t (List.mem_append_right _ ht')
  have hbelow : p + 16 * h'.size p ≠ bp := by
    have hstatic := ht.static
    rcases List.mem_cons.mp hp with rfl | hmem
    · rw [hzero]
      omega
    · obtain ⟨x, hx, rfl⟩ := List.mem_map.mp hmem
      rw [hsizes₁ false x hx]
      rcases List.eq_nil_or_concat T₁ with rfl | ⟨T, t, rfl⟩
      · cases hx
      · rw [List.concat_eq_append] at hx hlast hbp hpos₁
        have hlive : t.live = true := hlast t (by simp)
        have ht0 := hpos₁ t (by simp)
        rw [blocks_append, List.mem_append] at hx
        simp only [blocks, hlive, Bool.true_eq_false, if_false, List.not_mem_nil, or_false] at hx
        have hbounds := blocks_bounds hx
        simp only [total_append, total_cons, total_nil] at hbp
        omega
  have hjoined : h'.joinLower p bp = h'.setPtr p bp := by
    rw [Heap.joinLower, if_neg hbelow]
  obtain ⟨v, hnext⟩ := hjoin.next
  have hhigh : ∀ x ∈ nodes (bp + 16 * m) T₂', x ≠ p := by
    intro x hx heq
    have hbounds := nodes_bounds hpos₂ hx
    have hlow : p < bp := by
      rcases List.mem_cons.mp hp with rfl | hmem
      · have hstatic := ht.static
        omega
      · have hb := nodes_bounds hpos₁ hmem
        omega
    omega
  have hring : Leads (h'.setPtr p bp).next base
      (nodes lo T₁ ++ bp :: nodes (bp + 16 * m) T₂') base := by
    rw [Heap.next_setPtr]
    apply hgraft
    · intro x hx
      have hsorted := ht.sorted
      have hmem : x ∈ base :: nodes lo T₁ := hfront ▸ List.mem_append_left _ hx
      rw [nodes_append, ← List.cons_append, List.pairwise_append, hfront, List.pairwise_append]
        at hsorted
      have hxp : x < p := hsorted.1.2.2 x hx p (.head _)
      have hxbp : x ≠ bp := fun heq => hnotMem (heq ▸ hmem)
      rw [Function.update_of_ne (by omega), hnext, Function.update_of_ne hxbp]
    · refine ⟨Function.update_self .., hjoin.ring.congr fun x hx => ?_⟩
      apply Function.update_of_ne
      rcases List.mem_cons.mp hx with rfl | hx
      · exact hne.symm
      · exact hhigh x hx
  rw [hjoined]
  refine ⟨⟨ht.static, ?_, ?_, ?_, ?_, ?_, ?_, ?_, ?_⟩, ⟨(bp, m), ?_, hle⟩, ?_, ?_, ?_, ?_⟩
  · intro t ht'
    rcases List.mem_append.mp ht' with ht' | ht'
    · exact hpos₁ t ht'
    · rcases List.mem_cons.mp ht' with rfl | ht'
      · exact Nat.lt_of_lt_of_le hn hle
      · exact hpos₂ t ht'
  · rw [List.isChain_append]
    refine ⟨(List.isChain_append.mp ht.apart).1, hjoin.apart, fun t ht' _ _ => .inl ?_⟩
    exact hlast t ht'
  · have hbrk := ht.brk
    simp only [total_append, total_cons] at hbrk ⊢
    show h'.brk = _
    rw [hjoin.brk, hbrk]
    omega
  · have htop := ht.top
    simp only [total_append, total_cons] at htop ⊢
    omega
  · intro live x hx
    show (h'.setPtr p bp).size x.1 = x.2
    rw [Heap.size_setPtr]
    rw [blocks_append, List.mem_append, ← hbp, blocks] at hx
    rcases hx with hx | hx
    · exact hsizes₁ live x hx
    · split at hx
      · rcases List.mem_cons.mp hx with rfl | hx
        · exact hsize
        · exact hsizes₂ live x hx
      · exact hsizes₂ live x hx
  · rw [nodes_append, ← hbp]
    exact hring
  · show (h'.setPtr p bp).size base = 0
    rw [Heap.size_setPtr]
    exact hzero
  · rw [nodes_append, ← List.cons_append]
    exact List.mem_append_left _ hp
  · rw [blocks_append, ← hbp]
    simp [blocks]
  · rw [total_append, total_cons]
    simp only
    omega
  · rw [blocks_append, ← hbp, ← hjoin.live]
    rfl
  · have hcount := hjoin.count
    rw [nodes_append, nodes_cons_free, ← hbp, List.length_append, List.length_cons]
    omega
  · intro a ha
    rcases List.mem_cons.mp ha with rfl | ha
    · exact .inr (.inl hp)
    · rcases hjoin.wrote a ha with rfl | ha
      · exact .inl hbp
      · exact .inr (.inr ha)

/-- A free block below takes the block in. -/
theorem Tiled.joinLower_join {h' : Heap} {k m : Nat} {T₂' : List Tile}
    (ht : Tiled base lo h ((T₁ ++ [⟨k, false⟩]) ++ ⟨n, true⟩ :: T₂))
    (hbp : bp = lo + 16 * total (T₁ ++ [⟨k, false⟩]))
    (hjoin : Joined h h' base bp n m T₂ T₂')
    (hfront : base :: nodes lo (T₁ ++ [⟨k, false⟩]) = front ++ [p])
    (hgraft : ∀ (next' : Nat → Nat) (l : List Nat) (q : Nat),
      (∀ x ∈ front, next' x = h.next x) → Leads next' p l q →
        Leads next' base (nodes lo (T₁ ++ [⟨k, false⟩]) ++ l) q) :
    Freed base lo n h { h'.joinLower p bp with freep := p } (T₁ ++ [⟨k, false⟩]) T₂
      (T₁ ++ ⟨k + m, false⟩ :: T₂') := by
  obtain ⟨hsizes₁, hsizes₂, hsize, hzero, hpos, hnotMem⟩ := ht.middle hbp hjoin
  have hk : 0 < k := hpos ⟨k, false⟩ (by simp)
  have hn : 0 < n := ht.pos ⟨n, true⟩ (by simp)
  have hle := hjoin.le
  have htotal := hjoin.total
  have hpos₁ : ∀ t ∈ T₁, 0 < t.units := fun t ht' => hpos t (by simp [ht'])
  have hpos₂ : ∀ t ∈ T₂', 0 < t.units := fun t ht' => hpos t (by simp [ht'])
  have hnodes : nodes lo (T₁ ++ [⟨k, false⟩]) = nodes lo T₁ ++ [lo + 16 * total T₁] := by
    rw [nodes_append]
    rfl
  rw [hnodes, ← List.cons_append] at hfront
  have hlast := List.append_inj_right' hfront rfl
  obtain rfl := List.append_inj_left' hfront rfl
  obtain rfl : lo + 16 * total T₁ = p := by simpa using hlast
  simp only [total_append, total_cons, total_nil, Nat.add_zero] at hbp
  have hp : h'.size (lo + 16 * total T₁) = k := by
    apply hsizes₁ false (lo + 16 * total T₁, k)
    rw [blocks_append]
    simp [blocks]
  have htop := ht.top
  have hbrk := ht.brk
  simp only [total_append, total_cons, total_nil] at htop hbrk
  have hsum : (k + m) % 2 ^ 32 = k + m := by
    simp only [USERTOP] at htop
    omega
  have hjoined : h'.joinLower (lo + 16 * total T₁) bp =
      (h'.setSize (lo + 16 * total T₁) (k + m)).setPtr (lo + 16 * total T₁) (h'.next bp) := by
    have hcond : lo + 16 * total T₁ + 16 * k = bp := by omega
    rw [Heap.joinLower, hp, if_pos hcond, hsize, hsum]
  have haddr : lo + 16 * total T₁ + 16 * (k + m) = bp + 16 * m := by omega
  obtain ⟨v, hnext⟩ := hjoin.next
  have hstatic := ht.static
  have hlow : ∀ x ∈ base :: nodes lo T₁, x < lo + 16 * total T₁ := by
    intro x hx
    rcases List.mem_cons.mp hx with rfl | hx
    · omega
    · exact (nodes_bounds hpos₁ hx).2
  have hring : Leads (Function.update h'.next (lo + 16 * total T₁) (h'.next bp)) base
      (nodes lo (T₁ ++ [⟨k, false⟩]) ++ nodes (bp + 16 * m) T₂') base := by
    apply hgraft
    · intro x hx
      have hlt := hlow x hx
      rw [Function.update_of_ne (by omega), hnext, Function.update_of_ne (by omega)]
    · refine hjoin.ring.head_congr (Function.update_self ..) fun x hx => ?_
      have hbounds := nodes_bounds hpos₂ hx
      exact Function.update_of_ne (by omega) ..
  rw [hjoined]
  refine ⟨⟨ht.static, ?_, ?_, ?_, ?_, ?_, ?_, ?_, ?_⟩,
    ⟨(lo + 16 * total T₁, k + m), ?_, by simp only; omega⟩, ?_, ?_, ?_, ?_⟩
  · intro t ht'
    rcases List.mem_append.mp ht' with ht' | ht'
    · exact hpos₁ t ht'
    · rcases List.mem_cons.mp ht' with rfl | ht'
      · exact Nat.add_pos_left hk m
      · exact hpos₂ t ht'
  · have hchain := List.isChain_append.mp (List.isChain_append.mp ht.apart).1
    rw [List.isChain_append]
    refine ⟨hchain.1, ?_, fun t ht' _ _ => .inl ?_⟩
    · rw [List.isChain_cons]
      exact List.isChain_cons.mp hjoin.apart
    · exact (hchain.2.2 t ht' _ rfl).resolve_right (by simp)
  · show h'.brk = _
    rw [hjoin.brk, hbrk]
    simp only [total_append, total_cons]
    omega
  · simp only [total_append, total_cons]
    omega
  · intro live x hx
    show ((h'.setSize (lo + 16 * total T₁) (k + m)).setPtr _ _).size x.1 = x.2
    rw [Heap.size_setPtr, Heap.size_setSize]
    rw [blocks_append, List.mem_append, blocks, haddr] at hx
    rcases hx with hx | hx
    · have hbounds := blocks_bounds hx
      have hunits := blocks_units hpos₁ hx
      rw [Function.update_of_ne (by omega)]
      apply hsizes₁ live x
      rw [blocks_append]
      exact List.mem_append_left _ hx
    · have htail : x ∈ blocks live (bp + 16 * m) T₂' →
          Function.update h'.size (lo + 16 * total T₁) (k + m) x.1 = x.2 := by
        intro hx
        have hbounds := blocks_bounds hx
        rw [Function.update_of_ne (by omega)]
        exact hsizes₂ live x hx
      split at hx
      · rcases List.mem_cons.mp hx with rfl | hx
        · exact Function.update_self ..
        · exact htail hx
      · exact htail hx
  · show Leads ((h'.setSize _ _).setPtr _ _).next base _ base
    rw [Heap.next_setPtr, Heap.next_setSize, nodes_append, nodes_cons_free, haddr]
    rwa [hnodes, List.append_assoc] at hring
  · show ((h'.setSize _ _).setPtr _ _).size base = 0
    rw [Heap.size_setPtr, Heap.size_setSize, Function.update_of_ne (by omega)]
    exact hzero
  · show lo + 16 * total T₁ ∈ _
    rw [nodes_append]
    simp
  · rw [blocks_append]
    simp [blocks]
  · simp only [total_append, total_cons, total_nil]
    omega
  · have haddr' : lo + 16 * total (T₁ ++ [⟨k, false⟩]) + 16 * n = bp + 16 * n := by
      rw [total_append, total_cons, total_nil, hbp]
      ring
    rw [haddr', blocks_append, blocks_append, blocks]
    simp only [Bool.false_eq_true, if_false, haddr, hjoin.live]
    simp [blocks]
  · have hcount := hjoin.count
    have haddr' : lo + 16 * total (T₁ ++ [⟨k, false⟩]) + 16 * n = bp + 16 * n := by
      rw [total_append, total_cons, total_nil, hbp]
      ring
    rw [haddr', hnodes, nodes_append, nodes_cons_free, haddr, List.length_append,
      List.length_append, List.length_cons, List.length_singleton]
    omega
  · have hbp' : lo + 16 * total (T₁ ++ [⟨k, false⟩]) = bp := by
      rw [total_append, total_cons, total_nil, hbp]
      ring
    rw [hbp']
    intro a ha
    simp only [Heap.wrote_setPtr, Heap.wrote_setSize, List.mem_cons] at ha
    rcases ha with rfl | rfl | ha
    · exact .inr (.inl (by rw [hnodes]; simp))
    · exact .inr (.inl (by rw [hnodes]; simp))
    · rcases hjoin.wrote a ha with ha | ha
      · exact .inl ha
      · exact .inr (.inr ha)

/-- free of a block of the row. -/
theorem Tiled.free (ht : Tiled base lo h (T₁ ++ ⟨n, true⟩ :: T₂)) (fuel : Nat)
    (hfuel : (nodes lo (T₁ ++ ⟨n, true⟩ :: T₂)).length < fuel) :
    ∃ h' T', h.free fuel (lo + 16 * total T₁ + 16) = .ok h' ∧ Freed base lo n h h' T₁ T₂ T' := by
  have hring := ht.ring
  rw [nodes_append, nodes_cons_live] at hring
  obtain ⟨front, p, hfront, hrest, hgraft⟩ := hring.cut
  have hfind := ht.findPrev rfl hfront hfuel
  obtain ⟨m, T₂', hjoin⟩ := ht.joinUpper rfl hrest
  have hfree : h.free fuel (lo + 16 * total T₁ + 16) =
      .ok { (h.joinUpper p (lo + 16 * total T₁)).joinLower p (lo + 16 * total T₁) with
        freep := p } := by
    rw [Heap.free, Nat.add_sub_cancel]
    simp only [hfind]
  rcases List.eq_nil_or_concat T₁ with rfl | ⟨T, t, rfl⟩
  · exact ⟨_, _, hfree, ht.joinLower_apart rfl hjoin hfront hgraft (by simp)⟩
  · rw [List.concat_eq_append] at *
    obtain ⟨k, live⟩ := t
    cases live with
    | true => exact ⟨_, _, hfree, ht.joinLower_apart rfl hjoin hfront hgraft (by simp)⟩
    | false => exact ⟨_, _, hfree, ht.joinLower_join rfl hjoin hfront hgraft⟩

end free

end Xv6.Umalloc
