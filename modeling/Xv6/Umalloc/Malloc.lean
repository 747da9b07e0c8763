/-
malloc on a row of blocks: its loop goes once around the free list, and once more after
morecore, which makes sure that there is a block to be found.
-/
import Xv6.Umalloc.Free

namespace Xv6.Umalloc

open Circular

/-- An address outside of the blocks, their first units apart. -/
def Clear (L : List (Nat × Nat)) (a : Nat) : Prop := ∀ x ∈ L, a ≤ x.1 ∨ x.1 + 16 * x.2 ≤ a

section take

variable {base lo k nunits prevp p fuel : Nat} {h : Heap} {T T₁ T₂ : List Tile}

theorem Tiled.clear (ht : Tiled base lo h T) {a : Nat} (ha : a ∈ base :: nodes lo T) :
    Clear (blocks true lo T) a := by
  intro x hx
  rcases List.mem_cons.mp ha with rfl | ha
  · have hbounds := blocks_bounds hx
    have hstatic := ht.static
    omega
  · obtain ⟨y, hy, rfl⟩ := List.mem_map.mp ha
    rcases blocks_apart ht.pos hx hy with ⟨-, hlive⟩ | hle | hle
    · cases hlive
    · exact .inr hle
    · exact .inl (by omega)

theorem Tiled.clear_live (ht : Tiled base lo h T) {y : Nat × Nat} (hy : y ∈ blocks true lo T) :
    Clear (blocks true lo T) y.1 := by
  intro x hx
  rcases blocks_apart ht.pos hx hy with ⟨rfl, -⟩ | hle | hle
  · exact .inl (Nat.le_refl _)
  · exact .inr hle
  · exact .inl (by omega)

/-- A node is where it is in the row. -/
theorem Tiled.exists_free (ht : Tiled base lo h T) (hp : p ∈ base :: nodes lo T)
    (hsize : 0 < h.size p) : ∃ T₁ T₂, T = T₁ ++ ⟨h.size p, false⟩ :: T₂ ∧
      p = lo + 16 * total T₁ := by
  rcases List.mem_cons.mp hp with rfl | hp
  · rw [ht.zero] at hsize
    exact absurd hsize (Nat.lt_irrefl 0)
  · obtain ⟨x, hx, rfl⟩ := List.mem_map.mp hp
    rw [ht.sizes false x hx]
    exact exists_split hx

/-- What malloc makes of the row: a new block in use at `b`. -/
structure Taken (base lo nunits : Nat) (h h' : Heap) (T T' : List Tile) (b : Nat) : Prop where
  tiled : Tiled base lo h' T'
  live : (blocks true lo T').Perm ((b, nunits) :: blocks true lo T)
  wrote : ∀ a ∈ h'.wrote, Clear (blocks true lo T) a ∨ a ∈ h.wrote

/-- The node before a node in the list. -/
theorem Tiled.pred_eq (ht : Tiled base lo h T) {x y : Nat} (hx : x ∈ base :: nodes lo T)
    (hy : y ∈ base :: nodes lo T) (hxy : h.next x = h.next y) (hne : h.next x ≠ base) :
    x = y ∧ x < h.next x := by
  rcases ht.ring.succ ht.sorted hx with ⟨-, hlt, hbetween⟩ | ⟨hbase, -⟩
  · rcases ht.ring.succ ht.sorted hy with ⟨-, hlt', hbetween'⟩ | ⟨hbase, -⟩
    · have hxle := hbetween' x hx
      have hyle := hbetween y hy
      omega
    · exact absurd (hxy.trans hbase) hne
  · exact absurd hbase hne

/-- malloc takes a whole block. -/
theorem Tiled.take_whole (ht : Tiled base lo h (T₁ ++ ⟨nunits, false⟩ :: T₂))
    (hp : p = lo + 16 * total T₁)
    (hprev : prevp ∈ base :: nodes lo (T₁ ++ ⟨nunits, false⟩ :: T₂))
    (hnext : h.next prevp = p) :
    Taken base lo nunits h { h.setPtr prevp (h.next p) with freep := prevp }
      (T₁ ++ ⟨nunits, false⟩ :: T₂) (T₁ ++ ⟨nunits, true⟩ :: T₂) p := by
  have hnodes : nodes lo (T₁ ++ ⟨nunits, false⟩ :: T₂) =
      nodes lo T₁ ++ p :: nodes (p + 16 * nunits) T₂ := by
    rw [nodes_append, nodes_cons_free, hp]
  have hn : 0 < nunits := ht.pos ⟨nunits, false⟩ (by simp)
  have hpos₁ : ∀ t ∈ T₁, 0 < t.units := fun t ht' => ht.pos t (by simp [ht'])
  have hpos₂ : ∀ t ∈ T₂, 0 < t.units := fun t ht' => ht.pos t (by simp [ht'])
  have hstatic := ht.static
  have hring := ht.ring
  rw [hnodes] at hring
  obtain ⟨front, y, hfront, hrest, hgraft⟩ := hring.cut
  have hymem : y ∈ base :: nodes lo T₁ := by
    rw [hfront]
    simp
  have hy : y ∈ base :: nodes lo (T₁ ++ ⟨nunits, false⟩ :: T₂) := by
    rw [hnodes, ← List.cons_append]
    exact List.mem_append_left _ hymem
  obtain ⟨rfl, hlt⟩ := ht.pred_eq hy hprev (hrest.1.trans hnext.symm) (by rw [hrest.1]; omega)
  have hlow : ∀ x ∈ front, x ≠ y := by
    intro x hx
    have hsorted := ht.sorted
    rw [hnodes, ← List.cons_append, List.pairwise_append, hfront, List.pairwise_append] at hsorted
    exact Nat.ne_of_lt (hsorted.1.2.2 x hx y (.head _))
  refine ⟨⟨ht.static, ?_, ?_, ?_, ?_, ?_, ?_, ?_, ?_⟩, ?_, ?_⟩
  · intro t ht'
    rcases List.mem_append.mp ht' with ht' | ht'
    · exact hpos₁ t ht'
    · rcases List.mem_cons.mp ht' with rfl | ht'
      · exact hn
      · exact hpos₂ t ht'
  · have hchain := List.isChain_append.mp ht.apart
    rw [List.isChain_append]
    refine ⟨hchain.1, ?_, fun t _ t' ht' => .inr ?_⟩
    · rw [List.isChain_cons]
      exact ⟨fun _ _ => .inl rfl, (List.isChain_cons.mp hchain.2.1).2⟩
    · obtain rfl : _ = t' := by simpa using ht'
      rfl
  · have hbrk := ht.brk
    simp only [total_append, total_cons] at hbrk ⊢
    exact hbrk
  · have htop := ht.top
    simpa only [total_append, total_cons] using htop
  · intro live x hx
    show (h.setPtr y _).size x.1 = x.2
    rw [Heap.size_setPtr]
    rw [blocks_append, List.mem_append, blocks] at hx
    have hold : ∀ live, blocks live lo (T₁ ++ ⟨nunits, false⟩ :: T₂) = blocks live lo T₁ ++
        blocks live (lo + 16 * total T₁) (⟨nunits, false⟩ :: T₂) :=
      fun live => blocks_append live lo T₁ _
    have htail : x ∈ blocks live (lo + 16 * total T₁ + 16 * nunits) T₂ → h.size x.1 = x.2 := by
      intro hx
      apply ht.sizes live x
      rw [hold, List.mem_append, blocks]
      split
      · exact .inr (.tail _ hx)
      · exact .inr hx
    rcases hx with hx | hx
    · exact ht.sizes live x (hold live ▸ List.mem_append_left _ hx)
    · split at hx
      · rcases List.mem_cons.mp hx with rfl | hx
        · apply ht.sizes false (lo + 16 * total T₁, nunits)
          rw [hold]
          simp [blocks]
        · exact htail hx
      · exact htail hx
  · show Leads (h.setPtr y (h.next p)).next base _ base
    rw [Heap.next_setPtr, nodes_append, nodes_cons_live, ← hp]
    apply hgraft
    · exact fun x hx => Function.update_of_ne (hlow x hx) ..
    · refine hrest.2.head_congr (Function.update_self ..) fun x hx => ?_
      have hbounds := nodes_bounds hpos₂ hx
      rw [hrest.1] at hlt
      exact Function.update_of_ne (by omega) ..
  · show (h.setPtr y _).size base = 0
    rw [Heap.size_setPtr]
    exact ht.zero
  · show y ∈ _
    rw [nodes_append, ← List.cons_append]
    exact List.mem_append_left _ hymem
  · rw [blocks_append, blocks_append, ← hp]
    exact List.perm_middle
  · intro a ha
    rcases List.mem_cons.mp ha with rfl | ha
    · exact .inl (ht.clear hprev)
    · exact .inr ha

/-- malloc takes the upper end of a block. -/
theorem Tiled.take_tail (ht : Tiled base lo h (T₁ ++ ⟨k, false⟩ :: T₂))
    (hp : p = lo + 16 * total T₁) (hn : 0 < nunits) (hlt : nunits < k)
    (hprev : prevp ∈ base :: nodes lo (T₁ ++ ⟨k, false⟩ :: T₂)) :
    Taken base lo nunits h
      { (h.setSize p (k - nunits)).setSize (p + 16 * (k - nunits)) nunits with freep := prevp }
      (T₁ ++ ⟨k, false⟩ :: T₂) (T₁ ++ ⟨k - nunits, false⟩ :: ⟨nunits, true⟩ :: T₂)
      (p + 16 * (k - nunits)) := by
  have haddr : p + 16 * (k - nunits) + 16 * nunits = p + 16 * k := by omega
  have hpos₁ : ∀ t ∈ T₁, 0 < t.units := fun t ht' => ht.pos t (by simp [ht'])
  have hpos₂ : ∀ t ∈ T₂, 0 < t.units := fun t ht' => ht.pos t (by simp [ht'])
  have hstatic := ht.static
  have hnodes : nodes lo (T₁ ++ ⟨k - nunits, false⟩ :: ⟨nunits, true⟩ :: T₂) =
      nodes lo (T₁ ++ ⟨k, false⟩ :: T₂) := by
    rw [nodes_append, nodes_append, nodes_cons_free, nodes_cons_free, nodes_cons_live, ← hp, haddr]
  have hlive : (blocks true lo (T₁ ++ ⟨k - nunits, false⟩ :: ⟨nunits, true⟩ :: T₂)).Perm
      ((p + 16 * (k - nunits), nunits) :: blocks true lo (T₁ ++ ⟨k, false⟩ :: T₂)) := by
    rw [blocks_append, blocks_append, ← hp]
    simp only [blocks, Bool.false_eq_true, if_false, if_true, haddr]
    exact List.perm_middle
  have hsize : ((h.setSize p (k - nunits)).setSize (p + 16 * (k - nunits)) nunits).size =
      Function.update (Function.update h.size p (k - nunits)) (p + 16 * (k - nunits)) nunits := by
    rw [Heap.size_setSize, Heap.size_setSize]
  have htiled : Tiled base lo
      { (h.setSize p (k - nunits)).setSize (p + 16 * (k - nunits)) nunits with freep := prevp }
      (T₁ ++ ⟨k - nunits, false⟩ :: ⟨nunits, true⟩ :: T₂) := by
    refine ⟨ht.static, ?_, ?_, ?_, ?_, ?_, ?_, ?_, ?_⟩
    · intro t ht'
      simp only [List.mem_append, List.mem_cons] at ht'
      rcases ht' with ht' | rfl | rfl | ht'
      · exact hpos₁ t ht'
      · exact Nat.sub_pos_of_lt hlt
      · exact hn
      · exact hpos₂ t ht'
    · have hchain := List.isChain_append.mp ht.apart
      rw [List.isChain_append]
      refine ⟨hchain.1, ?_, fun t ht' t' ht'' => ?_⟩
      · refine .cons_cons (.inr rfl) (List.isChain_cons.mpr ⟨fun _ _ => .inl rfl, ?_⟩)
        exact (List.isChain_cons.mp hchain.2.1).2
      · exact .inl ((hchain.2.2 t ht' _ rfl).resolve_right (by simp))
    · have hbrk := ht.brk
      simp only [total_append, total_cons] at hbrk ⊢
      show h.brk = _
      omega
    · have htop := ht.top
      simp only [total_append, total_cons] at htop ⊢
      omega
    · intro live x hx
      show ((h.setSize p _).setSize _ _).size x.1 = x.2
      rw [hsize]
      have hold : ∀ live, blocks live lo (T₁ ++ ⟨k, false⟩ :: T₂) = blocks live lo T₁ ++
          blocks live p (⟨k, false⟩ :: T₂) := by
        intro live
        rw [blocks_append, hp]
      rw [blocks_append, List.mem_append, ← hp] at hx
      simp only [blocks, haddr] at hx
      rcases hx with hx | hx
      · have hbounds := blocks_bounds hx
        have hunits := blocks_units hpos₁ hx
        rw [Function.update_of_ne (by omega), Function.update_of_ne (by omega)]
        exact ht.sizes live x (hold live ▸ List.mem_append_left _ hx)
      · have htail : x ∈ blocks live (p + 16 * k) T₂ →
            Function.update (Function.update h.size p (k - nunits)) (p + 16 * (k - nunits)) nunits
              x.1 = x.2 := by
          intro hx
          have hbounds := blocks_bounds hx
          rw [Function.update_of_ne (by omega), Function.update_of_ne (by omega)]
          apply ht.sizes live x
          rw [hold, List.mem_append, blocks]
          split
          · exact .inr (.tail _ hx)
          · exact .inr hx
        cases live with
        | true =>
            simp only [Bool.false_eq_true, if_false, if_true] at hx
            rcases List.mem_cons.mp hx with rfl | hx
            · exact Function.update_self ..
            · exact htail hx
        | false =>
            simp only [Bool.true_eq_false, if_false, if_true] at hx
            rcases List.mem_cons.mp hx with rfl | hx
            · simp only
              rw [Function.update_of_ne (by omega), Function.update_self]
            · exact htail hx
    · show Leads ((h.setSize p _).setSize _ _).next base _ base
      rw [Heap.next_setSize, Heap.next_setSize, hnodes]
      exact ht.ring
    · show ((h.setSize p _).setSize _ _).size base = 0
      rw [hsize, Function.update_of_ne (by omega), Function.update_of_ne (by omega)]
      exact ht.zero
    · show prevp ∈ _
      rw [hnodes]
      exact hprev
  refine ⟨htiled, hlive, fun a ha => ?_⟩
  simp only [Heap.wrote_setSize, List.mem_cons] at ha
  rcases ha with rfl | rfl | ha
  · left
    intro x hx
    exact htiled.clear_live (hlive.mem_iff.mpr (.head _)) x (hlive.mem_iff.mpr (.tail _ hx))
  · left
    apply ht.clear
    rw [nodes_append, nodes_cons_free, ← hp]
    simp
  · exact .inr ha

/-- malloc at a node whose block is large enough. -/
theorem Tiled.take (ht : Tiled base lo h T) (hn : 0 < nunits)
    (hprev : prevp ∈ base :: nodes lo T) (hp : p ∈ base :: nodes lo T)
    (hnext : h.next prevp = p) (hsize : nunits ≤ h.size p) :
    ∃ b h' T', h.take nunits prevp p = (some (b + 16), h') ∧
      Taken base lo nunits h h' T T' b := by
  obtain ⟨T₁, T₂, rfl, hsplit⟩ := ht.exists_free hp (by omega)
  unfold Heap.take
  split
  next heq =>
    rw [heq] at ht hprev hp ⊢
    exact ⟨p, _, _, rfl, ht.take_whole hsplit hprev hnext⟩
  next hne =>
    exact ⟨p + 16 * (h.size p - nunits), _, _, rfl,
      ht.take_tail hsplit hn (by omega) hprev⟩

end take

section search

variable {base lo nunits prevp fuel : Nat} {h : Heap} {T : List Tile} {grant : Nat → Bool}

/-- The loop of malloc when it comes back to freep. -/
def more (grant : Nat → Bool) (nunits n : Nat) (h : Heap) : Except Stop (Option Nat × Heap) := do
  match ← h.morecore grant n nunits with
  | (none, h) => .ok (none, h)
  | (some p, h) => h.search grant nunits n p (h.next p)

/-- Once around the list: there is a block, or none is large enough. -/
theorem search_around (grant : Nat → Bool) (nunits : Nat) {l : List Nat}
    (hl : Leads h.next prevp l h.freep)
    (hmem : ∀ x ∈ prevp :: l, x ∈ base :: nodes lo T) (hfreep : h.freep ∈ base :: nodes lo T)
    (hnot : h.freep ∉ l) (hfuel : l.length < fuel) :
    (∃ prev x, prev ∈ base :: nodes lo T ∧ x ∈ base :: nodes lo T ∧ h.next prev = x ∧
      nunits ≤ h.size x ∧
      Heap.search grant nunits fuel h prevp (h.next prevp) = .ok (h.take nunits prev x)) ∨
    ((∀ x ∈ l ++ [h.freep], h.size x < nunits) ∧ ∃ n, n + l.length + 1 = fuel ∧
      Heap.search grant nunits fuel h prevp (h.next prevp) = more grant nunits n h) := by
  induction l generalizing prevp fuel with
  | nil =>
      obtain ⟨n, rfl⟩ : ∃ n, fuel = n + 1 := ⟨fuel - 1, by omega⟩
      have hnext : h.next prevp = h.freep := hl
      rw [Heap.search, hnext]
      by_cases hsize : nunits ≤ h.size h.freep
      · rw [if_pos hsize]
        exact .inl ⟨prevp, h.freep, hmem prevp (.head _), hfreep, hnext, hsize, rfl⟩
      · rw [if_neg hsize, if_pos rfl]
        refine .inr ⟨fun x hx => ?_, n, rfl, rfl⟩
        obtain rfl := List.mem_singleton.mp hx
        omega
  | cons a l ih =>
      obtain ⟨n, rfl⟩ : ∃ n, fuel = n + 1 := ⟨fuel - 1, by omega⟩
      rw [List.length_cons] at hfuel
      rw [Heap.search, hl.1]
      by_cases hsize : nunits ≤ h.size a
      · rw [if_pos hsize]
        exact .inl ⟨prevp, a, hmem prevp (.head _), hmem a (.tail _ (.head _)), hl.1, hsize, rfl⟩
      · have ha : a ≠ h.freep := fun heq => hnot (heq ▸ .head _)
        rw [if_neg hsize, if_neg ha]
        rcases ih hl.2 (fun x hx => hmem x (.tail _ hx)) (fun hx => hnot (.tail _ hx))
          (Nat.lt_of_succ_lt_succ hfuel) with hfound | ⟨hsmall, m, hm, hmore⟩
        · exact .inl hfound
        · refine .inr ⟨fun x hx => ?_, m, by rw [List.length_cons]; omega, hmore⟩
          rcases List.mem_cons.mp hx with rfl | hx
          · omega
          · exact hsmall x hx

/-- The loop of malloc from freep. -/
theorem Tiled.search (ht : Tiled base lo h T) (grant : Nat → Bool) (hn : 0 < nunits)
    (fuel : Nat) (hfuel : (nodes lo T).length < fuel) :
    (∃ b h' T', Heap.search grant nunits fuel h h.freep (h.next h.freep) =
      .ok (some (b + 16), h') ∧ Taken base lo nunits h h' T T' b) ∨
    ((∀ x ∈ base :: nodes lo T, h.size x < nunits) ∧
      ∃ n, n + (nodes lo T).length + 1 = fuel ∧
        Heap.search grant nunits fuel h h.freep (h.next h.freep) = more grant nunits n h) := by
  obtain ⟨l, hl, hperm⟩ := ht.ring.rotate ht.freep
  have hlen : l.length = (nodes lo T).length := by
    have hlength := hperm.length_eq
    simpa using hlength
  have hnodup : (h.freep :: l).Nodup :=
    hperm.nodup_iff.mpr (ht.sorted.imp fun hlt => Nat.ne_of_lt hlt)
  have hmem : ∀ x ∈ h.freep :: l, x ∈ base :: nodes lo T := fun x hx => hperm.mem_iff.mp hx
  rcases search_around grant nunits hl hmem ht.freep (List.nodup_cons.mp hnodup).1
      (hlen ▸ hfuel) with
    ⟨prev, x, hprev, hx, hnext, hsize, hsearch⟩ | ⟨hsmall, n, hfuel', hmore⟩
  · obtain ⟨b, h', T', htake, htaken⟩ := ht.take hn hprev hx hnext hsize
    exact .inl ⟨b, h', T', by rw [hsearch, htake], htaken⟩
  · refine .inr ⟨fun x hx => ?_, n, by rw [← hlen, hfuel'], hmore⟩
    apply hsmall
    have hx' := hperm.mem_iff.mpr hx
    simpa [or_comm] using hx'

/-- morecore appends to the row, and to its last block if that is free. -/
theorem Tiled.morecore (ht : Tiled base lo h T) (grant : Nat → Bool) (hn : 0 < nunits)
    (fuel : Nat) (hfuel : (nodes lo T).length < fuel) :
    (h.morecore grant fuel nunits = .error .negative ∧ 2 ^ 31 ≤ 16 * nunits) ∨
    h.morecore grant fuel nunits = .ok (none, h) ∨
    ∃ h' T', h.morecore grant fuel nunits = .ok (some h'.freep, h') ∧ Tiled base lo h' T' ∧
      (∃ x ∈ blocks false lo T', nunits ≤ x.2) ∧ blocks true lo T' = blocks true lo T ∧
      (nodes lo T').length ≤ (nodes lo T).length + 1 ∧
      ∀ a ∈ h'.wrote, Clear (blocks true lo T) a ∨ a ∈ h.wrote := by
  obtain ⟨nu, hnu⟩ : ∃ nu, nu = if nunits < 4096 then 4096 else nunits := ⟨_, rfl⟩
  have hle : nunits ≤ nu := by
    rw [hnu]
    split <;> omega
  simp only [Heap.morecore, Heap.sbrk, ← hnu]
  by_cases hneg : nu * 16 ≥ 2 ^ 31
  · left
    rw [if_pos hneg]
    refine ⟨rfl, ?_⟩
    rw [hnu] at hneg
    split at hneg <;> omega
  · rw [if_neg hneg]
    right
    by_cases hgrant : grant h.brk = true ∧ h.brk + nu * 16 ≤ USERTOP
    · rw [if_pos hgrant]
      right
      have hbrk := ht.brk
      have hold : ∀ live, blocks live lo (T ++ [⟨nu, true⟩]) =
          blocks live lo T ++ blocks live h.brk [⟨nu, true⟩] := by
        intro live
        rw [blocks_append, hbrk]
      have hnodes : nodes lo (T ++ [⟨nu, true⟩]) = nodes lo T := by
        rw [nodes_append]
        simp [nodes, blocks]
      have hgrown : Tiled base lo ({ h with brk := h.brk + nu * 16 }.setSize h.brk nu)
          (T ++ [⟨nu, true⟩]) := by
        have hstatic := ht.static
        refine ⟨ht.static, ?_, ?_, ?_, ?_, ?_, ?_, ?_, ?_⟩
        · intro t ht'
          rcases List.mem_append.mp ht' with ht' | ht'
          · exact ht.pos t ht'
          · obtain rfl := List.mem_singleton.mp ht'
            exact Nat.lt_of_lt_of_le hn hle
        · rw [List.isChain_append]
          refine ⟨ht.apart, .singleton _, fun t _ t' ht' => .inr ?_⟩
          obtain rfl : _ = t' := by simpa using ht'
          rfl
        · simp only [total_append, total_cons, total_nil, Heap.brk_setSize]
          omega
        · simp only [total_append, total_cons, total_nil]
          omega
        · intro live x hx
          rw [Heap.size_setSize]
          rw [hold, List.mem_append] at hx
          rcases hx with hx | hx
          · have hbounds := blocks_bounds hx
            have hunits := blocks_units ht.pos hx
            rw [Function.update_of_ne (by omega)]
            exact ht.sizes live x hx
          · cases live with
            | true =>
                obtain rfl := List.mem_singleton.mp hx
                exact Function.update_self ..
            | false => cases hx
        · rw [Heap.next_setSize, hnodes]
          exact ht.ring
        · rw [Heap.size_setSize, Function.update_of_ne (by omega)]
          exact ht.zero
        · rw [hnodes]
          exact ht.freep
      obtain ⟨h', T', hfree, hfreed⟩ := hgrown.free fuel (by rwa [hnodes])
      have hlive : blocks true lo T' = blocks true lo T := by
        rw [hfreed.live]
        simp [blocks]
      refine ⟨h', T', ?_, hfreed.tiled, ?_, hlive, ?_, ?_⟩
      · rw [← hbrk] at hfree
        show (do
          let h ← ({ h with brk := h.brk + nu * 16 }.setSize h.brk nu).free fuel (h.brk + 16)
          Except.ok (some h.freep, h)) = _
        rw [hfree]
        rfl
      · obtain ⟨x, hx, hxle⟩ := hfreed.room
        exact ⟨x, hx, Nat.le_trans hle hxle⟩
      · have hcount := hfreed.count
        simpa [nodes, blocks] using hcount
      · intro a ha
        have hclear : ∀ a, Clear (blocks true lo (T ++ [⟨nu, true⟩])) a →
            Clear (blocks true lo T) a := by
          intro a hclear x hx
          exact hclear x (hold true ▸ List.mem_append_left _ hx)
        have hnew : h.brk = lo + 16 * total T := hbrk
        have hbrkClear : Clear (blocks true lo T) h.brk := by
          intro x hx
          have hbounds := blocks_bounds hx
          omega
        rcases hfreed.wrote a ha with rfl | ha | ha
        · exact .inl (hnew ▸ hbrkClear)
        · exact .inl (ht.clear ha)
        · rcases List.mem_cons.mp ha with rfl | ha
          · exact .inl hbrkClear
          · exact .inr ha
    · rw [if_neg hgrant]
      exact .inl rfl

/-- What the loop of malloc does from freep: a new block, none because memory does not grow,
or a request that is no int. -/
theorem Tiled.malloc (ht : Tiled base lo h T) (grant : Nat → Bool) (hn : 0 < nunits)
    (hfuel : 2 * (nodes lo T).length + 3 < fuel) :
    (Heap.search grant nunits fuel h h.freep (h.next h.freep) = .error .negative ∧
      2 ^ 31 ≤ 16 * nunits) ∨
    Heap.search grant nunits fuel h h.freep (h.next h.freep) = .ok (none, h) ∨
    ∃ b h' T', Heap.search grant nunits fuel h h.freep (h.next h.freep) =
      .ok (some (b + 16), h') ∧ Taken base lo nunits h h' T T' b := by
  rcases ht.search grant hn fuel (by omega) with hfound | ⟨-, n, hn', hmore⟩
  · exact .inr (.inr hfound)
  · rw [hmore, more]
    rcases ht.morecore grant hn n (by omega) with
      ⟨hneg, hlarge⟩ | hnone | ⟨h', T', hmorecore, ht', ⟨x, hx, hroom⟩, hlive, hcount, hwrote⟩
    · rw [hneg]
      exact .inl ⟨rfl, hlarge⟩
    · rw [hnone]
      exact .inr (.inl rfl)
    · rw [hmorecore]
      right
      right
      rcases ht'.search grant hn n (by omega) with
        ⟨b, h'', T'', hsearch, htaken⟩ | ⟨hsmall, -⟩
      · refine ⟨b, h'', T'', hsearch, htaken.tiled, hlive ▸ htaken.live, fun a ha => ?_⟩
        rcases htaken.wrote a ha with hclear | ha
        · exact .inl (hlive ▸ hclear)
        · exact hwrote a ha
      · exfalso
        have hsize := hsmall x.1 (.tail _ (List.mem_map_of_mem hx))
        rw [ht'.sizes false x hx] at hsize
        omega

end search

end Xv6.Umalloc
