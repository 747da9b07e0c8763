/-
What iappend keeps: every file has its blocks to itself, in order, with its bytes in them.
-/
import Xv6.Lib.Outcome
import Xv6.Mkfs.Image

namespace Xv6.Mkfs

open Bytes Fs Outcome

/-- What a block is used for. -/
inductive Use
  | data (inum bn : Nat)
  | indirect (inum : Nat)

def Use.inum : Use → Nat
  | .data inum _ => inum
  | .indirect inum => inum

/-- The address of block `bn` of a file, as it is in the inode or in its indirect block. -/
def blockOf (disk : Blocks) (d : Dinode) (bn : Nat) : Nat :=
  if bn < NDIRECT then (d.addrs bn).toNat
  else getLE 4 (disk (d.addrs NDIRECT).toNat) (4 * (bn - NDIRECT))

variable {im im' : Image} {owner owner' : Nat → Option Use} {inum a m off fbn : Nat}
  {d d' : Dinode} {w p : List UInt8} {u : Use}

theorem blockOf_congr {disk disk' : Blocks} {bn : Nat} (h : bn < NDIRECT ∨
    disk' (d.addrs NDIRECT).toNat = disk (d.addrs NDIRECT).toNat) :
    blockOf disk' d bn = blockOf disk d bn := by
  unfold blockOf
  split
  · rfl
  next hge => rw [h.resolve_left hge]

/-- Block `a` is taken, for `u`. -/
structure Owned (im : Image) (owner : Nat → Option Use) (a : Nat) (u : Use) : Prop where
  owns : owner a = some u
  low : nmeta ≤ a
  taken : a < im.freeblock

/-- The file `inum` with contents `w` in its first `m` blocks. -/
structure FileAt (im : Image) (owner : Nat → Option Use) (inum : Nat) (d : Dinode) (m : Nat)
    (w : List UInt8) : Prop where
  room : w.length ≤ m * BSIZE
  max : m ≤ MAXFILE
  data : ∀ bn, bn < m → Owned im owner (blockOf im.disk d bn) (.data inum bn)
  direct : ∀ bn, m ≤ bn → bn < NDIRECT → d.addrs bn = 0
  ind : NDIRECT < m → Owned im owner (d.addrs NDIRECT).toNat (.indirect inum) ∧
    ∀ bn, m ≤ bn → bn < MAXFILE → blockOf im.disk d bn = 0
  noind : m ≤ NDIRECT → d.addrs NDIRECT = 0
  bytes : ∀ k v, w[k]? = some v → im.disk (blockOf im.disk d (k / BSIZE)) (k % BSIZE) = v
  addrs : ∀ i, NDIRECT < i → d.addrs i = 0

/-- The image grows: blocks are taken, and only blocks of `inum` are written. -/
structure Grows (im im' : Image) (owner owner' : Nat → Option Use) (inum : Nat) : Prop where
  freeblock : im.freeblock ≤ im'.freeblock
  owns : ∀ a, a < im.freeblock → owner' a = owner a
  disk : ∀ a, a < im.freeblock → (∀ u, owner a = some u → u.inum ≠ inum) →
    im'.disk a = im.disk a
  zero : ∀ a, im'.freeblock ≤ a → im'.disk a = im.disk a
  nsect : im'.nsect = im.nsect
  freeinode : im'.freeinode = im.freeinode

theorem Grows.refl (im : Image) (owner : Nat → Option Use) (inum : Nat) :
    Grows im im owner owner inum :=
  ⟨Nat.le_refl _, fun _ _ => rfl, fun _ _ _ => rfl, fun _ _ => rfl, rfl, rfl⟩

theorem Grows.trans {im'' : Image} {owner'' : Nat → Option Use}
    (h : Grows im im' owner owner' inum) (h' : Grows im' im'' owner' owner'' inum) :
    Grows im im'' owner owner'' inum where
  freeblock := Nat.le_trans h.freeblock h'.freeblock
  owns a ha := (h'.owns a (Nat.lt_of_lt_of_le ha h.freeblock)).trans (h.owns a ha)
  disk a ha hu := by
    rw [h'.disk a (Nat.lt_of_lt_of_le ha h.freeblock), h.disk a ha hu]
    rwa [h.owns a ha]
  zero a ha := (h'.zero a ha).trans (h.zero a (Nat.le_trans h'.freeblock ha))
  nsect := h'.nsect.trans h.nsect
  freeinode := h'.freeinode.trans h.freeinode

theorem Grows.owned (h : Grows im im' owner owner' inum) (ha : Owned im owner a u) :
    Owned im' owner' a u :=
  ⟨(h.owns a ha.taken).trans ha.owns, ha.low, Nat.lt_of_lt_of_le ha.taken h.freeblock⟩

theorem Owned.unique (h : Owned im owner a u) {v : Use} (h' : Owned im owner a v) : u = v :=
  Option.some.inj (h.owns.symm.trans h'.owns)

theorem FileAt.data_used (h : FileAt im owner inum d m w) {k : Nat} {v : UInt8}
    (hk : w[k]? = some v) : k / BSIZE < m := by
  have hlt := (List.getElem?_eq_some_iff.mp hk).1
  have hroom := h.room
  exact Nat.div_lt_of_lt_mul (by rw [Nat.mul_comm]; omega)

/-- The other files do not change. -/
theorem FileAt.grows (h : FileAt im owner inum d m w) {other : Nat}
    (hg : Grows im im' owner owner' other) (hne : inum ≠ other) :
    FileAt im' owner' inum d m w := by
  have hsame : ∀ {a u}, Owned im owner a u → u.inum = inum → im'.disk a = im.disk a := by
    intro a u ha hu
    apply hg.disk a ha.taken
    intro v hv
    obtain rfl : u = v := Option.some.inj (ha.owns.symm.trans hv)
    rwa [hu]
  have hblock : ∀ bn, (bn < NDIRECT ∨ NDIRECT < m) →
      blockOf im'.disk d bn = blockOf im.disk d bn := by
    intro bn hbn
    exact blockOf_congr (hbn.imp_right fun hm => hsame (h.ind hm).1 rfl)
  have hcases : ∀ bn, bn < m → bn < NDIRECT ∨ NDIRECT < m := fun bn hbn => by omega
  refine ⟨h.room, h.max, fun bn hbn => ?_, h.direct, fun hm => ⟨hg.owned (h.ind hm).1, ?_⟩,
    h.noind, fun k v hk => ?_, h.addrs⟩
  · rw [hblock bn (hcases bn hbn)]
    exact hg.owned (h.data bn hbn)
  · intro bn hbn hmax
    rw [hblock bn (.inr hm)]
    exact (h.ind hm).2 bn hbn hmax
  · have hused := h.data_used hk
    rw [hblock _ (hcases _ hused), hsame (h.data _ hused) rfl]
    exact h.bytes k v hk

/-- What holds of the whole image between calls. -/
structure Sound (im : Image) (owner : Nat → Option Use) : Prop where
  nsect : im.nsect = FSSIZE
  low : nmeta ≤ im.freeblock
  top : im.freeblock ≤ FSSIZE
  owns : ∀ a u, owner a = some u → nmeta ≤ a ∧ a < im.freeblock
  zero : ∀ a, im.freeblock ≤ a → im.disk a = fun _ => 0

/-- A new block for the file. -/
theorem Sound.take (hs : Sound im owner) (hlt : im.freeblock < FSSIZE) (u : Use) :
    Sound { im with freeblock := im.freeblock + 1 }
      (Function.update owner im.freeblock (some u)) ∧
    Owned { im with freeblock := im.freeblock + 1 }
      (Function.update owner im.freeblock (some u)) im.freeblock u ∧
    Grows im { im with freeblock := im.freeblock + 1 } owner
      (Function.update owner im.freeblock (some u)) u.inum := by
  refine ⟨⟨hs.nsect, Nat.le_succ_of_le hs.low, hlt, ?_, ?_⟩, ⟨Function.update_self .., hs.low,
    Nat.lt_succ_self _⟩, ⟨Nat.le_succ _, ?_, fun _ _ _ => rfl, fun _ _ => rfl, rfl, rfl⟩⟩
  · intro a v hv
    by_cases ha : a = im.freeblock
    · subst ha
      exact ⟨hs.low, Nat.lt_succ_self _⟩
    · rw [Function.update_of_ne ha] at hv
      have hold := hs.owns a v hv
      exact ⟨hold.1, Nat.lt_succ_of_lt hold.2⟩
  · exact fun a ha => hs.zero a (Nat.le_of_succ_le ha)
  · exact fun a ha => Function.update_of_ne (Nat.ne_of_lt ha) ..

/-- A store to a block of the file. -/
theorem Sound.write (hs : Sound im owner) (ha : Owned im owner a u) (buf : Arr) :
    Sound (im.wsect a buf) owner ∧ Grows im (im.wsect a buf) owner owner u.inum := by
  have htaken := ha.taken
  have htop := hs.top
  have hsect := hs.nsect
  have hnsect : (im.wsect a buf).nsect = im.nsect := by
    simp only [Image.wsect]
    omega
  have hfree : ∀ b, im.freeblock ≤ b → (im.wsect a buf).disk b = im.disk b := by
    intro b hb
    exact Function.update_of_ne (by omega) ..
  refine ⟨⟨hnsect.trans hsect, hs.low, hs.top, hs.owns, fun b hb => ?_⟩,
    ⟨Nat.le_refl _, fun _ _ => rfl, fun b _ hu => ?_, hfree, hnsect, rfl⟩⟩
  · rw [hfree b hb, hs.zero b hb]
  · apply Function.update_of_ne
    rintro rfl
    exact hu u ha.owns rfl

theorem toNat_freeblock (im : Image) (hlt : im.freeblock < FSSIZE) :
    (UInt32.ofNat im.freeblock).toNat = im.freeblock := by
  simp only [FSSIZE] at hlt
  exact UInt32.toNat_ofNat_of_lt' (by simp only [UInt32.size]; omega)

theorem nmeta_pos : 0 < nmeta := by decide

theorem Owned.ne_zero (h : Owned im owner a u) : a ≠ 0 := by
  have hlow := h.low
  have hpos := nmeta_pos
  omega

/-- One more block at the end of the file. -/
theorem FileAt.extend (h : FileAt im owner inum d m w) (hg : Grows im im' owner owner' inum)
    (hmax : m < MAXFILE) (hblock : ∀ bn, bn < m → blockOf im'.disk d' bn = blockOf im.disk d bn)
    (hnew : Owned im' owner' (blockOf im'.disk d' m) (.data inum m))
    (hdata : ∀ a bn, owner a = some (.data inum bn) → im'.disk a = im.disk a)
    (hdirect : ∀ bn, m + 1 ≤ bn → bn < NDIRECT → d'.addrs bn = 0)
    (hind : NDIRECT < m + 1 → Owned im' owner' (d'.addrs NDIRECT).toNat (.indirect inum) ∧
      ∀ bn, m + 1 ≤ bn → bn < MAXFILE → blockOf im'.disk d' bn = 0)
    (hnoind : m + 1 ≤ NDIRECT → d'.addrs NDIRECT = 0)
    (haddrs : ∀ i, NDIRECT < i → d'.addrs i = 0) : FileAt im' owner' inum d' (m + 1) w := by
  have hroom := h.room
  refine ⟨by rw [Nat.succ_mul]; omega, hmax, fun bn hbn => ?_, hdirect, hind, hnoind, ?_, haddrs⟩
  · by_cases heq : bn = m
    · exact heq ▸ hnew
    · rw [hblock bn (by omega)]
      exact hg.owned (h.data bn (by omega))
  · intro k v hk
    have hused := h.data_used hk
    rw [hblock _ hused, hdata _ _ (h.data _ hused).owns]
    exact h.bytes k v hk

/-- What `block` makes of the file. -/
structure Found (im im' : Image) (owner owner' : Nat → Option Use) (inum : Nat) (d d' : Dinode)
    (m fbn x : Nat) (w : List UInt8) : Prop where
  sound : Sound im' owner'
  grows : Grows im im' owner owner' inum
  file : FileAt im' owner' inum d' (max m (fbn + 1)) w
  block : blockOf im'.disk d' fbn = x
  same : d'.type = d.type ∧ d'.nlink = d.nlink ∧ d'.major = d.major ∧ d'.minor = d.minor ∧
    d'.size = d.size

theorem found_same (hs : Sound im owner) (hf : FileAt im owner inum d m w) (hfbn : fbn < m) :
    Found im im owner owner inum d d m fbn (blockOf im.disk d fbn) w := by
  refine ⟨hs, Grows.refl .., ?_, rfl, rfl, rfl, rfl, rfl, rfl⟩
  rwa [Nat.max_eq_left hfbn]

/-- A new block with an address in the inode. -/
theorem found_direct (hs : Sound im owner) (hf : FileAt im owner inum d m w) (hm : m < NDIRECT)
    (hlt : im.freeblock < FSSIZE) :
    Found im { im with freeblock := im.freeblock + 1 } owner
      (Function.update owner im.freeblock (some (.data inum m))) inum d
      { d with addrs := Function.update d.addrs m (UInt32.ofNat im.freeblock) } m m
      im.freeblock w := by
  obtain ⟨hs', hown, hg⟩ := hs.take hlt (.data inum m)
  have hother : ∀ i, i ≠ m →
      Function.update d.addrs m (UInt32.ofNat im.freeblock) i = d.addrs i :=
    fun i hi => Function.update_of_ne hi ..
  have hblock : blockOf im.disk
      { d with addrs := Function.update d.addrs m (UInt32.ofNat im.freeblock) } m =
        im.freeblock := by
    simp only [blockOf, if_pos hm, Function.update_self]
    exact toNat_freeblock im hlt
  refine ⟨hs', hg, ?_, hblock, rfl, rfl, rfl, rfl, rfl⟩
  rw [Nat.max_eq_right (Nat.le_succ m)]
  refine hf.extend hg (Nat.lt_of_lt_of_le hm (by decide)) (fun bn hbn => ?_) ?_
    (fun _ _ _ => rfl) (fun bn hbn hd => ?_) (fun hind => absurd hind (by omega)) (fun _ => ?_)
    (fun i hi => ?_)
  · have hd : bn < NDIRECT := by omega
    simp only [blockOf, if_pos hd, hother bn (by omega)]
  · exact hblock.symm ▸ hown
  · exact (hother bn (by omega)).trans (hf.direct bn (by omega) hd)
  · exact (hother NDIRECT (by omega)).trans (hf.noind (by omega))
  · exact (hother i (by omega)).trans (hf.addrs i hi)

/-- A new block with an address in the indirect block. -/
theorem found_indirect (hs : Sound im owner) (hf : FileAt im owner inum d m w)
    (hm : NDIRECT < m) (hmax : m < MAXFILE) (hlt : im.freeblock < FSSIZE) :
    Found im ({ im with freeblock := im.freeblock + 1 }.wsect (d.addrs NDIRECT).toNat
        (putLE 4 (im.disk (d.addrs NDIRECT).toNat) (4 * (m - NDIRECT)) im.freeblock)) owner
      (Function.update owner im.freeblock (some (.data inum m))) inum d d m m
      im.freeblock w := by
  obtain ⟨hs₁, hown, hg₁⟩ := hs.take hlt (.data inum m)
  have hind := (hf.ind hm).1
  obtain ⟨hs₂, hg₂⟩ := hs₁.write (hg₁.owned hind)
    (putLE 4 (im.disk (d.addrs NDIRECT).toNat) (4 * (m - NDIRECT)) im.freeblock)
  have hg := hg₁.trans hg₂
  have hnew : blockOf ({ im with freeblock := im.freeblock + 1 }.wsect (d.addrs NDIRECT).toNat
      (putLE 4 (im.disk (d.addrs NDIRECT).toNat) (4 * (m - NDIRECT)) im.freeblock)).disk d m =
        im.freeblock := by
    have hge : ¬ m < NDIRECT := by omega
    simp only [FSSIZE] at hlt
    simp only [blockOf, if_neg hge, Image.wsect, Function.update_self, getLE_putLE_self]
    omega
  have hold : ∀ bn, bn ≠ m → blockOf ({ im with freeblock := im.freeblock + 1 }.wsect
      (d.addrs NDIRECT).toNat (putLE 4 (im.disk (d.addrs NDIRECT).toNat) (4 * (m - NDIRECT))
        im.freeblock)).disk d bn = blockOf im.disk d bn := by
    intro bn hne
    unfold blockOf
    split
    · rfl
    · simp only [Image.wsect, Function.update_self]
      exact getLE_putLE_of_disjoint (by omega)
  refine ⟨hs₂, hg, ?_, hnew, rfl, rfl, rfl, rfl, rfl⟩
  rw [Nat.max_eq_right (Nat.le_succ m)]
  refine hf.extend hg hmax (fun bn hbn => hold bn (by omega)) ?_ (fun a bn ha => ?_)
    (fun bn hbn hd => absurd hd (by omega)) (fun _ => ⟨hg.owned hind, fun bn hbn hb => ?_⟩)
    (fun h => absurd h (by omega)) hf.addrs
  · rw [hnew]
    exact hg₂.owned hown
  · apply Function.update_of_ne
    rintro rfl
    have heq := hind.owns.symm.trans ha
    cases heq
  · rw [hold bn (by omega)]
    exact (hf.ind hm).2 bn (by omega) hb

/-- The first block that needs the indirect block, which is new too. -/
theorem found_first (hs : Sound im owner) (hf : FileAt im owner inum d NDIRECT w)
    (hlt : im.freeblock + 1 < FSSIZE) :
    ∃ owner', Found im ({ im with freeblock := im.freeblock + 1 + 1 }.wsect im.freeblock
        (putLE 4 (im.disk im.freeblock) 0 (im.freeblock + 1))) owner owner' inum d
      { d with addrs := Function.update d.addrs NDIRECT (UInt32.ofNat im.freeblock) }
      NDIRECT NDIRECT (im.freeblock + 1) w := by
  obtain ⟨hs₁, hown₁, hg₁⟩ := hs.take (by omega) (.indirect inum)
  obtain ⟨hs₂, hown₂, hg₂⟩ := hs₁.take hlt (.data inum NDIRECT)
  obtain ⟨hs₃, hg₃⟩ := hs₂.write (hg₂.owned hown₁)
    (putLE 4 (im.disk im.freeblock) 0 (im.freeblock + 1))
  have hg := (hg₁.trans hg₂).trans hg₃
  have hnat := toNat_freeblock im (by omega)
  have hother : ∀ i, i ≠ NDIRECT →
      Function.update d.addrs NDIRECT (UInt32.ofNat im.freeblock) i = d.addrs i :=
    fun i hi => Function.update_of_ne hi ..
  have hzero : im.disk im.freeblock = fun _ => 0 := hs.zero _ (Nat.le_refl _)
  have hnew : blockOf ({ im with freeblock := im.freeblock + 1 + 1 }.wsect im.freeblock
      (putLE 4 (im.disk im.freeblock) 0 (im.freeblock + 1))).disk
      { d with addrs := Function.update d.addrs NDIRECT (UInt32.ofNat im.freeblock) } NDIRECT =
        im.freeblock + 1 := by
    simp only [FSSIZE] at hlt
    simp only [blockOf, Nat.lt_irrefl, if_false, Image.wsect, Function.update_self, hnat,
      Nat.sub_self, Nat.mul_zero, getLE_putLE_self]
    omega
  refine ⟨_, hs₃, hg, ?_, hnew, rfl, rfl, rfl, rfl, rfl⟩
  rw [Nat.max_eq_right (Nat.le_succ NDIRECT)]
  refine hf.extend hg (by decide) (fun bn hbn => ?_) ?_ (fun a bn ha => ?_)
    (fun bn hbn hd => absurd hd (by omega)) (fun _ => ⟨?_, fun bn hbn hb => ?_⟩)
    (fun h => absurd h (by omega)) (fun i hi => (hother i (by omega)).trans (hf.addrs i hi))
  · simp only [blockOf, if_pos hbn, hother bn (by omega)]
  · rw [hnew]
    exact hg₃.owned hown₂
  · have hlow := hs.owns a _ ha
    exact Function.update_of_ne (by omega) ..
  · simp only [Function.update_self, hnat]
    exact hg₃.owned (hg₂.owned hown₁)
  · have hge : ¬ bn < NDIRECT := by omega
    simp only [blockOf, if_neg hge, Image.wsect, Function.update_self, hnat]
    rw [getLE_putLE_of_disjoint (by omega), hzero, getLE_zero]

theorem FileAt.addr_ne_zero (hf : FileAt im owner inum d m w) (fbn : Nat) (hfbn : fbn < m) :
    blockOf im.disk d fbn ≠ 0 :=
  (hf.data fbn hfbn).ne_zero

/-- The branches of iappend, if there is a sector for the block that they find. -/
theorem block_found {x : Nat} (hs : Sound im owner) (hf : FileAt im owner inum d m w)
    (hfbn : fbn ≤ m) (hmax : fbn < MAXFILE) (h : im.block d fbn = .ok (x, d', im'))
    (hx : x < im'.nsect) : ∃ owner', Found im im' owner owner' inum d d' m fbn x w := by
  have hsect := hs.nsect
  unfold Image.block at h
  split at h
  next hd =>
    split at h
    next hzero =>
      -- The file ends before this block, so it is the next one.
      have heq : fbn = m := by
        by_contra hne
        apply hf.addr_ne_zero fbn (by omega)
        simp only [blockOf, if_pos hd, hzero]
        rfl
      subst heq
      simp only [Function.update_self, Except.ok.injEq, Prod.mk.injEq] at h
      obtain ⟨rfl, rfl, rfl⟩ := h
      have hlt : im.freeblock < FSSIZE := by
        have htop := hs.top
        by_contra hge
        have hfull : im.freeblock = FSSIZE := by omega
        rw [hfull] at hx
        simp only [hsect] at hx
        exact absurd hx (by decide)
      rw [toNat_freeblock im hlt]
      exact ⟨_, found_direct hs hf hd hlt⟩
    next hne =>
      simp only [Except.ok.injEq, Prod.mk.injEq] at h
      obtain ⟨rfl, rfl, rfl⟩ := h
      have hlt : fbn < m := by
        by_contra hge
        exact hne (hf.direct fbn (by omega) hd)
      have hfound := found_same hs hf hlt
      simp only [blockOf, if_pos hd] at hfound
      exact ⟨owner, hfound⟩
  next hge =>
    by_cases hind : d.addrs NDIRECT = 0
    · have hm : m = NDIRECT := by
        by_contra hne
        have howned := (hf.ind (by omega)).1.ne_zero
        rw [hind] at howned
        exact howned rfl
      have heq : fbn = NDIRECT := by omega
      subst hm heq
      simp only [if_pos hind, Function.update_self] at h
      obtain ⟨indirect, hread, h⟩ := ok_of_bind h
      unfold Image.rsect at hread
      split at hread
      next hlt =>
        cases hread
        have hlt' : im.freeblock < FSSIZE := by
          have htop := hs.top
          by_contra hge
          have hfull : im.freeblock = FSSIZE := by omega
          rw [hfull] at hlt
          simp only [hsect] at hlt
          exact absurd hlt (by decide)
        have hnat := toNat_freeblock im hlt'
        simp only [hnat] at h
        rw [hs.zero _ (Nat.le_refl _), getLE_zero, if_pos rfl] at h
        simp only [Nat.sub_self, Nat.mul_zero, getLE_putLE_self, Except.ok.injEq,
          Prod.mk.injEq] at h
        obtain ⟨rfl, rfl, rfl⟩ := h
        have hbound : im.freeblock + 1 < FSSIZE := by
          simp only [Image.wsect, hsect] at hx
          simp only [FSSIZE] at hlt' hx ⊢
          omega
        obtain ⟨owner', hfound⟩ := found_first hs hf hbound
        have hmod : (im.freeblock + 1) % 256 ^ 4 = im.freeblock + 1 := by
          simp only [FSSIZE] at hbound
          omega
        rw [hmod, ← hs.zero _ (Nat.le_refl _)]
        exact ⟨owner', hfound⟩
      next => cases hread
    · have hm : NDIRECT < m := by
        by_contra hle
        exact hind (hf.noind (by omega))
      simp only [if_neg hind] at h
      obtain ⟨indirect, hread, h⟩ := ok_of_bind h
      have howned := (hf.ind hm).1
      have hread' : im.rsect (d.addrs NDIRECT).toNat = .ok (im.disk (d.addrs NDIRECT).toNat) := by
        have htaken := howned.taken
        have htop := hs.top
        exact if_pos (by omega)
      rw [hread'] at hread
      cases hread
      have hentry : getLE 4 (im.disk (d.addrs NDIRECT).toNat) (4 * (fbn - NDIRECT)) =
          blockOf im.disk d fbn := by
        rw [blockOf, if_neg hge]
      split at h
      next hzero =>
        have heq : fbn = m := by
          by_contra hne
          apply hf.addr_ne_zero fbn (by omega)
          rw [← hentry, hzero]
        subst heq
        simp only [getLE_putLE_self, Except.ok.injEq, Prod.mk.injEq] at h
        obtain ⟨rfl, rfl, rfl⟩ := h
        have htop := hs.top
        have hlt : im.freeblock < FSSIZE := by
          by_contra hge'
          have hfull : im.freeblock = FSSIZE := by omega
          have htaken := howned.taken
          simp only [Image.wsect, hfull, hsect] at hx
          simp only [FSSIZE] at hx htaken hfull
          omega
        have hmod : im.freeblock % 256 ^ 4 = im.freeblock := by
          simp only [FSSIZE] at hlt
          omega
        rw [hmod]
        exact ⟨_, found_indirect hs hf hm hmax hlt⟩
      next hne =>
        simp only [Except.ok.injEq, Prod.mk.injEq] at h
        obtain ⟨rfl, rfl, rfl⟩ := h
        have hlt : fbn < m := by
          by_contra hge'
          exact hne (hentry.trans ((hf.ind hm).2 fbn (by omega) hmax))
        rw [hentry]
        exact ⟨owner, found_same hs hf hlt⟩

/-- Bytes go to the end of the file, inside one block. -/
theorem FileAt.store {q : List UInt8} (hs : Sound im owner) (hf : FileAt im owner inum d m w)
    (hfbn : fbn = w.length / BSIZE) (hlt : fbn < m)
    (hq : w.length + q.length ≤ (fbn + 1) * BSIZE) :
    Sound (im.wsect (blockOf im.disk d fbn) (putBytes (im.disk (blockOf im.disk d fbn))
      (w.length - fbn * BSIZE) q)) owner ∧
    Grows im (im.wsect (blockOf im.disk d fbn) (putBytes (im.disk (blockOf im.disk d fbn))
      (w.length - fbn * BSIZE) q)) owner owner inum ∧
    FileAt (im.wsect (blockOf im.disk d fbn) (putBytes (im.disk (blockOf im.disk d fbn))
      (w.length - fbn * BSIZE) q)) owner inum d m (w ++ q) := by
  have hown := hf.data fbn hlt
  obtain ⟨hs', hg⟩ := hs.write hown (putBytes (im.disk (blockOf im.disk d fbn))
    (w.length - fbn * BSIZE) q)
  have hother : ∀ {a u}, Owned im owner a u → u ≠ .data inum fbn →
      (im.wsect (blockOf im.disk d fbn) (putBytes (im.disk (blockOf im.disk d fbn))
        (w.length - fbn * BSIZE) q)).disk a = im.disk a := by
    intro a u ha hu
    apply Function.update_of_ne
    rintro rfl
    exact hu (ha.unique hown)
  have hblock : ∀ bn, (bn < NDIRECT ∨ NDIRECT < m) →
      blockOf (im.wsect (blockOf im.disk d fbn) (putBytes (im.disk (blockOf im.disk d fbn))
        (w.length - fbn * BSIZE) q)).disk d bn = blockOf im.disk d bn := by
    intro bn hbn
    exact blockOf_congr (hbn.imp_right fun hm => hother (hf.ind hm).1 nofun)
  have hcases : ∀ bn, bn < m → bn < NDIRECT ∨ NDIRECT < m := fun bn hbn => by omega
  refine ⟨hs', hg, ?_, hf.max, fun bn hbn => ?_, hf.direct, fun hm => ⟨hg.owned (hf.ind hm).1, ?_⟩,
    hf.noind, fun k v hk => ?_, hf.addrs⟩
  · rw [List.length_append]
    exact Nat.le_trans hq (Nat.mul_le_mul_right _ hlt)
  · rw [hblock bn (hcases bn hbn)]
    exact hg.owned (hf.data bn hbn)
  · intro bn hbn hmax
    rw [hblock bn (.inr hm)]
    exact (hf.ind hm).2 bn hbn hmax
  · obtain ⟨hklt, -⟩ := List.getElem?_eq_some_iff.mp hk
    rw [List.length_append] at hklt
    have hkm : k / BSIZE ≤ fbn := by
      apply Nat.le_of_lt_succ
      apply Nat.div_lt_of_lt_mul
      rw [Nat.mul_comm]
      exact Nat.lt_of_lt_of_le hklt hq
    rw [hblock _ (hcases _ (by omega))]
    by_cases hkf : k / BSIZE = fbn
    · have hmod : k % BSIZE = k - fbn * BSIZE := by
        have hdiv := Nat.div_add_mod k BSIZE
        rw [hkf, Nat.mul_comm] at hdiv
        omega
      have hle : fbn * BSIZE ≤ w.length := by
        rw [hfbn]
        exact Nat.div_mul_le_self ..
      have hkle : fbn * BSIZE ≤ k := by
        rw [← hkf]
        exact Nat.div_mul_le_self ..
      rw [hkf]
      show Function.update im.disk _ _ _ _ = v
      rw [Function.update_self, hmod, putBytes]
      by_cases hkc : k < w.length
      · rw [if_neg (by omega), ← hmod, ← hkf]
        rw [List.getElem?_append_left hkc] at hk
        exact hf.bytes k v hk
      · rw [if_pos (by omega), show k - fbn * BSIZE - (w.length - fbn * BSIZE) = k - w.length by
          omega]
        rw [List.getElem?_append_right (by omega)] at hk
        rw [hk]
        rfl
    · have hkc : k < w.length := by
        by_contra hge
        apply hkf
        have hdiv : w.length / BSIZE ≤ k / BSIZE := Nat.div_le_div_right (by omega)
        omega
      rw [List.getElem?_append_left hkc] at hk
      rw [hother (hf.data _ (by omega)) (by simpa using hkf)]
      exact hf.bytes k v hk

/-- The blocks that a file of `n` bytes needs. -/
def blocksFor (n : Nat) : Nat := (n + (BSIZE - 1)) / BSIZE

/-- The file has no more blocks than it needs. -/
def Tight (m : Nat) (w : List UInt8) : Prop := m = blocksFor w.length

theorem Tight.fbn_le (h : Tight m w) : w.length / BSIZE ≤ m := by
  rw [h, blocksFor]
  exact Nat.div_le_div_right (Nat.le_add_right ..)

/-- After a store that ends in block `fbn`. -/
theorem Tight.store {q : List UInt8} (h : Tight m w) (hfbn : fbn = w.length / BSIZE)
    (hq : 0 < q.length) (hle : w.length + q.length ≤ (fbn + 1) * BSIZE) :
    Tight (max m (fbn + 1)) (w ++ q) := by
  have hm : m ≤ fbn + 1 := by
    rw [h, blocksFor, hfbn]
    simp only [BSIZE]
    omega
  rw [Tight, blocksFor, List.length_append, Nat.max_eq_right hm]
  simp only [BSIZE] at hfbn hle ⊢
  omega

/-- One round of the loop: the block is found and the bytes `q` go into it. -/
theorem round_ok {x : Nat} {im₁ : Image} {d₁ : Dinode} {q : List UInt8} (hs : Sound im owner)
    (hf : FileAt im owner inum d m w) (ht : Tight m w) (hmax : w.length / BSIZE < MAXFILE)
    (hblock : im.block d (w.length / BSIZE) = .ok (x, d₁, im₁)) (hx : x < im₁.nsect)
    (hq : 0 < q.length) (hle : w.length + q.length ≤ (w.length / BSIZE + 1) * BSIZE)
    (him : im' = im₁.wsect x (putBytes (im₁.disk x)
      (w.length - w.length / BSIZE * BSIZE) q)) :
    ∃ owner', Sound im' owner' ∧ Grows im im' owner owner' inum ∧
      FileAt im' owner' inum d₁ (max m (w.length / BSIZE + 1)) (w ++ q) ∧
      Tight (max m (w.length / BSIZE + 1)) (w ++ q) ∧ d₁.type = d.type ∧
      d₁.nlink = d.nlink := by
  obtain ⟨owner', hs₁, hg₁, hf₁, rfl, htype, hnlink, -⟩ :=
    block_found hs hf ht.fbn_le hmax hblock hx
  obtain ⟨hs₂, hg₂, hf₂⟩ := hf₁.store hs₁ rfl (by omega) hle
  subst him
  exact ⟨owner', hs₂, hg₁.trans hg₂, hf₂, ht.store rfl hq hle, htype, hnlink⟩

/-- The bytes of one round: at least one, and no more than the block has room for. -/
theorem round_bytes (hp : p ≠ []) : ∃ n1,
    min p.length ((w.length / BSIZE + 1) * BSIZE - w.length) = n1 ∧ 0 < n1 ∧
      (p.take n1).length = n1 ∧ w.length + n1 ≤ (w.length / BSIZE + 1) * BSIZE := by
  refine ⟨_, rfl, ?_, ?_, ?_⟩
  · have hpos := List.length_pos_iff.mpr hp
    simp only [BSIZE]
    omega
  · rw [List.length_take]
    omega
  · simp only [BSIZE]
    omega

/-- The loop of iappend. -/
theorem appendLoop_ok (n : Nat) : ∀ {im im' : Image} {owner : Nat → Option Use} {d d' : Dinode}
    {m off' : Nat} {w p : List UInt8}, Sound im owner → FileAt im owner inum d m w → Tight m w →
    p.length ≤ n → im.appendLoop n d w.length p = .ok (d', off', im') →
    ∃ owner' m', Sound im' owner' ∧ Grows im im' owner owner' inum ∧
      FileAt im' owner' inum d' m' (w ++ p) ∧ Tight m' (w ++ p) ∧ off' = (w ++ p).length ∧
      d'.type = d.type ∧ d'.nlink = d.nlink := by
  induction n with
  | zero =>
      intro im im' owner d d' m off' w p hs hf ht hp h
      obtain rfl := List.length_eq_zero_iff.mp (Nat.le_zero.mp hp)
      cases h
      rw [List.append_nil]
      exact ⟨owner, m, hs, Grows.refl .., hf, ht, rfl, rfl, rfl⟩
  | succ n ih =>
      intro im im' owner d d' m off' w p hs hf ht hp h
      cases p with
      | nil =>
          cases h
          rw [List.append_nil]
          exact ⟨owner, m, hs, Grows.refl .., hf, ht, rfl, rfl, rfl⟩
      | cons b p =>
          obtain ⟨n1, hn1, hpos, htake, hroom⟩ := round_bytes (w := w) (List.cons_ne_nil b p)
          simp only [Image.appendLoop, hn1] at h
          split at h
          next hmax =>
            obtain ⟨⟨x, d₁, im₁⟩, hblock, h⟩ := ok_of_bind h
            obtain ⟨buf, hread, h⟩ := ok_of_bind h
            unfold Image.rsect at hread
            split at hread
            next hx =>
              cases hread
              obtain ⟨owner₂, hs₂, hg₂, hf₂, ht₂, htype, hnlink⟩ :=
                round_ok (q := (b :: p).take n1) hs hf ht hmax hblock hx (by omega) (by omega) rfl
              have hlen : w.length + n1 = (w ++ (b :: p).take n1).length := by
                rw [List.length_append, htake]
              rw [hlen] at h
              have hdrop : ((b :: p).drop n1).length ≤ n := by
                rw [List.length_drop]
                omega
              obtain ⟨owner₃, m₃, hs₃, hg₃, hf₃, ht₃, hoff, htype₃, hnlink₃⟩ :=
                ih hs₂ hf₂ ht₂ hdrop h
              rw [List.append_assoc, List.take_append_drop] at hf₃ ht₃ hoff
              exact ⟨owner₃, m₃, hs₃, hg₂.trans hg₃, hf₃, ht₃, hoff,
                htype₃.trans htype, hnlink₃.trans hnlink⟩
            next => cases hread
          next => cases h

/-- The blocks that a file takes as it grows from `m` blocks to `m'`: its indirect block too. -/
def newBlocks (m m' : Nat) : Nat :=
  (m' - m) + if m ≤ NDIRECT ∧ NDIRECT < m' then 1 else 0

theorem newBlocks_add {m₁ m₂ : Nat} (h : m ≤ m₁) (h' : m₁ ≤ m₂) :
    newBlocks m m₁ + newBlocks m₁ m₂ = newBlocks m m₂ := by
  unfold newBlocks
  split_ifs <;> omega

theorem newBlocks_self (m : Nat) : newBlocks m m = 0 := by
  unfold newBlocks
  split_ifs <;> omega

/-- The branches of iappend find a sector as long as there are blocks left. -/
theorem block_succeeds (hs : Sound im owner) (hf : FileAt im owner inum d m w)
    (hfbn : fbn ≤ m) (hmax : fbn < MAXFILE)
    (hfree : im.freeblock + newBlocks m (max m (fbn + 1)) ≤ FSSIZE) :
    ∃ x d' im', im.block d fbn = .ok (x, d', im') ∧ x < im'.nsect ∧
      im'.freeblock = im.freeblock + newBlocks m (max m (fbn + 1)) := by
  have hsect := hs.nsect
  have htop := hs.top
  have hold : fbn < m → newBlocks m (max m (fbn + 1)) = 0 ∧ blockOf im.disk d fbn < im.nsect := by
    intro hlt
    have htaken := (hf.data fbn hlt).taken
    rw [Nat.max_eq_left hlt]
    refine ⟨?_, by omega⟩
    unfold newBlocks
    split_ifs <;> omega
  unfold Image.block
  split
  next hd =>
    split
    next hzero =>
      have heq : fbn = m := by
        by_contra hne
        apply hf.addr_ne_zero fbn (by omega)
        simp only [blockOf, if_pos hd, hzero]
        rfl
      subst heq
      have hone : newBlocks fbn (max fbn (fbn + 1)) = 1 := by
        unfold newBlocks
        split_ifs <;> omega
      refine ⟨_, _, _, rfl, ?_, by rw [hone]⟩
      simp only [Function.update_self]
      rw [toNat_freeblock im (by omega)]
      omega
    next hne =>
      have hlt : fbn < m := by
        by_contra hge
        exact hne (hf.direct fbn (by omega) hd)
      obtain ⟨hnone, hx⟩ := hold hlt
      rw [blockOf, if_pos hd] at hx
      exact ⟨_, _, _, rfl, hx, by rw [hnone, Nat.add_zero]⟩
  next hge =>
    by_cases hind : d.addrs NDIRECT = 0
    · have hm : m = NDIRECT := by
        by_contra hne
        have howned := (hf.ind (by omega)).1.ne_zero
        rw [hind] at howned
        exact howned rfl
      have heq : fbn = NDIRECT := by omega
      subst hm heq
      have htwo : newBlocks NDIRECT (max NDIRECT (NDIRECT + 1)) = 2 := by decide
      rw [htwo] at hfree ⊢
      have hnat := toNat_freeblock im (by omega)
      have hread : Image.rsect { im with freeblock := im.freeblock + 1 } im.freeblock =
          .ok (im.disk im.freeblock) := if_pos (by rw [hsect]; omega)
      simp only [if_pos hind, Function.update_self, hnat, hread]
      change ∃ x d' im', (if getLE 4 (im.disk im.freeblock) _ = 0 then _ else _) =
        Except.ok (x, d', im') ∧ _
      rw [hs.zero _ (Nat.le_refl _), getLE_zero, if_pos rfl]
      refine ⟨_, _, _, rfl, ?_, rfl⟩
      simp only [Nat.sub_self, Nat.mul_zero, getLE_putLE_self, Image.wsect, hsect]
      simp only [FSSIZE] at hfree ⊢
      omega
    · have hm : NDIRECT < m := by
        by_contra hle
        exact hind (hf.noind (by omega))
      have hread : im.rsect (d.addrs NDIRECT).toNat = .ok (im.disk (d.addrs NDIRECT).toNat) := by
        have htaken := (hf.ind hm).1.taken
        exact if_pos (by omega)
      have hentry : getLE 4 (im.disk (d.addrs NDIRECT).toNat) (4 * (fbn - NDIRECT)) =
          blockOf im.disk d fbn := by
        rw [blockOf, if_neg hge]
      simp only [if_neg hind, hread]
      change ∃ x d' im', (if getLE 4 (im.disk (d.addrs NDIRECT).toNat) _ = 0 then _ else _) =
        Except.ok (x, d', im') ∧ _
      by_cases hzero : blockOf im.disk d fbn = 0
      · have heq : fbn = m := by
          by_contra hne
          exact hf.addr_ne_zero fbn (by omega) hzero
        subst heq
        have hone : newBlocks fbn (max fbn (fbn + 1)) = 1 := by
          unfold newBlocks
          split_ifs <;> omega
        rw [if_pos (hentry.trans hzero)]
        refine ⟨_, _, _, rfl, ?_, by rw [hone]⟩
        simp only [getLE_putLE_self, Image.wsect, hsect]
        simp only [FSSIZE] at hfree ⊢
        omega
      · have hlt : fbn < m := by
          by_contra hge'
          exact hzero ((hf.ind hm).2 fbn (by omega) hmax)
        obtain ⟨hnone, hx⟩ := hold hlt
        rw [if_neg (hentry ▸ hzero)]
        exact ⟨_, _, _, rfl, hentry ▸ hx, by rw [hnone, Nat.add_zero]⟩

/-- The loop comes to its end as long as there are blocks left. -/
theorem appendLoop_succeeds (n : Nat) : ∀ {im : Image} {owner : Nat → Option Use} {d : Dinode}
    {m : Nat} {w p : List UInt8}, Sound im owner → FileAt im owner inum d m w → Tight m w →
    p.length ≤ n → (w ++ p).length ≤ MAXFILE * BSIZE →
    im.freeblock + newBlocks m (blocksFor (w ++ p).length) ≤ FSSIZE →
    ∃ r, im.appendLoop n d w.length p = .ok r ∧
      r.2.2.freeblock = im.freeblock + newBlocks m (blocksFor (w ++ p).length) := by
  have hnil : ∀ {im : Image} {m : Nat} {w : List UInt8}, Tight m w →
      im.freeblock = im.freeblock + newBlocks m (blocksFor (w ++ []).length) := by
    intro im m w ht
    rw [List.append_nil, ← ht, newBlocks_self, Nat.add_zero]
  induction n with
  | zero =>
      intro im owner d m w p hs hf ht hp hmax hfree
      obtain rfl := List.length_eq_zero_iff.mp (Nat.le_zero.mp hp)
      exact ⟨_, rfl, hnil ht⟩
  | succ n ih =>
      intro im owner d m w p hs hf ht hp hmax hfree
      cases p with
      | nil => exact ⟨_, rfl, hnil ht⟩
      | cons b p =>
          obtain ⟨n1, hn1, hpos, htake, hroom⟩ := round_bytes (w := w) (List.cons_ne_nil b p)
          have hlt : w.length / BSIZE < MAXFILE := by
            rw [List.length_append, List.length_cons] at hmax
            apply Nat.div_lt_of_lt_mul
            rw [Nat.mul_comm]
            omega
          have hend : max m (w.length / BSIZE + 1) ≤ blocksFor (w ++ b :: p).length := by
            rw [ht, blocksFor, blocksFor, List.length_append, List.length_cons]
            simp only [BSIZE]
            omega
          have hsplit := newBlocks_add (Nat.le_max_left m (w.length / BSIZE + 1)) hend
          obtain ⟨x, d₁, im₁, hblock, hx, hfb⟩ :=
            block_succeeds hs hf ht.fbn_le hlt (by omega)
          obtain ⟨owner₂, hs₂, hg₂, hf₂, ht₂, -, -⟩ :=
            round_ok (q := (b :: p).take n1) hs hf ht hlt hblock hx (by omega) (by omega) rfl
          have hlen : w.length + n1 = (w ++ (b :: p).take n1).length := by
            rw [List.length_append, htake]
          have happ : (w ++ (b :: p).take n1) ++ (b :: p).drop n1 = w ++ b :: p := by
            rw [List.append_assoc, List.take_append_drop]
          have hdrop : ((b :: p).drop n1).length ≤ n := by
            rw [List.length_drop]
            omega
          obtain ⟨r, hr, hfb'⟩ := ih hs₂ hf₂ ht₂ hdrop (happ ▸ hmax) (by
            rw [happ]
            change im₁.freeblock + _ ≤ _
            omega)
          rw [happ] at hfb'
          change _ = im₁.freeblock + _ at hfb'
          refine ⟨r, ?_, by omega⟩
          have hread : im₁.rsect x = .ok (im₁.disk x) := if_pos hx
          simp only [Image.appendLoop, hn1, if_pos hlt]
          rw [hblock]
          change (im₁.rsect x >>= _) = _
          rw [hread, hlen]
          exact hr

end Xv6.Mkfs
