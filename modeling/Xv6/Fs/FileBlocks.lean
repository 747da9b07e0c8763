/-
The blocks of one file on the disk: where they are, what readi finds in them, and that bmap
and the stores of writei leave the blocks of everything else alone.
-/
import Xv6.Fs.Writei

namespace Xv6.Fs

open Bytes

/-- The address of block `bn` of a file, or that of its block of indirect addresses; 0 where
there is none. -/
def addrOf (disk : Blocks) (ip : Dinode) : Option Nat → Nat
  | none => (ip.addrs NDIRECT).toNat
  | some bn =>
      if bn < NDIRECT then (ip.addrs bn).toNat
      else if ip.addrs NDIRECT = 0 then 0
      else getLE 4 (disk (ip.addrs NDIRECT).toNat) (4 * (bn - NDIRECT))

/-- The byte at position `j` of a file, in the cached blocks. -/
def fileByte (disk : Blocks) (ip : Dinode) (j : Nat) : UInt8 :=
  disk (addrOf disk ip (some (j / BSIZE))) (j % BSIZE)

/-- A block of the file, or the one of indirect addresses. -/
def Role (r : Option Nat) : Prop := ∀ bn ∈ r, bn < MAXFILE

/-- The boot block, the block of the inode and the bitmap. -/
def Reserved (sb : Superblock) (inum x : Nat) : Prop :=
  x = 0 ∨ x = IBLOCK inum sb ∨ ∃ b < sb.size, x = BBLOCK b sb

/-- The blocks of a file are its own: no two of them are one block, none is reserved, and
the bitmap has all of them. -/
structure Sound (disk : Blocks) (sb : Superblock) (inum : Nat) (ip : Dinode) : Prop where
  size : sb.size < 2 ^ 32
  distinct : ∀ r r', Role r → Role r' → addrOf disk ip r ≠ 0 →
    addrOf disk ip r = addrOf disk ip r' → r = r'
  apart : ∀ r, Role r → addrOf disk ip r ≠ 0 → ¬ Reserved sb inum (addrOf disk ip r)
  used : ∀ r, Role r → addrOf disk ip r ≠ 0 →
    addrOf disk ip r < sb.size ∧ bitSet disk sb (addrOf disk ip r) = true
  marked : ∀ x, Reserved sb inum x → x < sb.size ∧ bitSet disk sb x = true

/-- A block that something else has. -/
def Foreign (disk : Blocks) (sb : Superblock) (inum : Nat) (ip : Dinode) (x : Nat) : Prop :=
  x < sb.size ∧ bitSet disk sb x = true ∧ ¬ Reserved sb inum x ∧
    ∀ r, Role r → addrOf disk ip r ≠ x

/-- There is no block left. -/
def Full (disk : Blocks) (sb : Superblock) : Prop := ∀ b < sb.size, bitSet disk sb b = true

/-- The file has its blocks, and its bytes outside of `[lo, hi)`, where it had them. -/
structure Kept (lo hi : Nat) (disk : Blocks) (ip : Dinode) (disk' : Blocks) (ip' : Dinode) :
    Prop where
  addr : ∀ r, Role r → addrOf disk ip r ≠ 0 → addrOf disk' ip' r = addrOf disk ip r
  bytes : ∀ bn < MAXFILE, addrOf disk ip (some bn) ≠ 0 → ∀ i < BSIZE,
    ¬ (lo ≤ bn * BSIZE + i ∧ bn * BSIZE + i < hi) →
    disk' (addrOf disk ip (some bn)) i = disk (addrOf disk ip (some bn)) i

/-- The block `b` that balloc has found, and the disk after it. -/
structure Balloced (disk : Blocks) (sb : Superblock) (b : Nat) (disk' : Blocks) : Prop where
  lt : b < sb.size
  free : bitSet disk sb b = false
  bits : ∀ c < sb.size, bitSet disk sb c = true ∨ c = b → bitSet disk' sb c = true
  same : ∀ x, x ≠ b → (∀ c < sb.size, x ≠ BBLOCK c sb) → disk' x = disk x
  zero : disk' b = fun _ => 0

section blocks

variable {disk disk' : Blocks} {sb : Superblock} {inum b bn lo : Nat} {ip ip' : Dinode}
  {r : Option Nat}

theorem role_none : Role none := by simp [Role]

theorem role_some : Role (some bn) ↔ bn < MAXFILE := by simp [Role]

theorem or_and_ne_zero {x y z : UInt8} (h : x &&& z ≠ 0) : (x ||| y) &&& z ≠ 0 := by
  intro hzero
  apply h
  apply UInt8.toBitVec_inj.mp
  have hbits := congrArg UInt8.toBitVec hzero
  ext i hi
  have hbit := congrArg (BitVec.getLsbD · i) hbits
  simp at hbit
  simp
  grind

theorem bit_and_self_ne_zero :
    ∀ k < 8, ((1 : UInt8) <<< k.toUInt8) &&& ((1 : UInt8) <<< k.toUInt8) ≠ 0 := by
  decide

theorem Kept.trans {mid hi : Nat} {disk'' : Blocks} {ip'' : Dinode}
    (h : Kept lo mid disk ip disk' ip') (h' : Kept mid hi disk' ip' disk'' ip'')
    (hlo : lo ≤ mid) (hhi : mid ≤ hi) : Kept lo hi disk ip disk'' ip'' where
  addr r hr hne := by
    have heq := h.addr r hr hne
    rw [h'.addr r hr (by rwa [heq]), heq]
  bytes bn hbn hne i hi' hout := by
    have heq := h.addr (some bn) (role_some.mpr hbn) hne
    have hsecond := h'.bytes bn hbn (by rwa [heq]) i hi' (by omega)
    rw [heq] at hsecond
    rw [hsecond]
    exact h.bytes bn hbn hne i hi' (by omega)

/-- balloc finds a block that the bitmap does not have; so it is neither reserved nor a
block of the file. -/
theorem Sound.alloc (h : Sound disk sb inum ip) :
    (balloc disk sb = (0, disk) ∧ ballocLog disk sb = [] ∧ Full disk sb) ∨
      ∃ b disk', balloc disk sb = (b, disk') ∧ ballocLog disk sb = [BBLOCK b sb, b] ∧
        Balloced disk sb b disk' := by
  unfold balloc ballocLog
  cases hfind : (List.range sb.size).find? fun b => !bitSet disk sb b with
  | none =>
      refine .inl ⟨rfl, rfl, fun b hb => ?_⟩
      simpa using List.find?_eq_none.mp hfind b (List.mem_range.mpr hb)
  | some b =>
      have hlt : b < sb.size := List.mem_range.mp (List.mem_of_find?_eq_some hfind)
      have hfree : bitSet disk sb b = false := by simpa using List.find?_some hfind
      have hbitmap : ∀ c < sb.size, BBLOCK c sb ≠ b := by
        intro c hc heq
        have hset := (h.marked (BBLOCK c sb) (.inr (.inr ⟨c, hc, rfl⟩))).2
        rw [heq, hfree] at hset
        cases hset
      refine .inr ⟨b, _, rfl, rfl, hlt, hfree, fun c hc hor => ?_, fun x hx hx' => ?_,
        Function.update_self ..⟩
      · rw [bitSet, Function.update_of_ne (hbitmap c hc)]
        by_cases hblock : BBLOCK c sb = BBLOCK b sb
        · rw [hblock, Function.update_self]
          by_cases hbyte : c % BPB / 8 = b % BPB / 8
          · rw [hbyte, Function.update_self]
            rcases hor with hset | rfl
            · rw [bitSet, hblock, hbyte] at hset
              exact decide_eq_true (or_and_ne_zero (of_decide_eq_true hset))
            · rw [UInt8.or_comm]
              exact decide_eq_true (or_and_ne_zero
                (bit_and_self_ne_zero _ (Nat.mod_lt _ (by decide))))
          · rw [Function.update_of_ne hbyte]
            rcases hor with hset | rfl
            · rw [bitSet, hblock] at hset
              exact hset
            · exact absurd rfl hbyte
        · rw [Function.update_of_ne hblock]
          rcases hor with hset | rfl
          · exact hset
          · exact absurd rfl hblock
      · rw [Function.update_of_ne hx, Function.update_of_ne (hx' b hlt)]

theorem balloc_logged (disk : Blocks) (sb : Superblock) {x : Nat}
    (h : (balloc disk sb).2 x ≠ disk x) : x ∈ ballocLog disk sb := by
  unfold balloc at h
  unfold ballocLog
  cases hfind : (List.range sb.size).find? fun b => !bitSet disk sb b with
  | none =>
      rw [hfind] at h
      exact absurd rfl h
  | some b =>
      rw [hfind] at h
      by_contra hnot
      simp only [List.mem_cons, List.not_mem_nil, or_false, not_or] at hnot
      apply h
      simp only
      rw [Function.update_of_ne hnot.2, Function.update_of_ne hnot.1]

theorem Sound.ne_fresh (h : Sound disk sb inum ip) (hf : Balloced disk sb b disk') (hr : Role r) :
    addrOf disk ip r ≠ b ∨ addrOf disk ip r = 0 := by
  by_cases hne : addrOf disk ip r = 0
  · exact .inr hne
  · left
    intro heq
    have hset := (h.used r hr hne).2
    rw [heq, hf.free] at hset
    cases hset

theorem Sound.fresh_not_reserved (h : Sound disk sb inum ip) (hf : Balloced disk sb b disk') :
    ¬ Reserved sb inum b := by
  intro hres
  have hset := (h.marked b hres).2
  rw [hf.free] at hset
  cases hset

theorem Sound.fresh_ne_zero (h : Sound disk sb inum ip) (hf : Balloced disk sb b disk') : b ≠ 0 :=
  fun hzero => h.fresh_not_reserved hf (.inl hzero)

theorem Sound.ne_bitmap (h : Sound disk sb inum ip) (hr : Role r) (hne : addrOf disk ip r ≠ 0) :
    ∀ c < sb.size, addrOf disk ip r ≠ BBLOCK c sb :=
  fun c hc heq => h.apart r hr hne (.inr (.inr ⟨c, hc, heq⟩))

/-- balloc does not touch the blocks of the file. -/
theorem Sound.fresh_same (h : Sound disk sb inum ip) (hf : Balloced disk sb b disk') (hr : Role r)
    (hne : addrOf disk ip r ≠ 0) : disk' (addrOf disk ip r) = disk (addrOf disk ip r) :=
  hf.same _ ((h.ne_fresh hf hr).resolve_right hne) (h.ne_bitmap hr hne)

/-- The block that balloc has found becomes a block of the file. -/
theorem Sound.assign (h : Sound disk sb inum ip) {disk₁ : Blocks} {r₀ : Option Nat}
    (hf : Balloced disk sb b disk₁)
    (hbits : ∀ c < sb.size, bitSet disk₁ sb c = true → bitSet disk' sb c = true)
    (hnew : addrOf disk' ip' r₀ = b)
    (hold : ∀ r, Role r → r ≠ r₀ → addrOf disk' ip' r = addrOf disk ip r) :
    Sound disk' sb inum ip' := by
  have hb := h.fresh_ne_zero hf
  have hother : ∀ r, Role r → addrOf disk ip r ≠ b := by
    intro r hr heq
    rcases h.ne_fresh hf hr with hne | hzero
    · exact hne heq
    · exact hb (heq.symm.trans hzero)
  have hmono : ∀ c < sb.size, bitSet disk sb c = true → bitSet disk' sb c = true :=
    fun c hc hset => hbits c hc (hf.bits c hc (.inl hset))
  refine ⟨h.size, fun r r' hr hr' hne heq => ?_, fun r hr hne => ?_, fun r hr hne => ?_,
    fun x hx => ?_⟩
  · by_cases h₁ : r = r₀ <;> by_cases h₂ : r' = r₀
    · exact h₁.trans h₂.symm
    · rw [h₁, hnew, hold r' hr' h₂] at heq
      exact absurd heq.symm (hother r' hr')
    · rw [h₂, hnew, hold r hr h₁] at heq
      exact absurd heq (hother r hr)
    · rw [hold r hr h₁] at hne heq
      rw [hold r' hr' h₂] at heq
      exact h.distinct r r' hr hr' hne heq
  · by_cases h₁ : r = r₀
    · rw [h₁, hnew]
      exact h.fresh_not_reserved hf
    · rw [hold r hr h₁] at hne ⊢
      exact h.apart r hr hne
  · by_cases h₁ : r = r₀
    · rw [h₁, hnew]
      exact ⟨hf.lt, hbits b hf.lt (hf.bits b hf.lt (.inr rfl))⟩
    · rw [hold r hr h₁] at hne ⊢
      exact ⟨(h.used r hr hne).1, hmono _ (h.used r hr hne).1 (h.used r hr hne).2⟩
  · exact ⟨(h.marked x hx).1, hmono x (h.marked x hx).1 (h.marked x hx).2⟩

theorem bitSet_update {x c : Nat} {data : Arr} (h : BBLOCK c sb ≠ x) :
    bitSet (Function.update disk x data) sb c = bitSet disk sb c := by
  rw [bitSet, Function.update_of_ne h, bitSet]

theorem toNat_ofNat_of_lt {x : Nat} (h : x < 2 ^ 32) : (UInt32.ofNat x).toNat = x := by
  rw [UInt32.toNat_ofNat']
  exact Nat.mod_eq_of_lt h

theorem toNat_ne_zero {x : UInt32} : x.toNat ≠ 0 ↔ x ≠ 0 := by
  rw [ne_eq, ne_eq, ← UInt32.toNat_inj]
  rfl

end blocks

/-! ### Reads -/

section read

variable {disk : Blocks} {sb : Superblock} {ip : Dinode} {bn off n fuel i : Nat}
  {copyout : Nat → Bool}

theorem present_iff : Present disk ip bn ↔ addrOf disk ip (some bn) ≠ 0 := by
  rw [Present, addrOf]
  by_cases hdirect : bn < NDIRECT
  · rw [if_pos hdirect, if_pos hdirect]
    exact toNat_ne_zero.symm
  · rw [if_neg hdirect, if_neg hdirect]
    by_cases hnone : ip.addrs NDIRECT = 0
    · simp [hnone]
    · simp [hnone]

/-- bmap finds a block that is there, and changes nothing. -/
theorem bmap_of_addrOf_ne_zero (hbn : bn < MAXFILE) (h : addrOf disk ip (some bn) ≠ 0) :
    bmap disk sb ip bn = .ok (addrOf disk ip (some bn), ip, disk) := by
  rw [bmap]
  by_cases hdirect : bn < NDIRECT
  · rw [addrOf, if_pos hdirect] at h ⊢
    rw [if_pos hdirect, if_neg (toNat_ne_zero.mp h)]
  · have hind : bn - NDIRECT < NINDIRECT := by
      simp only [MAXFILE] at hbn
      omega
    rw [addrOf, if_neg hdirect] at h ⊢
    by_cases hnone : ip.addrs NDIRECT = 0
    · rw [if_pos hnone] at h
      exact absurd rfl h
    · rw [if_neg hnone] at h ⊢
      rw [if_neg hdirect, if_pos hind, if_neg hnone]
      simp only [if_neg hnone, if_neg h]

/-- A position in the block of `off`. -/
theorem div_mod_add (h : off % BSIZE + i < BSIZE) :
    (off + i) / BSIZE = off / BSIZE ∧ (off + i) % BSIZE = off % BSIZE + i := by
  have hdiv := Nat.div_add_mod' off BSIZE
  have heq : off + i = (off % BSIZE + i) + BSIZE * (off / BSIZE) := by
    rw [Nat.mul_comm]
    omega
  rw [heq, Nat.add_mul_div_left _ _ (by decide), Nat.add_mul_mod_self_left,
    Nat.div_eq_of_lt h, Nat.mod_eq_of_lt h, Nat.zero_add]
  exact ⟨rfl, rfl⟩

/-- The loop of readi changes nothing, whatever happens to the copies. -/
theorem readLoop_keeps (hfuel : n ≤ fuel) (hpresent : ∀ j, off ≤ j → j < off + n →
      j / BSIZE < MAXFILE ∧ addrOf disk ip (some (j / BSIZE)) ≠ 0) (done : List UInt8) :
    ∃ tot bytes, readLoop sb copyout fuel disk ip off n done = .ok ⟨tot, bytes, ip, disk⟩ ∧
      (tot = -1 ∨ tot = (done.length + n : Nat)) := by
  induction fuel generalizing off n done with
  | zero => exact ⟨_, _, rfl, .inr (by rw [Nat.le_zero.mp hfuel]; rfl)⟩
  | succ fuel ih =>
      by_cases hzero : n = 0
      · subst hzero
        exact ⟨done.length, done, by rw [readLoop, if_pos rfl], .inr rfl⟩
      · obtain ⟨hbn, hne⟩ := hpresent off (Nat.le_refl _) (by omega)
        have hmod := Nat.mod_lt off (show 0 < BSIZE by decide)
        rw [readLoop, if_neg hzero, bmap_of_addrOf_ne_zero hbn hne]
        simp only [bind, Except.bind, if_neg hne]
        split
        · have hpresent' : ∀ j, off + min n (BSIZE - off % BSIZE) ≤ j →
              j < off + min n (BSIZE - off % BSIZE) + (n - min n (BSIZE - off % BSIZE)) →
              j / BSIZE < MAXFILE ∧ addrOf disk ip (some (j / BSIZE)) ≠ 0 :=
            fun j hlo hhi => hpresent j (by omega) (by omega)
          obtain ⟨tot, bytes, hrest, htot⟩ := ih (by omega) hpresent'
            (done ++ (List.range (min n (BSIZE - off % BSIZE))).map fun i =>
              disk (addrOf disk ip (some (off / BSIZE))) (off % BSIZE + i))
          refine ⟨tot, bytes, hrest, htot.imp_right fun h => ?_⟩
          rw [h, List.length_append, List.length_map, List.length_range]
          omega
        · exact ⟨-1, _, rfl, .inl rfl⟩

/-- readi fails, or returns the number of bytes up to the end of the file that were asked for. -/
theorem readi_keeps {off n : UInt32} (hsize : ip.size.toNat ≤ MAXFILE * BSIZE)
    (halloc : Allocated disk ip) : ∃ tot bytes,
      readi disk sb ip copyout off n = .ok ⟨tot, bytes, ip, disk⟩ ∧
        (tot ≤ 0 ∨ off.toNat + tot.toNat ≤ ip.size.toNat) := by
  unfold readi
  by_cases hbad : off > ip.size ∨ off + n < off
  · rw [if_pos hbad]
    exact ⟨0, [], rfl, .inl (Int.le_refl 0)⟩
  rw [if_neg hbad]
  rw [not_or, UInt32.not_lt, UInt32.not_lt] at hbad
  have hoff := UInt32.le_iff_toNat_le.mp hbad.1
  have hadd := toNat_add_of_le hbad.2
  have hcount : off.toNat + (if off + n > ip.size then ip.size - off else n).toNat ≤
      ip.size.toNat := by
    by_cases hbig : off + n > ip.size
    · rw [if_pos hbig, UInt32.toNat_sub_of_le _ _ hbad.1]
      omega
    · have hle := UInt32.le_iff_toNat_le.mp (UInt32.not_lt.mp hbig)
      rw [if_neg hbig]
      omega
  dsimp only
  generalize (if off + n > ip.size then ip.size - off else n).toNat = m at hcount
  have hpresent : ∀ j, off.toNat ≤ j → j < off.toNat + m →
      j / BSIZE < MAXFILE ∧ addrOf disk ip (some (j / BSIZE)) ≠ 0 := fun j hlo hhi => by
    have hdiv := Nat.div_add_mod' j BSIZE
    exact ⟨div_lt_MAXFILE (by omega), present_iff.mp (halloc _ (by omega))⟩
  obtain ⟨tot, bytes, hread, htot⟩ := readLoop_keeps (Nat.le_refl m) hpresent []
  refine ⟨tot, bytes, hread, ?_⟩
  rcases htot with rfl | rfl
  · exact .inl (by decide)
  · refine .inr ?_
    rw [List.length_nil, Nat.zero_add, Int.toNat_natCast]
    exact hcount

end read

/-- The file has got blocks, and the blocks that changed are logged; those of its data were
neither touched nor logged. -/
structure Grown (sb : Superblock) (inum : Nat) (disk : Blocks) (ip : Dinode) (disk' : Blocks)
    (ip' : Dinode) (log : List Nat) : Prop where
  sound : Sound disk' sb inum ip'
  old : ∀ r, Role r → addrOf disk ip r ≠ 0 → addrOf disk' ip' r = addrOf disk ip r
  same : ∀ bn < MAXFILE, addrOf disk ip (some bn) ≠ 0 →
    disk' (addrOf disk ip (some bn)) = disk (addrOf disk ip (some bn))
  logged : ∀ x, disk' x ≠ disk x → x ∈ log
  outside : ∀ bn < MAXFILE, addrOf disk ip (some bn) ≠ 0 → addrOf disk ip (some bn) ∉ log
  size : ip'.size = ip.size
  foreign : ∀ x, Foreign disk sb inum ip x → Foreign disk' sb inum ip' x ∧ disk' x = disk x
  reserved : ∀ x, Reserved sb inum x → (∀ c < sb.size, x ≠ BBLOCK c sb) → disk' x = disk x

section bmap

variable {disk disk' disk₁ : Blocks} {sb : Superblock} {inum b bn lo : Nat} {ip ip' : Dinode}
  {log : List Nat}

theorem Grown.refl (h : Sound disk sb inum ip) : Grown sb inum disk ip disk ip [] :=
  ⟨h, fun _ _ _ => rfl, fun _ _ _ => rfl, fun _ hx => absurd rfl hx,
    fun _ _ _ => List.not_mem_nil, rfl, fun _ hx => ⟨hx, rfl⟩,
    fun _ _ _ => rfl⟩

theorem Grown.trans {disk'' : Blocks} {ip'' : Dinode} {log' : List Nat}
    (h : Grown sb inum disk ip disk' ip' log) (h' : Grown sb inum disk' ip' disk'' ip'' log') :
    Grown sb inum disk ip disk'' ip'' (log ++ log') where
  sound := h'.sound
  old r hr hne := by
    have heq := h.old r hr hne
    rw [h'.old r hr (by rwa [heq]), heq]
  same bn hbn hne := by
    have heq := h.old (some bn) (role_some.mpr hbn) hne
    have hsecond := h'.same bn hbn (by rwa [heq])
    rw [heq] at hsecond
    rw [hsecond, h.same bn hbn hne]
  logged x hx := by
    by_cases hfirst : disk' x = disk x
    · exact List.mem_append_right _ (h'.logged x (by rwa [hfirst]))
    · exact List.mem_append_left _ (h.logged x hfirst)
  outside bn hbn hne := by
    have heq := h.old (some bn) (role_some.mpr hbn) hne
    have hsecond := h'.outside bn hbn (by rwa [heq])
    rw [heq] at hsecond
    rw [List.mem_append, not_or]
    exact ⟨h.outside bn hbn hne, hsecond⟩
  size := h'.size.trans h.size
  foreign x hx := by
    obtain ⟨hfirst, hsame⟩ := h.foreign x hx
    obtain ⟨hsecond, hsame'⟩ := h'.foreign x hfirst
    exact ⟨hsecond, hsame'.trans hsame⟩
  reserved x hx hne := (h'.reserved x hx hne).trans (h.reserved x hx hne)

theorem Grown.kept (h : Grown sb inum disk ip disk' ip' log) (lo : Nat) :
    Kept lo lo disk ip disk' ip' :=
  ⟨h.old, fun bn hbn hne i _ _ => congrFun (h.same bn hbn hne) i⟩

/-- A block that balloc has found gets the role that no block had; `more` are the blocks
that the new address is stored in. -/
theorem Sound.grown (h : Sound disk sb inum ip) (r₀ : Option Nat) {more : List Nat}
    (hballoc : balloc disk sb = (b, disk₁)) (hlog : ballocLog disk sb = [BBLOCK b sb, b])
    (hf : Balloced disk sb b disk₁)
    (hbits : ∀ c < sb.size, bitSet disk₁ sb c = true → bitSet disk' sb c = true)
    (hzero : addrOf disk ip r₀ = 0) (hnew : addrOf disk' ip' r₀ = b)
    (hold : ∀ r, Role r → r ≠ r₀ → addrOf disk' ip' r = addrOf disk ip r)
    (hmore : ∀ x, disk' x ≠ disk₁ x → x ∈ more)
    (houtside : ∀ bn < MAXFILE, addrOf disk ip (some bn) ≠ 0 →
      addrOf disk ip (some bn) ∉ more)
    (hsize : ip'.size = ip.size)
    (hforeign : ∀ x, Foreign disk sb inum ip x ∨ Reserved sb inum x → x ∉ more) :
    Grown sb inum disk ip disk' ip' (ballocLog disk sb ++ more) where
  sound := h.assign hf hbits hnew hold
  old r hr hne := hold r hr fun heq => hne (heq ▸ hzero)
  same bn hbn hne := by
    have hkeep : disk' (addrOf disk ip (some bn)) = disk₁ (addrOf disk ip (some bn)) := by
      by_contra hchanged
      exact houtside bn hbn hne (hmore _ hchanged)
    rw [hkeep, h.fresh_same hf (role_some.mpr hbn) hne]
  logged x hx := by
    rw [List.mem_append]
    by_cases hsecond : disk' x = disk₁ x
    · refine .inl (balloc_logged disk sb ?_)
      rw [hballoc]
      exact fun heq => hx (hsecond.trans heq)
    · exact .inr (hmore x hsecond)
  outside bn hbn hne := by
    have hr := role_some.mpr hbn
    rw [hlog, List.mem_append, not_or]
    refine ⟨fun hmem => ?_, houtside bn hbn hne⟩
    rcases List.mem_pair.mp hmem with heq | heq
    · exact h.ne_bitmap hr hne b hf.lt heq
    · exact (h.ne_fresh hf hr).elim (fun hb => hb heq) hne
  size := hsize
  foreign x hx := by
    have hb : x ≠ b := by
      rintro rfl
      have hset := hx.2.1
      rw [hf.free] at hset
      cases hset
    have hbitmap : ∀ c < sb.size, x ≠ BBLOCK c sb :=
      fun c hc heq => hx.2.2.1 (.inr (.inr ⟨c, hc, heq⟩))
    have hkeep : disk' x = disk₁ x := by
      by_contra hchanged
      exact hforeign x (.inl hx) (hmore x hchanged)
    refine ⟨⟨hx.1, hbits x hx.1 (hf.bits x hx.1 (.inl hx.2.1)), hx.2.2.1, fun r hr => ?_⟩,
      hkeep.trans (hf.same x hb hbitmap)⟩
    by_cases hnew' : r = r₀
    · rw [hnew', hnew]
      exact hb.symm
    · rw [hold r hr hnew']
      exact hx.2.2.2 r hr
  reserved x hx hne := by
    have hb : x ≠ b := fun heq => h.fresh_not_reserved hf (heq ▸ hx)
    have hkeep : disk' x = disk₁ x := by
      by_contra hchanged
      exact hforeign x (.inr hx) (hmore x hchanged)
    exact hkeep.trans (hf.same x hb hne)

/-- The block of indirect addresses.  A new one is empty, so the file has the same blocks
as before. -/
theorem Sound.indirect (h : Sound disk sb inum ip) :
    let x := bmapIndirect disk sb ip
    Grown sb inum disk ip x.2.1 x.1 x.2.2 ∧
      (∀ bn, addrOf x.2.1 x.1 (some bn) = addrOf disk ip (some bn)) ∧
      (x.1.addrs NDIRECT = 0 → Full x.2.1 sb) := by
  unfold bmapIndirect
  by_cases hzero : ip.addrs NDIRECT = 0
  · rw [if_pos hzero]
    rcases h.alloc with ⟨hballoc, hlog, hfull⟩ | ⟨b, disk₁, hballoc, hlog, hf⟩
    · have hsame : Function.update ip.addrs NDIRECT (UInt32.ofNat 0) = ip.addrs := by
        rw [show UInt32.ofNat 0 = ip.addrs NDIRECT from hzero.symm, Function.update_eq_self]
      simp only [hballoc, hlog, hsame]
      exact ⟨Grown.refl h, fun _ => trivial, fun _ => hfull⟩
    · have hb : (UInt32.ofNat b).toNat = b := toNat_ofNat_of_lt (hf.lt.trans h.size)
      have hsame : ∀ bn, addrOf disk₁ { ip with
          addrs := Function.update ip.addrs NDIRECT (UInt32.ofNat b) } (some bn) =
          addrOf disk ip (some bn) := by
        intro bn
        simp only [addrOf, Function.update_self, hzero, if_true, hb, hf.zero, getLE_zero, ite_self]
        by_cases hdirect : bn < NDIRECT
        · rw [if_pos hdirect, if_pos hdirect, Function.update_of_ne (Nat.ne_of_lt hdirect)]
        · rw [if_neg hdirect, if_neg hdirect]
      simp only [hballoc]
      refine ⟨?_, hsame, fun hnone => ?_⟩
      swap
      · rw [Function.update_self] at hnone
        rw [hnone] at hb
        exact absurd hb.symm (h.fresh_ne_zero hf)
      rw [← List.append_nil (ballocLog disk sb)]
      refine h.grown none hballoc hlog hf (fun _ _ hset => hset) ?_ ?_ ?_
        (fun _ hx => absurd rfl hx) (fun _ _ _ => List.not_mem_nil) rfl
        fun _ _ => List.not_mem_nil
      · exact congrArg UInt32.toNat hzero
      · simp only [addrOf, Function.update_self, hb]
      · intro r _ hr
        cases r with
        | none => exact absurd rfl hr
        | some bn => exact hsame bn
  · rw [if_neg hzero]
    exact ⟨Grown.refl h, fun _ => rfl, fun hnone => absurd hnone hzero⟩

/-- What bmap has done for block `bn`. -/
structure Mapped (sb : Superblock) (inum : Nat) (disk : Blocks) (ip : Dinode) (bn : Nat)
    (r : Bmapped) : Prop where
  grown : Grown sb inum disk ip r.disk r.ip r.log
  addr : addrOf r.disk r.ip (some bn) = r.addr
  others : ∀ bn' < MAXFILE, bn' ≠ bn →
    addrOf r.disk r.ip (some bn') = addrOf disk ip (some bn')
  fresh : r.addr = 0 ∨ addrOf disk ip (some bn) ≠ 0 ∨ r.addr ∈ r.log
  full : r.addr = 0 → Full r.disk sb

theorem Sound.bmap_direct (h : Sound disk sb inum ip) (hbn : bn < NDIRECT) :
    ∃ r, bmapLogged disk sb ip bn = .ok r ∧ Mapped sb inum disk ip bn r := by
  have haddr : addrOf disk ip (some bn) = (ip.addrs bn).toNat := by rw [addrOf, if_pos hbn]
  rw [bmapLogged, if_pos hbn]
  by_cases hzero : ip.addrs bn = 0
  · rw [if_pos hzero]
    have hnone : addrOf disk ip (some bn) = 0 := by
      rw [haddr, hzero]
      rfl
    rcases h.alloc with ⟨hballoc, hlog, hfull⟩ | ⟨b, disk₁, hballoc, hlog, hf⟩
    · rw [hballoc, hlog]
      exact ⟨_, rfl, Grown.refl h, hnone, fun _ _ _ => rfl, .inl rfl, fun _ => hfull⟩
    · have hb : (UInt32.ofNat b).toNat = b := toNat_ofNat_of_lt (hf.lt.trans h.size)
      have hind : Function.update ip.addrs bn (UInt32.ofNat b) NDIRECT = ip.addrs NDIRECT :=
        Function.update_of_ne (Nat.ne_of_gt hbn) ..
      have hnew : addrOf disk₁ { ip with addrs := Function.update ip.addrs bn (UInt32.ofNat b) }
          (some bn) = b := by
        simp only [addrOf, if_pos hbn, Function.update_self, hb]
      have hold : ∀ r, Role r → r ≠ some bn → addrOf disk₁ { ip with
          addrs := Function.update ip.addrs bn (UInt32.ofNat b) } r = addrOf disk ip r := by
        intro r _ hr
        cases r with
        | none => simp only [addrOf, hind]
        | some bn' =>
            have hne : bn' ≠ bn := fun heq => hr (heq ▸ rfl)
            simp only [addrOf, hind, Function.update_of_ne hne]
            by_cases hnil : ip.addrs NDIRECT = 0
            · simp only [if_pos hnil]
            · have hblock := h.fresh_same hf role_none (toNat_ne_zero.mpr hnil)
              rw [addrOf] at hblock
              rw [hblock]
      rw [hballoc]
      simp only [if_neg (h.fresh_ne_zero hf)]
      refine ⟨_, rfl, ?_, hnew,
        fun bn' hbn' hne => hold _ (role_some.mpr hbn') (by simpa using hne),
        .inr (.inr (by simp [hlog])), fun hzero => absurd hzero (h.fresh_ne_zero hf)⟩
      rw [← List.append_nil (ballocLog disk sb)]
      exact h.grown (some bn) hballoc hlog hf (fun _ _ hset => hset) hnone hnew hold
        (fun _ hx => absurd rfl hx) (fun _ _ _ => List.not_mem_nil) rfl
        fun _ _ => List.not_mem_nil
  · rw [if_neg hzero]
    exact ⟨_, rfl, Grown.refl h, haddr, fun _ _ _ => rfl,
      .inr (.inl (by rw [haddr]; exact toNat_ne_zero.mpr hzero)),
      fun hnone => absurd hnone (toNat_ne_zero.mpr hzero)⟩

/-- The entry of block `bn` in the block of indirect addresses, which is there. -/
theorem Sound.bmap_entry (h : Sound disk sb inum ip) (hbn : ¬ bn < NDIRECT)
    (hind : ip.addrs NDIRECT ≠ 0) (log : List Nat) :
    ∃ addr disk₁ log₁, (let a := disk (ip.addrs NDIRECT).toNat
      if getLE 4 a (4 * (bn - NDIRECT)) = 0 then
        if (balloc disk sb).1 = 0 then
          .ok ⟨0, ip, (balloc disk sb).2, log ++ ballocLog disk sb⟩
        else .ok ⟨(balloc disk sb).1, ip,
          Function.update (balloc disk sb).2 (ip.addrs NDIRECT).toNat
            (putLE 4 a (4 * (bn - NDIRECT)) (balloc disk sb).1),
          log ++ ballocLog disk sb ++ [(ip.addrs NDIRECT).toNat]⟩
      else .ok ⟨getLE 4 a (4 * (bn - NDIRECT)), ip, disk, log⟩ : Except String Bmapped) =
        .ok ⟨addr, ip, disk₁, log ++ log₁⟩ ∧
      Mapped sb inum disk ip bn ⟨addr, ip, disk₁, log₁⟩ := by
  have haddr : addrOf disk ip (some bn) =
      getLE 4 (disk (ip.addrs NDIRECT).toNat) (4 * (bn - NDIRECT)) := by
    rw [addrOf, if_neg hbn, if_neg hind]
  have hind' : addrOf disk ip none ≠ 0 := toNat_ne_zero.mpr hind
  by_cases hzero : getLE 4 (disk (ip.addrs NDIRECT).toNat) (4 * (bn - NDIRECT)) = 0
  · simp only [if_pos hzero]
    rcases h.alloc with ⟨hballoc, hlog, hfull⟩ | ⟨b, disk₁, hballoc, hlog, hf⟩
    · rw [hballoc, hlog]
      exact ⟨0, disk, [], rfl, Grown.refl h, haddr.trans hzero, fun _ _ _ => rfl, .inl rfl,
        fun _ => hfull⟩
    · rw [hballoc]
      simp only [if_neg (h.fresh_ne_zero hf)]
      have hnew : addrOf (Function.update disk₁ (ip.addrs NDIRECT).toNat
          (putLE 4 (disk (ip.addrs NDIRECT).toNat) (4 * (bn - NDIRECT)) b)) ip (some bn) = b := by
        rw [addrOf, if_neg hbn, if_neg hind, Function.update_self, getLE_putLE_self]
        exact Nat.mod_eq_of_lt (hf.lt.trans h.size)
      have hold : ∀ r, Role r → r ≠ some bn → addrOf (Function.update disk₁
          (ip.addrs NDIRECT).toNat (putLE 4 (disk (ip.addrs NDIRECT).toNat)
            (4 * (bn - NDIRECT)) b)) ip r = addrOf disk ip r := by
        intro r _ hr
        cases r with
        | none => rfl
        | some bn' =>
            have hne : bn' ≠ bn := fun heq => hr (heq ▸ rfl)
            by_cases hdirect : bn' < NDIRECT
            · rw [addrOf, addrOf, if_pos hdirect, if_pos hdirect]
            · rw [addrOf, addrOf, if_neg hdirect, if_neg hdirect, if_neg hind, if_neg hind,
                Function.update_self, getLE_putLE_of_disjoint (by omega)]
      refine ⟨b, Function.update disk₁ (ip.addrs NDIRECT).toNat
          (putLE 4 (disk (ip.addrs NDIRECT).toNat) (4 * (bn - NDIRECT)) b),
        ballocLog disk sb ++ [(ip.addrs NDIRECT).toNat], by rw [List.append_assoc], ?_, hnew,
        fun bn' hbn' hne => hold _ (role_some.mpr hbn') (by simpa using hne),
        .inr (.inr (by simp [hlog])), fun hzero => absurd hzero (h.fresh_ne_zero hf)⟩
      refine h.grown (some bn) hballoc hlog hf (fun c hc hset => ?_) (haddr.trans hzero) hnew hold
        (fun x hx => ?_) (fun bn' hbn' hne hmem => ?_) rfl
        fun x hx hmem => ?_
      · exact (bitSet_update (h.ne_bitmap role_none hind' c hc).symm).trans hset
      · by_contra hnot
        exact hx (Function.update_of_ne (by simpa using hnot) ..)
      · have heq := List.mem_singleton.mp hmem
        have hrole := h.distinct _ none (role_some.mpr hbn') role_none hne heq
        cases hrole
      · have heq : x = addrOf disk ip none := List.mem_singleton.mp hmem
        rcases hx with hx | hx
        · exact hx.2.2.2 none role_none heq.symm
        · exact h.apart none role_none hind' (heq ▸ hx)
  · simp only [if_neg hzero]
    exact ⟨getLE 4 (disk (ip.addrs NDIRECT).toNat) (4 * (bn - NDIRECT)), disk, [],
      by rw [List.append_nil], Grown.refl h, haddr, fun _ _ _ => rfl,
      .inr (.inl (by rwa [haddr])), fun hnone => absurd hnone hzero⟩

theorem Sound.bmap (h : Sound disk sb inum ip) (hbn : bn < MAXFILE) :
    ∃ r, bmapLogged disk sb ip bn = .ok r ∧ Mapped sb inum disk ip bn r := by
  by_cases hdirect : bn < NDIRECT
  · exact h.bmap_direct hdirect
  · have hind : bn - NDIRECT < NINDIRECT := by
      simp only [MAXFILE] at hbn
      omega
    obtain ⟨hgrown, hsame, hfull⟩ := h.indirect
    rw [bmapLogged, if_neg hdirect, if_pos hind]
    generalize bmapIndirect disk sb ip = x at hgrown hsame hfull
    obtain ⟨ip₁, disk₁, log₁⟩ := x
    simp only at hgrown hsame hfull ⊢
    by_cases hnone : ip₁.addrs NDIRECT = 0
    · have haddr : addrOf disk₁ ip₁ (some bn) = 0 := by rw [addrOf, if_neg hdirect, if_pos hnone]
      rw [if_pos hnone]
      exact ⟨_, rfl, hgrown, haddr, fun bn' _ _ => hsame bn', .inl rfl, fun _ => hfull hnone⟩
    · rw [if_neg hnone]
      obtain ⟨addr, disk₂, log₂, hr, hm⟩ := hgrown.sound.bmap_entry hdirect hnone log₁
      refine ⟨_, hr, hgrown.trans hm.grown, hm.addr,
        fun bn' hbn' hne => (hm.others bn' hbn' hne).trans (hsame bn'), ?_, hm.full⟩
      rcases hm.fresh with hzero | hpresent | hlogged
      · exact .inl hzero
      · exact .inr (.inl (by rwa [hsame] at hpresent))
      · exact .inr (.inr (List.mem_append_right _ hlogged))

end bmap

/-! ### Stores into the blocks of the file -/

section store

variable {disk : Blocks} {sb : Superblock} {inum bn a : Nat} {ip : Dinode}

/-- A store outside of the block of indirect addresses moves no block. -/
theorem addrOf_update {data : Arr} (h : ip.addrs NDIRECT ≠ 0 → (ip.addrs NDIRECT).toNat ≠ a)
    (r : Option Nat) : addrOf (Function.update disk a data) ip r = addrOf disk ip r := by
  cases r with
  | none => rfl
  | some bn =>
      by_cases hnone : ip.addrs NDIRECT = 0
      · simp only [addrOf, if_pos hnone]
      · simp only [addrOf, Function.update_of_ne (h hnone)]

theorem Sound.store_addr (h : Sound disk sb inum ip) (hbn : bn < MAXFILE)
    (ha : addrOf disk ip (some bn) = a) (hne : a ≠ 0) (data : Arr) (r : Option Nat) :
    addrOf (Function.update disk a data) ip r = addrOf disk ip r := by
  refine addrOf_update (fun hind heq => ?_) r
  have hrole := h.distinct (some bn) none (role_some.mpr hbn) role_none (by rwa [ha])
    (ha.trans heq.symm)
  cases hrole

theorem Sound.store (h : Sound disk sb inum ip) (hbn : bn < MAXFILE)
    (ha : addrOf disk ip (some bn) = a) (hne : a ≠ 0) (data : Arr) :
    Sound (Function.update disk a data) sb inum ip := by
  have haddr := h.store_addr hbn ha hne data
  have hbits : ∀ c < sb.size, bitSet (Function.update disk a data) sb c = bitSet disk sb c := by
    intro c hc
    have hblock := h.ne_bitmap (role_some.mpr hbn) (by rwa [ha]) c hc
    rw [ha] at hblock
    exact bitSet_update hblock.symm
  refine ⟨h.size, fun r r' hr hr' => ?_, fun r hr => ?_, fun r hr hne' => ?_, fun x hx => ?_⟩
  · rw [haddr, haddr]
    exact h.distinct r r' hr hr'
  · rw [haddr]
    exact h.apart r hr
  · rw [haddr] at hne' ⊢
    obtain ⟨hlt, hset⟩ := h.used r hr hne'
    exact ⟨hlt, (hbits _ hlt).trans hset⟩
  · obtain ⟨hlt, hset⟩ := h.marked x hx
    exact ⟨hlt, (hbits x hlt).trans hset⟩

theorem Sound.store_foreign (h : Sound disk sb inum ip) (hbn : bn < MAXFILE)
    (ha : addrOf disk ip (some bn) = a) (hne : a ≠ 0) (data : Arr) {x : Nat}
    (hx : Foreign disk sb inum ip x) :
    Foreign (Function.update disk a data) sb inum ip x ∧
      Function.update disk a data x = disk x := by
  have hblock := h.ne_bitmap (role_some.mpr hbn) (by rwa [ha]) x hx.1
  rw [ha] at hblock
  have hother : x ≠ a := fun heq => hx.2.2.2 (some bn) (role_some.mpr hbn) (ha.trans heq.symm)
  refine ⟨⟨hx.1, (bitSet_update hblock.symm).trans hx.2.1, hx.2.2.1, fun r hr => ?_⟩,
    Function.update_of_ne hother ..⟩
  rw [h.store_addr hbn ha hne data r]
  exact hx.2.2.2 r hr

theorem Sound.inode_addr (h : Sound disk sb inum ip) (data : Arr) (r : Option Nat) :
    addrOf (Function.update disk (IBLOCK inum sb) data) ip r = addrOf disk ip r :=
  addrOf_update (fun hind heq => h.apart none role_none (toNat_ne_zero.mpr hind)
    (.inr (.inl heq))) r

theorem Sound.kept_store (h : Sound disk sb inum ip) {src : Nat → UInt8} {limit off tot m : Nat}
    (hbn : off / BSIZE < MAXFILE) (ha : addrOf disk ip (some (off / BSIZE)) = a) (hne : a ≠ 0) :
    Kept off (off + m) disk ip (Function.update disk a
      (copyinBlock (disk a) (off % BSIZE) src limit tot m)) ip where
  addr r _ _ := h.store_addr hbn ha hne _ r
  bytes bn' hbn' hne' i hi hout := by
    by_cases hblock : addrOf disk ip (some bn') = a
    · have hrole := h.distinct _ _ (role_some.mpr hbn') (role_some.mpr hbn) hne'
        (hblock.trans ha.symm)
      have hbn'' : bn' = off / BSIZE := Option.some.inj hrole
      have hdiv := Nat.div_add_mod' off BSIZE
      rw [hblock, Function.update_self, copyinBlock, if_neg]
      rw [hbn''] at hout
      omega
    · rw [Function.update_of_ne hblock]

end store

/-! ### The end of writei -/

/-- writei after its loop: the size, and iupdate. -/
def Written.finish (w : Written) (sb : Superblock) (inum : Nat) : Written :=
  let w := if w.off > w.ip.size.toNat then
    { w with ip := { w.ip with size := UInt32.ofNat w.off } } else w
  w.iupdate sb inum

section finish

variable {disk : Blocks} {sb : Superblock} {ip : Dinode} {inum limit : Nat} {src : Nat → UInt8}
  {off n : UInt32}

theorem Written.finish_eq (w : Written) :
    w.finish sb inum = ({ w with ip := { w.ip with
      size := if w.off > w.ip.size.toNat then UInt32.ofNat w.off else w.ip.size } }).iupdate
        sb inum := by
  unfold Written.finish
  by_cases hgrow : w.off > w.ip.size.toNat
  · simp only [if_pos hgrow]
  · simp only [if_neg hgrow]

theorem Written.finish_tot (w : Written) : (w.finish sb inum).tot = w.tot := by
  rw [w.finish_eq, Written.iupdate]

theorem Written.finish_off (w : Written) : (w.finish sb inum).off = w.off := by
  rw [w.finish_eq, Written.iupdate]

theorem Written.finish_log (w : Written) :
    (w.finish sb inum).log = w.log ++ [IBLOCK inum sb] := by
  rw [w.finish_eq, Written.iupdate]

theorem Written.finish_ip (w : Written) : (w.finish sb inum).ip =
    { w.ip with size := if w.off > w.ip.size.toNat then UInt32.ofNat w.off else w.ip.size } := by
  rw [w.finish_eq, Written.iupdate]

theorem Written.finish_disk (w : Written) : (w.finish sb inum).disk =
    Function.update w.disk (IBLOCK inum sb) (putDinode (w.disk (IBLOCK inum sb))
      (inum % IPB * DINODE) (w.finish sb inum).ip) := by
  rw [w.finish_eq, Written.iupdate]

theorem Written.finish_disk_of_ne (w : Written) {x : Nat} (hx : x ≠ IBLOCK inum sb) :
    (w.finish sb inum).disk x = w.disk x := by
  rw [Written.finish_disk, Function.update_of_ne hx]

theorem addrOf_congr {ip' : Dinode} (h : ip'.addrs = ip.addrs) (r : Option Nat) :
    addrOf disk ip' r = addrOf disk ip r := by
  cases r <;> simp only [addrOf, h]

theorem Sound.finish_addr {w : Written} (h : Sound w.disk sb inum w.ip) (r : Option Nat) :
    addrOf (w.finish sb inum).disk (w.finish sb inum).ip r = addrOf w.disk w.ip r := by
  have haddrs : (w.finish sb inum).ip.addrs = w.ip.addrs := by rw [Written.finish_ip]
  rw [addrOf_congr haddrs, Written.finish_disk, h.inode_addr]

/-- The checks of writei. -/
def Refused (ip : Dinode) (off n : UInt32) : Prop :=
  off > ip.size ∨ off + n < off ∨ (off + n).toNat > MAXFILE * BSIZE

theorem writei_refused (h : Refused ip off n) :
    writei disk sb ip inum src limit off n = .ok ⟨-1, off.toNat, ip, disk, []⟩ := by
  unfold writei
  by_cases hbad : off > ip.size ∨ off + n < off
  · rw [if_pos hbad]
  · have hbig : (off + n).toNat > MAXFILE * BSIZE :=
      (or_assoc.mpr h).resolve_left hbad
    rw [if_neg hbad, if_pos hbig]

theorem writei_accepted (h : ¬ Refused ip off n) :
    writei disk sb ip inum src limit off n =
      (writeLoop sb src limit n.toNat n.toNat disk ip [] off.toNat 0).map
        (Written.finish · sb inum) := by
  simp only [Refused, not_or] at h
  unfold writei
  rw [if_neg (not_or.mpr ⟨h.1, h.2.1⟩), if_neg h.2.2]
  cases writeLoop sb src limit n.toNat n.toNat disk ip [] off.toNat 0 <;> rfl

theorem add_le_of_accepted (h : ¬ Refused ip off n) :
    off.toNat ≤ ip.size.toNat ∧ off.toNat + n.toNat ≤ MAXFILE * BSIZE := by
  simp only [Refused, not_or] at h
  have hoff := UInt32.le_iff_toNat_le.mp (UInt32.not_lt.mp h.1)
  have hadd := toNat_add_of_le (UInt32.not_lt.mp h.2.1)
  have hbig := h.2.2
  omega

theorem writei_ok {w : Written} (hw : writei disk sb ip inum src limit off n = .ok w)
    (htot : 0 ≤ w.tot) :
    off.toNat + n.toNat ≤ MAXFILE * BSIZE ∧ ∃ w₁,
      writeLoop sb src limit n.toNat n.toNat disk ip [] off.toNat 0 = .ok w₁ ∧
      w = w₁.finish sb inum := by
  by_cases hrefused : Refused ip off n
  · rw [writei_refused hrefused] at hw
    cases hw
    exact absurd htot (by simp)
  · refine ⟨(add_le_of_accepted hrefused).2, ?_⟩
    rw [writei_accepted hrefused] at hw
    cases hloop : writeLoop sb src limit n.toNat n.toNat disk ip [] off.toNat 0 with
    | error msg =>
        rw [hloop] at hw
        cases hw
    | ok w₁ =>
        rw [hloop] at hw
        cases hw
        exact ⟨w₁, rfl, rfl⟩

end finish

/-! ### A small disk -/

namespace TwoBytes

open WriteiWitness (super)

/-- A disk of zeros whose bitmap is full. -/
def disk : Blocks := fun b _ => if b = 45 then 255 else 0

/-- A file of two bytes in block 100. -/
def file : Dinode := { size := 2, addrs := fun i => if i = 0 then 100 else 0 }

theorem addrOf_file (r : Option Nat) : addrOf disk file r = if r = some 0 then 100 else 0 := by
  cases r with
  | none => rfl
  | some bn =>
      have hnone : file.addrs NDIRECT = 0 := rfl
      rw [addrOf, hnone, if_pos rfl]
      by_cases hzero : bn = 0
      · subst hzero
        rfl
      · simp [file, hzero]

theorem sound : Sound disk super 1 file := by
  have hrole : ∀ r, addrOf disk file r ≠ 0 → r = some 0 := by
    intro r hne
    by_contra hother
    rw [addrOf_file, if_neg hother] at hne
    exact hne rfl
  have hbitmap : ∀ b < super.size, BBLOCK b super = 45 := by
    intro b hb
    have hdiv : b / BPB = 0 := Nat.div_eq_of_lt (Nat.lt_trans hb (by decide))
    rw [BBLOCK, hdiv]
    rfl
  refine ⟨by decide, fun r r' _ _ hne heq => ?_, fun r _ hne hres => ?_, fun r _ hne => ?_,
    fun x hx => ?_⟩
  · rw [hrole r hne, hrole r' (heq ▸ hne)]
  · rw [hrole r hne, addrOf_file, if_pos rfl] at hres
    rcases hres with hres | hres | ⟨b, hb, hres⟩
    · cases hres
    · exact absurd hres (by decide)
    · rw [hbitmap b hb] at hres
      cases hres
  · rw [hrole r hne, addrOf_file, if_pos rfl]
    decide
  · rcases hx with rfl | rfl | ⟨b, hb, rfl⟩
    · decide
    · decide
    · rw [hbitmap b hb]
      decide

theorem allocated : Allocated disk file := by
  intro bn hbn
  have hsize : bn * BSIZE < 2 := hbn
  have hzero : bn = 0 := by
    simp only [BSIZE] at hsize
    omega
  subst hzero
  rw [Present, if_pos (by decide)]
  decide

theorem inode_ne (c : Nat) (_ : c < super.size) : IBLOCK 1 super ≠ BBLOCK c super := by
  intro heq
  have hblock : 32 = c / BPB + 45 := heq
  have hlt : 32 < c / BPB + 45 := Nat.lt_of_lt_of_le (by decide) (Nat.le_add_left 45 _)
  exact absurd hblock (Nat.ne_of_lt hlt)

end TwoBytes

end Xv6.Fs
