/-
A file is an array of bytes.  What writei does to the bytes and the size of its file, and to
those of other files, when no copy from its source fails inside a block, and what readi returns.
-/
import Xv6.Fs.Directory
import Xv6.Fs.FileBlocks

namespace Xv6.Fs

open Bytes

/-- The source of `n` bytes for offset `off` can be read up to `limit`: to its end, or not at
all, or to the end of a block. -/
def Whole (off limit n : Nat) : Prop := n ≤ limit ∨ limit = 0 ∨ (off + limit) % BSIZE = 0

instance (off limit n : Nat) : Decidable (Whole off limit n) :=
  inferInstanceAs (Decidable (_ ∨ _ ∨ _))

/-- The loop that has begun at `off` and `tot` has stored the source up to byte `k`. -/
structure Wrote (sb : Superblock) (inum : Nat) (src : Nat → UInt8) (limit n : Nat)
    (disk : Blocks) (ip : Dinode) (off tot : Nat) (w : Written) (k : Nat) : Prop where
  sound : Sound w.disk sb inum w.ip
  kept : Kept off w.off disk ip w.disk w.ip
  tot_eq : w.tot = k
  tot_le : tot ≤ k
  le : k ≤ n
  off_eq : w.off = off + (k - tot)
  full : k = n ∨ Full w.disk sb ∨ limit < n
  size : w.ip.size = ip.size
  bytes : ∀ j, off ≤ j → j < w.off → addrOf w.disk w.ip (some (j / BSIZE)) ≠ 0 ∧
    fileByte w.disk w.ip j = src (tot + (j - off))
  foreign : ∀ x, Foreign disk sb inum ip x → w.disk x = disk x
  reserved : ∀ x, Reserved sb inum x → (∀ c < sb.size, x ≠ BBLOCK c sb) → w.disk x = disk x

section loop

variable {disk : Blocks} {sb : Superblock} {inum limit n fuel off tot : Nat} {ip : Dinode}
  {src : Nat → UInt8} {log : List Nat}

/-- The loop stops, at the end of the source or because there is no block or no more source. -/
theorem Grown.wrote {disk' : Blocks} {ip' : Dinode} {log' : List Nat}
    (h : Grown sb inum disk ip disk' ip' log) (hle : tot ≤ n)
    (hfull : tot = n ∨ Full disk' sb ∨ limit < n) :
    Wrote sb inum src limit n disk ip off tot ⟨tot, off, ip', disk', log'⟩ tot where
  sound := h.sound
  kept := h.kept off
  tot_eq := rfl
  tot_le := Nat.le_refl tot
  le := hle
  off_eq := by simp
  full := hfull
  size := h.size
  bytes j hlo hhi := absurd hhi (Nat.not_lt.mpr hlo)
  foreign x hx := (h.foreign x hx).2
  reserved := h.reserved

/-- A turn, before the others. -/
theorem Mapped.wrote {r : Bmapped} {m k : Nat} {w : Written}
    (hm : Mapped sb inum disk ip (off / BSIZE) r) (haddr : r.addr ≠ 0)
    (hbn : off / BSIZE < MAXFILE) (hblock : off % BSIZE + m ≤ BSIZE) (hlimit : tot + m ≤ limit)
    (hs : Wrote sb inum src limit n (Function.update r.disk r.addr
      (copyinBlock (r.disk r.addr) (off % BSIZE) src limit tot m)) r.ip (off + m) (tot + m) w k) :
    Wrote sb inum src limit n disk ip off tot w k := by
  have htot := hs.tot_le
  have hoff := hs.off_eq
  have hsound := hm.grown.sound
  have hstore := hsound.store_addr hbn hm.addr haddr
    (copyinBlock (r.disk r.addr) (off % BSIZE) src limit tot m)
  refine
    { sound := hs.sound
      kept := ?_
      tot_eq := hs.tot_eq
      tot_le := by omega
      le := hs.le
      off_eq := by omega
      full := hs.full
      size := hs.size.trans hm.grown.size
      bytes := fun j hlo hhi => ?_
      foreign := fun x hx => ?_
      reserved := fun x hx hne => ?_ }
  · exact (((hm.grown.kept off).trans (hsound.kept_store hbn hm.addr haddr) (Nat.le_refl _)
      (Nat.le_add_right _ _))).trans hs.kept (Nat.le_add_right _ _) (by omega)
  · by_cases hlater : off + m ≤ j
    · obtain ⟨hne, hbyte⟩ := hs.bytes j hlater hhi
      refine ⟨hne, hbyte.trans ?_⟩
      congr 1
      omega
    · -- the byte is of this turn, and the later ones keep it
      obtain ⟨i, rfl⟩ := Nat.exists_eq_add_of_le hlo
      obtain ⟨hdiv, hrem⟩ := div_mod_add (show off % BSIZE + i < BSIZE by omega)
      have hpos := Nat.div_add_mod' (off + i) BSIZE
      have hne : addrOf (Function.update r.disk r.addr (copyinBlock (r.disk r.addr)
          (off % BSIZE) src limit tot m)) r.ip (some (off / BSIZE)) ≠ 0 := by
        rwa [hstore, hm.addr]
      have hold := hs.kept.addr _ (role_some.mpr hbn) hne
      have hbyte := hs.kept.bytes _ hbn hne (off % BSIZE + i) (by omega)
        (by rw [hdiv, hrem] at hpos; omega)
      rw [hstore, hm.addr] at hold hbyte
      rw [fileByte, hdiv, hrem, hold, hbyte, Function.update_self, copyinBlock,
        if_pos ⟨Nat.le_add_right _ _, by omega⟩]
      refine ⟨haddr, ?_⟩
      congr 1
      omega
  · obtain ⟨hfirst, hsame⟩ := hm.grown.foreign x hx
    obtain ⟨hsecond, hsame'⟩ := hsound.store_foreign hbn hm.addr haddr
      (copyinBlock (r.disk r.addr) (off % BSIZE) src limit tot m) hfirst
    rw [hs.foreign x hsecond, hsame', hsame]
  · have hother : x ≠ r.addr := by
      rintro rfl
      exact hsound.apart (some (off / BSIZE)) (role_some.mpr hbn) (by rwa [hm.addr])
        (by rwa [hm.addr])
    rw [hs.reserved x hx hne, Function.update_of_ne hother, hm.grown.reserved x hx hne]

theorem Sound.wrote (h : Sound disk sb inum ip) (hfuel : n - tot ≤ fuel)
    (hmax : off + (n - tot) ≤ MAXFILE * BSIZE)
    (hwhole : n ≤ limit ∨ tot ≤ limit ∧ (limit = tot ∨ (off + (limit - tot)) % BSIZE = 0))
    (htn : tot ≤ n) :
    ∃ w k, writeLoop sb src limit n fuel disk ip log off tot = .ok w ∧
      Wrote sb inum src limit n disk ip off tot w k := by
  induction fuel generalizing disk ip log off tot with
  | zero => exact ⟨_, tot, rfl, (Grown.refl h).wrote htn (.inl (by omega))⟩
  | succ fuel ih =>
      by_cases hlt : tot < n
      · have hbn : off / BSIZE < MAXFILE := div_lt_MAXFILE (by omega)
        have hmod := Nat.mod_lt off (show 0 < BSIZE by decide)
        obtain ⟨r, hbmap, hm⟩ := h.bmap hbn
        rw [writeLoop, if_pos hlt, hbmap]
        change ∃ w k, (if r.addr = 0 then _ else _) = _ ∧ _
        by_cases haddr : r.addr = 0
        · rw [if_pos haddr]
          exact ⟨_, tot, rfl, hm.grown.wrote htn (.inr (.inl (hm.full haddr)))⟩
        rw [if_neg haddr]
        by_cases hcopy : tot + min (n - tot) (BSIZE - off % BSIZE) ≤ limit
        · simp only [if_pos hcopy]
          have hstore := hm.grown.sound.store hbn hm.addr haddr (copyinBlock (r.disk r.addr)
            (off % BSIZE) src limit tot (min (n - tot) (BSIZE - off % BSIZE)))
          have hfuel' : n - (tot + min (n - tot) (BSIZE - off % BSIZE)) ≤ fuel := by omega
          have hmax' : off + min (n - tot) (BSIZE - off % BSIZE) +
              (n - (tot + min (n - tot) (BSIZE - off % BSIZE))) ≤ MAXFILE * BSIZE := by omega
          have hwhole' : n ≤ limit ∨ tot + min (n - tot) (BSIZE - off % BSIZE) ≤ limit ∧
              (limit = tot + min (n - tot) (BSIZE - off % BSIZE) ∨
                (off + min (n - tot) (BSIZE - off % BSIZE) +
                  (limit - (tot + min (n - tot) (BSIZE - off % BSIZE)))) % BSIZE = 0) := by
            rcases hwhole with hall | ⟨-, hnone | hend⟩
            · exact .inl hall
            · omega
            · refine .inr ⟨hcopy, .inr ?_⟩
              rw [← hend]
              congr 1
              omega
          obtain ⟨w, k, hw, hs⟩ := ih hstore hfuel' hmax' hwhole' (by omega)
          exact ⟨w, k, hw, hm.wrote haddr hbn (by omega) hcopy hs⟩
        · -- the copy fails at its first byte, and stores nothing
          simp only [if_neg hcopy]
          have hnone : limit = tot := by
            rcases hwhole with hall | ⟨hle, hnone | hend⟩
            · omega
            · exact hnone
            · by_contra hne
              have hrem := (div_mod_add (show off % BSIZE + (limit - tot) < BSIZE by omega)).2
              omega
          have hsame : copyinBlock (r.disk r.addr) (off % BSIZE) src limit tot
              (min (n - tot) (BSIZE - off % BSIZE)) = r.disk r.addr := by
            funext j
            rw [copyinBlock, if_neg]
            omega
          rw [hsame, Function.update_eq_self]
          exact ⟨_, tot, rfl, hm.grown.wrote htn (.inr (.inr (by omega)))⟩
      · rw [writeLoop_done hlt]
        exact ⟨_, tot, rfl, (Grown.refl h).wrote htn (.inl (by omega))⟩

end loop

/-- Another file: its inode and its blocks are not those of the file. -/
structure Other (disk : Blocks) (sb : Superblock) (inum : Nat) (ip : Dinode) (other : Nat) :
    Prop where
  ne : other ≠ inum
  inode : IBLOCK other sb = IBLOCK inum sb ∨ Foreign disk sb inum ip (IBLOCK other sb)
  blocks : ∀ r, Role r → addrOf disk (readInode disk sb other) r ≠ 0 →
    Foreign disk sb inum ip (addrOf disk (readInode disk sb other) r)

/-- The file after `k` bytes were written to it at `off`. -/
structure Stores (sb : Superblock) (inum : Nat) (disk : Blocks) (ip : Dinode)
    (src : Nat → UInt8) (off k : Nat) (w : Written) : Prop where
  size : w.ip.size.toNat = max ip.size.toNat (off + k)
  allocated : Allocated w.disk w.ip
  bytes : ∀ j < w.ip.size.toNat, fileByte w.disk w.ip j =
    if off ≤ j ∧ j < off + k then src (j - off) else fileByte disk ip j
  others : ∀ other, Other disk sb inum ip other →
    readInode w.disk sb other = readInode disk sb other ∧
    ∀ bn < MAXFILE, addrOf disk (readInode disk sb other) (some bn) ≠ 0 →
      addrOf w.disk (readInode disk sb other) (some bn) =
        addrOf disk (readInode disk sb other) (some bn) ∧
      w.disk (addrOf disk (readInode disk sb other) (some bn)) =
        disk (addrOf disk (readInode disk sb other) (some bn))

section stores

variable {disk : Blocks} {sb : Superblock} {inum limit n off k : Nat} {ip : Dinode}
  {src : Nat → UInt8} {w : Written}

theorem Wrote.finish_foreign (hs : Wrote sb inum src limit n disk ip off 0 w k) {x : Nat}
    (hx : Foreign disk sb inum ip x) : (w.finish sb inum).disk x = disk x := by
  have hne : x ≠ IBLOCK inum sb := fun heq => hx.2.2.1 (.inr (.inl heq))
  rw [w.finish_disk_of_ne hne, hs.foreign x hx]

/-- Another inode in the same block has another slot. -/
theorem Wrote.finish_readInode (hs : Wrote sb inum src limit n disk ip off 0 w k)
    (hinode : ∀ c < sb.size, IBLOCK inum sb ≠ BBLOCK c sb) {other : Nat}
    (ho : Other disk sb inum ip other) :
    readInode (w.finish sb inum).disk sb other = readInode disk sb other := by
  rw [readInode, readInode]
  rcases ho.inode with hblock | hforeign
  · have hsame := hs.reserved (IBLOCK inum sb) (.inr (.inl rfl)) hinode
    have hdiv : other / IPB = inum / IPB := by
      simp only [IBLOCK] at hblock
      omega
    have hslot : other % IPB ≠ inum % IPB := by
      intro hmod
      apply ho.ne
      rw [← Nat.div_add_mod other IPB, ← Nat.div_add_mod inum IPB, hdiv, hmod]
    rw [hblock, Written.finish_disk, Function.update_self, hsame]
    refine getDinode_congr fun j hlo hhi => putDinode_of_disjoint ?_
    simp only [DINODE] at hlo hhi ⊢
    omega
  · rw [hs.finish_foreign hforeign]

theorem Wrote.stores (hs : Wrote sb inum src limit n disk ip off 0 w k)
    (hinode : ∀ c < sb.size, IBLOCK inum sb ≠ BBLOCK c sb) (halloc : Allocated disk ip)
    (hsize : ip.size.toNat ≤ MAXFILE * BSIZE) (hoff : off ≤ ip.size.toNat)
    (hmax : off + n ≤ MAXFILE * BSIZE) :
    Stores sb inum disk ip src off k (w.finish sb inum) := by
  have hreach := hs.off_eq
  have hle := hs.le
  have hwsize := hs.size
  have hsize' : (w.finish sb inum).ip.size.toNat = max ip.size.toNat (off + k) := by
    have hbound : MAXFILE * BSIZE < 2 ^ 32 := by decide
    rw [Written.finish_ip]
    by_cases hgrow : w.off > w.ip.size.toNat
    · simp only [if_pos hgrow]
      rw [toNat_ofNat_of_lt (by omega)]
      rw [hwsize] at hgrow
      omega
    · simp only [if_neg hgrow]
      rw [hwsize] at hgrow ⊢
      omega
  -- a block of the file is one that it had, or one that was written
  have hpresent : ∀ j < max ip.size.toNat (off + k), ¬ (off ≤ j ∧ j < off + k) →
      j / BSIZE < MAXFILE ∧ addrOf disk ip (some (j / BSIZE)) ≠ 0 := by
    intro j hj hout
    have hdiv := Nat.div_add_mod' j BSIZE
    exact ⟨div_lt_MAXFILE (by omega), present_iff.mp (halloc _ (by omega))⟩
  have hwritten : ∀ j < max ip.size.toNat (off + k),
      j / BSIZE < MAXFILE ∧ addrOf w.disk w.ip (some (j / BSIZE)) ≠ 0 := by
    intro j hj
    refine ⟨div_lt_MAXFILE (by omega), ?_⟩
    by_cases hin : off ≤ j ∧ j < off + k
    · exact (hs.bytes j hin.1 (by omega)).1
    · obtain ⟨hlt, hne⟩ := hpresent j hj hin
      rwa [hs.kept.addr _ (role_some.mpr hlt) hne]
  refine ⟨hsize', fun bn hbn => ?_, fun j hj => ?_, fun other ho => ?_⟩
  · rw [hsize'] at hbn
    have hne := (hwritten (bn * BSIZE) hbn).2
    rw [Nat.mul_div_cancel _ (by decide)] at hne
    rw [present_iff, hs.sound.finish_addr]
    exact hne
  · rw [hsize'] at hj
    obtain ⟨hlt, hne⟩ := hwritten j hj
    have hinode' : addrOf w.disk w.ip (some (j / BSIZE)) ≠ IBLOCK inum sb :=
      fun heq => hs.sound.apart _ (role_some.mpr hlt) hne (.inr (.inl heq))
    have hfinish : fileByte (w.finish sb inum).disk (w.finish sb inum).ip j =
        fileByte w.disk w.ip j := by
      rw [fileByte, hs.sound.finish_addr, w.finish_disk_of_ne hinode', fileByte]
    rw [hfinish]
    by_cases hin : off ≤ j ∧ j < off + k
    · rw [if_pos hin, (hs.bytes j hin.1 (by omega)).2, Nat.zero_add]
    · obtain ⟨-, hold⟩ := hpresent j hj hin
      have hdiv := Nat.div_add_mod' j BSIZE
      rw [if_neg hin, fileByte, hs.kept.addr _ (role_some.mpr hlt) hold]
      exact hs.kept.bytes _ hlt hold _ (Nat.mod_lt _ (by decide)) (by omega)
  · refine ⟨hs.finish_readInode hinode ho, fun bn hbn hne => ⟨?_, ?_⟩⟩
    · by_cases hdirect : bn < NDIRECT
      · rw [addrOf, addrOf, if_pos hdirect, if_pos hdirect]
      · rw [addrOf, addrOf, if_neg hdirect, if_neg hdirect]
        by_cases hnone : (readInode disk sb other).addrs NDIRECT = 0
        · rw [if_pos hnone, if_pos hnone]
        · have hblock := hs.finish_foreign (ho.blocks none role_none (toNat_ne_zero.mpr hnone))
          rw [addrOf] at hblock
          rw [if_neg hnone, if_neg hnone, hblock]
    · exact hs.finish_foreign (ho.blocks _ (role_some.mpr hbn) hne)

theorem Sound.finish (h : Sound w.disk sb inum w.ip)
    (hinode : ∀ c < sb.size, IBLOCK inum sb ≠ BBLOCK c sb) :
    Sound (w.finish sb inum).disk sb inum (w.finish sb inum).ip := by
  have hbit : ∀ x < sb.size, bitSet (w.finish sb inum).disk sb x = bitSet w.disk sb x :=
    fun x hx => by rw [Written.finish_disk, bitSet_update (hinode x hx).symm]
  refine ⟨h.size, fun r r' hr hr' hne heq => ?_, fun r hr hne => ?_, fun r hr hne => ?_,
    fun x hx => ?_⟩
  · rw [h.finish_addr] at hne
    rw [h.finish_addr, h.finish_addr] at heq
    exact h.distinct r r' hr hr' hne heq
  · rw [h.finish_addr] at hne ⊢
    exact h.apart r hr hne
  · rw [h.finish_addr] at hne ⊢
    obtain ⟨hlt, hset⟩ := h.used r hr hne
    exact ⟨hlt, by rw [hbit _ hlt, hset]⟩
  · obtain ⟨hlt, hset⟩ := h.marked x hx
    exact ⟨hlt, by rw [hbit _ hlt, hset]⟩

end stores

/-- writei refuses and changes nothing, or it stores the first `k` bytes of its source: all of
them unless there is no block left or the source ends at a block that cannot be read. -/
theorem writei_stores {disk : Blocks} {sb : Superblock} {ip : Dinode} {inum : Nat}
    (src : Nat → UInt8) {limit : Nat} {off n : UInt32} (hsound : Sound disk sb inum ip)
    (hinode : ∀ c < sb.size, IBLOCK inum sb ≠ BBLOCK c sb)
    (hsize : ip.size.toNat ≤ MAXFILE * BSIZE) (halloc : Allocated disk ip)
    (hwhole : Whole off.toNat limit n.toNat) :
    ∃ w, writei disk sb ip inum src limit off n = .ok w ∧
      (Refused ip off n ∧ w.tot = -1 ∧ w.ip = ip ∧ w.disk = disk ∧ w.log = [] ∨
        ¬ Refused ip off n ∧ ∃ k ≤ n.toNat, w.tot = k ∧
          (k = n.toNat ∨ Full w.disk sb ∨ limit < n.toNat) ∧ Sound w.disk sb inum w.ip ∧
          Stores sb inum disk ip src off.toNat k w) := by
  by_cases hrefused : Refused ip off n
  · exact ⟨_, writei_refused hrefused, .inl ⟨hrefused, rfl, rfl, rfl, rfl⟩⟩
  · obtain ⟨hoff, hmax⟩ := add_le_of_accepted hrefused
    have hwhole' : n.toNat ≤ limit ∨
        0 ≤ limit ∧ (limit = 0 ∨ (off.toNat + (limit - 0)) % BSIZE = 0) :=
      hwhole.imp_right fun h => ⟨Nat.zero_le _, h⟩
    obtain ⟨w, k, hloop, hs⟩ : ∃ w k, writeLoop sb src limit n.toNat n.toNat disk ip []
        off.toNat 0 = .ok w ∧ Wrote sb inum src limit n.toNat disk ip off.toNat 0 w k :=
      hsound.wrote (by omega) (by omega) hwhole' (Nat.zero_le _)
    refine ⟨w.finish sb inum, by rw [writei_accepted hrefused, hloop]; rfl,
      .inr ⟨hrefused, k, hs.le, by rw [w.finish_tot, hs.tot_eq], ?_, hs.sound.finish hinode,
        hs.stores hinode halloc hsize hoff hmax⟩⟩
    refine hs.full.imp_right fun hstop => hstop.imp_left fun hfull b hb => ?_
    rw [Written.finish_disk, bitSet_update (hinode b hb).symm]
    exact hfull b hb

/-- The directory is what the blocks of the file hold. -/
structure Dir.Of (disk : Blocks) (ip : Dinode) (d : Dir) : Prop where
  size : d.size = ip.size.toNat
  data : ∀ j < d.size, d.data j = fileByte disk ip j

/-- The bytes of an entry do not depend on where it is stored. -/
theorem putDirent_shift {de : Dirent} (hde : de.name.length = DIRSIZ) (b : Arr) {off j : Nat}
    (hlo : off ≤ j) (hhi : j < off + DIRENT) :
    putDirent b off de j = putDirent (fun _ => 0) 0 de (j - off) := by
  obtain ⟨i, rfl⟩ := Nat.exists_eq_add_of_le hlo
  have hi : i < 16 := by
    simp only [DIRENT] at hhi
    omega
  simp only [putDirent, putBytes, putLE, Nat.add_sub_cancel_left]
  by_cases hname : 2 ≤ i
  · have hsome : i - 2 < de.name.length := by
      rw [hde, DIRSIZ]
      omega
    simp [hname, hsome, Nat.add_sub_add_left]
  · simp [hname, Nat.lt_of_not_le hname]

/-- What the model of directories takes for a writei of an entry is what writei does: when it
returns 16 the file holds the directory with the entry, and it returns -1 where the model has no
place for one. -/
theorem writei_dirent {disk : Blocks} {sb : Superblock} {ip : Dinode} {inum : Nat} {d : Dir}
    {de : Dirent} (off : UInt32) (hof : d.Of disk ip) (hde : de.name.length = DIRSIZ)
    (hsound : Sound disk sb inum ip) (hinode : ∀ c < sb.size, IBLOCK inum sb ≠ BBLOCK c sb)
    (hsize : ip.size.toNat ≤ MAXFILE * BSIZE) (halloc : Allocated disk ip) :
    ∃ w, writei disk sb ip inum (putDirent (fun _ => 0) 0 de) DIRENT off 16 = .ok w ∧
      (w.tot = 16 → ∃ d', d.writei true off.toNat de = some d' ∧ d'.Of w.disk w.ip) ∧
      (d.writei true off.toNat de = none → w.tot = -1) := by
  obtain ⟨w, hw, ⟨-, htot, -⟩ | ⟨hrefused, k, -, htot, -, -, hstores⟩⟩ :=
    writei_stores (n := 16) (putDirent (fun _ => 0) 0 de) hsound hinode hsize halloc
      (.inl (Nat.le_refl DIRENT))
  · refine ⟨w, hw, fun h => ?_, fun _ => htot⟩
    rw [htot] at h
    cases h
  · obtain ⟨hoff, hmax⟩ := add_le_of_accepted hrefused
    have hle : off.toNat ≤ d.size := hof.size ▸ hoff
    have hwrite : d.writei true off.toNat de = some { d with
        size := max d.size (off.toNat + DIRENT), data := putDirent d.data off.toNat de } := by
      have hroom : off.toNat + DIRENT ≤ MAXFILE * BSIZE := hmax
      rw [Dir.writei, if_neg (by omega), if_neg (by omega), if_neg (by simp)]
    refine ⟨w, hw, fun h16 => ?_, fun hnone => ?_⟩
    · obtain rfl : k = DIRENT := by
        rw [htot] at h16
        exact Int.ofNat_inj.mp h16
      refine ⟨_, hwrite, (congrArg (max · _) hof.size).trans hstores.size.symm, fun j hj => ?_⟩
      have hlt : j < w.ip.size.toNat := by
        rw [hstores.size, ← hof.size]
        exact hj
      rw [hstores.bytes j hlt]
      split
      · next hin => exact putDirent_shift hde _ hin.1 hin.2
      · next hout =>
          have hj' : j < d.size := by
            simp only at hj
            omega
          rw [← hof.data j hj']
          exact putDirent_of_disjoint hde (by omega)
    · rw [hwrite] at hnone
      cases hnone

section two

open TwoBytes
open WriteiWitness (super)

end two

end Xv6.Fs
