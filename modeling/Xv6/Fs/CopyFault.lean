/-
A write whose copy from user memory fails.  copyin stores into the cached block up to the
page that is not mapped, and writei does not log the block of a copy that failed: the file
is as it was behind the bytes that are counted only if the copy failed at its first byte.
-/
import Xv6.Fs.FileBlocks

namespace Xv6.Fs

open Bytes

/-! ### The loop -/

/-- writei has stopped before `n` bytes although it has a block for the next one: either_copyin
has failed.  Where balloc has failed there is no block. -/
def Written.CopyFailed (w : Written) (n : Nat) : Prop :=
  0 ≤ w.tot ∧ w.tot < n ∧ addrOf w.disk w.ip (some (w.off / BSIZE)) ≠ 0

/-- The loop that has begun at `off` and `tot` has stopped in a copy; `disk₁` are the blocks
right before that copy, and `log₁` those that the loop has logged. -/
structure Stopped (sb : Superblock) (inum : Nat) (src : Nat → UInt8) (limit n : Nat)
    (disk : Blocks) (ip : Dinode) (off tot : Nat) (w : Written) (disk₁ : Blocks)
    (log₁ : List Nat) : Prop where
  sound : Sound disk₁ sb inum w.ip
  kept : Kept off w.off disk ip disk₁ w.ip
  logged : ∀ x, disk₁ x ≠ disk x → x ∈ log₁
  tot_le : tot ≤ w.tot.toNat
  off_eq : w.off = off + (w.tot.toNat - tot)
  block : addrOf disk₁ w.ip (some (w.off / BSIZE)) ≠ 0
  stored : w.disk = Function.update disk₁ (addrOf disk₁ w.ip (some (w.off / BSIZE)))
    (copyinBlock (disk₁ (addrOf disk₁ w.ip (some (w.off / BSIZE)))) (w.off % BSIZE) src limit
      w.tot.toNat (min (n - w.tot.toNat) (BSIZE - w.off % BSIZE)))
  short : limit < w.tot.toNat + min (n - w.tot.toNat) (BSIZE - w.off % BSIZE)
  begun : w.tot.toNat = tot ∨ w.off % BSIZE = 0 ∧ w.tot.toNat ≤ limit
  fresh : addrOf disk ip (some (w.off / BSIZE)) ≠ 0 ∨
    addrOf disk₁ w.ip (some (w.off / BSIZE)) ∈ log₁
  outside : ∀ bn < MAXFILE, w.off / BSIZE ≤ bn → addrOf disk ip (some bn) ≠ 0 →
    addrOf disk ip (some bn) ∉ log₁

section loop

variable {disk : Blocks} {sb : Superblock} {inum limit n fuel off tot : Nat} {ip : Dinode}
  {src : Nat → UInt8} {log : List Nat} {w : Written}

/-- A turn whose copy does not fail, before the turns that end in a copy that does. -/
theorem Mapped.stopped {r : Bmapped} {m : Nat} {disk₁ : Blocks} {log₁ : List Nat}
    (hm : Mapped sb inum disk ip (off / BSIZE) r) (haddr : r.addr ≠ 0)
    (hmax : off + (n - tot) ≤ MAXFILE * BSIZE) (htn : tot < n) (hlt : w.tot < n)
    (hsize : m = min (n - tot) (BSIZE - off % BSIZE)) (hcopy : tot + m ≤ limit)
    (hs : Stopped sb inum src limit n (Function.update r.disk r.addr
      (copyinBlock (r.disk r.addr) (off % BSIZE) src limit tot m)) r.ip (off + m) (tot + m) w
      disk₁ log₁) :
    Stopped sb inum src limit n disk ip off tot w disk₁ (r.log ++ [r.addr] ++ log₁) := by
  have htot := hs.tot_le
  have hoff := hs.off_eq
  -- the copy went up to the end of its block, so the later blocks are other ones
  have hdiv := Nat.div_add_mod' off BSIZE
  have hmod := Nat.mod_lt off (show 0 < BSIZE by decide)
  have hnext : (off / BSIZE + 1) * BSIZE ≤ w.off := by
    rw [Nat.add_mul, Nat.one_mul]
    omega
  have hlater : off / BSIZE < w.off / BSIZE :=
    (Nat.le_div_iff_mul_le (by decide)).mpr hnext
  have hbn : off / BSIZE < MAXFILE := div_lt_MAXFILE (by omega)
  have hbn' : w.off / BSIZE < MAXFILE := div_lt_MAXFILE (by omega)
  have hsound := hm.grown.sound
  have hstore := hsound.store_addr hbn hm.addr haddr
    (copyinBlock (r.disk r.addr) (off % BSIZE) src limit tot m)
  refine
    { sound := hs.sound
      kept := ?_
      logged := fun x hx => ?_
      tot_le := by omega
      off_eq := by omega
      block := hs.block
      stored := hs.stored
      short := hs.short
      begun := ?_
      fresh := ?_
      outside := fun bn hlt hle hne => ?_ }
  · exact (((hm.grown.kept off).trans (hsound.kept_store hbn hm.addr haddr) (Nat.le_refl _)
      (Nat.le_add_right _ _))).trans hs.kept (Nat.le_add_right _ _) (by omega)
  · rw [List.mem_append, List.mem_append, List.mem_singleton]
    by_cases hlast : disk₁ x = Function.update r.disk r.addr
        (copyinBlock (r.disk r.addr) (off % BSIZE) src limit tot m) x
    · by_cases hself : x = r.addr
      · exact .inl (.inr hself)
      · rw [Function.update_of_ne hself] at hlast
        exact .inl (.inl (hm.grown.logged x (by rwa [← hlast])))
    · exact .inr (hs.logged x hlast)
  · rcases hs.begun with hfirst | hlater
    · have hwhole : w.off = off / BSIZE * BSIZE + BSIZE := by omega
      rw [hwhole]
      exact .inr ⟨by simp, by omega⟩
    · exact .inr hlater
  · rcases hs.fresh with hpresent | hlogged
    · rw [hstore, hm.others _ hbn' (Nat.ne_of_gt hlater)] at hpresent
      exact .inl hpresent
    · exact .inr (List.mem_append_right _ hlogged)
  · have hold := hm.grown.old (some bn) (role_some.mpr hlt) hne
    have hrest := hs.outside bn hlt hle (by rwa [hstore, hold])
    rw [hstore, hold] at hrest
    rw [List.mem_append, List.mem_append, List.mem_singleton, not_or, not_or]
    refine ⟨⟨hm.grown.outside bn hlt hne, fun heq => ?_⟩, hrest⟩
    have hrole := hsound.distinct (some bn) (some (off / BSIZE)) (role_some.mpr hlt)
      (role_some.mpr hbn) (by rwa [hold]) (by rw [hold, heq, hm.addr])
    have hsame : bn = off / BSIZE := Option.some.inj hrole
    omega

/-- The loop keeps the file sound, whatever ends it. -/
theorem Sound.stopped (h : Sound disk sb inum ip) (hfuel : n - tot ≤ fuel)
    (hmax : off + (n - tot) ≤ MAXFILE * BSIZE)
    (hw : writeLoop sb src limit n fuel disk ip log off tot = .ok w) :
    Sound w.disk sb inum w.ip ∧ (w.CopyFailed n → ∃ disk₁ log₁, w.log = log ++ log₁ ∧
      Stopped sb inum src limit n disk ip off tot w disk₁ log₁) := by
  induction fuel generalizing disk ip log off tot with
  | zero =>
      cases hw
      refine ⟨h, fun hfail => ?_⟩
      have hshort := hfail.2.1
      simp only at hshort
      omega
  | succ fuel ih =>
      by_cases hlt : tot < n
      · have hbn : off / BSIZE < MAXFILE := div_lt_MAXFILE (by omega)
        obtain ⟨r, hbmap, hm⟩ := h.bmap hbn
        rw [writeLoop, if_pos hlt, hbmap] at hw
        change (if r.addr = 0 then _ else _) = _ at hw
        by_cases haddr : r.addr = 0
        · rw [if_pos haddr] at hw
          cases hw
          exact ⟨hm.grown.sound, fun hfail => absurd (hm.addr.trans haddr) hfail.2.2⟩
        · rw [if_neg haddr] at hw
          have hmod := Nat.mod_lt off (show 0 < BSIZE by decide)
          have hstore := hm.grown.sound.store hbn hm.addr haddr (copyinBlock (r.disk r.addr)
            (off % BSIZE) src limit tot (min (n - tot) (BSIZE - off % BSIZE)))
          by_cases hcopy : tot + min (n - tot) (BSIZE - off % BSIZE) ≤ limit
          · simp only [if_pos hcopy] at hw
            obtain ⟨hsound, hstopped⟩ := ih hstore (by omega) (by omega) hw
            refine ⟨hsound, fun hfail => ?_⟩
            obtain ⟨disk₁, log₁, hlog, hs⟩ := hstopped hfail
            refine ⟨disk₁, r.log ++ [r.addr] ++ log₁, ?_,
              hm.stopped haddr hmax hlt hfail.2.1 rfl hcopy hs⟩
            rw [hlog]
            simp only [List.append_assoc]
          · simp only [if_neg hcopy] at hw
            cases hw
            refine ⟨hstore, fun _ => ⟨r.disk, r.log, rfl,
              { sound := hm.grown.sound
                kept := hm.grown.kept off
                logged := hm.grown.logged
                tot_le := Nat.le_refl tot
                off_eq := by simp
                block := by rwa [hm.addr]
                stored := by rw [hm.addr]; rfl
                short := Nat.lt_of_not_le hcopy
                begun := .inl rfl
                fresh := ?_
                outside := fun bn hlt _ => hm.grown.outside bn hlt }⟩⟩
            rw [hm.addr]
            exact hm.fresh.resolve_left haddr
      · rw [writeLoop_done hlt] at hw
        cases hw
        refine ⟨h, fun hfail => ?_⟩
        have hshort := hfail.2.1
        simp only at hshort
        omega

end loop

/-! ### writei -/

/-- A copy that stores what is there already. -/
theorem copyinBlock_same {b : Arr} {o limit tot m : Nat} {src : Nat → UInt8}
    (h : ∀ t, tot ≤ t → t < limit → t < tot + m → src t = b (o + (t - tot))) :
    copyinBlock b o src limit tot m = b := by
  funext j
  rw [copyinBlock]
  split
  · next hin =>
      rw [h _ (by omega) (by omega) (by omega)]
      congr 1
      omega
  · rfl

/-- The file as it was, but for the bytes that are counted, and the changes logged. -/
def Intact (disk : Blocks) (ip : Dinode) (off : Nat) (w : Written) : Prop :=
  (∀ j < ip.size.toNat, ¬ (off ≤ j ∧ j < off + w.tot.toNat) →
    fileByte w.disk w.ip j = fileByte disk ip j) ∧
  ∀ x, w.disk x ≠ disk x → x ∈ w.log

section fault

variable {disk disk₁ : Blocks} {sb : Superblock} {ip : Dinode} {inum limit n off : Nat}
  {src : Nat → UInt8} {w : Written} {log₁ : List Nat}
  (hs : Stopped sb inum src limit n disk ip off 0 w disk₁ log₁)

include hs

/-- The bytes that a failing copy has stored lie in one block. -/
theorem Stopped.position {t : Nat} (hle : w.tot.toNat ≤ t) (hlt : t < limit) :
    (off + t) / BSIZE = w.off / BSIZE ∧
      (off + t) % BSIZE = w.off % BSIZE + (t - w.tot.toNat) := by
  have hshort := hs.short
  have hoff := hs.off_eq
  have heq : off + t = w.off + (t - w.tot.toNat) := by omega
  rw [heq]
  exact div_mod_add (by omega)

/-- The block of the failing copy is the one of the first byte that cannot be read. -/
theorem Stopped.block_eq (hle : w.tot.toNat ≤ limit) :
    w.off / BSIZE = (off + limit) / BSIZE := by
  have hshort := hs.short
  have hoff := hs.off_eq
  have heq : off + limit = w.off + (limit - w.tot.toNat) := by omega
  rw [heq, (div_mod_add (by omega)).1]

theorem Stopped.tot_le_limit : w.tot.toNat ≤ limit := by
  rcases hs.begun with hfirst | ⟨-, hle⟩
  · omega
  · exact hle

/-- The bytes that the failing copy has stored are those in front of that byte, in its block. -/
theorem Stopped.tot_le_iff {t : Nat} (hlt : t < limit) :
    w.tot.toNat ≤ t ↔ (off + t) / BSIZE = (off + limit) / BSIZE := by
  rw [← hs.block_eq hs.tot_le_limit]
  refine ⟨fun hle => (hs.position hle hlt).1, fun hblock => ?_⟩
  rcases hs.begun with hfirst | ⟨haligned, -⟩
  · omega
  · have hoff := hs.off_eq
    have hdiv := Nat.div_add_mod' w.off BSIZE
    have hdiv' := Nat.div_add_mod' (off + t) BSIZE
    rw [hblock] at hdiv'
    omega

theorem Stopped.new_logged
    (h : addrOf disk ip (some (w.off / BSIZE)) = 0 ∨ w.disk = disk₁) {x : Nat}
    (hx : w.disk x ≠ disk₁ x) : x ∈ log₁ := by
  rcases h with hnone | heq
  · have hself : x = addrOf disk₁ w.ip (some (w.off / BSIZE)) := by
      by_contra hne
      rw [hs.stored, Function.update_of_ne hne] at hx
      exact hx rfl
    rw [hself]
    exact hs.fresh.resolve_left fun hne => hne hnone
  · rw [heq] at hx
    exact absurd rfl hx

variable (hbn : w.off / BSIZE < MAXFILE)

include hbn

/-- What the block of the failing copy holds behind the bytes that are counted. -/
theorem Stopped.before (hne : addrOf disk ip (some (w.off / BSIZE)) ≠ 0) {t : Nat}
    (hle : w.tot.toNat ≤ t) (hlt : t < limit) :
    disk₁ (addrOf disk₁ w.ip (some (w.off / BSIZE))) (w.off % BSIZE + (t - w.tot.toNat)) =
      fileByte disk ip (off + t) := by
  obtain ⟨hblock, hmod⟩ := hs.position hle hlt
  have hdiv := Nat.div_add_mod' (off + t) BSIZE
  have hoff := hs.off_eq
  rw [hs.kept.addr _ (role_some.mpr hbn) hne, fileByte, hblock, hmod]
  refine hs.kept.bytes _ hbn hne _ ?_ ?_
  · rw [← hmod]
    exact Nat.mod_lt _ (by decide)
  · rw [hblock, hmod] at hdiv
    omega

/-- The failing copy has changed its block only if the call has allocated it. -/
theorem Stopped.unchanged
    (h : addrOf disk ip (some (w.off / BSIZE)) = 0 ∨
      ∀ t, w.tot.toNat ≤ t → t < limit → src t = fileByte disk ip (off + t)) :
    addrOf disk ip (some (w.off / BSIZE)) = 0 ∨ w.disk = disk₁ := by
  by_cases hne : addrOf disk ip (some (w.off / BSIZE)) = 0
  · exact .inl hne
  · right
    have hsrc := h.resolve_left hne
    rw [hs.stored, copyinBlock_same fun t hle hlt _ =>
      (hsrc t hle hlt).trans (hs.before hbn hne hle hlt).symm, Function.update_eq_self]

theorem Stopped.same_block
    (h : addrOf disk ip (some (w.off / BSIZE)) = 0 ∨ w.disk = disk₁) {bn : Nat}
    (hlt : bn < MAXFILE) (hne : addrOf disk ip (some bn) ≠ 0) :
    w.disk (addrOf disk ip (some bn)) = disk₁ (addrOf disk ip (some bn)) := by
  rcases h with hnone | heq
  · have hold := hs.kept.addr (some bn) (role_some.mpr hlt) hne
    have hother : addrOf disk ip (some bn) ≠ addrOf disk₁ w.ip (some (w.off / BSIZE)) := by
      intro heq
      have hrole := hs.sound.distinct (some bn) (some (w.off / BSIZE)) (role_some.mpr hlt)
        (role_some.mpr hbn) (by rwa [hold]) (hold.trans heq)
      rw [hrole] at hne
      exact hne hnone
    rw [hs.stored, Function.update_of_ne hother]
  · rw [heq]

theorem Stopped.addr (r : Option Nat) :
    addrOf w.disk w.ip r = addrOf disk₁ w.ip r := by
  rw [hs.stored]
  exact hs.sound.store_addr hbn rfl hs.block _ r

end fault

/-- When a copy of writei fails, the file is intact exactly if the copy has stored nothing that
was not there.  Its block is the one of byte `off + limit`, the first that cannot be read: the
file has no such block before the call, or holds the source bytes in front of that byte
already. -/
theorem writei_copy_fault_iff (disk : Blocks) (sb : Superblock) (ip : Dinode) (inum : Nat)
    (src : Nat → UInt8) (limit : Nat) (off n : UInt32) (w : Written)
    (hsound : Sound disk sb inum ip) (hsize : ip.size.toNat ≤ MAXFILE * BSIZE)
    (halloc : Allocated disk ip) (hw : writei disk sb ip inum src limit off n = .ok w)
    (hfail : w.CopyFailed n.toNat) :
    Intact disk ip off.toNat w ↔
      addrOf disk ip (some ((off.toNat + limit) / BSIZE)) = 0 ∨
        ∀ t < limit, (off.toNat + t) / BSIZE = (off.toNat + limit) / BSIZE →
          src t = fileByte disk ip (off.toNat + t) := by
  obtain ⟨hmax, w₁, hloop, hw₁⟩ := writei_ok hw hfail.1
  have htot : w.tot = w₁.tot := by rw [hw₁, Written.finish_tot]
  have hoff : w.off = w₁.off := by rw [hw₁, Written.finish_off]
  have hlog : w.log = w₁.log ++ [IBLOCK inum sb] := by rw [hw₁, Written.finish_log]
  have hdisk : ∀ x, x ≠ IBLOCK inum sb → w.disk x = w₁.disk x := by
    rw [hw₁]
    exact fun x hx => w₁.finish_disk_of_ne hx
  obtain ⟨hsound₁, hstopped⟩ := hsound.stopped (by omega) (by omega) hloop
  have hmap : ∀ r, addrOf w.disk w.ip r = addrOf w₁.disk w₁.ip r := fun r => by
    rw [hw₁, hsound₁.finish_addr]
  have hfail₁ : w₁.CopyFailed n.toNat := by
    obtain ⟨h₀, h₁, h₂⟩ := hfail
    rw [hmap, hoff] at h₂
    exact ⟨htot ▸ h₀, htot ▸ h₁, h₂⟩
  obtain ⟨disk₁, log₁, hlog₁, hs⟩ := hstopped hfail₁
  rw [hlog₁, List.nil_append] at hlog
  have hpos := hfail₁.1
  have hshort := hfail₁.2.1
  have hreach := hs.off_eq
  have hbn : w₁.off / BSIZE < MAXFILE := div_lt_MAXFILE (by omega)
  rw [Intact, htot, ← hs.block_eq hs.tot_le_limit]
  -- the block of the failing copy, after it
  have hstored := hs.stored
  constructor
  · rintro ⟨-, hlogged⟩
    by_cases hne : addrOf disk ip (some (w₁.off / BSIZE)) = 0
    · exact .inl hne
    refine .inr fun t hlt hin => ?_
    have hle : w₁.tot.toNat ≤ t :=
      (hs.tot_le_iff hlt).mpr (hin.trans (hs.block_eq hs.tot_le_limit))
    by_contra hdiff
    have haddr := hs.kept.addr _ (role_some.mpr hbn) hne
    have hbefore := hs.before hbn hne hle hlt
    obtain ⟨hblock, hmod⟩ := hs.position hle hlt
    have hinode : addrOf disk ip (some (w₁.off / BSIZE)) ≠ IBLOCK inum sb :=
      fun heq => hsound.apart _ (role_some.mpr hbn) hne (.inr (.inl heq))
    have hchanged : w.disk (addrOf disk ip (some (w₁.off / BSIZE))) ≠
        disk (addrOf disk ip (some (w₁.off / BSIZE))) := by
      intro heq
      have hbyte := congrFun heq (w₁.off % BSIZE + (t - w₁.tot.toNat))
      have hin := hs.short
      rw [hdisk _ hinode, hstored, haddr, Function.update_self, copyinBlock,
        if_pos ⟨Nat.le_add_right _ _, by omega⟩] at hbyte
      apply hdiff
      rw [fileByte, hblock, hmod, ← hbyte]
      congr 1
      omega
    have hmem := hlogged _ hchanged
    rw [hlog, List.mem_append, List.mem_singleton] at hmem
    exact hmem.elim (hs.outside _ hbn (Nat.le_refl _) hne) hinode
  · intro hcases
    have hkeep := hs.unchanged hbn (hcases.imp_right fun hsrc t hle hlt =>
      hsrc t hlt (hs.position hle hlt).1)
    refine ⟨fun j hj hout => ?_, fun x hx => ?_⟩
    · have hdiv := Nat.div_add_mod' j BSIZE
      have hlt : j / BSIZE < MAXFILE := div_lt_MAXFILE (by omega)
      have hne : addrOf disk ip (some (j / BSIZE)) ≠ 0 :=
        present_iff.mp (halloc (j / BSIZE) (by omega))
      have hinode : addrOf disk ip (some (j / BSIZE)) ≠ IBLOCK inum sb :=
        fun heq => hsound.apart _ (role_some.mpr hlt) hne (.inr (.inl heq))
      rw [fileByte, hmap, hs.addr hbn, hs.kept.addr _ (role_some.mpr hlt) hne,
        hdisk _ hinode, hs.same_block hbn hkeep hlt hne]
      exact hs.kept.bytes _ hlt hne _ (Nat.mod_lt _ (by decide)) (by omega)
    · rw [hlog, List.mem_append, List.mem_singleton]
      by_cases hself : x = IBLOCK inum sb
      · exact .inr hself
      · rw [hdisk x hself] at hx
        by_cases hcopy : w₁.disk x = disk₁ x
        · exact .inl (hs.logged x (by rwa [← hcopy]))
        · exact .inl (hs.new_logged hkeep hcopy)

section two

open TwoBytes
open WriteiWitness (super)

/-- Two bytes of which only the first can be read: it is in the file, though no byte is
counted, and its block is not logged. -/
theorem writei_copy_fault_stores :
    ∃ w, writei disk super file 1 (fun _ => 7) 1 0 2 = .ok w ∧ w.CopyFailed 2 ∧ w.tot = 0 ∧
      fileByte disk file 0 = 0 ∧ fileByte w.disk w.ip 0 = 7 ∧
      w.disk 100 ≠ disk 100 ∧ 100 ∉ w.log ∧ ¬ Intact disk file 0 w := by
  have hchanged : ∀ {a b : Arr}, a 0 = 7 → b 0 = 0 → a ≠ b := by
    intro a b ha hb heq
    rw [heq, hb] at ha
    cases ha
  refine ⟨_, rfl, ⟨by decide, by decide, by decide⟩, rfl, rfl, rfl, hchanged rfl rfl, by decide,
    fun hintact => ?_⟩
  have hmem := hintact.2 100 (hchanged rfl rfl)
  exact absurd hmem (by decide)

/-- Two bytes of which none can be read. -/
theorem writei_copy_fault_first :
    ∃ w, writei disk super file 1 (fun _ => 7) 0 0 2 = .ok w ∧ w.CopyFailed 2 ∧
      Intact disk file 0 w := by
  refine ⟨_, rfl, ⟨by decide, by decide, by decide⟩, ?_⟩
  exact (writei_copy_fault_iff disk super file 1 (fun _ => 7) 0 0 2 _ sound (by decide) allocated
    rfl ⟨by decide, by decide, by decide⟩).mpr (.inr fun t hlt => absurd hlt (Nat.not_lt_zero t))

end two

end Xv6.Fs
