/-
The write path of kernel/fs.c on an inode that is locked, with the blocks that it passes to
log_write: a chunk of filewrite fits the reservation of one operation.
-/
import Xv6.Fs.Readi
import Mathlib.Data.Finset.Card

namespace Xv6.Fs

open Bytes

/-- The blocks that balloc logs: the bitmap block, and the block that bzero clears. -/
def ballocLog (disk : Blocks) (sb : Superblock) : List Nat :=
  match (List.range sb.size).find? fun b => !bitSet disk sb b with
  | none => []
  | some b => [BBLOCK b sb, b]

/-- What bmap returns, with the inode and the disk after it and the blocks that it has logged. -/
structure Bmapped where
  addr : Nat
  ip : Dinode
  disk : Blocks
  log : List Nat

/-- bmap has the block of indirect addresses, or could not allocate it. -/
def bmapIndirect (disk : Blocks) (sb : Superblock) (ip : Dinode) : Dinode × Blocks × List Nat :=
  if ip.addrs NDIRECT = 0 then
    ({ ip with addrs := Function.update ip.addrs NDIRECT (UInt32.ofNat (balloc disk sb).1) },
      (balloc disk sb).2, ballocLog disk sb)
  else (ip, disk, [])

/-- bmap with the blocks that it logs. -/
def bmapLogged (disk : Blocks) (sb : Superblock) (ip : Dinode) (bn : Nat) :
    Except String Bmapped :=
  if bn < NDIRECT then
    if ip.addrs bn = 0 then
      let (addr, disk') := balloc disk sb
      if addr = 0 then .ok ⟨0, ip, disk', ballocLog disk sb⟩
      else .ok ⟨addr, { ip with addrs := Function.update ip.addrs bn (UInt32.ofNat addr) },
        disk', ballocLog disk sb⟩
    else .ok ⟨(ip.addrs bn).toNat, ip, disk, []⟩
  else if bn - NDIRECT < NINDIRECT then
    let (ip, disk, log) := bmapIndirect disk sb ip
    if ip.addrs NDIRECT = 0 then .ok ⟨0, ip, disk, log⟩
    else
      let a := disk (ip.addrs NDIRECT).toNat
      if getLE 4 a (4 * (bn - NDIRECT)) = 0 then
        let (addr, disk') := balloc disk sb
        if addr = 0 then .ok ⟨0, ip, disk', log ++ ballocLog disk sb⟩
        else .ok ⟨addr, ip,
          Function.update disk' (ip.addrs NDIRECT).toNat (putLE 4 a (4 * (bn - NDIRECT)) addr),
          log ++ ballocLog disk sb ++ [(ip.addrs NDIRECT).toNat]⟩
      else .ok ⟨getLE 4 a (4 * (bn - NDIRECT)), ip, disk, log⟩
  else .error "bmap: out of range"

/-- Without its log this is the bmap of the read path. -/
theorem bmap_eq_bmapLogged (disk : Blocks) (sb : Superblock) (ip : Dinode) (bn : Nat) :
    bmap disk sb ip bn = (bmapLogged disk sb ip bn).map fun r => (r.addr, r.ip, r.disk) := by
  unfold bmap bmapLogged bmapIndirect
  split
  · split
    · obtain ⟨addr, disk'⟩ := balloc disk sb
      cases addr <;> rfl
    · rfl
  split
  · by_cases hind : ip.addrs NDIRECT = 0
    · simp only [if_pos hind]
      obtain ⟨x, disk₁⟩ := balloc disk sb
      split
      · rfl
      split
      · obtain ⟨addr, disk'⟩ := balloc disk₁ sb
        cases addr <;> rfl
      · rfl
    · simp only [if_neg hind]
      split
      · obtain ⟨addr, disk'⟩ := balloc disk sb
        cases addr <;> rfl
      · rfl
  · rfl

/-- What writei returns, with the offset that it has reached. -/
structure Written where
  tot : Int
  off : Nat
  ip : Dinode
  disk : Blocks
  log : List Nat

/-- either_copyin of `m` bytes from position `tot` of the source to offset `o` of a block.  The
source can be read up to `limit`; a copy that fails has stored the bytes before. -/
def copyinBlock (b : Arr) (o : Nat) (src : Nat → UInt8) (limit tot m : Nat) : Arr := fun j =>
  if o ≤ j ∧ j < o + min m (limit - tot) then src (tot + (j - o)) else b j

/-- The loop of writei. -/
def writeLoop (sb : Superblock) (src : Nat → UInt8) (limit n : Nat) :
    Nat → Blocks → Dinode → List Nat → Nat → Nat → Except String Written
  | 0, disk, ip, log, off, tot => .ok ⟨tot, off, ip, disk, log⟩
  | fuel + 1, disk, ip, log, off, tot =>
      if tot < n then
        bmapLogged disk sb ip (off / BSIZE) >>= fun r =>
        if r.addr = 0 then .ok ⟨tot, off, r.ip, r.disk, log ++ r.log⟩
        else
          let m := min (n - tot) (BSIZE - off % BSIZE)
          let disk := Function.update r.disk r.addr
            (copyinBlock (r.disk r.addr) (off % BSIZE) src limit tot m)
          if tot + m ≤ limit then
            writeLoop sb src limit n fuel disk r.ip (log ++ r.log ++ [r.addr]) (off + m) (tot + m)
          else .ok ⟨tot, off, r.ip, disk, log ++ r.log⟩
      else .ok ⟨tot, off, ip, disk, log⟩

/-- iupdate: the inode is copied to its block, which is logged. -/
def Written.iupdate (w : Written) (sb : Superblock) (inum : Nat) : Written :=
  { w with
    disk := Function.update w.disk (IBLOCK inum sb)
      (putDinode (w.disk (IBLOCK inum sb)) (inum % IPB * DINODE) w.ip)
    log := w.log ++ [IBLOCK inum sb] }

def writei (disk : Blocks) (sb : Superblock) (ip : Dinode) (inum : Nat) (src : Nat → UInt8)
    (limit : Nat) (off n : UInt32) : Except String Written :=
  if off > ip.size ∨ off + n < off then .ok ⟨-1, off.toNat, ip, disk, []⟩
  else if (off + n).toNat > MAXFILE * BSIZE then .ok ⟨-1, off.toNat, ip, disk, []⟩
  else
    writeLoop sb src limit n.toNat n.toNat disk ip [] off.toNat 0 >>= fun w =>
    let w := if w.off > w.ip.size.toNat then
      { w with ip := { w.ip with size := UInt32.ofNat w.off } } else w
    .ok (w.iupdate sb inum)

/-! ### Counting -/

/-- The block of indirect addresses and the bitmap block of its bit. -/
def indirectBlocks (sb : Superblock) (ip : Dinode) : Finset Nat :=
  if ip.addrs NDIRECT = 0 then ∅
  else {(ip.addrs NDIRECT).toNat, BBLOCK (ip.addrs NDIRECT).toNat sb}

theorem card_indirectBlocks (sb : Superblock) (ip : Dinode) :
    (indirectBlocks sb ip).card ≤ 2 := by
  unfold indirectBlocks
  split
  · exact Nat.zero_le _
  · exact Finset.card_le_two

/-- The inode has an address for block `bn`. -/
def Present (disk : Blocks) (ip : Dinode) (bn : Nat) : Prop :=
  if bn < NDIRECT then ip.addrs bn ≠ 0
  else ip.addrs NDIRECT ≠ 0 ∧
    getLE 4 (disk (ip.addrs NDIRECT).toNat) (4 * (bn - NDIRECT)) ≠ 0

/-- The blocks that one turn of the loop can log: at most `c` besides those of the indirect
block. -/
def Fits (sb : Superblock) (ip : Dinode) (c : Nat) (r : Bmapped) : Prop :=
  indirectBlocks sb ip ⊆ indirectBlocks sb r.ip ∧
    ∃ B : Finset Nat, B.card ≤ c ∧ r.log.toFinset ⊆ B ∪ indirectBlocks sb r.ip ∧
      (r.addr ≠ 0 → r.addr ∈ B)

variable {disk : Blocks} {sb : Superblock} {ip : Dinode} {bn : Nat}

/-- balloc logs a bitmap block and the block that it returns. -/
theorem ballocLog_subset (disk : Blocks) (sb : Superblock) :
    ∃ b, (ballocLog disk sb).toFinset ⊆ {BBLOCK b sb, b} ∧
      ((balloc disk sb).1 = b ∨ (balloc disk sb).1 = 0) ∧
      ((balloc disk sb).1 = 0 ∨ (balloc disk sb).1 < sb.size) := by
  unfold ballocLog balloc
  cases hfind : (List.range sb.size).find? fun b => !bitSet disk sb b with
  | none => exact ⟨0, by simp, .inr rfl, .inl rfl⟩
  | some b =>
      refine ⟨b, by simp, .inl rfl, .inr ?_⟩
      exact List.mem_range.mp (List.mem_of_find?_eq_some hfind)

theorem card_pair (a b : Nat) : ({a, b} : Finset Nat).card ≤ 2 := Finset.card_le_two

theorem indirectBlocks_congr {ip' : Dinode} (h : ip'.addrs NDIRECT = ip.addrs NDIRECT) :
    indirectBlocks sb ip' = indirectBlocks sb ip := by
  rw [indirectBlocks, indirectBlocks, h]

/-- A block with an address costs itself only. -/
theorem bmapLogged_present (sb : Superblock) (hbn : bn < MAXFILE) (h : Present disk ip bn) :
    ∃ r, bmapLogged disk sb ip bn = .ok r ∧ Fits sb ip 1 r := by
  unfold Present at h
  by_cases hdirect : bn < NDIRECT
  · rw [if_pos hdirect] at h
    refine ⟨⟨(ip.addrs bn).toNat, ip, disk, []⟩, ?_, subset_rfl, {(ip.addrs bn).toNat},
      (Finset.card_singleton _).le, by simp, fun _ => Finset.mem_singleton_self _⟩
    rw [bmapLogged, if_pos hdirect, if_neg h]
  · rw [if_neg hdirect] at h
    have hind : bn - NDIRECT < NINDIRECT := by
      simp only [MAXFILE] at hbn
      omega
    refine ⟨⟨getLE 4 (disk (ip.addrs NDIRECT).toNat) (4 * (bn - NDIRECT)), ip, disk, []⟩, ?_,
      subset_rfl, {getLE 4 (disk (ip.addrs NDIRECT).toNat) (4 * (bn - NDIRECT))},
      (Finset.card_singleton _).le, by simp, fun _ => Finset.mem_singleton_self _⟩
    rw [bmapLogged, if_neg hdirect, if_pos hind, bmapIndirect, if_neg h.1]
    simp only [if_neg h.1, if_neg h.2]

/-- The indirect block, allocated or not, is accounted for. -/
theorem bmapIndirect_log (hsb : sb.size < 2 ^ 32) (disk : Blocks) (ip : Dinode) :
    let x := bmapIndirect disk sb ip
    indirectBlocks sb ip ⊆ indirectBlocks sb x.1 ∧
      (x.1.addrs NDIRECT ≠ 0 → x.2.2.toFinset ⊆ indirectBlocks sb x.1) ∧
      ∃ B : Finset Nat, B.card ≤ 2 ∧ x.2.2.toFinset ⊆ B := by
  unfold bmapIndirect
  by_cases hzero : ip.addrs NDIRECT = 0
  · rw [if_pos hzero]
    obtain ⟨b, hlog, hb, hlt⟩ := ballocLog_subset disk sb
    refine ⟨?_, fun hne => ?_, {BBLOCK b sb, b}, card_pair _ _, hlog⟩
    · rw [indirectBlocks, if_pos hzero]
      exact Finset.empty_subset _
    · simp only [Function.update_self] at hne ⊢
      have haddr : (balloc disk sb).1 ≠ 0 := fun h0 => hne (by rw [h0]; rfl)
      have hb' := hb.resolve_right haddr
      have hlt' := hlt.resolve_left haddr
      have htoNat : (UInt32.ofNat b).toNat = b := by
        rw [UInt32.toNat_ofNat']
        exact Nat.mod_eq_of_lt (by omega)
      rw [hb'] at hne
      simp only [indirectBlocks, Function.update_self, hb', if_neg hne, htoNat]
      exact hlog.trans (Finset.pair_comm _ _).subset
  · rw [if_neg hzero]
    exact ⟨subset_rfl, fun _ => by simp, ∅, Nat.zero_le _, by simp⟩

/-- Any block costs itself and a bitmap block at most. -/
theorem bmapLogged_fits (hsb : sb.size < 2 ^ 32) (hbn : bn < MAXFILE) (disk : Blocks)
    (ip : Dinode) : ∃ r, bmapLogged disk sb ip bn = .ok r ∧ Fits sb ip 2 r := by
  unfold bmapLogged
  by_cases hdirect : bn < NDIRECT
  · rw [if_pos hdirect]
    by_cases hzero : ip.addrs bn = 0
    · rw [if_pos hzero]
      obtain ⟨b, hlog, hb, -⟩ := ballocLog_subset disk sb
      have hsub : (ballocLog disk sb).toFinset ⊆ ({BBLOCK b sb, b} : Finset Nat) ∪
          indirectBlocks sb ip := hlog.trans Finset.subset_union_left
      by_cases haddr : (balloc disk sb).1 = 0
      · simp only [if_pos haddr]
        exact ⟨_, rfl, subset_rfl, _, card_pair _ _, hsub, fun h => absurd rfl h⟩
      · simp only [if_neg haddr]
        have hsame : Function.update ip.addrs bn (UInt32.ofNat (balloc disk sb).1) NDIRECT =
            ip.addrs NDIRECT := Function.update_of_ne (by omega) _ _
        refine ⟨_, rfl, (indirectBlocks_congr hsame).symm.subset, _, card_pair _ _,
          hsub.trans (Finset.union_subset_union_right (indirectBlocks_congr hsame).symm.subset),
          fun _ => ?_⟩
        rw [hb.resolve_right haddr]
        simp
    · have hpresent : Present disk ip bn := by
        rw [Present, if_pos hdirect]
        exact hzero
      obtain ⟨r, hr, hfits, B, hB, hrest⟩ := bmapLogged_present sb hbn hpresent
      rw [bmapLogged, if_pos hdirect] at hr
      exact ⟨r, hr, hfits, B, hB.trans (by decide), hrest⟩
  · have hind : bn - NDIRECT < NINDIRECT := by
      simp only [MAXFILE] at hbn
      omega
    rw [if_neg hdirect, if_pos hind]
    obtain ⟨hmono, hcovered, B, hB, hlogB⟩ := bmapIndirect_log hsb disk ip
    generalize bmapIndirect disk sb ip = x at hmono hcovered hlogB
    obtain ⟨ip₁, disk₁, log₁⟩ := x
    simp only at hmono hcovered hlogB ⊢
    by_cases hnone : ip₁.addrs NDIRECT = 0
    · rw [if_pos hnone]
      exact ⟨_, rfl, hmono, B, hB, hlogB.trans Finset.subset_union_left, fun h => absurd rfl h⟩
    · rw [if_neg hnone]
      have hcov := hcovered hnone
      by_cases hentry : getLE 4 (disk₁ (ip₁.addrs NDIRECT).toNat) (4 * (bn - NDIRECT)) = 0
      · rw [if_pos hentry]
        obtain ⟨b, hlog, hb, -⟩ := ballocLog_subset disk₁ sb
        have hsub : (log₁ ++ ballocLog disk₁ sb).toFinset ⊆
            ({BBLOCK b sb, b} : Finset Nat) ∪ indirectBlocks sb ip₁ := by
          rw [List.toFinset_append]
          exact Finset.union_subset (hcov.trans Finset.subset_union_right)
            (hlog.trans Finset.subset_union_left)
        by_cases haddr : (balloc disk₁ sb).1 = 0
        · simp only [if_pos haddr]
          exact ⟨_, rfl, hmono, _, card_pair _ _, hsub, fun h => absurd rfl h⟩
        · simp only [if_neg haddr]
          refine ⟨_, rfl, hmono, {BBLOCK b sb, b}, card_pair _ _, ?_, fun _ => ?_⟩
          · simp only
            rw [List.toFinset_append]
            refine Finset.union_subset hsub ?_
            simp [indirectBlocks, hnone]
          · rw [hb.resolve_right haddr]
            simp
      · rw [if_neg hentry]
        refine ⟨_, rfl, hmono, {getLE 4 (disk₁ (ip₁.addrs NDIRECT).toNat) (4 * (bn - NDIRECT))},
          ?_, hcov.trans Finset.subset_union_right, fun _ => Finset.mem_singleton_self _⟩
        rw [Finset.card_singleton]
        decide

/-! ### The loop -/

/-- The blocks logged are at most `c`, besides those of the indirect block. -/
def Bounded (sb : Superblock) (ip : Dinode) (log : List Nat) (c : Nat) : Prop :=
  ∃ A : Finset Nat, A.card ≤ c ∧ log.toFinset ⊆ A ∪ indirectBlocks sb ip

variable {src : Nat → UInt8} {limit n fuel off tot c k : Nat} {log : List Nat} {r : Bmapped}

theorem Bounded.mono {c' : Nat} (h : Bounded sb ip log c) (hle : c ≤ c') :
    Bounded sb ip log c' := by
  obtain ⟨A, hA, hlog⟩ := h
  exact ⟨A, hA.trans hle, hlog⟩

/-- One turn adds the cost of its block. -/
theorem Bounded.turn (h : Bounded sb ip log c) (hr : Fits sb ip k r) :
    Bounded sb r.ip (log ++ r.log) (c + k) ∧
      (r.addr ≠ 0 → Bounded sb r.ip (log ++ r.log ++ [r.addr]) (c + k)) := by
  obtain ⟨A, hA, hlog⟩ := h
  obtain ⟨hmono, B, hB, hrlog, haddr⟩ := hr
  have hcard : (A ∪ B).card ≤ c + k := (Finset.card_union_le A B).trans (Nat.add_le_add hA hB)
  have hsub : (log ++ r.log).toFinset ⊆ A ∪ B ∪ indirectBlocks sb r.ip := by
    rw [List.toFinset_append]
    apply Finset.union_subset
    · refine hlog.trans (Finset.union_subset ?_ ?_)
      · exact Finset.subset_union_left.trans Finset.subset_union_left
      · exact hmono.trans Finset.subset_union_right
    · refine hrlog.trans (Finset.union_subset ?_ Finset.subset_union_right)
      exact Finset.subset_union_right.trans Finset.subset_union_left
  refine ⟨⟨A ∪ B, hcard, hsub⟩, fun hne => ⟨A ∪ B, hcard, ?_⟩⟩
  rw [List.toFinset_append]
  refine Finset.union_subset hsub fun x hx => ?_
  have hx' : x = r.addr := by simpa using hx
  rw [hx']
  exact Finset.mem_union_left _ (Finset.mem_union_right _ (haddr hne))

theorem writeLoop_done (h : ¬ tot < n) (fuel : Nat) :
    writeLoop sb src limit n fuel disk ip log off tot = .ok ⟨tot, off, ip, disk, log⟩ := by
  cases fuel with
  | zero => rfl
  | succ fuel => rw [writeLoop, if_neg h]

/-- The loop ends with at most `c` blocks logged. -/
def Ends (sb : Superblock) (c : Nat) (result : Except String Written) : Prop :=
  ∃ w, result = .ok w ∧ Bounded sb w.ip w.log c

/-- A turn of the loop ends it, or goes on with the next block. -/
theorem writeLoop_turn (hlt : tot < n) (hbmap : bmapLogged disk sb ip (off / BSIZE) = .ok r)
    (hr : Fits sb ip k r) (h : Bounded sb ip log c) (fuel : Nat) :
    Ends sb (c + k) (writeLoop sb src limit n (fuel + 1) disk ip log off tot) ∨
    ∃ disk' log', Bounded sb r.ip log' (c + k) ∧
      writeLoop sb src limit n (fuel + 1) disk ip log off tot =
        writeLoop sb src limit n fuel disk' r.ip log' (off + min (n - tot) (BSIZE - off % BSIZE))
          (tot + min (n - tot) (BSIZE - off % BSIZE)) := by
  obtain ⟨hstop, hgo⟩ := h.turn hr
  rw [writeLoop, if_pos hlt, hbmap]
  change Ends sb (c + k) (if r.addr = 0 then _ else _) ∨ _
  by_cases haddr : r.addr = 0
  · rw [if_pos haddr]
    exact .inl ⟨_, rfl, hstop⟩
  · rw [if_neg haddr]
    by_cases hcopy : tot + min (n - tot) (BSIZE - off % BSIZE) ≤ limit
    · refine .inr ⟨Function.update r.disk r.addr (copyinBlock (r.disk r.addr) (off % BSIZE) src
        limit tot (min (n - tot) (BSIZE - off % BSIZE))), _, hgo haddr, ?_⟩
      change (if r.addr = 0 then _ else if _ then _ else _) = _
      rw [if_neg haddr, if_pos hcopy]
    · left
      simp only [if_neg hcopy]
      exact ⟨_, rfl, hstop⟩

theorem Ends.mono {c' : Nat} {result : Except String Written} (h : Ends sb c result)
    (hle : c ≤ c') : Ends sb c' result := by
  obtain ⟨w, hw, hbound⟩ := h
  exact ⟨w, hw, hbound.mono hle⟩

/-- The number of blocks that `n` bytes from a block boundary lie in. -/
def spans (n : Nat) : Nat := (n + (BSIZE - 1)) / BSIZE

theorem spans_pos {n : Nat} (h : 0 < n) : 1 ≤ spans n := by
  simp only [spans, BSIZE]
  omega

theorem spans_sub {n : Nat} (h : BSIZE ≤ n) : spans (n - BSIZE) + 1 = spans n := by
  simp only [spans, BSIZE] at h ⊢
  omega

theorem spans_le {n k : Nat} (h : n ≤ k * BSIZE) : spans n ≤ k := by
  simp only [spans, BSIZE] at h ⊢
  omega

theorem div_lt_MAXFILE {off : Nat} (h : off < MAXFILE * BSIZE) : off / BSIZE < MAXFILE :=
  Nat.div_lt_of_lt_mul (by rwa [Nat.mul_comm])

/-- From a block boundary each block costs two. -/
theorem writeLoop_aligned (hsb : sb.size < 2 ^ 32) (hoff : off % BSIZE = 0)
    (hfuel : n - tot ≤ fuel) (hmax : off + (n - tot) ≤ MAXFILE * BSIZE)
    (h : Bounded sb ip log c) :
    Ends sb (c + 2 * spans (n - tot)) (writeLoop sb src limit n fuel disk ip log off tot) := by
  induction fuel generalizing disk ip log off tot c with
  | zero =>
      rw [writeLoop_done (by omega)]
      exact ⟨_, rfl, h.mono (Nat.le_add_right _ _)⟩
  | succ fuel ih =>
      by_cases hlt : tot < n
      · have hpos := spans_pos (Nat.sub_pos_of_lt hlt)
        have hbn : off / BSIZE < MAXFILE := div_lt_MAXFILE (by omega)
        obtain ⟨r, hbmap, hr⟩ := bmapLogged_fits hsb hbn disk ip
        rcases writeLoop_turn hlt hbmap hr h fuel with hends | ⟨disk', log', hbound, hloop⟩
        · exact hends.mono (by omega)
        · rw [hloop, hoff, Nat.sub_zero]
          by_cases hlast : n - tot ≤ BSIZE
          · rw [min_eq_left hlast, writeLoop_done (by omega)]
            exact ⟨_, rfl, hbound.mono (by omega)⟩
          · have hstep := spans_sub (Nat.le_of_not_le hlast)
            have hsub : n - (tot + BSIZE) = n - tot - BSIZE := Nat.sub_add_eq n tot BSIZE
            have hsize : 0 < BSIZE := by decide
            rw [min_eq_right (Nat.le_of_not_le hlast)]
            refine (ih ?_ (by omega) (by omega) hbound).mono ?_
            · rw [Nat.add_mod_right, hoff]
            · rw [hsub]
              omega
      · rw [writeLoop_done hlt]
        exact ⟨_, rfl, h.mono (Nat.le_add_right _ _)⟩

/-- Every block below the size of the file has an address. -/
def Allocated (disk : Blocks) (ip : Dinode) : Prop :=
  ∀ bn, bn * BSIZE < ip.size.toNat → Present disk ip bn

/-- A chunk of up to three blocks.  Where it starts inside a block, that block is allocated
already, and costs one; the others start at a boundary. -/
theorem writeLoop_chunk (hsb : sb.size < 2 ^ 32) (halloc : Allocated disk ip)
    (hoff : off ≤ ip.size.toNat) (hn : n ≤ 3 * BSIZE) (hmax : off + n ≤ MAXFILE * BSIZE) :
    Ends sb 7 (writeLoop sb src limit n n disk ip [] off 0) := by
  have hstart : Bounded sb ip [] 0 := ⟨∅, Nat.le_refl 0, by simp⟩
  by_cases haligned : off % BSIZE = 0
  · have hspans := spans_le hn
    refine (writeLoop_aligned hsb haligned (Nat.sub_le n 0) (by omega) hstart).mono ?_
    rw [Nat.sub_zero]
    omega
  · cases n with
    | zero => exact ⟨_, rfl, hstart.mono (Nat.zero_le _)⟩
    | succ n =>
        have hdiv := Nat.div_add_mod' off BSIZE
        have hmod := Nat.mod_lt off (show 0 < BSIZE by decide)
        have hpresent : Present disk ip (off / BSIZE) := halloc _ (by omega)
        have hbn : off / BSIZE < MAXFILE := div_lt_MAXFILE (by omega)
        obtain ⟨r, hbmap, hr⟩ := bmapLogged_present sb hbn hpresent
        rcases writeLoop_turn (Nat.succ_pos n) hbmap hr hstart n with
          hends | ⟨disk', log', hbound, hloop⟩
        · exact hends.mono (by decide)
        · rw [hloop, Nat.sub_zero, Nat.zero_add]
          by_cases hlast : n + 1 ≤ BSIZE - off % BSIZE
          · rw [min_eq_left hlast, writeLoop_done (by omega)]
            exact ⟨_, rfl, hbound.mono (by decide)⟩
          · have hnext : (off + (BSIZE - off % BSIZE)) % BSIZE = 0 := by
              rw [show off + (BSIZE - off % BSIZE) = (off / BSIZE + 1) * BSIZE by
                rw [Nat.add_mul, Nat.one_mul]; omega]
              exact Nat.mul_mod_left _ _
            have hspans : spans (n + 1 - (BSIZE - off % BSIZE)) ≤ 3 := spans_le (by omega)
            rw [min_eq_right (Nat.le_of_not_le hlast)]
            refine (writeLoop_aligned hsb hnext (by omega) (by omega) hbound).mono ?_
            exact Nat.add_le_add_left (Nat.mul_le_mul_left 2 hspans) (0 + 1)

theorem toNat_add_of_le {off n : UInt32} (h : off ≤ off + n) :
    (off + n).toNat = off.toNat + n.toNat := by
  have hle := UInt32.le_iff_toNat_le.mp h
  have h₁ := off.toNat_lt
  have h₂ := n.toNat_lt
  rw [UInt32.toNat_add] at hle ⊢
  omega

/-- A write chunk fits its reservation: writei, called with at most the chunk of filewrite, passes
at most `MAXOPBLOCKS` distinct blocks to log_write. -/
theorem writei_fits_reservation (disk : Blocks) (sb : Superblock) (ip : Dinode) (inum : Nat)
    (src : Nat → UInt8) (limit : Nat) (off n : UInt32) (hsb : sb.size < 2 ^ 32)
    (halloc : Allocated disk ip) (hn : n.toNat ≤ (MAXOPBLOCKS - 1 - 1 - 2) / 2 * BSIZE) :
    ∃ w, writei disk sb ip inum src limit off n = .ok w ∧ w.log.toFinset.card ≤ MAXOPBLOCKS := by
  unfold writei
  by_cases hbad : off > ip.size ∨ off + n < off
  · rw [if_pos hbad]
    exact ⟨_, rfl, Nat.zero_le _⟩
  · rw [if_neg hbad]
    by_cases hbig : (off + n).toNat > MAXFILE * BSIZE
    · rw [if_pos hbig]
      exact ⟨_, rfl, Nat.zero_le _⟩
    · rw [if_neg hbig]
      have hoff : off.toNat ≤ ip.size.toNat :=
        UInt32.le_iff_toNat_le.mp (UInt32.not_lt.mp fun h => hbad (.inl h))
      have hsum := toNat_add_of_le (UInt32.not_lt.mp fun h => hbad (.inr h))
      have hends : Ends sb 7 (writeLoop sb src limit n.toNat n.toNat disk ip [] off.toNat 0) :=
        writeLoop_chunk hsb halloc hoff hn (by omega)
      obtain ⟨w, hw, A, hA, hlog⟩ := hends
      rw [hw]
      refine ⟨_, rfl, ?_⟩
      have hind := card_indirectBlocks sb w.ip
      have hcard : (w.log ++ [IBLOCK inum sb]).toFinset.card ≤ MAXOPBLOCKS := by
        calc (w.log ++ [IBLOCK inum sb]).toFinset.card
            ≤ w.log.toFinset.card + 1 := by
              rw [List.toFinset_append]
              exact Finset.card_union_le _ _
          _ ≤ (A ∪ indirectBlocks sb w.ip).card + 1 :=
              Nat.add_le_add_right (Finset.card_le_card hlog) 1
          _ ≤ A.card + (indirectBlocks sb w.ip).card + 1 :=
              Nat.add_le_add_right (Finset.card_union_le _ _) 1
          _ ≤ 7 + 2 + 1 := by omega
      simp only [Written.iupdate]
      split <;> exact hcard

namespace WriteiWitness

def super : Superblock where
  magic := FSMAGIC
  size := 2000
  nblocks := 1954
  ninodes := 200
  nlog := 30
  logstart := 2
  inodestart := 32
  bmapstart := 45

/-- A disk whose bitmap marks the blocks 0 to 46 and 500 to 511. -/
def twelve : Blocks := fun b o =>
  if b = 45 then
    if o < 5 then 255 else if o = 5 then 127 else if o = 62 then 240 else if o = 63 then 255 else 0
  else 0

/-- A file that has all its direct blocks, and one byte of room in the last one. -/
def direct : Dinode where
  nlink := 1
  size := 12287
  addrs := fun i => if i < NDIRECT then 500 + UInt32.ofNat i else 0

theorem allocated : Allocated twelve direct := by
  intro bn hbn
  have hlt : bn < NDIRECT := by
    have hsize : bn * 1024 < 12287 := hbn
    have : NDIRECT = 12 := rfl
    omega
  have hpresent : ∀ bn < NDIRECT, direct.addrs bn ≠ 0 := by decide
  rw [Present, if_pos hlt]
  exact hpresent bn hlt

/-- Three bytes behind the direct blocks: the last direct block, the bitmap, the indirect block
and its first block, and the inode. -/
theorem writei_fits_reservation_indirect :
    ∃ w, writei twelve super direct 17 (fun _ => 7) 3 12287 3 = .ok w ∧ w.tot = 3 ∧
      w.log.dedup = [511, 45, 47, 48, 33] ∧ w.log.toFinset.card ≤ MAXOPBLOCKS := by
  obtain ⟨w, hw, hcard⟩ := writei_fits_reservation twelve super direct 17 (fun _ => 7) 3 12287 3
    (by decide) allocated (by decide)
  have hrun : (writei twelve super direct 17 (fun _ => 7) 3 12287 3).toOption.map
      (fun w => (w.tot, w.log.dedup)) = some (3, [511, 45, 47, 48, 33]) := by decide +kernel
  rw [hw] at hrun
  obtain ⟨htot, hlog⟩ := Prod.mk.inj (Option.some.inj hrun)
  exact ⟨w, hw, htot, hlog, hcard⟩

end WriteiWitness

end Xv6.Fs
