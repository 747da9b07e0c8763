/-
Processes that share one `struct file` of an inode.  A chunk of filewrite and a fileread hold the
inode's lock, and advance `f->off` by what they have transferred.
-/
import Xv6.Fs.FileBytes
import Xv6.Lib.Transition

namespace Xv6.Fs.Offset

open Transition

/-- A process in filewrite: the source, the bytes that can be read of it, the bytes asked for and
those written; or the result of the call.  `ranges` are the offsets and lengths of its chunks. -/
inductive Call
  | idle
  | writing (src : Nat → UInt8) (lim n i : Nat) (ranges : List (Nat × Nat))
  | done (src : Nat → UInt8) (n ret : Int) (ranges : List (Nat × Nat))

/-- A step that has transferred bytes. -/
structure Transfer where
  pid : Nat
  write : Bool
  off : Nat
  len : Nat

/-- The disk and the inode of the file, `f->off`, the processes, and the transfers so far. -/
structure Sys where
  disk : Blocks
  ip : Dinode
  off : UInt32
  call : Nat → Call := fun _ => .idle
  trace : List Transfer := []

/-- `copyout` says which copies of a read succeed. -/
inductive Act
  | write (p : Nat) (src : Nat → UInt8) (lim : Nat) (n : Int)
  | chunk (p : Nat)
  | read (p : Nat) (n : UInt32) (copyout : Nat → Bool)

/-- `max` of filewrite. -/
def CHUNK : Nat := (MAXOPBLOCKS - 1 - 1 - 2) / 2 * BSIZE

variable (sb : Superblock) (inum : Nat)

namespace Sys

def goto (s : Sys) (p : Nat) (x : Call) : Sys := { s with call := Function.update s.call p x }

/-- `if (r > 0) f->off += r` -/
def advance (s : Sys) (p : Nat) (write : Bool) (r : Int) : Sys :=
  if 0 < r then
    { s with
      off := s.off + UInt32.ofNat r.toNat
      trace := s.trace ++ [⟨p, write, s.off.toNat, r.toNat⟩] }
  else s

/-- The range of a chunk. -/
def range (s : Sys) (r : Int) : List (Nat × Nat) :=
  if 0 < r then [(s.off.toNat, r.toNat)] else []

/-- The writei of the next chunk of a call. -/
def chunk (s : Sys) (src : Nat → UInt8) (lim n i : Nat) : Except String Written :=
  writei s.disk sb s.ip inum (fun k => src (i + k)) (lim - i) s.off
    (UInt32.ofNat (min (n - i) CHUNK))

/-- What filewrite does when writei has returned. -/
def written (s : Sys) (p : Nat) (src : Nat → UInt8) (lim n i : Nat) (ranges : List (Nat × Nat))
    (w : Written) : Sys :=
  let s' := { s.advance p true w.tot with disk := w.disk, ip := w.ip }
  let ranges := ranges ++ s.range w.tot
  if w.tot ≠ (min (n - i) CHUNK : Nat) then
    s'.goto p (.done src n (if i = n then n else -1) ranges)
  else if i + w.tot.toNat = n then s'.goto p (.done src n n ranges)
  else s'.goto p (.writing src lim n (i + w.tot.toNat) ranges)

def step (s : Sys) : Act → Option (Except String Sys)
  | .write p src lim n =>
      match s.call p with
      | .writing .. => none
      | _ =>
          if 0 < n then some (.ok (s.goto p (.writing src lim n.toNat 0 [])))
          else some (.ok (s.goto p (.done src n (if n = 0 then n else -1) [])))
  | .chunk p =>
      match s.call p with
      | .writing src lim n i ranges =>
          some ((s.chunk sb inum src lim n i).map (s.written p src lim n i ranges))
      | _ => none
  | .read p n copyout =>
      match s.call p with
      | .writing .. => none
      | _ => some ((readi s.disk sb s.ip copyout s.off n).map fun c =>
          { s.advance p false c.tot with disk := c.disk, ip := c.ip })

end Sys

/-- The first byte of the source that cannot be read, if a chunk comes to it, is the first one of
the chunk or of a block of the file. -/
def Clean (s : Sys) : Act → Prop
  | .chunk p =>
      match s.call p with
      | .writing _ lim n i _ => Whole s.off.toNat (lim - i) (min (n - i) CHUNK)
      | _ => True
  | _ => True

/-- The runs in which no copy fails inside a block. -/
def Run (disk : Blocks) (ip : Dinode) (off : UInt32) : Sys → Prop :=
  Reach (fun s => s = { disk := disk, ip := ip, off := off }) Clean (Sys.step sb inum)

/-- The file has its blocks, and they are its own. -/
structure Good (disk : Blocks) (ip : Dinode) : Prop where
  sound : Sound disk sb inum ip
  inode : ∀ c < sb.size, IBLOCK inum sb ≠ BBLOCK c sb
  size : ip.size.toNat ≤ MAXFILE * BSIZE
  allocated : Allocated disk ip

/-- The transfers follow each other from `o` on. -/
def Consecutive : Nat → List Transfer → Prop
  | _, [] => True
  | o, t :: ts => t.off = o ∧ 0 < t.len ∧ Consecutive (o + t.len) ts

/-- The bytes transferred. -/
def sum (ts : List Transfer) : Nat := (ts.map Transfer.len).sum

/-- The bytes of the ranges of a call. -/
def total (ranges : List (Nat × Nat)) : Nat := (ranges.map Prod.snd).sum

/-- The ranges hold the source from `t` on, in order. -/
def Placed (data src : Nat → UInt8) : Nat → List (Nat × Nat) → Prop
  | _, [] => True
  | t, x :: xs => (∀ j < x.2, data (x.1 + j) = src (t + j)) ∧ Placed data src (t + x.2) xs

theorem consecutive_append {o : Nat} {ts ts' : List Transfer} :
    Consecutive o (ts ++ ts') ↔ Consecutive o ts ∧ Consecutive (o + sum ts) ts' := by
  induction ts generalizing o with
  | nil => simp [Consecutive, sum]
  | cons t ts ih => simp [Consecutive, sum, ih, Nat.add_assoc, and_assoc]

theorem placed_append {data src : Nat → UInt8} {t : Nat} {xs ys : List (Nat × Nat)} :
    Placed data src t (xs ++ ys) ↔ Placed data src t xs ∧ Placed data src (t + total xs) ys := by
  induction xs generalizing t with
  | nil => simp [Placed, total]
  | cons x xs ih => simp [Placed, total, ih, Nat.add_assoc, and_assoc]

/-- Stores above the ranges leave them as they are. -/
theorem Placed.congr {data data' src : Nat → UInt8} {t o : Nat} {xs : List (Nat × Nat)}
    (h : Placed data src t xs) (hbelow : ∀ x ∈ xs, x.1 + x.2 ≤ o)
    (hdata : ∀ k < o, data' k = data k) : Placed data' src t xs := by
  induction xs generalizing t with
  | nil => trivial
  | cons x xs ih =>
      have hx := hbelow x (.head _)
      refine ⟨fun j hj => ?_, ih h.2 fun y hy => hbelow y (.tail _ hy)⟩
      rw [hdata _ (by omega)]
      exact h.1 j hj

/-- The ranges of a call are transfers of its process. -/
def Own (p : Nat) (ranges : List (Nat × Nat)) (trace : List Transfer) : Prop :=
  ∀ x ∈ ranges, ⟨p, true, x.1, x.2⟩ ∈ trace

/-- The state of a call: its ranges hold what has been written of the source. -/
def CallOk (data : Nat → UInt8) (off : Nat) (trace : List Transfer) (p : Nat) : Call → Prop
  | .idle => True
  | .writing src _ n i ranges =>
      i < n ∧ total ranges = i ∧ Placed data src 0 ranges ∧ (∀ x ∈ ranges, x.1 + x.2 ≤ off) ∧
        Own p ranges trace
  | .done src n ret ranges =>
      (ret = n ∧ total ranges = n ∨ ret = -1) ∧ Placed data src 0 ranges ∧
        (∀ x ∈ ranges, x.1 + x.2 ≤ off) ∧ Own p ranges trace

/-- A call of another process, or of this one before its chunk. -/
theorem CallOk.mono {data data' : Nat → UInt8} {off off' : Nat} {trace more : List Transfer}
    {p : Nat} {x : Call} (h : CallOk data off trace p x) (hoff : off ≤ off')
    (hdata : ∀ k < off, data' k = data k) : CallOk data' off' (trace ++ more) p x := by
  have hown : ∀ {ranges}, Own p ranges trace → Own p ranges (trace ++ more) :=
    fun hown x hx => List.mem_append_left _ (hown x hx)
  cases x with
  | idle => trivial
  | writing src lim n i ranges =>
      obtain ⟨hi, htotal, hplaced, hbelow, hranges⟩ := h
      exact ⟨hi, htotal, hplaced.congr hbelow hdata, fun x hx => (hbelow x hx).trans hoff,
        hown hranges⟩
  | done src n ret ranges =>
      obtain ⟨hret, hplaced, hbelow, hranges⟩ := h
      exact ⟨hret, hplaced.congr hbelow hdata, fun x hx => (hbelow x hx).trans hoff, hown hranges⟩

/-- The bytes below `f->off` that are in the file. -/
def Sys.reach (s : Sys) : Nat := min s.off.toNat s.ip.size.toNat

variable {sb : Superblock} {inum : Nat}

structure Inv (sb : Superblock) (inum : Nat) (disk : Blocks) (ip : Dinode) (o : Nat) (s : Sys) :
    Prop where
  good : Good sb inum s.disk s.ip
  grown : ip.size.toNat ≤ s.ip.size.toNat
  consecutive : Consecutive o s.trace
  off : s.off.toNat = o + sum s.trace
  calls : ∀ p, CallOk (fileByte s.disk s.ip) s.reach s.trace p (s.call p)
  outside : ∀ k < ip.size.toNat,
    (∀ t ∈ s.trace, t.write = true → k < t.off ∨ t.off + t.len ≤ k) →
      fileByte s.disk s.ip k = fileByte disk ip k

variable {disk : Blocks} {ip : Dinode} {o : Nat} {s : Sys} {p : Nat}

/-- The transfers that a result adds. -/
def moved (s : Sys) (p : Nat) (write : Bool) (r : Int) : List Transfer :=
  if 0 < r then [⟨p, write, s.off.toNat, r.toNat⟩] else []

theorem advance_eq (s : Sys) (p : Nat) (write : Bool) (r : Int) :
    s.advance p write r =
      { s with off := s.off + UInt32.ofNat r.toNat, trace := s.trace ++ moved s p write r } := by
  unfold Sys.advance moved
  split
  · rfl
  · have hzero : r.toNat = 0 := by omega
    simp [hzero]

theorem sum_moved (s : Sys) (p : Nat) (write : Bool) (r : Int) :
    sum (s.trace ++ moved s p write r) = sum s.trace + r.toNat := by
  unfold moved
  split
  · simp [sum]
  · have hzero : r.toNat = 0 := by omega
    rw [hzero, List.append_nil]
    rfl

theorem Inv.consecutive_moved (h : Inv sb inum disk ip o s) (write : Bool) (r : Int) :
    Consecutive o (s.trace ++ moved s p write r) := by
  unfold moved
  split
  · next hr => exact consecutive_append.mpr ⟨h.consecutive, h.off, by simp only; omega, trivial⟩
  · rw [List.append_nil]
    exact h.consecutive

/-- A call that ends or starts, with the other calls as they are. -/
theorem Inv.goto (h : Inv sb inum disk ip o s) {x : Call}
    (hx : CallOk (fileByte s.disk s.ip) s.reach s.trace p x) :
    Inv sb inum disk ip o (s.goto p x) := by
  refine ⟨h.good, h.grown, h.consecutive, h.off, fun q => ?_, h.outside⟩
  by_cases hq : q = p
  · rw [hq]
    simpa [Sys.goto, Sys.reach] using hx
  · simpa [Sys.goto, hq, Sys.reach] using h.calls q

/-- The file after a transfer of `r` bytes at `f->off`: it has grown to hold them, and has kept the
bytes that were not written. -/
structure Moves (s : Sys) (write : Bool) (r : Int) (disk' : Blocks) (ip' : Dinode) : Prop where
  size : s.ip.size.toNat ≤ ip'.size.toNat
  stop : 0 < r → s.off.toNat + r.toNat ≤ ip'.size.toNat
  bytes : ∀ k < ip'.size.toNat,
    ¬ (write = true ∧ s.off.toNat ≤ k ∧ k < s.off.toNat + r.toNat) →
      fileByte disk' ip' k = fileByte s.disk s.ip k

theorem Moves.toNat_off {write : Bool} {r : Int} {disk' : Blocks} {ip' : Dinode}
    (h : Moves s write r disk' ip') (hgood : Good sb inum disk' ip') :
    (s.off + UInt32.ofNat r.toNat).toNat = s.off.toNat + r.toNat := by
  have hoff := s.off.toNat_lt
  have hsize := hgood.size
  have hbound : MAXFILE * BSIZE < 2 ^ 32 := by decide
  by_cases hr : 0 < r
  · have hstop := h.stop hr
    rw [UInt32.toNat_add, toNat_ofNat_of_lt (by omega), Nat.mod_eq_of_lt (by omega)]
  · have hzero : r.toNat = 0 := by omega
    simp [hzero]

theorem Inv.advance (h : Inv sb inum disk ip o s) {write : Bool} {r : Int} {disk' : Blocks}
    {ip' : Dinode} (hgood : Good sb inum disk' ip') (hm : Moves s write r disk' ip') :
    Inv sb inum disk ip o { s.advance p write r with disk := disk', ip := ip' } := by
  have hoff := hm.toNat_off hgood
  have hsize := hm.size
  have hgrown := h.grown
  rw [advance_eq]
  refine ⟨hgood, hgrown.trans hsize, h.consecutive_moved write r, ?_, fun q => ?_,
    fun k hk hout => ?_⟩
  · rw [sum_moved]
    simp only [hoff, h.off]
    omega
  · refine (h.calls q).mono ?_ fun k hk => ?_
    · simp only [Sys.reach, hoff]
      omega
    · simp only [Sys.reach] at hk
      exact hm.bytes k (by omega) fun hin => by omega
  · have hold := h.outside k hk fun t ht => hout t (List.mem_append_left _ ht)
    refine (hm.bytes k (by omega) fun hin => ?_).trans hold
    obtain ⟨rfl, hlo, hhi⟩ := hin
    have hpos : 0 < r := by omega
    have hmem : (⟨p, true, s.off.toNat, r.toNat⟩ : Transfer) ∈ s.trace ++ moved s p true r := by
      rw [moved, if_pos hpos]
      simp
    have hk' := hout _ hmem rfl
    simp only at hk'
    omega

/-- A read advances the offset only. -/
theorem Inv.read (h : Inv sb inum disk ip o s) (n : UInt32) (copyout : Nat → Bool) :
    ∃ c, readi s.disk sb s.ip copyout s.off n = .ok c ∧
      Inv sb inum disk ip o { s.advance p false c.tot with disk := c.disk, ip := c.ip } := by
  obtain ⟨tot, bytes, hread, htot⟩ := readi_keeps h.good.size h.good.allocated
  refine ⟨_, hread, h.advance h.good ⟨Nat.le_refl _, fun hpos => ?_, fun _ _ _ => rfl⟩⟩
  exact htot.resolve_left (Int.not_le.mpr hpos)

/-- A chunk stores its bytes at the offset. -/
theorem Inv.chunk (h : Inv sb inum disk ip o s) (src : Nat → UInt8) {lim n i : Nat}
    (hwhole : Whole s.off.toNat (lim - i) (min (n - i) CHUNK)) :
    ∃ w, s.chunk sb inum src lim n i = .ok w ∧ Good sb inum w.disk w.ip ∧
      Moves s true w.tot w.disk w.ip ∧
      ∀ j < w.tot.toNat, fileByte w.disk w.ip (s.off.toNat + j) = src (i + j) := by
  obtain ⟨hsound, hinode, hsize, halloc⟩ := h.good
  have hn : (UInt32.ofNat (min (n - i) CHUNK)).toNat = min (n - i) CHUNK :=
    toNat_ofNat_of_lt (Nat.lt_of_le_of_lt (Nat.min_le_right _ _) (by decide))
  obtain ⟨w, hw, ⟨-, htot, hip, hdisk, -⟩ | ⟨hrefused, k, hle, htot, -, hsound', hstores⟩⟩ :=
    writei_stores (fun k => src (i + k)) hsound hinode hsize halloc (hn.symm ▸ hwhole)
  · refine ⟨w, hw, ?_, ?_, fun j hj => by omega⟩
    · rw [hip, hdisk]
      exact h.good
    · rw [hip, hdisk]
      exact ⟨Nat.le_refl _, fun hpos => by omega, fun _ _ _ => rfl⟩
  · obtain ⟨hoff, hmax⟩ := add_le_of_accepted hrefused
    have hsize' := hstores.size
    rw [hn] at hle
    have hk : w.tot.toNat = k := by omega
    refine ⟨w, hw, ⟨hsound', hinode, by omega, hstores.allocated⟩, ⟨by omega, fun _ => by omega,
      fun j hj hout => ?_⟩, fun j hj => ?_⟩
    · rw [hstores.bytes j hj, if_neg fun hin => hout ⟨rfl, hin.1, by omega⟩]
    · rw [hstores.bytes _ (by omega), if_pos (by omega), Nat.add_sub_cancel_left]

/-- The ranges of a call after a chunk. -/
theorem total_range (s : Sys) (ranges : List (Nat × Nat)) (r : Int) :
    total (ranges ++ s.range r) = total ranges + r.toNat := by
  unfold Sys.range
  split
  · simp [total]
  · have hzero : r.toNat = 0 := by omega
    rw [hzero, List.append_nil]
    rfl

/-- The ranges of the call of a chunk, in the state after it. -/
theorem Inv.ranges (h : Inv sb inum disk ip o s) {src : Nat → UInt8} {lim n i : Nat}
    {ranges : List (Nat × Nat)} (hcall : s.call p = .writing src lim n i ranges) {w : Written}
    (hgood : Good sb inum w.disk w.ip) (hm : Moves s true w.tot w.disk w.ip)
    (hstored : ∀ j < w.tot.toNat, fileByte w.disk w.ip (s.off.toNat + j) = src (i + j)) :
    let s' := { s.advance p true w.tot with disk := w.disk, ip := w.ip }
    total (ranges ++ s.range w.tot) = i + w.tot.toNat ∧
      Placed (fileByte s'.disk s'.ip) src 0 (ranges ++ s.range w.tot) ∧
      (∀ x ∈ ranges ++ s.range w.tot, x.1 + x.2 ≤ s'.reach) ∧
      Own p (ranges ++ s.range w.tot) s'.trace := by
  have hcallOk := (h.advance (p := p) hgood hm).calls p
  have hoff := hm.toNat_off hgood
  have hstop := hm.stop
  rw [advance_eq] at hcallOk
  simp only [hcall] at hcallOk
  obtain ⟨-, htotal, hplaced, hbelow, hown⟩ := hcallOk
  simp only [advance_eq]
  refine ⟨by rw [total_range, htotal], ?_, ?_, ?_⟩
  · rw [placed_append, htotal, Nat.zero_add]
    refine ⟨hplaced, ?_⟩
    unfold Sys.range
    split
    · exact ⟨hstored, trivial⟩
    · trivial
  · intro x hx
    rcases List.mem_append.mp hx with hx | hx
    · exact hbelow x hx
    · unfold Sys.range at hx
      split at hx
      · next hpos =>
          obtain rfl := List.mem_singleton.mp hx
          simp only [Sys.reach, hoff]
          have := hstop hpos
          omega
      · cases hx
  · intro x hx
    rcases List.mem_append.mp hx with hx | hx
    · exact hown x hx
    · unfold Sys.range at hx
      split at hx
      · next hpos =>
          obtain rfl := List.mem_singleton.mp hx
          rw [moved, if_pos hpos]
          simp
      · cases hx

theorem Inv.written (h : Inv sb inum disk ip o s) {src : Nat → UInt8} {lim n i : Nat}
    {ranges : List (Nat × Nat)} (hcall : s.call p = .writing src lim n i ranges) {w : Written}
    (hgood : Good sb inum w.disk w.ip) (hm : Moves s true w.tot w.disk w.ip)
    (hstored : ∀ j < w.tot.toNat, fileByte w.disk w.ip (s.off.toNat + j) = src (i + j)) :
    Inv sb inum disk ip o (s.written p src lim n i ranges w) := by
  have hinv := h.advance (p := p) hgood hm
  obtain ⟨htotal, hplaced, hbelow, hown⟩ := h.ranges hcall hgood hm hstored
  have hcallOk := h.calls p
  rw [hcall] at hcallOk
  have hi := hcallOk.1
  unfold Sys.written
  dsimp only
  split
  · refine hinv.goto ⟨.inr ?_, hplaced, hbelow, hown⟩
    rw [if_neg (Nat.ne_of_lt hi)]
  split
  · next hend =>
      refine hinv.goto ⟨.inl ⟨rfl, ?_⟩, hplaced, hbelow, hown⟩
      rw [htotal, hend]
  · refine hinv.goto ⟨?_, htotal, hplaced, hbelow, hown⟩
    have hmin := Nat.min_le_left (n - i) CHUNK
    omega

/-- A step does not panic, and keeps the invariant. -/
theorem Inv.step {a : Act} (h : Inv sb inum disk ip o s) (hclean : Clean s a) :
    s.step sb inum a = none ∨
      ∃ s', s.step sb inum a = some (.ok s') ∧ Inv sb inum disk ip o s' := by
  cases a with
  | write p src lim n =>
      simp only [Sys.step]
      split
      · exact .inl rfl
      right
      split
      · next hn => exact ⟨_, rfl, h.goto ⟨by omega, rfl, trivial, nofun, nofun⟩⟩
      · refine ⟨_, rfl, h.goto ⟨?_, trivial, nofun, nofun⟩⟩
        split
        · next hn => exact .inl ⟨rfl, hn.symm⟩
        · exact .inr rfl
  | chunk p =>
      simp only [Sys.step]
      split
      · next src lim n i ranges hcall =>
          have hwhole : Whole s.off.toNat (lim - i) (min (n - i) CHUNK) := by
            simpa only [Clean, hcall] using hclean
          obtain ⟨w, hw, hgood, hm, hstored⟩ := h.chunk src hwhole
          rw [hw]
          exact .inr ⟨_, rfl, h.written hcall hgood hm hstored⟩
      · exact .inl rfl
  | read p n copyout =>
      simp only [Sys.step]
      split
      · exact .inl rfl
      · obtain ⟨c, hread, hinv⟩ := h.read (p := p) n copyout
        rw [hread]
        exact .inr ⟨_, rfl, hinv⟩

theorem Run.inv {off : UInt32} (hgood : Good sb inum disk ip)
    (h : Run sb inum disk ip off s) : Inv sb inum disk ip off.toNat s := by
  refine Reach.invariant ?_ (fun s a s' hclean hstep hinv => ?_) h
  · rintro s rfl
    exact ⟨hgood, Nat.le_refl _, trivial, rfl, fun p => trivial, fun k _ _ => rfl⟩
  · rcases hinv.step hclean with hnone | ⟨s₁, hok, hinv₁⟩
    · rw [hnone] at hstep
      cases hstep
    · rw [hok] at hstep
      cases hstep
      exact hinv₁

theorem Consecutive.pairwise {o : Nat} {ts : List Transfer} (h : Consecutive o ts) :
    (∀ t ∈ ts, o ≤ t.off) ∧ ts.Pairwise fun t t' => t.off + t.len ≤ t'.off := by
  induction ts generalizing o with
  | nil => exact ⟨nofun, .nil⟩
  | cons t ts ih =>
      obtain ⟨hoff, -, hrest⟩ := h
      obtain ⟨hge, hpair⟩ := ih hrest
      refine ⟨fun t' ht' => ?_, .cons (fun t' ht' => hoff ▸ hge t' ht') hpair⟩
      rcases List.mem_cons.mp ht' with rfl | ht'
      · exact hoff.ge
      · exact (Nat.le_add_right _ _).trans (hge t' ht')

/-- Shared file offsets lose nothing, as long as no copy fails inside a block.  The transfers of
all processes follow each other; the offset has advanced by their sum; a filewrite that has
returned holds its bytes, in order, in the ranges of its own chunks, which are `n` bytes if it has
returned `n`; no other byte that the file had has changed; and no step panics. -/
theorem shared_offset_loses_nothing {off : UInt32} (hgood : Good sb inum disk ip)
    (h : Run sb inum disk ip off s) :
    Consecutive off.toNat s.trace ∧ (s.trace.Pairwise fun t t' => t.off + t.len ≤ t'.off) ∧
    s.off.toNat = off.toNat + sum s.trace ∧
    (∀ p src n ret ranges, s.call p = .done src n ret ranges →
      (ret = n ∧ total ranges = n ∨ ret = -1) ∧ Own p ranges s.trace ∧
        Placed (fileByte s.disk s.ip) src 0 ranges) ∧
    (∀ k < ip.size.toNat, (∀ t ∈ s.trace, t.write = true → k < t.off ∨ t.off + t.len ≤ k) →
      fileByte s.disk s.ip k = fileByte disk ip k) ∧
    ∀ a, Clean s a → ∀ msg, s.step sb inum a ≠ some (.error msg) := by
  have hinv := h.inv hgood
  refine ⟨hinv.consecutive, hinv.consecutive.pairwise.2, hinv.off, ?_, hinv.outside,
    fun a hclean msg hstep => ?_⟩
  · intro p src n ret ranges hcall
    have hok := hinv.calls p
    rw [hcall] at hok
    obtain ⟨hret, hplaced, -, hown⟩ := hok
    exact ⟨hret, hown, hplaced⟩
  · rcases hinv.step hclean with hnone | ⟨s₁, hok, -⟩
    · rw [hnone] at hstep
      cases hstep
    · rw [hok] at hstep
      cases hstep

namespace OffsetWitness

open WriteiWitness (super)

/-- The file of two zeros, whose block has room for more. -/
theorem good : Good super 1 TwoBytes.disk TwoBytes.file where
  sound := TwoBytes.sound
  inode := TwoBytes.inode_ne
  size := by decide
  allocated := TwoBytes.allocated

def start : Sys := { disk := TwoBytes.disk, ip := TwoBytes.file, off := 0 }

/-- Two processes write 1 and 2, and the first one reads.  The disk is full, so that the last write
ends with the block. -/
def acts : List Act :=
  [.write 0 (fun _ => 1) 600 600, .write 1 (fun _ => 2) 400 400, .chunk 0, .chunk 1,
    .read 0 10 (fun _ => true), .write 0 (fun _ => 3) 100 100, .chunk 0]

/-- The steps of these processes are clean. -/
def cleanB (s : Sys) : Act → Bool
  | .chunk p =>
      match s.call p with
      | .writing _ lim n i _ => Whole s.off.toNat (lim - i) (min (n - i) CHUNK)
      | _ => true
  | _ => true

theorem clean_of_cleanB (s : Sys) (a : Act) (h : cleanB s a = true) : Clean s a := by
  cases a with
  | chunk p =>
      simp only [cleanB, Clean] at h ⊢
      split
      · next hcall =>
          rw [hcall] at h
          exact of_decide_eq_true h
      · trivial
  | write | read => trivial

theorem shared_offset_loses_nothing_two :
    ∃ s, runAll cleanB (Sys.step super 1) start acts = some s ∧ s.off = 1024 ∧
      Consecutive 0 s.trace ∧ s.trace.length = 3 := by
  have hrun : (runAll cleanB (Sys.step super 1) start acts).map
      (fun s => (s.off, s.trace.length)) = some (1024, 3) := by decide +kernel
  obtain ⟨s, hs, heq⟩ := Option.map_eq_some_iff.mp hrun
  obtain ⟨hoff, hlength⟩ := Prod.mk.inj heq
  have hreach : Run super 1 TwoBytes.disk TwoBytes.file 0 s :=
    Reach.runAll clean_of_cleanB (.start rfl) hs
  exact ⟨s, hs, hoff, (shared_offset_loses_nothing good hreach).1, hlength⟩

/-- The result of a call. -/
def result : Call → Option Int
  | .done _ _ ret _ => some ret
  | _ => none

/-- A write of 1000 bytes of which 96 can be read returns -1 and does not advance the offset, and
has changed both bytes of the file. -/
theorem failed_write_changes_file :
    ((runAll (fun _ _ => true) (Sys.step super 1) start
      [.write 0 (fun _ => 1) 96 1000, .chunk 0]).map fun s =>
        (result (s.call 0), s.off, s.trace.length, s.ip.size)) = some (some (-1), 0, 0, 2) ∧
    [0, 1].map (fileByte start.disk start.ip) = [0, 0] ∧
    ((runAll (fun _ _ => true) (Sys.step super 1) start
      [.write 0 (fun _ => 1) 96 1000, .chunk 0]).map fun s =>
        [0, 1].map (fileByte s.disk s.ip)) = some [1, 1] := by
  decide +kernel

end OffsetWitness

end Xv6.Fs.Offset
