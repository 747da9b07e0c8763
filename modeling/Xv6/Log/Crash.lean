/-
Crash atomicity of the redo log.  Every disk that commit and any number of
interrupted recoveries can leave behind is in one of three states: the header
is empty over the old home blocks, the header lists the transaction and the
log holds its data, or the header is empty over the new home blocks.
-/
import Xv6.Log.Commit

namespace Xv6.Log

open Bytes Program

/-! The header block survives the trip through the disk. -/

theorem getLE_putHeadBlocks_n (lh : LogHeader) (k : Nat) (b : Block) :
    getLE 4 (putHeadBlocks lh k b) 0 = getLE 4 b 0 := by
  induction k with
  | zero => rfl
  | succ k ih =>
      rw [putHeadBlocks, getLE_putLE_of_disjoint (by omega), ih]

theorem headBlock_putHeadBlocks (lh : LogHeader) {k i : Nat} (b : Block)
    (hi : i < k) : headBlock (putHeadBlocks lh k b) i = lh.block i := by
  induction k with
  | zero => omega
  | succ k ih =>
      by_cases hlast : i = k
      · subst hlast
        have hlt : (lh.block i).toNat < 256 ^ 4 := (lh.block i).toNat_lt
        rw [headBlock, putHeadBlocks, getLE_putLE_self, Nat.mod_eq_of_lt hlt,
          UInt32.ofNat_toNat]
      · rw [headBlock, putHeadBlocks, getLE_putLE_of_disjoint (by omega)]
        exact ih (by omega)

theorem headN_putHead (lh : LogHeader) (b : Block) (hlo : 0 ≤ lh.n)
    (hhi : lh.n ≤ LOGSIZE) : headN (putHead lh b) = lh.n := by
  have hbound : lh.n ≤ 30 := hhi
  have hsmall : lh.n % 2 ^ 32 = lh.n := Int.emod_eq_of_lt hlo (by omega)
  have hlt : lh.n.toNat < 256 ^ 4 := by omega
  have hsign : lh.n.toNat < 2 ^ 31 := by omega
  rw [headN, putHead, getLE_putHeadBlocks_n, getLE_putLE_self, hsmall,
    Nat.mod_eq_of_lt hlt, sint32, if_pos hsign, Int.toNat_of_nonneg hlo]

theorem headBlock_putHead (lh : LogHeader) (b : Block) {i : Nat}
    (hi : i < lh.n.toNat) : headBlock (putHead lh b) i = lh.block i :=
  headBlock_putHeadBlocks lh _ hi

/-! The states of the disk. -/

/-- What `commit` may assume: the header on disk is empty, and the in-memory
header lists distinct home blocks for which the log has room. -/
structure Ready (r : Region) (s : Dev) : Prop where
  empty : headN (s.disk.block r.start) = 0
  nonneg : 0 ≤ s.lh.n
  fits : s.lh.n ≤ LOGSIZE ∧ s.lh.n ≤ (r.size : Int) - 1
  distinct : s.lh.blocks.Nodup
  outside : ∀ b ∈ s.lh.blocks, ¬ r.Mem b

/-- The home blocks after the transaction: the listed ones have their cached
contents, all others are as on disk. -/
def posted (s : Dev) (b : Nat) : Block :=
  if b ∈ s.lh.blocks then s.view b else s.disk.block b

/-- An empty header over the given home blocks. -/
structure Clear (r : Region) (home : Nat → Block) (d : Disk) : Prop where
  head : headN (d.block r.start) = 0
  home : ∀ b, ¬ r.Mem b → d.block b = home b

/-- The header lists the transaction of `s`, the log holds its data, and every
home block is old or new. -/
structure Committed (r : Region) (s : Dev) (d : Disk) : Prop where
  head : headN (d.block r.start) = s.lh.n
  block : ∀ i < s.lh.n.toNat, headBlock (d.block r.start) i = s.lh.block i
  data : ∀ i < s.lh.n.toNat,
    d.block (r.start + i + 1) = s.view (s.lh.block i).toNat
  home : ∀ b, ¬ r.Mem b → d.block b = s.disk.block b ∨ d.block b = posted s b

/-- Only the log and the listed blocks were written since `s`. -/
def WritesWithin (r : Region) (s : Dev) (d : Disk) : Prop :=
  ∀ b ∈ d.writes, b ∈ s.disk.writes ∨ r.Mem b ∨ b ∈ s.lh.blocks

/-- The invariant of every disk that a crash can leave. -/
structure CrashInv (r : Region) (s : Dev) (d : Disk) : Prop where
  writes : WritesWithin r s d
  phase : Clear r s.disk.block d ∨ Committed r s d ∨ Clear r (posted s) d

theorem LogHeader.mem_blocks {lh : LogHeader} {b : Nat} :
    b ∈ lh.blocks ↔ ∃ i < lh.n.toNat, (lh.block i).toNat = b := by
  simp [LogHeader.blocks]

theorem posted_of_not_mem {s : Dev} {b : Nat} (hb : b ∉ s.lh.blocks) :
    posted s b = s.disk.block b := if_neg hb

theorem posted_block (s : Dev) {i : Nat} (hi : i < s.lh.n.toNat) :
    posted s (s.lh.block i).toNat = s.view (s.lh.block i).toNat :=
  if_pos (LogHeader.mem_blocks.mpr ⟨i, hi, rfl⟩)

section

variable {r : Region} {s₀ : Dev}

theorem Ready.start_mem (h : Ready r s₀) : r.Mem r.start := by
  have := h.nonneg
  have := h.fits.2
  constructor <;> omega

theorem Ready.data_mem (h : Ready r s₀) {i : Nat} (hi : i < s₀.lh.n.toNat) :
    r.Mem (r.start + i + 1) := by
  have := h.nonneg
  have := h.fits.2
  constructor <;> omega

theorem Ready.block_not_mem (h : Ready r s₀) {i : Nat}
    (hi : i < s₀.lh.n.toNat) : ¬ r.Mem (s₀.lh.block i).toNat :=
  h.outside _ (LogHeader.mem_blocks.mpr ⟨i, hi, rfl⟩)

theorem ne_of_region {a b : Nat} (ha : r.Mem a) (hb : ¬ r.Mem b) : b ≠ a := by
  intro heq
  exact hb (heq ▸ ha)

theorem WritesWithin.store {s : Dev} {b : Nat} {d : Block}
    (h : WritesWithin r s₀ s.disk) (hb : r.Mem b ∨ b ∈ s₀.lh.blocks) :
    WritesWithin r s₀ (s.store b d).disk := by
  intro x hx
  simp only [Dev.store, List.mem_cons] at hx
  rcases hx with rfl | hx
  · exact Or.inr hb
  · exact h x hx

/-- Writing into the log region leaves the home blocks alone. -/
theorem store_home {s : Dev} {a b : Nat} {data : Block} (ha : r.Mem a)
    (hb : ¬ r.Mem b) : (s.store a data).disk.block b = s.disk.block b := by
  simp [Dev.store, Function.update_of_ne (ne_of_region ha hb)]

/-- Installing one listed block keeps the disk committed. -/
theorem Committed.install (hready : Ready r s₀) {s : Dev}
    (h : Committed r s₀ s.disk) {i : Nat} (hi : i < s₀.lh.n.toNat) :
    Committed r s₀
      (s.store (s₀.lh.block i).toNat (s₀.view (s₀.lh.block i).toNat)).disk := by
  have hout := hready.block_not_mem hi
  have hstart : r.start ≠ (s₀.lh.block i).toNat :=
    (ne_of_region hready.start_mem hout).symm
  refine ⟨?_, ?_, ?_, ?_⟩
  · simpa [Dev.store, Function.update_of_ne hstart] using h.head
  · simpa [Dev.store, Function.update_of_ne hstart] using h.block
  · intro j hj
    have hne := (ne_of_region (hready.data_mem hj) hout).symm
    simpa [Dev.store, Function.update_of_ne hne] using h.data j hj
  · intro b hb
    by_cases heq : b = (s₀.lh.block i).toNat
    · subst heq
      right
      simp [Dev.store, posted_block s₀ hi]
    · simpa [Dev.store, Function.update_of_ne heq] using h.home b hb

/-- What holds before iteration `k` of `installTrans`. -/
structure Installing (r : Region) (s₀ : Dev) (k : Nat) (s : Dev) : Prop where
  n : s.lh.n = s₀.lh.n
  block : ∀ i < s₀.lh.n.toNat, s.lh.block i = s₀.lh.block i
  logged : ∀ i < s₀.lh.n.toNat,
    s.view (r.start + i + 1) = s₀.view (s₀.lh.block i).toNat
  writes : WritesWithin r s₀ s.disk
  committed : Committed r s₀ s.disk
  installed : ∀ i < k, s.disk.block (s₀.lh.block i).toNat =
    posted s₀ (s₀.lh.block i).toNat

theorem Installing.inv {k : Nat} {s : Dev} (h : Installing r s₀ k s) :
    CrashInv r s₀ s.disk := ⟨h.writes, Or.inr (Or.inl h.committed)⟩

theorem Installing.fill {k : Nat} {s : Dev} (h : Installing r s₀ k s) (b : Nat) :
    Installing r s₀ k (s.fill b) :=
  ⟨h.n, h.block, by simpa using h.logged, h.writes, h.committed, h.installed⟩

theorem Installing.unpin {k : Nat} {s : Dev} (h : Installing r s₀ k s) (b : Nat) :
    Installing r s₀ k (s.unpin b) :=
  ⟨h.n, h.block, h.logged, h.writes, h.committed, h.installed⟩

theorem Installing.store (hready : Ready r s₀) {k : Nat} {s : Dev}
    (h : Installing r s₀ k s) (hk : k < s₀.lh.n.toNat) :
    Installing r s₀ (k + 1)
      (s.store (s₀.lh.block k).toNat (s₀.view (s₀.lh.block k).toNat)) := by
  have hout := hready.block_not_mem hk
  refine ⟨h.n, h.block, ?_, ?_, h.committed.install hready hk, ?_⟩
  · intro i hi
    have hne := (ne_of_region (hready.data_mem hi) hout).symm
    rw [Dev.view_store, Function.update_of_ne hne]
    exact h.logged i hi
  · exact h.writes.store (Or.inr (LogHeader.mem_blocks.mpr ⟨k, hk, rfl⟩))
  · intro i hi
    by_cases heq : (s₀.lh.block i).toNat = (s₀.lh.block k).toNat
    · rw [heq, posted_block s₀ hk]
      simp [Dev.store]
    · have hik : i < k := by
        by_contra hnot
        have : i = k := by omega
        exact heq (by rw [this])
      simpa [Dev.store, Function.update_of_ne heq] using h.installed i hik

theorem installTrans_holds (hready : Ready r s₀) (recovering : Bool) {s : Dev}
    (h : Installing r s₀ 0 s) :
    (installTrans r recovering).Holds exec (fun s => CrashInv r s₀ s.disk) s
      fun _ => Installing r s₀ s₀.lh.n.toNat := by
  refine Prog.Holds.cmd_bind h.inv rfl ?_
  rw [h.n]
  refine Prog.Holds.upto (fun k s' => Installing.inv) h ?_
  intro k s' hk hs'
  have hblock : s.lh.block k = s₀.lh.block k := h.block k hk
  refine Prog.Holds.cmd_bind hs'.inv rfl ?_
  refine Prog.Holds.cmd_bind (hs'.fill _).inv rfl ?_
  have hfilled := (hs'.fill (r.start + k + 1)).fill (s₀.lh.block k).toNat
  have hdone := hfilled.store hready hk
  rw [hs'.logged k hk, hblock]
  refine Prog.Holds.cmd_bind hfilled.inv rfl ?_
  cases recovering with
  | true => exact Prog.Holds.pure hdone.inv hdone
  | false => exact Prog.Holds.cmd hdone.inv rfl (hdone.unpin _).inv (hdone.unpin _)

/-- Both callers end by emptying the header; the home blocks decide which of
the two empty states is reached. -/
theorem clearHead_writeHead_holds (hready : Ready r s₀) {s : Dev}
    {home : Nat → Block} (hinv : CrashInv r s₀ s.disk)
    (hhome : ∀ b, ¬ r.Mem b → s.disk.block b = home b)
    (hend : ∀ d, WritesWithin r s₀ d → Clear r home d → CrashInv r s₀ d) :
    (clearHead >>= fun _ => writeHead r).Holds exec
      (fun s => CrashInv r s₀ s.disk) s fun _ s' => Clear r home s'.disk := by
  have hclear : Clear r home
      ((({ s with lh := { s.lh with n := 0 } } : Dev).fill r.start).store r.start
        (putHead { s.lh with n := 0 } (s.view r.start))).disk := by
    refine ⟨?_, ?_⟩
    · simpa [Dev.store] using
        headN_putHead { s.lh with n := 0 } (s.view r.start) (Int.le_refl 0)
          (by simp)
    · intro b hb
      rw [store_home hready.start_mem hb]
      exact hhome b hb
  have hwrites := hinv.writes.store (s := s) (b := r.start)
    (d := putHead { s.lh with n := 0 } (s.view r.start))
    (Or.inl hready.start_mem)
  refine Prog.Holds.bind (M := fun _ s' =>
    s' = { s with lh := { s.lh with n := 0 } }) ?_ ?_
  · exact Prog.Holds.cmd_bind hinv rfl (Prog.Holds.cmd hinv rfl hinv rfl)
  · rintro _ _ rfl
    refine Prog.Holds.cmd_bind hinv rfl ?_
    refine Prog.Holds.cmd_bind hinv rfl ?_
    exact Prog.Holds.cmd hinv rfl (hend _ hwrites hclear) hclear

theorem Installing.home {s : Dev} (h : Installing r s₀ s₀.lh.n.toNat s) :
    ∀ b, ¬ r.Mem b → s.disk.block b = posted s₀ b := by
  intro b hb
  by_cases hlisted : b ∈ s₀.lh.blocks
  · obtain ⟨i, hi, rfl⟩ := LogHeader.mem_blocks.mp hlisted
    exact h.installed i hi
  · rcases h.committed.home b hb with hold | hnew
    · rw [hold, posted_of_not_mem hlisted]
    · exact hnew

/-- Install the transaction, then empty the header. -/
theorem install_finish_holds (hready : Ready r s₀) (recovering : Bool) {s : Dev}
    (h : Installing r s₀ 0 s) :
    (installTrans r recovering >>= fun _ => clearHead >>= fun _ =>
      writeHead r).Holds exec (fun s => CrashInv r s₀ s.disk) s
      fun _ s' => Clear r (posted s₀) s'.disk := by
  refine (installTrans_holds hready recovering h).bind ?_
  intro _ s' hs'
  exact clearHead_writeHead_holds hready hs'.inv hs'.home
    fun d hw hd => ⟨hw, Or.inr (Or.inr hd)⟩

/-! Recovery, from any of the three states. -/

/-- The in-memory header after `readHead` on a freshly booted machine. -/
def headOf (b : Block) : LogHeader :=
  ⟨headN b, fun i => if (i : Int) < headN b then headBlock b i else 0⟩

theorem readHead_holds {d : Disk} (hinv : CrashInv r s₀ d) :
    (readHead r).Holds exec (fun s => CrashInv r s₀ s.disk) (boot d)
      fun _ s' => s' = { (boot d).fill r.start with
        lh := headOf (d.block r.start) } := by
  refine Prog.Holds.cmd_bind hinv rfl ?_
  refine Prog.Holds.cmd_bind hinv rfl ?_
  exact Prog.Holds.cmd hinv rfl hinv rfl

theorem recoverFromLog_clear (hready : Ready r s₀) {d : Disk}
    {home : Nat → Block} (hinv : CrashInv r s₀ d) (hclear : Clear r home d)
    (hend : ∀ d, WritesWithin r s₀ d → Clear r home d → CrashInv r s₀ d) :
    (recoverFromLog r).Holds exec (fun s => CrashInv r s₀ s.disk) (boot d)
      fun _ s' => Clear r home s'.disk := by
  refine (readHead_holds hinv).bind ?_
  rintro _ _ rfl
  refine Prog.Holds.bind (M := fun _ s' => s'.disk = d) ?_ ?_
  · refine Prog.Holds.cmd_bind hinv rfl ?_
    have hzero : (headOf (d.block r.start)).n.toNat = 0 := by
      simp [headOf, hclear.head]
    simp only [hzero]
    exact ⟨hinv, rfl⟩
  · intro _ s' hs'
    subst hs'
    exact clearHead_writeHead_holds hready hinv hclear.home hend

theorem recoverFromLog_committed (hready : Ready r s₀) {d : Disk}
    (hinv : CrashInv r s₀ d) (hcommitted : Committed r s₀ d) :
    (recoverFromLog r).Holds exec (fun s => CrashInv r s₀ s.disk) (boot d)
      fun _ s' => Clear r (posted s₀) s'.disk := by
  refine (readHead_holds hinv).bind ?_
  rintro _ _ rfl
  apply install_finish_holds hready
  refine ⟨hcommitted.head, ?_, ?_, hinv.writes, hcommitted, ?_⟩
  · intro i hi
    have hin : (i : Int) < headN (d.block r.start) := by
      rw [hcommitted.head]
      omega
    simpa [headOf, hin] using hcommitted.block i hi
  · intro i hi
    exact (congrFun (Dev.view_fill (boot d) r.start) _).trans
      (hcommitted.data i hi)
  · intro i hi
    omega

/-- Recovery keeps the invariant at every point, and when it completes the
header is empty over the old or over the new home blocks. -/
theorem recoverFromLog_holds (hready : Ready r s₀) {d : Disk}
    (hinv : CrashInv r s₀ d) :
    (recoverFromLog r).Holds exec (fun s => CrashInv r s₀ s.disk) (boot d)
      fun _ s' => Clear r s₀.disk.block s'.disk ∨ Clear r (posted s₀) s'.disk := by
  rcases hinv.phase with hold | hcommitted | hnew
  · exact (recoverFromLog_clear hready hinv hold
      fun d hw hd => ⟨hw, Or.inl hd⟩).mono fun _ _ => Or.inl
  · exact (recoverFromLog_committed hready hinv hcommitted).mono fun _ _ => Or.inr
  · exact (recoverFromLog_clear hready hinv hnew
      fun d hw hd => ⟨hw, Or.inr (Or.inr hd)⟩).mono fun _ _ => Or.inr

/-! Commit. -/

/-- What holds before iteration `k` of `writeLog`. -/
structure Logging (r : Region) (s₀ : Dev) (k : Nat) (s : Dev) : Prop where
  lh : s.lh = s₀.lh
  cached : ∀ b, ¬ r.Mem b → s.view b = s₀.view b
  writes : WritesWithin r s₀ s.disk
  clear : Clear r s₀.disk.block s.disk
  logged : ∀ i < k, s.disk.block (r.start + i + 1) = s₀.view (s₀.lh.block i).toNat
  viewed : ∀ i < k, s.view (r.start + i + 1) = s₀.view (s₀.lh.block i).toNat

theorem Logging.inv {k : Nat} {s : Dev} (h : Logging r s₀ k s) :
    CrashInv r s₀ s.disk := ⟨h.writes, Or.inl h.clear⟩

theorem Logging.fill {k : Nat} {s : Dev} (h : Logging r s₀ k s) (b : Nat) :
    Logging r s₀ k (s.fill b) :=
  ⟨h.lh, by simpa using h.cached, h.writes, h.clear, h.logged,
    by simpa using h.viewed⟩

theorem Logging.store (hready : Ready r s₀) {k : Nat} {s : Dev}
    (h : Logging r s₀ k s) (hk : k < s₀.lh.n.toNat) :
    Logging r s₀ (k + 1)
      (s.store (r.start + k + 1) (s₀.view (s₀.lh.block k).toNat)) := by
  have hmem := hready.data_mem hk
  have hlogged : ∀ (f : Nat → Block) (i : Nat), i < k + 1 →
      (∀ j < k, f (r.start + j + 1) = s₀.view (s₀.lh.block j).toNat) →
      Function.update f (r.start + k + 1) (s₀.view (s₀.lh.block k).toNat)
        (r.start + i + 1) = s₀.view (s₀.lh.block i).toNat := by
    intro f i hi hf
    by_cases hik : i = k
    · subst hik
      simp
    · rw [Function.update_of_ne (by omega)]
      exact hf i (by omega)
  refine ⟨h.lh, ?_, h.writes.store (Or.inl hmem), ⟨?_, ?_⟩, ?_, ?_⟩
  · intro b hb
    rw [Dev.view_store, Function.update_of_ne (ne_of_region hmem hb)]
    exact h.cached b hb
  · have hne : r.start ≠ r.start + k + 1 := by omega
    simpa [Dev.store, Function.update_of_ne hne] using h.clear.head
  · intro b hb
    rw [store_home hmem hb]
    exact h.clear.home b hb
  · exact fun i hi => hlogged s.disk.block i hi h.logged
  · intro i hi
    rw [Dev.view_store]
    exact hlogged s.view i hi h.viewed

theorem writeLog_holds (hready : Ready r s₀) {s : Dev} (h : Logging r s₀ 0 s) :
    (writeLog r).Holds exec (fun s => CrashInv r s₀ s.disk) s
      fun _ => Logging r s₀ s₀.lh.n.toNat := by
  refine Prog.Holds.cmd_bind h.inv rfl ?_
  rw [h.lh]
  refine Prog.Holds.upto (fun k s' => Logging.inv) h ?_
  intro k s' hk hs'
  refine Prog.Holds.cmd_bind hs'.inv rfl ?_
  refine Prog.Holds.cmd_bind (hs'.fill _).inv rfl ?_
  have hfilled := (hs'.fill (r.start + k + 1)).fill (s₀.lh.block k).toNat
  have hdone := hfilled.store hready hk
  rw [(hs'.fill _).cached _ (hready.block_not_mem hk)]
  exact Prog.Holds.cmd hfilled.inv rfl hdone.inv hdone

/-- Writing the header is the commit point: the disk goes from the old empty
state to the committed one. -/
theorem writeHead_commits (hready : Ready r s₀) {s : Dev}
    (h : Logging r s₀ s₀.lh.n.toNat s) :
    (writeHead r).Holds exec (fun s => CrashInv r s₀ s.disk) s
      fun _ => Installing r s₀ 0 := by
  have hdone : Installing r s₀ 0
      ((s.fill r.start).store r.start (putHead s₀.lh (s.view r.start))) := by
    refine ⟨by simp [h.lh], by simp [h.lh], ?_,
      h.writes.store (Or.inl hready.start_mem), ⟨?_, ?_, ?_, ?_⟩, ?_⟩
    · intro i hi
      rw [Dev.view_store, Function.update_of_ne (by omega)]
      simpa using h.viewed i hi
    · simpa [Dev.store] using
        headN_putHead s₀.lh (s.view r.start) hready.nonneg hready.fits.1
    · intro i hi
      simpa [Dev.store] using headBlock_putHead s₀.lh (s.view r.start) hi
    · intro i hi
      have hne : r.start + i + 1 ≠ r.start := by omega
      simpa [Dev.store, Function.update_of_ne hne] using h.logged i hi
    · intro b hb
      left
      rw [store_home hready.start_mem hb]
      exact h.clear.home b hb
    · intro i hi
      omega
  refine Prog.Holds.cmd_bind h.inv rfl ?_
  refine Prog.Holds.cmd_bind h.inv rfl ?_
  simp only [Dev.lh_fill, h.lh]
  exact Prog.Holds.cmd h.inv rfl hdone.inv hdone

theorem commit_holds (hready : Ready r s₀) :
    (commit r).Holds exec (fun s => CrashInv r s₀ s.disk) s₀ fun _ _ => True := by
  have hstart : Logging r s₀ 0 s₀ :=
    ⟨rfl, fun _ _ => rfl, fun b hb => Or.inl hb, ⟨hready.empty, fun _ _ => rfl⟩,
      fun i hi => by omega, fun i hi => by omega⟩
  refine Prog.Holds.cmd_bind hstart.inv rfl ?_
  by_cases hn : s₀.lh.n > 0
  · simp only [hn, ↓reduceIte]
    refine (writeLog_holds hready hstart).bind fun _ s hs => ?_
    refine (writeHead_commits hready hs).bind fun _ s hs => ?_
    exact (install_finish_holds hready false hs).mono fun _ _ _ => trivial
  · simp only [hn, ↓reduceIte]
    exact Prog.Holds.pure hstart.inv trivial

end

/-- The disks that crashes during recovery can leave: each crash stops
`recoverFromLog` after some number of commands. -/
inductive Crashes (r : Region) : Disk → Disk → Prop
  | done (d : Disk) : Crashes r d d
  | again {d d' : Disk} (k : Nat)
      (rest : Crashes r ((recoverFromLog r).after exec k (boot d)).disk d') :
      Crashes r d d'

theorem Crashes.inv {r : Region} {s₀ : Dev} (hready : Ready r s₀) {d d' : Disk}
    (h : Crashes r d d') (hinv : CrashInv r s₀ d) : CrashInv r s₀ d' := by
  induction h with
  | done d => exact hinv
  | again k _ ih => exact ih ((recoverFromLog_holds hready hinv).after k)

/-- Crash atomicity.  Stop `commit` after any number `k` of commands, let any
number of recoveries be cut short, and let one run to completion: the home
blocks are all old or all new, the header is empty, and only the log and the
listed home blocks were ever written. -/
theorem commit_crash_atomic {r : Region} {s : Dev} (hready : Ready r s) (k : Nat)
    {d : Disk} (hcrash : Crashes r ((commit r).after exec k s).disk d) :
    ∃ s', (recoverFromLog r).run exec (boot d) = .ok ((), s') ∧
      ((∀ b, ¬ r.Mem b → s'.disk.block b = s.disk.block b) ∨
        (∀ b, ¬ r.Mem b → s'.disk.block b = posted s b)) ∧
      WritesWithin r s s'.disk ∧ headN (s'.disk.block r.start) = 0 := by
  have hinv : CrashInv r s d := hcrash.inv hready ((commit_holds hready).after k)
  obtain ⟨_, s', hrun, hend, hclear⟩ := (recoverFromLog_holds hready hinv).run
  refine ⟨s', hrun, ?_, hend.writes, ?_⟩
  · exact hclear.imp Clear.home Clear.home
  · exact hclear.elim Clear.head Clear.head

namespace CrashWitness

/-- The log of a file system made by mkfs. -/
def region : Region := ⟨2, 30⟩

/-- An empty log on disk, and a transaction of the home blocks 46 and 47 whose
buffers hold other data than the disk. -/
def dev : Dev :=
  { disk := ⟨fun _ _ => 0, []⟩
    cache := fun b => if b = 46 ∨ b = 47 then some fun _ => 7 else none
    pins := fun b => if b = 46 ∨ b = 47 then 1 else 0
    lh := ⟨2, fun i => if i = 0 then 46 else 47⟩ }

theorem dev_ready : Ready region dev :=
  ⟨by decide, by decide, by decide, by decide, by decide⟩

/-- The power fails after the header is written, and again during the first
recovery; the second recovery completes. -/
theorem commit_crash_atomic_twice :
    Ready region dev ∧
    ∃ s', (recoverFromLog region).run exec (boot ((recoverFromLog region).after exec 7
        (boot ((commit region).after exec 12 dev).disk)).disk) = .ok ((), s') ∧
      ((∀ b, ¬ region.Mem b → s'.disk.block b = dev.disk.block b) ∨
        (∀ b, ¬ region.Mem b → s'.disk.block b = posted dev b)) ∧
      WritesWithin region dev s'.disk ∧ headN (s'.disk.block region.start) = 0 :=
  ⟨dev_ready, commit_crash_atomic dev_ready 12 (.again 7 (.done _))⟩

end CrashWitness

end Xv6.Log
