/-
The list of the buffers in kernel/bio.c, with its links, for any number of processes.  One
step is one critical section of bcache.lock or of the sleep-lock of a buffer.
-/
import Mathlib.Tactic.Ring
import Xv6.Lib.Links
import Xv6.Lib.Transition
import Xv6.Param

namespace Xv6.Bio

open Transition

def NBUF : Nat := MAXOPBLOCKS * 3

/-- `struct buf` apart from its data: the sleep-lock is the process that holds it. -/
structure Buf where
  valid : Bool := false
  dev : UInt32 := 0
  blockno : UInt32 := 0
  lock : Option Nat := none
  refcnt : UInt32 := 0

/-- `bcache` with its links, where `none` is `bcache.head`, and the processes: those that wait
for the sleep-lock of a buffer, and those that have released it in brelse and not yet its
reference.  The rest is history: the calls of bpin less those of bunpin, and when each
buffer was last released by everybody, 0 if never. -/
structure Bcache where
  links : Links (Option Nat)
  buf : Nat → Buf
  waiting : Nat → List Nat
  leaving : Nat → List Nat
  pins : Nat → Int
  clock : Nat
  released : Nat → Nat

namespace Bcache

/-- The loop of binit. -/
def initLinks : Nat → Links (Option Nat)
  | 0 => ⟨fun _ => none, fun _ => none⟩
  | i + 1 => (initLinks i).insert none (some i)

def init : Bcache where
  links := initLinks NBUF
  buf _ := {}
  waiting _ := []
  leaving _ := []
  pins _ := 0
  clock := 0
  released _ := 0

/-- The processes with a reference to the buffer. -/
def users (s : Bcache) (i : Nat) : Nat :=
  (if (s.buf i).lock = none then 0 else 1) + (s.waiting i).length + (s.leaving i).length

def set (s : Bcache) (i : Nat) (b : Buf) : Bcache := { s with buf := Function.update s.buf i b }

def setWaiting (s : Bcache) (i : Nat) (ps : List Nat) : Bcache :=
  { s with waiting := Function.update s.waiting i ps }

def setLeaving (s : Bcache) (i : Nat) (ps : List Nat) : Bcache :=
  { s with leaving := Function.update s.leaving i ps }

/-- A test of the buffer at a node. -/
def test (s : Bcache) (p : Buf → Bool) : Option Nat → Bool
  | none => false
  | some i => p (s.buf i)

/-- The first loop of bget. -/
def lookup (s : Bcache) (dev blockno : UInt32) : Option (Option (Option Nat)) :=
  s.links.find none (s.test fun b => decide (b.dev = dev ∧ b.blockno = blockno)) (NBUF + 1)
    (s.links.next none)

/-- The second loop of bget. -/
def victim (s : Bcache) : Option (Option (Option Nat)) :=
  s.links.flip.find none (s.test fun b => decide (b.refcnt = 0)) (NBUF + 1) (s.links.prev none)

/-- The critical section of bget: the buffer for which the process waits then, and whether
it is a new one. -/
inductive Got
  | hit (i : Nat)
  | miss (i : Nat)
  | none
deriving DecidableEq

def bget (s : Bcache) (dev blockno : UInt32) : Option Got :=
  match s.lookup dev blockno with
  | some (some (some i)) => some (.hit i)
  | some none =>
      match s.victim with
      | some (some (some i)) => some (.miss i)
      | some none => some .none
      | _ => none
  | _ => none

/-- The end of brelse: b->refcnt--, and an unused buffer moves to the front. -/
def leave (s : Bcache) (i : Nat) : Bcache :=
  let s := s.set i { s.buf i with refcnt := (s.buf i).refcnt - 1 }
  if (s.buf i).refcnt = 0 then
    { s with
      links := (s.links.unlink (some i)).insert none (some i)
      clock := s.clock + 1
      released := Function.update s.released i (s.clock + 1) }
  else s

/-- A process that waits or is in brelse does nothing else. -/
def idle (s : Bcache) (p : Nat) : Bool :=
  (List.range NBUF).all fun i => !(s.waiting i).contains p && !(s.leaving i).contains p

end Bcache

open Bcache

inductive Act
  | bget (dev blockno : UInt32)
  | lock (i : Nat)
  | fill (i : Nat)
  | brelse (i : Nat)
  | leave (i : Nat)
  | bpin (i : Nat)
  | bunpin (i : Nat)

/-- A step of process `p`. -/
def Bcache.step (s : Bcache) (a : Nat × Act) : Option (Except String Bcache) :=
  let p := a.1
  match a.2 with
  | .bget dev blockno =>
      if s.idle p then
        match s.bget dev blockno with
        | some (.hit i) => some (.ok ((s.set i { s.buf i with
            refcnt := (s.buf i).refcnt + 1 }).setWaiting i (p :: s.waiting i)))
        | some (.miss i) => some (.ok ((s.set i { s.buf i with
            dev := dev, blockno := blockno, valid := false, refcnt := 1 }).setWaiting i
              (p :: s.waiting i)))
        | some .none => some (.error "bget: no buffers")
        | none => none
      else none
  | .lock i =>
      if p ∈ s.waiting i ∧ (s.buf i).lock = none then
        some (.ok ((s.set i { s.buf i with lock := some p }).setWaiting i
          ((s.waiting i).erase p)))
      else none
  -- the rest of bread
  | .fill i =>
      if s.idle p ∧ (s.buf i).lock = some p then
        some (.ok (s.set i { s.buf i with valid := true }))
      else none
  | .brelse i =>
      if s.idle p then
        if (s.buf i).lock = some p then
          some (.ok ((s.set i { s.buf i with lock := none }).setLeaving i (p :: s.leaving i)))
        else some (.error "brelse")
      else none
  | .leave i =>
      if p ∈ s.leaving i then
        some (.ok ((s.leave i).setLeaving i ((s.leaving i).erase p)))
      else none
  | .bpin i =>
      if s.idle p then
        some (.ok { s.set i { s.buf i with refcnt := (s.buf i).refcnt + 1 } with
          pins := Function.update s.pins i (s.pins i + 1) })
      else none
  | .bunpin i =>
      if s.idle p then
        some (.ok { s.set i { s.buf i with refcnt := (s.buf i).refcnt - 1 } with
          pins := Function.update s.pins i (s.pins i - 1) })
      else none

/-- Devices are at least 1, bpin is called for a buffer that bget has returned, and bunpin by
a process that holds the buffer. -/
def Bcache.Proper (s : Bcache) : Nat × Act → Prop
  | (_, .bget dev _) => dev ≠ 0
  | (_, .bpin i) => (s.buf i).dev ≠ 0
  | (p, .bunpin i) => (s.buf i).lock = some p
  | _ => True

def Bcache.Run : Bcache → Prop := Reach (fun s => s = init) Proper Bcache.step

/-- What holds of one buffer: the count, as far as 32 bits go, and that a buffer without a
block is not in use. -/
structure Sound (s : Bcache) (i : Nat) : Prop where
  count : ((s.buf i).refcnt.toNat : Int) = (s.users i + s.pins i) % 2 ^ 32
  fresh : (s.buf i).dev = 0 → (s.buf i).valid = false ∧ s.users i = 0 ∧ s.pins i = 0

/-- The buffers of `l` are in the circle, in the order of their releases. -/
structure Wf (s : Bcache) (l : List Nat) : Prop where
  circle : s.links.Circle none (l.map some)
  perm : l.Perm (List.range NBUF)
  known : ∀ i, (s.buf i).dev ≠ 0 → i ∈ l
  unique : ∀ i j, (s.buf i).dev ≠ 0 → (s.buf i).dev = (s.buf j).dev →
    (s.buf i).blockno = (s.buf j).blockno → i = j
  sound : ∀ i, Sound s i
  sorted : l.Pairwise fun i j => s.released j ≤ s.released i
  clock : ∀ i, s.released i ≤ s.clock

section wf

variable {s s' : Bcache} {l : List Nat} {p i : Nat} {dev blockno : UInt32}

/-- Nothing that concerns the buffer `j` is different. -/
structure Alike (s s' : Bcache) (j : Nat) : Prop where
  buf : s'.buf j = s.buf j
  users : s'.users j = s.users j
  pins : s'.pins j = s.pins j

theorem Sound.congr {j : Nat} (h : Sound s j) (ha : Alike s s' j) : Sound s' j where
  count := by rw [ha.buf, ha.users, ha.pins, h.count]
  fresh := by rw [ha.buf, ha.users, ha.pins]; exact h.fresh

/-- A step that changes one buffer, and gives it at most a block that no buffer has. -/
theorem Wf.change (h : Wf s l) (hother : ∀ j, j ≠ i → Alike s s' j) (hsound : Sound s' i)
    (hmem : i ∈ l)
    (hid : ((s'.buf i).dev = (s.buf i).dev ∧ (s'.buf i).blockno = (s.buf i).blockno) ∨
      ∀ j, j ∈ l → (s.buf j).dev = (s'.buf i).dev → (s.buf j).blockno ≠ (s'.buf i).blockno)
    (hlinks : s'.links = s.links) (hrel : s'.released = s.released) (hclock : s'.clock = s.clock) :
    Wf s' l where
  circle := hlinks ▸ h.circle
  perm := h.perm
  known j hj := by
    by_cases hji : j = i
    · exact hji ▸ hmem
    · rw [(hother j hji).buf] at hj
      exact h.known j hj
  unique := by
    have hone : ∀ j, j ≠ i → (s.buf j).dev ≠ 0 → (s.buf j).dev = (s'.buf i).dev →
        (s.buf j).blockno ≠ (s'.buf i).blockno := by
      intro j hji hj hdev hno
      rcases hid with ⟨hd, hb⟩ | hnew
      · exact hji (h.unique j i hj (hdev.trans hd) (hno.trans hb))
      · exact hnew j (h.known j hj) hdev hno
    intro j k hj hdev hno
    by_cases hji : j = i <;> by_cases hki : k = i
    · rw [hji, hki]
    · subst hji
      rw [(hother k hki).buf] at hdev hno
      exact absurd hno.symm (hone k hki (hdev ▸ hj) hdev.symm)
    · subst hki
      rw [(hother j hji).buf] at hj hdev hno
      exact absurd hno (hone j hji hj hdev)
    · rw [(hother j hji).buf] at hj hdev hno
      rw [(hother k hki).buf] at hdev hno
      exact h.unique j k hj hdev hno
  sound j := by
    by_cases hji : j = i
    · exact hji ▸ hsound
    · exact (h.sound j).congr (hother j hji)
  sorted := by rw [hrel]; exact h.sorted
  clock := by rw [hrel, hclock]; exact h.clock

theorem Wf.dev_ne_of_users (h : Wf s l) (hu : s.users i ≠ 0) : (s.buf i).dev ≠ 0 :=
  fun hdev => hu ((h.sound i).fresh hdev).2.1

theorem users_ne_of_lock (hlock : (s.buf i).lock = some p) : s.users i ≠ 0 := by
  rw [users, hlock]
  simp only [reduceCtorEq, if_false]
  omega

/-- The most recently used buffer moves to the front. -/
theorem Wf.front (h : Wf s l) (hmem : i ∈ l) (hbuf : s'.buf = s.buf)
    (husers : s'.users = s.users) (hpins : s'.pins = s.pins)
    (hlinks : s'.links = (s.links.unlink (some i)).insert none (some i))
    (hrel : s'.released = Function.update s.released i (s.clock + 1))
    (hclock : s'.clock = s.clock + 1) : Wf s' (i :: l.erase i) := by
  obtain ⟨l₁, l₂, hl₁, hl, hl'⟩ := List.exists_erase_eq hmem
  have hcircle := h.circle
  rw [hl, List.map_append, List.map_cons] at hcircle
  have hout : some i ∉ none :: ((l₁.map some) ++ l₂.map some) :=
    (Links.nodup_without hcircle.nodup).1
  have hnodup : l.Nodup := h.perm.nodup_iff.mpr List.nodup_range
  refine ⟨?_, ?_, ?_, ?_, ?_, ?_, ?_⟩
  · rw [hlinks, List.map_cons, hl', List.map_append]
    exact hcircle.unlink.insert hout
  · exact (List.perm_cons_erase hmem).symm.trans h.perm
  · intro j hj
    rw [hbuf] at hj
    exact (List.perm_cons_erase hmem).mem_iff.mp (h.known j hj)
  · rw [hbuf]
    exact h.unique
  · intro j
    exact (h.sound j).congr ⟨by rw [hbuf], by rw [husers], by rw [hpins]⟩
  · rw [hrel, List.pairwise_cons]
    have hne : ∀ j ∈ l.erase i, j ≠ i := by
      rintro j hj rfl
      exact (List.Nodup.mem_erase_iff hnodup).mp hj |>.1 rfl
    refine ⟨fun j hj => ?_, ?_⟩
    · rw [Function.update_self, Function.update_of_ne (hne j hj)]
      exact Nat.le_succ_of_le (h.clock j)
    · refine (h.sorted.sublist List.erase_sublist).imp_of_mem fun {j k} hj hk hjk => ?_
      rw [Function.update_of_ne (hne j hj), Function.update_of_ne (hne k hk)]
      exact hjk
  · intro j
    rw [hrel, hclock, Function.update_apply]
    split
    · exact Nat.le_refl _
    · exact Nat.le_succ_of_le (h.clock j)

theorem find_test (s : Bcache) (q : Buf → Bool) (l : List Nat) :
    (l.map some).find? (s.test q) = (l.find? fun i => q (s.buf i)).map some := by
  rw [List.find?_map]
  rfl

theorem Wf.length_lt (h : Wf s l) : (l.map some).length < NBUF + 1 := by
  rw [List.length_map, h.perm.length_eq, List.length_range]
  exact Nat.lt_succ_self NBUF

/-- The first loop of bget is a search of the list, as in `State.cached`. -/
theorem Wf.lookup_eq (h : Wf s l) : s.lookup dev blockno = some ((l.find? fun i =>
    decide ((s.buf i).dev = dev ∧ (s.buf i).blockno = blockno)).map some) := by
  rw [lookup, h.circle.find h.length_lt, find_test]

/-- The second loop goes the other way, as in `State.unused`. -/
theorem Wf.victim_eq (h : Wf s l) : s.victim = some ((l.reverse.find? fun i =>
    decide ((s.buf i).refcnt = 0)).map some) := by
  have hlen : (l.map some).reverse.length < NBUF + 1 := by
    rw [List.length_reverse]
    exact h.length_lt
  have hfind := h.circle.flip.find (p := s.test fun b => decide (b.refcnt = 0)) hlen
  rw [← List.map_reverse, find_test] at hfind
  exact hfind

theorem Wf.bget_hit (h : Wf s l) (hget : s.bget dev blockno = some (.hit i)) :
    i ∈ l ∧ (s.buf i).dev = dev ∧ (s.buf i).blockno = blockno := by
  rw [Bcache.bget, h.lookup_eq, h.victim_eq] at hget
  cases hfind : l.find? fun i => decide ((s.buf i).dev = dev ∧ (s.buf i).blockno = blockno) with
  | none =>
      rw [hfind] at hget
      simp only [Option.map_none] at hget
      split at hget <;> simp at hget
  | some j =>
      rw [hfind] at hget
      cases hget
      exact ⟨List.mem_of_find?_eq_some hfind, by simpa using List.find?_some hfind⟩

/-- On a miss, bget takes an unused buffer that was released before all others. -/
theorem Wf.bget_miss (h : Wf s l) (hget : s.bget dev blockno = some (.miss i)) :
    (i ∈ l ∧ (s.buf i).refcnt = 0 ∧
      ∀ j, j ∈ l → (s.buf j).dev = dev → (s.buf j).blockno ≠ blockno) ∧
    ∀ j, j ∈ l → (s.buf j).refcnt = 0 → s.released i ≤ s.released j := by
  rw [Bcache.bget, h.lookup_eq, h.victim_eq] at hget
  cases hfind : l.find? fun i => decide ((s.buf i).dev = dev ∧ (s.buf i).blockno = blockno) with
  | some j =>
      rw [hfind] at hget
      simp at hget
  | none =>
      rw [hfind] at hget
      cases hvictim : l.reverse.find? fun i => decide ((s.buf i).refcnt = 0) with
      | none =>
          rw [hvictim] at hget
          simp at hget
      | some k =>
          rw [hvictim] at hget
          obtain ⟨rfl⟩ : k = i := by simpa using hget
          obtain ⟨href, before, after, hsplit, hbefore⟩ := List.find?_eq_some_iff_append.mp hvictim
          have hl : l = after.reverse ++ i :: before.reverse := by
            rw [← List.reverse_inj, hsplit]
            simp
          refine ⟨⟨?_, by simpa using href, fun j hj hdev hno => ?_⟩, fun j hj hzero => ?_⟩
          · rw [hl]
            simp
          · have hnone := List.find?_eq_none.mp hfind j hj
            exact hnone (by simpa using ⟨hdev, hno⟩)
          · -- The buffers behind it in the list are all in use.
            have hsorted := h.sorted
            rw [hl, List.pairwise_append] at hsorted
            rw [hl, List.mem_append, List.mem_cons, List.mem_reverse] at hj
            rcases hj with hj | rfl | hj
            · exact hsorted.2.2 j (List.mem_reverse.mpr hj) i List.mem_cons_self
            · exact Nat.le_refl _
            · have hused := hbefore j (List.mem_reverse.mp hj)
              simp [hzero] at hused

theorem toNat_succ (c : UInt32) : ((c + 1).toNat : Int) = (c.toNat + 1) % 2 ^ 32 := by
  rw [UInt32.toNat_add]
  rfl

theorem toNat_pred (c : UInt32) : ((c - 1).toNat : Int) = (c.toNat + -1) % 2 ^ 32 := by
  rw [UInt32.toNat_sub]
  have hlt := c.toNat_lt
  have hone : (1 : UInt32).toNat = 1 := rfl
  rw [hone]
  omega

/-- A buffer that gets another reference, or loses one. -/
theorem Sound.count_of {n : Int} (h : Sound s i)
    (hcount : ((s'.buf i).refcnt.toNat : Int) = ((s.buf i).refcnt.toNat + n) % 2 ^ 32)
    (husers : (s'.users i + s'.pins i : Int) = s.users i + s.pins i + n) :
    ((s'.buf i).refcnt.toNat : Int) = (s'.users i + s'.pins i) % 2 ^ 32 := by
  have hold := h.count
  rw [husers, hcount, hold]
  omega

theorem length_erase_mem {ps : List Nat} (h : p ∈ ps) : (ps.erase p).length + 1 = ps.length := by
  have hpos := List.length_pos_of_mem h
  rw [List.length_erase_of_mem h]
  omega

theorem Wf.get {b : Buf} (h : Wf s l) (hmem : i ∈ l) (hlock : b.lock = (s.buf i).lock)
    (hdev : b.dev ≠ 0)
    (hcount : (b.refcnt.toNat : Int) = ((s.buf i).refcnt.toNat + 1) % 2 ^ 32)
    (hid : (b.dev = (s.buf i).dev ∧ b.blockno = (s.buf i).blockno) ∨
      ∀ j, j ∈ l → (s.buf j).dev = b.dev → (s.buf j).blockno ≠ b.blockno) :
    Wf ((s.set i b).setWaiting i (p :: s.waiting i)) l := by
  have hbuf : ((s.set i b).setWaiting i (p :: s.waiting i)).buf i = b := by
    simp [Bcache.set, setWaiting]
  have husers : ((s.set i b).setWaiting i (p :: s.waiting i)).users i = s.users i + 1 := by
    simp only [users, hbuf, hlock]
    simp [Bcache.set, setWaiting]
    omega
  refine h.change (fun j hj => ?_) ⟨?_, ?_⟩ hmem (by rwa [hbuf]) rfl rfl rfl
  · constructor <;> simp [users, Bcache.set, setWaiting, hj]
  · refine (h.sound i).count_of (n := 1) (by rw [hbuf, hcount]) ?_
    rw [husers]
    change ((s.users i + 1 : Nat) : Int) + s.pins i = _
    omega
  · rw [hbuf]
    exact fun hzero => absurd hzero hdev

/-- A step on one buffer that keeps its block and changes its count by `n`. -/
theorem Wf.alter {n : Int} (h : Wf s l) (hdev : (s.buf i).dev ≠ 0)
    (hother : ∀ j, j ≠ i → Alike s s' j) (hsame : (s'.buf i).dev = (s.buf i).dev)
    (hno : (s'.buf i).blockno = (s.buf i).blockno)
    (hcount : ((s'.buf i).refcnt.toNat : Int) = ((s.buf i).refcnt.toNat + n) % 2 ^ 32)
    (husers : (s'.users i + s'.pins i : Int) = s.users i + s.pins i + n)
    (hlinks : s'.links = s.links) (hrel : s'.released = s.released)
    (hclock : s'.clock = s.clock) : Wf s' l :=
  h.change hother ⟨(h.sound i).count_of hcount husers, fun hzero => absurd (hsame ▸ hzero) hdev⟩
    (h.known i hdev) (.inl ⟨hsame, hno⟩) hlinks hrel hclock

theorem toNat_same (c : UInt32) : (c.toNat : Int) = (c.toNat + 0) % 2 ^ 32 := by
  have hlt := c.toNat_lt
  omega

theorem Wf.lock (h : Wf s l) (hp : p ∈ s.waiting i) (hlock : (s.buf i).lock = none) :
    Wf ((s.set i { s.buf i with lock := some p }).setWaiting i ((s.waiting i).erase p)) l := by
  have hlen := length_erase_mem hp
  have husers : s.users i ≠ 0 := by
    simp only [users]
    omega
  refine h.alter (n := 0) (h.dev_ne_of_users husers) (fun j hj => ?_) ?_ ?_ ?_ ?_ rfl rfl rfl
  · constructor <;> simp [users, Bcache.set, setWaiting, hj]
  · simp [Bcache.set, setWaiting]
  · simp [Bcache.set, setWaiting]
  · simpa [Bcache.set, setWaiting] using toNat_same (s.buf i).refcnt
  · simp only [users, Bcache.set, setWaiting, Function.update_self, hlock, if_true, reduceCtorEq,
      if_false]
    omega

theorem Wf.fill (h : Wf s l) (hlock : (s.buf i).lock = some p) :
    Wf (s.set i { s.buf i with valid := true }) l := by
  refine h.alter (n := 0) (h.dev_ne_of_users (users_ne_of_lock hlock)) (fun j hj => ?_) ?_ ?_ ?_
    ?_ rfl rfl rfl
  · constructor <;> simp [users, Bcache.set, hj]
  · simp [Bcache.set]
  · simp [Bcache.set]
  · simpa [Bcache.set] using toNat_same (s.buf i).refcnt
  · simp [users, Bcache.set]

theorem Wf.brelse (h : Wf s l) (hlock : (s.buf i).lock = some p) :
    Wf ((s.set i { s.buf i with lock := none }).setLeaving i (p :: s.leaving i)) l := by
  refine h.alter (n := 0) (h.dev_ne_of_users (users_ne_of_lock hlock)) (fun j hj => ?_) ?_ ?_ ?_
    ?_ rfl rfl rfl
  · constructor <;> simp [users, Bcache.set, setLeaving, hj]
  · simp [Bcache.set, setLeaving]
  · simp [Bcache.set, setLeaving]
  · simpa [Bcache.set, setLeaving] using toNat_same (s.buf i).refcnt
  · simp only [users, Bcache.set, setLeaving, Function.update_self, hlock, if_true, reduceCtorEq,
      if_false, List.length_cons]
    omega

/-- brelse gives up the reference, and the buffer moves to the front if it was the last. -/
theorem Wf.leave (h : Wf s l) (hp : p ∈ s.leaving i) :
    ∃ l', Wf ((s.leave i).setLeaving i ((s.leaving i).erase p)) l' := by
  have hlen := length_erase_mem hp
  have hdev : (s.buf i).dev ≠ 0 := by
    apply h.dev_ne_of_users
    simp only [users]
    omega
  have hless : Wf ((s.set i { s.buf i with refcnt := (s.buf i).refcnt - 1 }).setLeaving i
      ((s.leaving i).erase p)) l := by
    refine h.alter (n := -1) hdev (fun j hj => ?_) ?_ ?_ ?_ ?_ rfl rfl rfl
    · constructor <;> simp [users, Bcache.set, setLeaving, hj]
    · simp [Bcache.set, setLeaving]
    · simp [Bcache.set, setLeaving]
    · simpa [Bcache.set, setLeaving] using toNat_pred (s.buf i).refcnt
    · simp only [users, Bcache.set, setLeaving, Function.update_self]
      omega
  simp only [Bcache.leave]
  split
  · exact ⟨_, hless.front (h.known i hdev) rfl rfl rfl rfl rfl rfl⟩
  · exact ⟨l, hless⟩

theorem Wf.bpin (h : Wf s l) (hdev : (s.buf i).dev ≠ 0) :
    Wf { s.set i { s.buf i with refcnt := (s.buf i).refcnt + 1 } with
      pins := Function.update s.pins i (s.pins i + 1) } l := by
  refine h.alter (n := 1) hdev (fun j hj => ?_) ?_ ?_ ?_ ?_ rfl rfl rfl
  · constructor <;> simp [users, Bcache.set, hj]
  · simp [Bcache.set]
  · simp [Bcache.set]
  · simp [Bcache.set]
  · simp only [users, Bcache.set, Function.update_self]
    omega

theorem Wf.bunpin (h : Wf s l) (hlock : (s.buf i).lock = some p) :
    Wf { s.set i { s.buf i with refcnt := (s.buf i).refcnt - 1 } with
      pins := Function.update s.pins i (s.pins i - 1) } l := by
  refine h.alter (n := -1) (h.dev_ne_of_users (users_ne_of_lock hlock)) (fun j hj => ?_) ?_ ?_ ?_
    ?_ rfl rfl rfl
  · constructor <;> simp [users, Bcache.set, hj]
  · simp [Bcache.set]
  · simp [Bcache.set]
  · simpa [Bcache.set] using toNat_pred (s.buf i).refcnt
  · simp only [users, Bcache.set, Function.update_self]
    omega

theorem Wf.step {a : Nat × Act} (h : Wf s l) (hp : s.Proper a)
    (hstep : s.step a = some (.ok s')) : ∃ l', Wf s' l' := by
  obtain ⟨p, act⟩ := a
  cases act with
  | bget dev blockno =>
      simp only [Bcache.step] at hstep
      split at hstep
      · split at hstep <;> cases hstep
        · next i hget =>
            obtain ⟨hmem, hdev, hno⟩ := h.bget_hit hget
            exact ⟨l, h.get hmem rfl (hdev ▸ hp) (toNat_succ _) (.inl ⟨rfl, rfl⟩)⟩
        · next i hget =>
            obtain ⟨⟨hmem, href, hnew⟩, -⟩ := h.bget_miss hget
            refine ⟨l, h.get hmem rfl hp ?_ (.inr hnew)⟩
            rw [href]
            rfl
      · cases hstep
  | lock i =>
      simp only [Bcache.step] at hstep
      split at hstep <;> cases hstep
      next hcond => exact ⟨l, h.lock hcond.1 hcond.2⟩
  | fill i =>
      simp only [Bcache.step] at hstep
      split at hstep <;> cases hstep
      next hcond => exact ⟨l, h.fill hcond.2⟩
  | brelse i =>
      simp only [Bcache.step] at hstep
      split at hstep
      · split at hstep <;> cases hstep
        next hlock => exact ⟨l, h.brelse hlock⟩
      · cases hstep
  | leave i =>
      simp only [Bcache.step] at hstep
      split at hstep <;> cases hstep
      next hcond => exact h.leave hcond
  | bpin i =>
      simp only [Bcache.step] at hstep
      split at hstep <;> cases hstep
      exact ⟨l, h.bpin hp⟩
  | bunpin i =>
      simp only [Bcache.step] at hstep
      split at hstep <;> cases hstep
      exact ⟨l, h.bunpin hp⟩

/-- The loop of binit puts each buffer in front of those before it. -/
theorem initLinks_circle (n : Nat) :
    (initLinks n).Circle none ((List.range n).reverse.map some) := by
  induction n with
  | zero => exact ⟨List.nodup_singleton none, rfl, rfl⟩
  | succ n ih =>
      rw [List.range_succ, List.reverse_append, List.reverse_singleton, List.singleton_append,
        List.map_cons]
      exact ih.insert (by simp)

theorem Wf.init : Wf init (List.range NBUF).reverse where
  circle := initLinks_circle NBUF
  perm := List.reverse_perm _
  known _ hi := absurd rfl hi
  unique _ _ hi := absurd rfl hi
  sound _ := ⟨rfl, fun _ => ⟨rfl, rfl, rfl⟩⟩
  sorted := List.pairwise_of_forall fun _ _ => Nat.le_refl 0
  clock _ := Nat.le_refl 0

theorem Run.wf (h : Bcache.Run s) : ∃ l, Wf s l := by
  apply Reach.invariant _ _ h
  · rintro s rfl
    exact ⟨_, Wf.init⟩
  · rintro s a s' hp hstep ⟨l, hwf⟩
    exact hwf.step hp hstep

end wf

/-- The buffer is in use or holds the data of its block. -/
def Bcache.Live (s : Bcache) (i : Nat) : Prop :=
  (s.buf i).valid = true ∨ (s.buf i).refcnt ≠ 0 ∨ 0 < s.users i

/-- The representation invariant of the buffer cache, for every interleaving of any number
of processes: the buffers are in a circular doubly linked list, each once; a block has at
most one buffer; a count is the number of references and pins, modulo 2^32; and bget
recycles, of the buffers with count 0, one whose last release is the oldest. -/
theorem bcache_well_formed {s : Bcache} (h : Bcache.Run s) :
    (∃ l : List Nat, s.links.Circle none (l.map some) ∧ l.Perm (List.range NBUF)) ∧
    (∀ i j, s.Live i → s.Live j → (s.buf i).dev = (s.buf j).dev →
      (s.buf i).blockno = (s.buf j).blockno → i = j) ∧
    (∀ i, ((s.buf i).refcnt.toNat : Int) = (s.users i + s.pins i) % 2 ^ 32) ∧
    (∀ i, 0 ≤ s.users i + s.pins i → s.users i + s.pins i < 2 ^ 32 →
      ((s.buf i).refcnt.toNat : Int) = s.users i + s.pins i) ∧
    ∀ dev blockno i, s.bget dev blockno = some (.miss i) → (s.buf i).refcnt = 0 ∧
      ∀ j < NBUF, (s.buf j).refcnt = 0 → s.released i ≤ s.released j := by
  obtain ⟨l, hwf⟩ := Run.wf h
  refine ⟨⟨l, hwf.circle, hwf.perm⟩, fun i j hi _ => hwf.unique i j fun hdev => ?_,
    fun i => (hwf.sound i).count, fun i hlo hhi => ?_, fun dev blockno i hget => ?_⟩
  · obtain ⟨hvalid, husers, hpins⟩ := (hwf.sound i).fresh hdev
    have hcount := (hwf.sound i).count
    rw [husers, hpins] at hcount
    rcases hi with hi | hi | hi
    · rw [hvalid] at hi
      cases hi
    · exact hi (UInt32.toNat_inj.mp (by simpa using hcount))
    · omega
  · rw [(hwf.sound i).count, Int.emod_eq_of_lt hlo hhi]
  · obtain ⟨⟨-, href, -⟩, hold⟩ := hwf.bget_miss hget
    exact ⟨href, fun j hj hzero => hold j (hwf.perm.mem_iff.mpr (List.mem_range.mpr hj)) hzero⟩

namespace LruWitness

/-- The test of `Proper`. -/
def proper (s : Bcache) : Nat × Act → Bool
  | (_, .bget dev _) => decide (dev ≠ 0)
  | (_, .bpin i) => decide ((s.buf i).dev ≠ 0)
  | (p, .bunpin i) => decide ((s.buf i).lock = some p)
  | _ => true

theorem proper_sound (s : Bcache) (a : Nat × Act) (h : proper s a = true) : s.Proper a := by
  obtain ⟨p, act⟩ := a
  cases act with
  | bget dev blockno => simpa [proper, Proper] using h
  | bpin i => simpa [proper, Proper] using h
  | bunpin i => simpa [proper, Proper] using h
  | lock i | fill i | brelse i | leave i => trivial

theorem exists_run (acts : List (Nat × Act)) {Q : Bcache → Prop} [DecidablePred Q]
    (h : (runAll proper Bcache.step init acts).any (fun s => decide (Q s)) = true) :
    ∃ s, Bcache.Run s ∧ Q s := by
  obtain ⟨s, hs, hq⟩ := (Option.any_eq_true _ _).mp h
  exact ⟨s, Reach.runAll proper_sound (.start rfl) hs, of_decide_eq_true hq⟩

/-- Where a count is not that of the processes that hold or wait for the buffer and of its pins.
A process in brelse that has released the lock is still counted.  bunpin without a bpin takes the
count below 0, or makes bget recycle a buffer that a process holds before one that was never used.
And bpin of two buffers that were never used makes both of them buffers of one block. -/
theorem releasing_is_counted :
    (∃ s, Bcache.Run s ∧ (s.buf 0).lock = none ∧ s.waiting 0 = [] ∧ s.pins 0 = 0 ∧
      (s.buf 0).refcnt = 1) ∧
    (∃ s, Bcache.Run s ∧ s.users 0 + s.pins 0 = -1 ∧ (s.buf 0).refcnt = 4294967295) ∧
    (∃ s, Bcache.Run s ∧ (s.buf 0).lock = some 0 ∧ (s.buf 1).dev = 0 ∧
      s.bget 1 6 = some (.miss 0)) ∧
    ∃ s, runAll (fun _ _ => true) Bcache.step init [(0, .bpin 0), (0, .bpin 1)] = some s ∧
      s.Live 0 ∧ s.Live 1 ∧ (s.buf 0).dev = (s.buf 1).dev ∧
      (s.buf 0).blockno = (s.buf 1).blockno := by
  refine ⟨exists_run [(0, .bget 1 5), (0, .lock 0), (0, .brelse 0)] (by decide +kernel),
    exists_run [(0, .bget 1 5), (0, .lock 0), (0, .bunpin 0), (0, .bunpin 0)] (by decide +kernel),
    exists_run [(0, .bget 1 5), (0, .lock 0), (0, .bunpin 0)] (by decide +kernel), ?_⟩
  exact ⟨_, rfl, .inr (.inl (by decide)), .inr (.inl (by decide)), rfl, rfl⟩

/-- One process releases a block while another one waits for it. -/
def shared : Option Bcache :=
  runAll proper Bcache.step init
    [(0, .bget 1 5), (0, .lock 0), (0, .fill 0), (1, .bget 1 5), (0, .bpin 0), (0, .brelse 0),
      (0, .leave 0)]

theorem shared_isSome : shared.isSome = true := by decide +kernel

def after : Bcache := shared.get shared_isSome

theorem after_run : Bcache.Run after :=
  Reach.runAll proper_sound (.start rfl) (Option.some_get shared_isSome).symm

/-- The waiting process and the pin are counted. -/
theorem bcache_well_formed_shared : (after.users 0 + after.pins 0 : Int) = 2 ∧
    ((after.buf 0).refcnt.toNat : Int) = (after.users 0 + after.pins 0) % 2 ^ 32 :=
  ⟨by decide +kernel, (bcache_well_formed after_run).2.2.1 0⟩

end LruWitness

end Xv6.Bio
