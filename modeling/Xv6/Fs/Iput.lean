/-
The table of in-memory inodes in kernel/fs.c, for any number of processes.  One step is one
critical section of itable.lock or of the sleep-lock of an inode; iput is cut where it lets
go of itable.lock, and where it takes the sleep-lock while it has it.
-/
import Xv6.Fs.Layout
import Xv6.Lib.Tally
import Xv6.Lib.Transition

namespace Xv6.Fs

open Tally Transition

/-- `struct inode`: the sleep-lock is the process that holds it. -/
structure Inode where
  dev : UInt32 := 0
  inum : UInt32 := 0
  ref : Int := 0
  lock : Option Nat := none
  valid : Bool := false
  ip : Dinode := {}

/-- Where a process is in ilock and iput: `locking` is before acquiresleep, `loading` before
the test of ip->valid.  The rest is iput: `found` has itable.lock and has seen that nobody
else uses the inode, `freeing` is before itrunc, `clearing` before ip->type = 0, `cleared`
before ip->valid = 0 and `dropping` before ip->ref--. -/
inductive Pc
  | idle
  | locking (e : Nat)
  | loading (e : Nat)
  | found (e : Nat)
  | freeing (e : Nat)
  | clearing (e : Nat)
  | cleared (e : Nat)
  | dropping (e : Nat)
deriving DecidableEq

/-- The table, the inodes on the disk and the processes, with the references that each of
them owns.  `loaded` is history: what has been read from the disk into an entry since its
`valid` was last cleared. -/
structure Itable where
  entry : Nat → Inode
  lock : Option Nat
  disk : UInt32 → UInt32 → Dinode
  pc : Nat → Pc
  owned : Nat → Nat → Nat
  loaded : Nat → Option Dinode

namespace Itable

def init (disk : UInt32 → UInt32 → Dinode) : Itable where
  entry _ := {}
  lock := none
  disk := disk
  pc _ := .idle
  owned _ _ := 0
  loaded _ := none

def set (s : Itable) (e : Nat) (ip : Inode) : Itable :=
  { s with entry := Function.update s.entry e ip }

def goto (s : Itable) (p : Nat) (pc : Pc) : Itable := { s with pc := Function.update s.pc p pc }

def own (s : Itable) (p e n : Nat) : Itable :=
  { s with owned := Function.update s.owned p (Function.update (s.owned p) e n) }

/-- The entry of the inode, or else the first free one. -/
def lookup (s : Itable) (dev inum : UInt32) : Option Nat :=
  (List.range NINODE).find? fun e =>
    decide (0 < (s.entry e).ref ∧ (s.entry e).dev = dev ∧ (s.entry e).inum = inum)

def empty (s : Itable) : Option Nat :=
  (List.range NINODE).find? fun e => decide ((s.entry e).ref = 0)

def iget (s : Itable) (p : Nat) (dev inum : UInt32) : Except String Itable :=
  match s.lookup dev inum with
  | some e => .ok ((s.set e { s.entry e with ref := (s.entry e).ref + 1 }).own p e
      (s.owned p e + 1))
  | none =>
      match s.empty with
      | some e => .ok { (s.set e { s.entry e with
          dev := dev, inum := inum, ref := 1, valid := false }).own p e (s.owned p e + 1) with
            loaded := Function.update s.loaded e none }
      | none => .error "iget: no inodes"

def idup (s : Itable) (p e : Nat) : Itable :=
  (s.set e { s.entry e with ref := (s.entry e).ref + 1 }).own p e (s.owned p e + 1)

def iunlock (s : Itable) (p e : Nat) : Except String Itable :=
  if (s.entry e).lock ≠ some p ∨ (s.entry e).ref < 1 then .error "iunlock"
  else .ok (s.set e { s.entry e with lock := none })

/-- iput up to the test. -/
def iput (s : Itable) (p e : Nat) : Itable :=
  if (s.entry e).ref = 1 ∧ (s.entry e).valid = true ∧ (s.entry e).ip.nlink = 0 then
    { (s.own p e (s.owned p e - 1)).goto p (.found e) with lock := some p }
  else
    (s.set e { s.entry e with ref := (s.entry e).ref - 1 }).own p e (s.owned p e - 1)

def setDisk (s : Itable) (dev inum : UInt32) (ip : Dinode) : Itable :=
  { s with disk := Function.update s.disk dev (Function.update (s.disk dev) inum ip) }

/-- Copy the in-memory inode to the disk. -/
def iupdate (s : Itable) (e : Nat) : Itable :=
  s.setDisk (s.entry e).dev (s.entry e).inum (s.entry e).ip

/-- Read the inode from the disk. -/
def load (s : Itable) (e : Nat) : Itable :=
  { s.set e { s.entry e with
      ip := s.disk (s.entry e).dev (s.entry e).inum, valid := true } with
    loaded := Function.update s.loaded e (some (s.disk (s.entry e).dev (s.entry e).inum)) }

/-- The next step of a process that is in ilock or iput.  A process that would have to wait
makes no step, but acquiresleep with itable.lock held ends in sched. -/
def go (s : Itable) (p : Nat) : Pc → Option (Except String Itable)
  | .idle => none
  | .locking e =>
      if (s.entry e).lock = none then
        some (.ok ((s.set e { s.entry e with lock := some p }).goto p (.loading e)))
      else none
  | .loading e =>
      if (s.entry e).valid then some (.ok (s.goto p .idle))
      else if (s.disk (s.entry e).dev (s.entry e).inum).type = 0 then
        some (.error "ilock: no type")
      else some (.ok ((s.load e).goto p .idle))
  | .found e =>
      if (s.entry e).lock = none then
        some (.ok { (s.set e { s.entry e with lock := some p }).goto p (.freeing e) with
          lock := none })
      else some (.error "sched locks")
  | .freeing e =>
      let ip := { (s.entry e).ip with size := 0, addrs := fun _ => 0 }
      some (.ok (((s.set e { s.entry e with ip := ip }).iupdate e).goto p (.clearing e)))
  | .clearing e =>
      let ip := { (s.entry e).ip with type := 0 }
      some (.ok (((s.set e { s.entry e with ip := ip }).iupdate e).goto p (.cleared e)))
  | .cleared e =>
      some (.ok { (s.set e { s.entry e with valid := false, lock := none }).goto p
        (.dropping e) with loaded := Function.update s.loaded e none })
  | .dropping e =>
      if s.lock = none then
        some (.ok ((s.set e { s.entry e with ref := (s.entry e).ref - 1 }).goto p .idle))
      else none

end Itable

/-- What a process can call.  `change` is a store to the fields of a locked inode, and
`ialloc` the part of ialloc that marks a free inode on the disk, before it calls iget. -/
inductive Icall
  | iget (dev inum : UInt32)
  | idup (e : Nat)
  | ilock (e : Nat)
  | iunlock (e : Nat)
  | iput (e : Nat)
  | change (e : Nat) (ip : Dinode)
  | iupdate (e : Nat)
  | ialloc (dev inum : UInt32) (type : Int16)
  | go

/-- A step of process `p`.  A process refers only to inodes of which it owns a reference,
and keeps one while it has the inode locked. -/
def Itable.step (s : Itable) (a : Nat × Icall) : Option (Except String Itable) :=
  let p := a.1
  match a.2 with
  | .go => s.go p (s.pc p)
  | .iget dev inum =>
      if s.pc p = .idle ∧ s.lock = none then some (s.iget p dev inum) else none
  | .idup e =>
      if s.pc p = .idle ∧ s.lock = none ∧ 1 ≤ s.owned p e then some (.ok (s.idup p e)) else none
  | .ilock e =>
      if s.pc p = .idle ∧ 1 ≤ s.owned p e then
        if (s.entry e).ref < 1 then some (.error "ilock")
        else some (.ok (s.goto p (.locking e)))
      else none
  | .iunlock e => if s.pc p = .idle then some (s.iunlock p e) else none
  | .iput e =>
      if s.pc p = .idle ∧ s.lock = none ∧
          (if (s.entry e).lock = some p then 2 else 1) ≤ s.owned p e then
        some (.ok (s.iput p e))
      else none
  | .change e ip =>
      if s.pc p = .idle ∧ (s.entry e).lock = some p then
        some (.ok (s.set e { s.entry e with ip := ip }))
      else none
  | .iupdate e =>
      if s.pc p = .idle ∧ (s.entry e).lock = some p then some (.ok (s.iupdate e)) else none
  | .ialloc dev inum type =>
      if s.pc p = .idle ∧ (s.disk dev inum).type = 0 then
        some (.ok (s.setDisk dev inum { type := type }))
      else none

def Itable.Run : Itable → Prop :=
  Reach (fun s => ∃ disk, s = Itable.init disk) (fun _ _ => True) Itable.step

namespace Pc

/-- The entry that the process works on. -/
def entry : Pc → Option Nat
  | .idle => none
  | .locking e | .loading e | .found e | .freeing e | .clearing e | .cleared e
  | .dropping e => some e

/-- The entry of which iput is about to drop a reference. -/
def puts : Pc → Option Nat
  | .found e | .freeing e | .clearing e | .cleared e | .dropping e => some e
  | _ => none

/-- The entry that iput has locked. -/
def frees : Pc → Option Nat
  | .freeing e | .clearing e | .cleared e => some e
  | _ => none

theorem entry_of_puts {pc : Pc} {e : Nat} (h : pc.puts = some e) : pc.entry = some e := by
  cases pc <;> first | exact h | cases h

theorem puts_of_frees {pc : Pc} {e : Nat} (h : pc.frees = some e) : pc.puts = some e := by
  cases pc <;> first | exact h | cases h

theorem entry_of_frees {pc : Pc} {e : Nat} (h : pc.frees = some e) : pc.entry = some e := by
  cases pc <;> first | exact h | cases h

end Pc

/-- The references that a process owns, with the one that it is giving up. -/
def Itable.weight (s : Itable) (p e : Nat) : Nat :=
  s.owned p e + if (s.pc p).puts = some e then 1 else 0

/-- What holds of a process and an entry. -/
structure Pair (s : Itable) (q e : Nat) : Prop where
  locked : (s.entry e).lock = some q → 1 ≤ s.owned q e ∨ (s.pc q).frees = some e
  holds : s.pc q = .loading e ∨ (s.pc q).frees = some e → (s.entry e).lock = some q
  wants : s.pc q = .locking e ∨ s.pc q = .loading e → 1 ≤ s.owned q e
  spin : s.pc q = .found e → s.lock = some q
  found : s.pc q = .found e → (s.entry e).ref = 1 ∧ (s.entry e).lock = none

structure Counted (s : Itable) : Prop where
  count : ∀ e, ∃ n, HasTally (fun q => s.weight q e) n ∧ (s.entry e).ref = n
  pair : ∀ q e, Pair s q e
  spin : ∀ q, s.lock = some q → ∃ e, s.pc q = .found e

section counted

variable {s s' : Itable} {p q e : Nat}

/-- Only process `p` and entry `e` change. -/
structure Frame (s s' : Itable) (p e : Nat) : Prop where
  pc : ∀ q, q ≠ p → s'.pc q = s.pc q
  owned : ∀ q e', q ≠ p ∨ e' ≠ e → s'.owned q e' = s.owned q e'
  entry : ∀ e', e' ≠ e → s'.entry e' = s.entry e'

/-- A step of process `p` on entry `e`, as the others see it: they keep what they own, the
sleep-lock passes between `p` and nobody, and so does itable.lock. -/
structure Effect (s s' : Itable) (p e : Nat) : Prop extends Frame s s' p e where
  before : (s.pc p).entry = none ∨ (s.pc p).entry = some e
  after : (s'.pc p).entry = none ∨ (s'.pc p).entry = some e
  sleep : (s'.entry e).lock = (s.entry e).lock ∨
    ((s.entry e).lock = none ∧ (s'.entry e).lock = some p ∧ 1 ≤ s.weight p e) ∨
    ((s.entry e).lock = some p ∧ (s'.entry e).lock = none)
  spin : s'.lock = s.lock ∨ (s.lock = none ∧ s'.lock = some p) ∨
    (s.lock = some p ∧ s'.lock = none)
  ref : (s'.entry e).ref = (s.entry e).ref ∨ s.lock = none
  balance : (s'.entry e).ref + s.weight p e = (s.entry e).ref + s'.weight p e

theorem Effect.weight_of_ne (h : Effect s s' p e) (hq : q ≠ p) (e' : Nat) :
    s'.weight q e' = s.weight q e' := by
  rw [Itable.weight, Itable.weight, h.pc q hq, h.owned q e' (.inl hq)]

theorem Pc.puts_ne {pc : Pc} {e' : Nat} (h : pc.entry = none ∨ pc.entry = some e)
    (he : e' ≠ e) : pc.puts ≠ some e' := by
  intro hputs
  rw [Pc.entry_of_puts hputs] at h
  rcases h with h | h
  · cases h
  · exact he (Option.some.inj h)

theorem Effect.weight_entry_of_ne (h : Effect s s' p e) {e' : Nat} (he : e' ≠ e) (q : Nat) :
    s'.weight q e' = s.weight q e' := by
  by_cases hq : q = p
  · subst hq
    rw [Itable.weight, Itable.weight, if_neg (Pc.puts_ne h.after he),
      if_neg (Pc.puts_ne h.before he), h.owned q e' (.inr he)]
  · exact h.weight_of_ne hq e'

/-- The counts stay right. -/
theorem Effect.count (h : Effect s s' p e) (hs : Counted s) (e' : Nat) :
    ∃ n, HasTally (fun q => s'.weight q e') n ∧ (s'.entry e').ref = n := by
  obtain ⟨n, htally, hn⟩ := hs.count e'
  by_cases he : e' = e
  · subst he
    have hle : s.weight p e' ≤ n := htally.le p
    have hbalance := h.balance
    rw [hn] at hbalance
    refine ⟨n + s'.weight p e' - s.weight p e', htally.update (i := p) ?_ ?_, ?_⟩
    · exact fun q hq => h.weight_of_ne hq e'
    · omega
    · omega
  · rw [h.entry e' he]
    exact ⟨n, htally.congr fun q => (h.weight_entry_of_ne he q).symm, hn⟩

/-- The other processes do not notice. -/
theorem Effect.others (h : Effect s s' p e) (hs : Counted s) (hq : q ≠ p) (e' : Nat) :
    Pair s' q e' := by
  have hold := hs.pair q e'
  have hpc := h.pc q hq
  have hown := h.owned q e' (.inl hq)
  by_cases he : e' = e
  · subst he
    have hlock : (s'.entry e').lock = some q ↔ (s.entry e').lock = some q := by
      rcases h.sleep with hsame | ⟨hnone, hp, -⟩ | ⟨hp, hnone⟩
      · rw [hsame]
      · rw [hnone, hp]
        simp [Ne.symm hq]
      · rw [hnone, hp]
        simp [Ne.symm hq]
    refine ⟨?_, ?_, ?_, ?_, ?_⟩
    · rw [hlock, hpc, hown]
      exact hold.locked
    · rw [hlock, hpc]
      exact hold.holds
    · rw [hpc, hown]
      exact hold.wants
    · rw [hpc]
      intro hfound
      have hspin := hold.spin hfound
      rcases h.spin with hsame | ⟨hnone, -⟩ | ⟨hp, -⟩
      · rw [hsame, hspin]
      · rw [hspin] at hnone
        cases hnone
      · rw [hspin] at hp
        exact absurd (Option.some.inj hp) hq
    · rw [hpc]
      intro hfound
      obtain ⟨href, hfree⟩ := hold.found hfound
      have hspin := hold.spin hfound
      refine ⟨?_, ?_⟩
      · rcases h.ref with hsame | hnone
        · rw [hsame, href]
        · rw [hspin] at hnone
          cases hnone
      · -- With one reference, which `q` gives up, nobody else can take the lock.
        rcases h.sleep with hsame | ⟨-, -, hweight⟩ | ⟨hp, -⟩
        · rw [hsame, hfree]
        · obtain ⟨n, htally, hn⟩ := hs.count e'
          have hboth := htally.add_le hq
          have hqone : 1 ≤ s.weight q e' := by
            rw [Itable.weight, hfound]
            simp [Pc.puts]
          omega
        · rw [hfree] at hp
          cases hp
  · refine ⟨?_, ?_, ?_, ?_, ?_⟩
    · rw [h.entry e' he, hpc, hown]
      exact hold.locked
    · rw [h.entry e' he, hpc]
      exact hold.holds
    · rw [hpc, hown]
      exact hold.wants
    · rw [hpc]
      intro hfound
      have hspin := hold.spin hfound
      rcases h.spin with hsame | ⟨hnone, -⟩ | ⟨hp, -⟩
      · rw [hsame, hspin]
      · rw [hspin] at hnone
        cases hnone
      · rw [hspin] at hp
        exact absurd (Option.some.inj hp) hq
    · rw [hpc, h.entry e' he]
      exact hold.found

/-- Nor does the process itself at other entries. -/
theorem Effect.elsewhere (h : Effect s s' p e) (hs : Counted s) {e' : Nat} (he : e' ≠ e) :
    Pair s' p e' := by
  have hold := hs.pair p e'
  have hnot : ∀ pc : Pc, pc.entry = none ∨ pc.entry = some e → pc.entry ≠ some e' := by
    rintro pc (hpc | hpc) heq <;> rw [hpc] at heq
    · cases heq
    · exact he (Option.some.inj heq).symm
  have hafter := hnot _ h.after
  have hbefore := hnot _ h.before
  refine ⟨fun hlock => ?_, ?_, ?_, ?_, ?_⟩
  · rw [h.entry e' he] at hlock
    rw [h.owned p e' (.inr he)]
    rcases hold.locked hlock with hown | hfrees
    · exact .inl hown
    · exact absurd (Pc.entry_of_frees hfrees) hbefore
  · rintro (hpc | hfrees)
    · exact absurd (by rw [hpc]; rfl) hafter
    · exact absurd (Pc.entry_of_frees hfrees) hafter
  · rintro (hpc | hpc) <;> exact absurd (by rw [hpc]; rfl) hafter
  · exact fun hpc => absurd (by rw [hpc]; rfl) hafter
  · exact fun hpc => absurd (by rw [hpc]; rfl) hafter

theorem Effect.counted (h : Effect s s' p e) (hs : Counted s) (hpair : Pair s' p e)
    (hspin : s'.lock = some p → ∃ e, s'.pc p = .found e) : Counted s' where
  count := h.count hs
  pair q e' := by
    by_cases hq : q = p
    · subst hq
      by_cases he : e' = e
      · exact he ▸ hpair
      · exact h.elsewhere hs he
    · exact h.others hs hq e'
  spin q hlock := by
    by_cases hq : q = p
    · subst hq
      exact hspin hlock
    · rw [h.pc q hq]
      apply hs.spin q
      rcases h.spin with hsame | ⟨-, hp⟩ | ⟨-, hnone⟩
      · rw [← hsame, hlock]
      · rw [hp] at hlock
        exact absurd (Option.some.inj hlock).symm hq
      · rw [hnone] at hlock
        cases hlock

/-- The sleep-lock of an inode is free when the only reference to it is given up. -/
theorem Counted.lock_eq_none (hs : Counted s) (hone : (s.entry e).ref = 1)
    (howned : (if (s.entry e).lock = some p then 2 else 1) ≤ s.owned p e) :
    (s.entry e).lock = none := by
  obtain ⟨n, htally, hn⟩ := hs.count e
  have hweight : s.owned p e ≤ s.weight p e := Nat.le_add_right ..
  cases hlock : (s.entry e).lock with
  | none => rfl
  | some q =>
      exfalso
      rw [hlock] at howned
      by_cases hq : q = p
      · rw [if_pos (by rw [hq])] at howned
        have hle := htally.le p
        omega
      · rw [if_neg (by simpa using hq)] at howned
        have hboth := htally.add_le hq
        have hqone : 1 ≤ s.weight q e := by
          rcases (hs.pair q e).locked hlock with hown | hfrees
          · exact Nat.le_trans hown (Nat.le_add_right ..)
          · rw [Itable.weight, if_pos (Pc.puts_of_frees hfrees)]
            omega
        omega

theorem step_iput (hstep : s.step (p, .iput e) = some (.ok s')) :
    (s.pc p = .idle ∧ s.lock = none ∧
      (if (s.entry e).lock = some p then 2 else 1) ≤ s.owned p e) ∧ s' = s.iput p e := by
  by_cases hcan : s.pc p = .idle ∧ s.lock = none ∧
      (if (s.entry e).lock = some p then 2 else 1) ≤ s.owned p e
  · simp only [Itable.step, if_pos hcan, Option.some.injEq, Except.ok.injEq] at hstep
    exact ⟨hcan, hstep.symm⟩
  · simp only [Itable.step, if_neg hcan] at hstep
    cases hstep

/-- A step of process `p` on entry `e` that leaves the entry as `ip`, the process at `pc` with
`n` references to it, and itable.lock as `l`. -/
structure Local (s : Itable) (p e : Nat) (ip : Inode) (pc : Pc) (n : Nat) (l : Option Nat) :
    Prop where
  before : (s.pc p).entry = none ∨ (s.pc p).entry = some e
  after : pc.entry = none ∨ pc.entry = some e
  sleep : ip.lock = (s.entry e).lock ∨
    ((s.entry e).lock = none ∧ ip.lock = some p ∧ 1 ≤ s.weight p e) ∨
    ((s.entry e).lock = some p ∧ ip.lock = none)
  spin : l = s.lock ∨ (s.lock = none ∧ l = some p) ∨ (s.lock = some p ∧ l = none)
  ref : ip.ref = (s.entry e).ref ∨ s.lock = none
  balance : ip.ref + (s.owned p e + if (s.pc p).puts = some e then 1 else 0) =
    (s.entry e).ref + (n + if pc.puts = some e then 1 else 0)
  locked : ip.lock = some p → 1 ≤ n ∨ pc.frees = some e
  holds : pc = .loading e ∨ pc.frees = some e → ip.lock = some p
  wants : pc = .locking e ∨ pc = .loading e → 1 ≤ n
  found : pc = .found e → l = some p ∧ ip.ref = 1 ∧ ip.lock = none
  held : l = some p → ∃ e, pc = .found e

theorem Counted.update (hs : Counted s) {ip : Inode} {pc : Pc}
    (hentry : s'.entry = Function.update s.entry e ip) (hpc : s'.pc = Function.update s.pc p pc)
    (howned : ∀ q e', q ≠ p ∨ e' ≠ e → s'.owned q e' = s.owned q e')
    (h : Local s p e ip pc (s'.owned p e) s'.lock) : Counted s' := by
  have hself : s'.entry e = ip := by rw [hentry, Function.update_self]
  have hmine : s'.pc p = pc := by rw [hpc, Function.update_self]
  have heffect : Effect s s' p e :=
    { pc := fun q hq => by rw [hpc, Function.update_of_ne hq]
      owned := howned
      entry := fun e' he => by rw [hentry, Function.update_of_ne he]
      before := h.before
      after := hmine ▸ h.after
      sleep := hself ▸ h.sleep
      spin := h.spin
      ref := hself ▸ h.ref
      balance := by
        have hbalance := h.balance
        simp only [Itable.weight, hself, hmine]
        push_cast
        exact hbalance }
  refine heffect.counted hs ⟨?_, ?_, ?_, ?_, ?_⟩ ?_
  · rw [hself, hmine]
    exact h.locked
  · rw [hself, hmine]
    exact h.holds
  · rw [hmine]
    exact h.wants
  · rw [hmine]
    exact fun hfound => (h.found hfound).1
  · rw [hself, hmine]
    exact fun hfound => (h.found hfound).2
  · rw [hmine]
    exact h.held

theorem owned_own (s : Itable) (p e n : Nat) (q e' : Nat) (h : q ≠ p ∨ e' ≠ e) :
    (s.own p e n).owned q e' = s.owned q e' := by
  simp only [Itable.own]
  by_cases hq : q = p
  · subst hq
    rw [Function.update_self, Function.update_of_ne (h.resolve_left fun hq => hq rfl)]
  · rw [Function.update_of_ne hq]

/-- The inodes on the disk and the history are not counted. -/
theorem Counted.congr (hs : Counted s) (hentry : s'.entry = s.entry) (hlock : s'.lock = s.lock)
    (hpc : s'.pc = s.pc) (howned : s'.owned = s.owned) : Counted s' := by
  obtain ⟨entry, lock, disk, pc, owned, loaded⟩ := s'
  subst hentry hlock hpc howned
  exact ⟨hs.count, fun q e => ⟨(hs.pair q e).locked, (hs.pair q e).holds, (hs.pair q e).wants,
    (hs.pair q e).spin, (hs.pair q e).found⟩, hs.spin⟩

theorem ref_of_empty (h : s.empty = some e) : (s.entry e).ref = 0 := by
  simpa using List.find?_some h

theorem Counted.step (hs : Counted s) {a : Nat × Icall} (hstep : s.step a = some (.ok s')) :
    Counted s' := by
  obtain ⟨p, call⟩ := a
  have hheld := hs.spin p
  cases call <;>
    simp only [Itable.step, Itable.iget, Itable.idup, Itable.iunlock, Itable.iput] at hstep
  case' go => cases hpc : s.pc p <;> simp only [hpc, Itable.go] at hstep
  all_goals (repeat' split at hstep) <;> cases hstep
  case iupdate | ialloc => exact hs.congr rfl rfl rfl rfl
  -- every other step is one on the entry that it names
  all_goals
    obtain ⟨hlocked, hholds, hwants, hspin, hfound⟩ := hs.pair p ‹Nat›
    have hfree := hs.lock_eq_none (p := p) (e := ‹Nat›)
    have hempty := ref_of_empty (s := s) (e := ‹Nat›)
    refine hs.update (p := p) (e := ‹Nat›)
      (by first | rfl | exact (Function.update_eq_self ..).symm)
      (by first | rfl | exact (Function.update_eq_self ..).symm)
      (by first | exact fun _ _ _ => rfl | exact owned_own _ _ _ _) ?_
    simp only [Itable.set, Itable.goto, Itable.own, Itable.load, Itable.iupdate, Itable.setDisk,
      Function.update_self]
    constructor <;> grind [Itable.weight, Pc.entry, Pc.puts, Pc.frees]

/-- The entries in use are of different inodes. -/
def Itable.Unique (s : Itable) : Prop :=
  ∀ e, 0 < (s.entry e).ref → e < NINODE ∧ ∀ e', 0 < (s.entry e').ref →
    (s.entry e').dev = (s.entry e).dev → (s.entry e').inum = (s.entry e).inum → e' = e

theorem Itable.Unique.set {ip : Inode} (hu : s.Unique) (hip : 0 < ip.ref →
    (0 < (s.entry e).ref ∧ ip.dev = (s.entry e).dev ∧ ip.inum = (s.entry e).inum) ∨
    (e < NINODE ∧ s.lookup ip.dev ip.inum = none)) : (s.set e ip).Unique := by
  simp only [Itable.lookup, List.find?_eq_none, List.mem_range, decide_eq_true_eq] at hip
  simp only [Itable.Unique, Itable.set, Function.update_apply] at hu ⊢
  grind

theorem Itable.Unique.step {a : Nat × Icall} (hu : s.Unique) (hs : Counted s)
    (hstep : s.step a = some (.ok s')) : s'.Unique := by
  obtain ⟨p, call⟩ := a
  have href : ∀ e, 1 ≤ s.owned p e → 0 < (s.entry e).ref := by
    intro e hown
    obtain ⟨n, htally, hn⟩ := hs.count e
    have hle : s.owned p e + _ ≤ n := htally.le p
    omega
  cases call <;> simp only [Itable.step, Itable.iget, Itable.iunlock, Itable.iput] at hstep
  case' go => cases hpc : s.pc p <;> simp only [hpc, Itable.go] at hstep
  all_goals
    (repeat' split at hstep) <;> cases hstep <;>
      first | exact hu | exact hu.set (by grind [Itable.lookup, Itable.empty])

/-- Who has or gives up a reference is counted. -/
theorem Counted.ref_pos (hs : Counted s) (hweight : 1 ≤ s.weight q e) : 0 < (s.entry e).ref := by
  obtain ⟨n, htally, hn⟩ := hs.count e
  have hle := htally.le q
  omega

theorem Counted.ref_pos_of_locked (hs : Counted s) (hlock : (s.entry e).lock = some q) :
    0 < (s.entry e).ref := by
  refine hs.ref_pos (q := q) ?_
  rcases (hs.pair q e).locked hlock with hown | hfrees
  · exact Nat.le_trans hown (Nat.le_add_right ..)
  · rw [Itable.weight, if_pos (Pc.puts_of_frees hfrees)]
    omega

theorem Counted.ref_pos_of_puts (hs : Counted s) (hputs : (s.pc q).puts = some e) :
    0 < (s.entry e).ref := by
  refine hs.ref_pos (q := q) ?_
  rw [Itable.weight, if_pos hputs]
  omega

/-- An inode without contents: a free one, or one that ialloc has just written. -/
def Blank (ip : Dinode) : Prop := ip.type = 0 ∨ ∃ type, ip = { type := type }

/-- What is left of an inode that iput frees.  A process that has an inode locked and is not in
ilock has its contents; those that were there before iput are neither on the disk nor in memory
when iput lets go of the sleep-lock. -/
structure Erased (s : Itable) : Prop where
  ready : ∀ q e, (s.entry e).lock = some q → s.pc q = .loading e ∨ (s.entry e).valid = true
  seen : ∀ q e, s.pc q = .found e → (s.entry e).valid = true
  blank : ∀ q e, s.pc q = .cleared e ∨ s.pc q = .dropping e ∧ (s.entry e).valid = false →
    Blank (s.disk (s.entry e).dev (s.entry e).inum)
  fresh : ∀ q e, s.pc q = .dropping e → (s.entry e).valid = true →
    ∃ type, type ≠ 0 ∧ s.loaded e = some { type := type }

section erased

variable (he : Erased s) (hs : Counted s) {a : Nat × Icall} (hstep : s.step a = some (.ok s'))

include he hs hstep

theorem Erased.step_ready (q e : Nat) (h : (s'.entry e).lock = some q) :
    s'.pc q = .loading e ∨ (s'.entry e).valid = true := by
  obtain ⟨p, call⟩ := a
  have hready := he.ready q e
  have hseen := he.seen q e
  have hlocked := hs.ref_pos_of_locked (q := q) (e := e)
  have hempty := ref_of_empty (s := s) (e := e)
  cases call <;>
    simp only [Itable.step, Itable.iget, Itable.idup, Itable.iunlock, Itable.iput] at hstep
  case' go => cases hpc : s.pc p <;> simp only [hpc, Itable.go] at hstep
  all_goals
    (repeat' split at hstep) <;> cases hstep <;>
    simp only [Itable.set, Itable.goto, Itable.own, Itable.load, Itable.iupdate, Itable.setDisk,
      Function.update_apply] at h ⊢ <;>
    grind

theorem Erased.step_seen (q e : Nat) (h : s'.pc q = .found e) :
    (s'.entry e).valid = true := by
  obtain ⟨p, call⟩ := a
  have hseen := he.seen q e
  have hfound := (hs.pair q e).found
  have hholds := (hs.pair p e).holds
  have hempty := ref_of_empty (s := s) (e := e)
  cases call <;>
    simp only [Itable.step, Itable.iget, Itable.idup, Itable.iunlock, Itable.iput] at hstep
  case' go => cases hpc : s.pc p <;> simp only [hpc, Itable.go] at hstep
  all_goals
    (repeat' split at hstep) <;> cases hstep <;>
    simp only [Itable.set, Itable.goto, Itable.own, Itable.load, Itable.iupdate, Itable.setDisk,
      Function.update_apply] at h ⊢ <;>
    grind [Pc.frees]

theorem Erased.step_fresh (q e : Nat) (h : s'.pc q = .dropping e)
    (hvalid : (s'.entry e).valid = true) :
    ∃ type, type ≠ 0 ∧ s'.loaded e = some { type := type } := by
  obtain ⟨p, call⟩ := a
  have hblank := he.blank q e
  have hfresh := he.fresh q e
  have hputs := hs.ref_pos_of_puts (q := q) (e := e)
  have hempty := ref_of_empty (s := s) (e := e)
  cases call <;>
    simp only [Itable.step, Itable.iget, Itable.idup, Itable.iunlock, Itable.iput] at hstep
  case' go => cases hpc : s.pc p <;> simp only [hpc, Itable.go] at hstep
  all_goals
    (repeat' split at hstep) <;> cases hstep <;>
    simp only [Itable.set, Itable.goto, Itable.own, Itable.load, Itable.iupdate, Itable.setDisk,
      Function.update_apply] at h hvalid ⊢ <;>
    grind [Pc.puts, Blank]

theorem Erased.step_blank (hu : s.Unique) (q e : Nat)
    (h : s'.pc q = .cleared e ∨ s'.pc q = .dropping e ∧ (s'.entry e).valid = false) :
    Blank (s'.disk (s'.entry e).dev (s'.entry e).inum) := by
  obtain ⟨p, call⟩ := a
  have hblank := he.blank
  have hready := he.ready p
  have hlocked := fun e => hs.ref_pos_of_locked (q := p) (e := e)
  have hputs := hs.ref_pos_of_puts (q := q) (e := e)
  have hmine := fun e => (hs.pair p e).holds
  have hholds := (hs.pair q e).holds
  have hempty := ref_of_empty (s := s) (e := e)
  cases call <;>
    simp only [Itable.step, Itable.iget, Itable.idup, Itable.iunlock, Itable.iput] at hstep
  case' go => cases hpc : s.pc p <;> simp only [hpc, Itable.go] at hstep
  all_goals
    (repeat' split at hstep) <;> cases hstep <;>
    simp only [Itable.set, Itable.goto, Itable.own, Itable.load, Itable.iupdate, Itable.setDisk,
      Function.update_apply] at h ⊢ <;>
    grind [Pc.puts, Pc.frees, Blank, Itable.Unique]

theorem Erased.step (hu : s.Unique) : Erased s' :=
  ⟨he.step_ready hs hstep, he.step_seen hs hstep, he.step_blank hs hstep hu,
    he.step_fresh hs hstep⟩

end erased

end counted

theorem Itable.Run.counted {s : Itable} (h : s.Run) : Counted s := by
  refine Reach.invariant ?_ (fun _ _ _ _ hstep hs => hs.step hstep) h
  rintro s ⟨disk, rfl⟩
  refine ⟨fun e => ⟨0, HasTally.zero fun q => rfl, rfl⟩, fun q e => ⟨nofun, ?_, ?_, nofun,
    nofun⟩, nofun⟩
  · rintro (h | h) <;> cases h
  · rintro (h | h) <;> cases h

theorem Itable.Run.unique {s : Itable} (h : s.Run) : s.Unique := by
  induction h with
  | start h =>
      obtain ⟨disk, rfl⟩ := h
      exact fun e he => by cases he
  | next hrun _ hstep ih => exact ih.step (Itable.Run.counted hrun) hstep

theorem Itable.Run.erased {s : Itable} (h : s.Run) : Erased s := by
  induction h with
  | start h =>
      obtain ⟨disk, rfl⟩ := h
      refine ⟨nofun, nofun, ?_, nofun⟩
      rintro q e (h | ⟨h, -⟩) <;> cases h
  | next hrun _ hstep ih =>
      exact ih.step (Itable.Run.counted hrun) hstep (Itable.Run.unique hrun)

/-- When iput finds the only reference to an inode without links, the sleep-lock of the inode
is free, so that its acquiresleep does not sleep.  From the release of itable.lock on nobody else
has the inode locked, until iput has cleared it on the disk and in memory.  From then to the final
ip->ref-- there is no way to the old contents: the inode on the disk is free or as ialloc has
written it, and where the entry is valid again, that is what was read into it. -/
theorem iput_takes_a_free_lock {s : Itable} (hrun : s.Run) (p e : Nat) :
    (∀ s', s.step (p, .iput e) = some (.ok s') → (s.entry e).ref = 1 →
      (s.entry e).valid = true → (s.entry e).ip.nlink = 0 →
      s'.pc p = .found e ∧ (s.entry e).lock = none) ∧
    (s.pc p = .found e → (s.entry e).lock = none ∧
      ∃ s', s.step (p, .go) = some (.ok s') ∧ s'.pc p = .freeing e ∧ s'.lock = none) ∧
    ((s.pc p).frees = some e → (s.entry e).lock = some p) ∧
    (s.pc p = .dropping e →
      ((s.entry e).valid = false → (s.disk (s.entry e).dev (s.entry e).inum).type = 0 ∨
        ∃ type, s.disk (s.entry e).dev (s.entry e).inum = { type := type }) ∧
      ((s.entry e).valid = true →
        ∃ type, type ≠ 0 ∧ s.loaded e = some { type := type })) := by
  have hs := hrun.counted
  have herased := hrun.erased
  refine ⟨fun s' hstep hone hvalid hnlink => ?_, fun hfound => ?_,
    fun hfrees => (hs.pair p e).holds (.inr hfrees),
    fun hdrop => ⟨fun hvalid => herased.blank p e (.inr ⟨hdrop, hvalid⟩), herased.fresh p e hdrop⟩⟩
  · obtain ⟨⟨-, -, howned⟩, rfl⟩ := step_iput hstep
    refine ⟨?_, hs.lock_eq_none hone howned⟩
    rw [Itable.iput, if_pos ⟨hone, hvalid, hnlink⟩]
    exact Function.update_self ..
  · have hfree := ((hs.pair p e).found hfound).2
    refine ⟨hfree, { (s.set e { s.entry e with lock := some p }).goto p (.freeing e) with
      lock := none }, ?_, Function.update_self .., rfl⟩
    simp only [Itable.step, hfound, Itable.go, if_pos hfree]

namespace IputWitness

/-- Process 0 gives up inode 5, which process 1 finds in the table and process 2 allocates
again. -/
def acts : List (Nat × Icall) :=
  [(0, .ialloc 1 5 T_FILE), (0, .iget 1 5), (0, .ilock 0), (0, .go), (0, .go),
    (0, .iunlock 0), (0, .iput 0), (0, .go), (1, .iget 1 5), (1, .ilock 0), (0, .go),
    (0, .go), (0, .go), (2, .ialloc 1 5 T_DIR), (1, .go), (1, .go)]

def final : Option Itable :=
  runAll (fun _ _ => true) Itable.step (Itable.init fun _ _ => {}) acts

theorem final_isSome : final.isSome = true := by rfl

def state : Itable := final.get final_isSome

theorem state_run : state.Run :=
  Reach.runAll (fun _ _ _ => trivial) (.start ⟨_, rfl⟩) (Option.some_get final_isSome).symm

/-- Process 1 has the inode locked before process 0 drops its reference: what it has read is
what process 2 has written. -/
theorem iput_takes_a_free_lock_reused :
    state.pc 0 = .dropping 0 ∧ (state.entry 0).lock = some 1 ∧ (state.entry 0).ip.type = T_DIR ∧
      ∃ type, type ≠ 0 ∧ state.loaded 0 = some { type := type } :=
  ⟨by decide +kernel, by decide +kernel, by decide +kernel,
    ((iput_takes_a_free_lock state_run 0 0).2.2.2 (by decide +kernel)).2 (by decide +kernel)⟩

end IputWitness

/-- No inode is in the table twice. -/
theorem inodes_cached_once {s : Itable} (h : s.Run) : s.Unique := h.unique

theorem inodes_cached_once_reused : IputWitness.state.Unique :=
  inodes_cached_once IputWitness.state_run

end Xv6.Fs
