/-
exit and wait.  A process that sleeps in wait has no ZOMBIE child unless reparent is
about to wake it, and the history of the calls pairs every child that a wait takes with
the call of exit that made it a ZOMBIE.
-/
import Xv6.Sched.Family
import Xv6.Sched.Monitor

namespace Xv6.Sched

variable {κ δ ι : Type}

/-- The slots in which a wait in progress has found no ZOMBIE child. -/
def Pos.seen : Pos κ → Option Nat
  | .op (.waitScan _ j _ _) | .op (.waitTest _ j _) => some j
  | .op (.waitSkip _ j _) => some (j + 1)
  | .op (.waitKilled ..) | .sub .killed (.waitKilled ..) | .sub .killedRead (.waitKilled ..)
  | .sub .killedUnlock (.waitKilled ..) | .sub (.sleep ..) (.waitAgain ..)
  | .sub (.sleepRelease ..) (.waitAgain ..) => some NPROC
  | _ => none

/-- exit has passed the slot of `q` on its way to wake its parent. -/
def Pos.told (q : Nat) : Pos κ → Bool
  | .sub c (.exitLock _) => !c.wakes (.proc q) q
  | .op (.exitLock _) | .op (.exitMark _) => true
  | _ => false

/-- What wait and exit call: killed, sleep on the own process with wait_lock, wakeup. -/
def Pos.formed (i : Nat) : Pos κ → Prop
  | .sub c (.waitKilled ..) => c = .killed ∨ c = .killedRead ∨ c = .killedUnlock
  | .sub c (.waitAgain ..) => ∃ n, c.sleepPhase = some (.proc i, waitLock, n)
  | .sub c (.exitLock _) => c.wakeupPhase ≠ none
  | _ => True

/-- A process that has fallen asleep inside wait. -/
def Machine.Waits (s : Machine κ δ) (q : Nat) : Prop :=
  ∃ addr k, s.Asleep q (.proc q) waitLock (.waitAgain addr k)

section positions

variable {cl : Client κ δ ι} {slots : Nat → Slot} {data data' : δ} {i : Nat} {x : ι}
  {ok : Bool} {t t' : Thread κ} {instr : Instr κ} {n q : Nat}

theorem Pos.needs_of_seen {p : Pos κ} (h : p.seen = some n) : p.Needs i (.spin waitLock) := by
  rcases p with o | ⟨c, back⟩
  · cases o <;> cases h <;> simp [Pos.Needs, Op.locks]
  · cases back <;> cases c <;> cases h <;> simp [Pos.Needs, Sub.locks, Return.locks, Sub.given]

theorem Pos.needs_of_told {p : Pos κ} (hp : p.formed i) (h : p.told q = true) :
    p.Needs i (.spin waitLock) := by
  rcases p with o | ⟨c, back⟩
  · cases o <;> first | (cases h; done) | simp [Pos.Needs, Op.locks]
  · cases back with
    | exitLock st =>
        cases c <;> first
          | exact absurd rfl hp
          | simp [Pos.Needs, Sub.locks, Return.locks, Sub.given]
    | _ => cases h

theorem Thread.next_seen (h : t.next cl slots data i x ok = some (instr, t', data'))
    (hold : t.pos.formed i) (hn : t'.pos.seen = some n) :
    n = 0 ∨ ∃ m, t.pos.seen = some m ∧ (n ≤ m ∨ n = m + 1 ∧
      ((slots m).parent ≠ some i ∨ (slots m).state ≠ .ZOMBIE)) := by
  cases Thread.next_cases h with
  | acquire hy | ready hy | swtch hy | release hy => exact .inr ⟨n, hn, .inl (Nat.le_refl n)⟩
  | client hy hpos hnext =>
      rename_i k call
      cases call <;> simp only [Call.next] at hn <;> (try split at hn) <;> cases hn
  | sub hy hpos hnext =>
      rename_i c back p r
      rw [hpos] at hold ⊢
      cases c <;> simp only [Sub.next] at hnext <;> (try split at hnext) <;>
        (try split at hnext) <;> cases hnext <;> cases back <;> cases hn <;>
        simp_all [Pos.seen, Pos.formed]
  | op hy hpos hclient hnext =>
      rename_i o p r
      rw [hpos]
      cases o <;> simp only [Op.next] at hnext <;> (try split at hnext) <;>
        (try split at hnext) <;> cases hnext <;> cases hn <;> simp_all [Pos.seen]

theorem Thread.next_formed (h : t.next cl slots data i x ok = some (instr, t', data'))
    (hold : t.pos.formed i) : t'.pos.formed i := by
  cases Thread.next_cases h with
  | acquire hy | ready hy | swtch hy | release hy => exact hold
  | client hy hpos hnext =>
      rename_i k call
      cases call <;> simp only [Call.next] <;> (try split) <;> trivial
  | sub hy hpos hnext =>
      rename_i c back p r
      rw [hpos] at hold
      cases c <;> simp only [Sub.next] at hnext <;> (try split at hnext) <;>
        (try split at hnext) <;> cases hnext <;> cases back <;>
        simp_all [Pos.formed, Return.op, Sub.sleepPhase, Sub.wakeupPhase]
  | op hy hpos hclient hnext =>
      rename_i o p r
      cases o <;> simp only [Op.next] at hnext <;> (try split at hnext) <;>
        (try split at hnext) <;> cases hnext <;>
        simp [Pos.formed, Sub.sleepPhase, Sub.wakeupPhase]

/-- exit passes the slot of its parent inside wakeup, or it calls wakeup. -/
theorem Thread.next_told (h : t.next cl slots data i x ok = some (instr, t', data'))
    (htold : t'.pos.told q = true) :
    t.pos.told q = true ∨
      (∃ c st, t.pos = .sub c (.exitLock st) ∧ c.wakes (.proc q) q = true) ∨
      ∃ st j, t.pos = .op (.exitReparent st j) ∧
        t'.pos = .sub (.wakeup ((slots i).parent.map .proc) 0) (.exitLock st) := by
  cases Thread.next_cases h with
  | acquire hy | ready hy | swtch hy | release hy => exact .inl htold
  | client hy hpos hnext =>
      rename_i k call
      cases call <;> simp only [Call.next] at htold <;> (try split at htold) <;> cases htold
  | sub hy hpos hnext =>
      rename_i c back p r
      rw [hpos]
      by_cases hw : c.wakes (.proc q) q = true
      · cases back with
        | exitLock st => exact .inr (.inl ⟨c, st, rfl, hw⟩)
        | _ =>
            cases c <;> simp only [Sub.next] at hnext <;> (try split at hnext) <;>
              (try split at hnext) <;> cases hnext <;> cases htold
      · cases back with
        | exitLock st => exact .inl (by simpa [Pos.told] using hw)
        | _ =>
            cases c <;> simp only [Sub.next] at hnext <;> (try split at hnext) <;>
              (try split at hnext) <;> cases hnext <;> cases htold
  | op hy hpos hclient hnext =>
      rename_i o p r
      rw [hpos]
      cases o <;> simp only [Op.next] at hnext <;> (try split at hnext) <;>
        (try split at hnext) <;> cases hnext <;> first
        | exact .inl rfl
        | exact .inr (.inr ⟨_, _, rfl, rfl⟩)
        | cases htold

end positions

/-- Who sleeps in wait, and what its children are. -/
structure Waiting (s : Machine κ δ) : Prop where
  formed : ∀ i, (s.threads i).pos.formed i
  seen : ∀ q n, (s.threads q).pos.seen = some n → ∀ i < n, (s.slots i).parent = some q →
    (s.slots i).state ≠ .ZOMBIE
  told : ∀ e q, (s.slots e).parent = some q → (s.threads e).pos.told q = true → ¬ s.Waits q
  woken : ∀ q i, s.Waits q → (s.slots i).parent = some q → (s.slots i).state = .ZOMBIE →
    ∃ e c st j, (s.threads e).pos = .sub c (.exitReparent st j) ∧ c.wakes (.proc q) q = true

namespace Waiting

variable {cl : Client κ δ ι} {s s' : Machine κ δ} {a : Action ι} {i e q n : Nat}

/-- A ZOMBIE child is an old one, it has just exited, or reparent has just given it to init
and goes on to wake init. -/
theorem zombie_step (hs : Placed s) (hstep : s.step cl a = some (.ok s'))
    (hparent : (s'.slots i).parent = some q) (hzombie : (s'.slots i).state = .ZOMBIE) :
    (s.slots i).parent = some q ∧ ((s.slots i).state = .ZOMBIE ∨
      ∃ st, (s.threads i).pos = .op (.exitMark st)) ∨
      q = initproc ∧ ∃ e st, (s.threads e).pos = .op (.exitReparent st i) ∧
        (s'.threads e).pos =
          .sub (.wakeup (some (.proc initproc)) 0) (.exitReparent st (i + 1)) := by
  cases hs.slot_step hstep i with
  | keep hc =>
      refine .inl ⟨hc.parent ▸ hparent, .inl ?_⟩
      rcases hc.state with heq | ⟨-, hal⟩
      · exact heq ▸ hzombie
      · rw [hzombie] at hal
        cases hal
  | alloc hunused hslot =>
      rw [hslot] at hzombie
      cases hzombie
  | undo i' k child hpos hslot =>
      rw [hslot] at hzombie
      cases hzombie
  | collect q' addr k hpos hz hevent hpos' hslot =>
      rw [hslot] at hzombie
      cases hzombie
  | exit st hpos hrun hpos' hslot =>
      rw [hslot] at hparent
      exact .inl ⟨hparent, .inr ⟨st, hpos⟩⟩
  | adopt q' pid k hpos hrun hslot =>
      rw [hslot] at hzombie
      rw [(hs.child q' i true (by rw [hpos]; rfl)).1] at hzombie
      cases hzombie
  | reparent e st hpos hp hpos' hslot =>
      rw [hslot] at hparent
      cases hparent
      exact .inr ⟨rfl, e, st, hpos, hpos'⟩
  | ready q' pid k hpos hslot =>
      rw [hslot] at hzombie
      cases hzombie

theorem formed_step (h : Waiting s) (hstep : s.step cl a = some (.ok s')) (i : Nat) :
    (s'.threads i).pos.formed i := by
  rcases Machine.pos_cases hstep i with heq |
    ⟨c, x, ok, instr, t, data, -, -, ht, hnext, -⟩ | ⟨k, hk⟩
  · rw [heq]
    exact h.formed i
  · rw [ht]
    exact Thread.next_formed hnext (h.formed i)
  · rw [hk]
    trivial

/-- While a wait scans the table no other thread can make a ZOMBIE or move a child. -/
theorem not_zombie (hs : Placed s) (hl : Live s) (hstep : s.step cl a = some (.ok s'))
    (hq : (s.threads q).pos.seen = some n)
    (hi : (s.slots i).parent = some q → (s.slots i).state ≠ .ZOMBIE)
    (hparent : (s'.slots i).parent = some q) : (s'.slots i).state ≠ .ZOMBIE := by
  intro hzombie
  have hneeds := Pos.needs_of_seen (i := q) hq
  rcases zombie_step hs hstep hparent hzombie with ⟨hp, hz | ⟨st, hpos⟩⟩ | ⟨-, e, st, hpos, -⟩
  · exact hi hp hz
  · have heq : i = q := hl.needs_unique hs (by rw [hpos]; simp [Pos.Needs, Op.locks]) hneeds
      (by simp) (by simp)
    rw [← heq, hpos] at hq
    cases hq
  · have heq : e = q := hl.needs_unique hs (by rw [hpos]; simp [Pos.Needs, Op.locks]) hneeds
      (by simp) (by simp)
    rw [← heq, hpos] at hq
    cases hq

theorem seen_step (h : Waiting s) (hs : Placed s) (hl : Live s)
    (hstep : s.step cl a = some (.ok s')) (hq : (s'.threads q).pos.seen = some n) (hi : i < n)
    (hparent : (s'.slots i).parent = some q) : (s'.slots i).state ≠ .ZOMBIE := by
  rcases Machine.pos_cases hstep q with heq |
    ⟨c, x, ok, instr, t, data, -, -, ht, hnext, -⟩ | ⟨k, hk⟩
  · rw [heq] at hq
    exact not_zombie hs hl hstep hq (h.seen q n hq i hi) hparent
  · rw [ht] at hq
    rcases Thread.next_seen hnext (h.formed q) hq with rfl | ⟨m, hm, hle | ⟨rfl, hcase⟩⟩
    · omega
    · exact not_zombie hs hl hstep hm (h.seen q m hm i (by omega)) hparent
    · apply not_zombie hs hl hstep hm _ hparent
      by_cases him : i < m
      · exact h.seen q m hm i him
      · have him : i = m := by omega
        subst him
        intro hp hz
        rcases hcase with hne | hne
        · exact hne hp
        · exact hne hz
  · rw [hk] at hq
    cases hq

/-- A process falls asleep in wait when it has seen all its children, with wait_lock. -/
theorem waits_step (hs : Placed s) (hstep : s.step cl a = some (.ok s')) (hq : s'.Waits q) :
    s.Waits q ∨ (s.threads q).pos.seen = some NPROC := by
  obtain ⟨addr, k, hasleep⟩ := hq
  rcases hs.asleep_step hstep hasleep with hold | ⟨hpos, -⟩
  · exact .inl ⟨addr, k, hold⟩
  · exact .inr (by rw [hpos]; rfl)

theorem sub_of_waits (h : s.Waits q) : ∃ c addr k,
    (s.threads q).pos = .sub c (.waitAgain addr k) := by
  obtain ⟨addr, k, hpos | hpos | ⟨hpos, -⟩⟩ := h <;> exact ⟨_, addr, k, hpos⟩

theorem lt_of_waits (hl : Live s) (h : s.Waits q) : q < NPROC := by
  apply hl.lt
  intro hunused
  have hdead := hl.dead_of_used (.inl hunused)
  obtain ⟨c, addr, k, hpos⟩ := sub_of_waits h
  rw [hpos] at hdead
  cases hdead

theorem woken_step (h : Waiting s) (hs : Placed s) (hl : Live s)
    (hstep : s.step cl a = some (.ok s')) (hq : s'.Waits q)
    (hparent : (s'.slots i).parent = some q) (hzombie : (s'.slots i).state = .ZOMBIE) :
    ∃ e c st j, (s'.threads e).pos = .sub c (.exitReparent st j) ∧
      c.wakes (.proc q) q = true := by
  rcases waits_step hs hstep hq with hold | hseen
  · rcases zombie_step hs hstep hparent hzombie with
      ⟨hp, hz | ⟨st, hpos⟩⟩ | ⟨rfl, e, st, -, hpos'⟩
    · obtain ⟨e, c, st, j, hpos, hc⟩ := h.woken q i hold hp hz
      obtain ⟨addr, k, hasleep⟩ := hq
      have hne : q ≠ e := by
        rintro rfl
        obtain ⟨c₀, addr₀, k₀, hq₀⟩ := sub_of_waits hold
        rw [hpos] at hq₀
        cases hq₀
      obtain ⟨c', hpos', hc'⟩ := hl.wakes_step hs hstep hpos hc (lt_of_waits hl hold) hne hasleep
      exact ⟨e, c', st, j, hpos', hc'⟩
    · exact absurd hold (h.told i q hp (by rw [hpos]; rfl))
    · exact ⟨e, _, st, i + 1, hpos', rfl⟩
  · by_cases hi : i < NPROC
    · exact absurd hzombie
        (not_zombie hs hl hstep hseen (h.seen q NPROC hseen i hi) hparent)
    · have hbound := (hl.step hs hstep).bound i (Nat.le_of_not_lt hi)
      rw [hzombie] at hbound
      cases hbound

/-- The parent of a process with wait_lock stays the same, as it is not its own parent. -/
theorem parent_of_needs (hf : Family s) (hs : Placed s) (hl : Live s)
    (hstep : s.step cl a = some (.ok s')) (hlive : (s.threads e).pos.dead = false)
    (hneeds : (s.threads e).pos.Needs e (.spin waitLock))
    (hparent : (s'.slots e).parent = some q) : (s.slots e).parent = some q := by
  rcases Family.parent_step hs hstep hparent with hold | ⟨pid, k, hpos, -⟩ |
    ⟨-, e', st, hpos, hp⟩
  · exact hold
  · have hdead := hl.dead_of_used (.inr (hs.child q e true (by rw [hpos]; rfl)).1)
    rw [hlive] at hdead
    cases hdead
  · have heq : e' = e := hl.needs_unique hs (by rw [hpos]; simp [Pos.Needs, Op.locks]) hneeds
      (by simp) (by simp)
    subst heq
    exact absurd hp (hf.strict e')

theorem told_step (h : Waiting s) (hf : Family s) (hs : Placed s) (hl : Live s)
    (hstep : s.step cl a = some (.ok s')) (hparent : (s'.slots e).parent = some q)
    (htold : (s'.threads e).pos.told q = true) : ¬ s'.Waits q := by
  intro hq
  have hkeep : (s.threads e).pos.told q = true → False := by
    intro hold
    have hneeds := Pos.needs_of_told (h.formed e) hold
    have hlive : (s.threads e).pos.dead = false := by
      rcases hpos : (s.threads e).pos with o | ⟨c, back⟩
      · rw [hpos] at hold
        cases o <;> first | rfl | cases hold
      · rfl
    have hp := parent_of_needs hf hs hl hstep hlive hneeds hparent
    rcases waits_step hs hstep hq with hwaits | hseen
    · exact h.told e q hp hold hwaits
    · have heq : q = e := hl.needs_unique hs (Pos.needs_of_seen hseen) hneeds
        (by simp) (by simp)
      subst heq
      exact hf.strict q hp
  rcases Machine.pos_cases hstep e with heq |
    ⟨c, x, ok, instr, t, data, -, -, ht, hnext, -⟩ | ⟨k, hk⟩
  · exact hkeep (heq ▸ htold)
  · rw [ht] at htold
    rcases Thread.next_told hnext htold with hold | ⟨c', st, hpos, hc'⟩ | ⟨st, j, hpos, hpos'⟩
    · exact hkeep hold
    · -- A wakeup that passes the slot of a sleeper wakes it.
      have hne : q ≠ e := by
        rintro rfl
        exact (hf.step hs hl hstep).strict q hparent
      obtain ⟨addr, k, hasleep⟩ := hq
      obtain ⟨c'', hpos'', hc''⟩ := hl.wakes_step hs hstep hpos hc'
        (lt_of_waits (hl.step hs hstep) ⟨addr, k, hasleep⟩) hne hasleep
      rw [← ht, hpos''] at htold
      simp [Pos.told, hc''] at htold
    · have hp := parent_of_needs hf hs hl hstep (by rw [hpos]; rfl)
        (by rw [hpos]; simp [Pos.Needs, Op.locks]) hparent
      rw [hpos', hp] at htold
      simp [Pos.told, Sub.wakes] at htold
  · rw [hk] at htold
    cases htold

theorem step (h : Waiting s) (hf : Family s) (hs : Placed s) (hl : Live s)
    (hstep : s.step cl a = some (.ok s')) : Waiting s' where
  formed := h.formed_step hstep
  seen _ _ hq _ hi hparent := h.seen_step hs hl hstep hq hi hparent
  told _ _ hparent htold := h.told_step hf hs hl hstep hparent htold
  woken _ _ hq hparent hzombie := h.woken_step hs hl hstep hq hparent hzombie

theorem boot (k : κ) (data : δ) : Waiting (boot k data) := by
  constructor
  case formed => simp [Sched.boot, Pos.formed]
  case seen => simp [Sched.boot, Pos.seen]
  case told => simp [Sched.boot, Pos.told]
  case woken =>
    intro q i hq
    obtain ⟨c, addr, k', hpos⟩ := sub_of_waits hq
    cases hpos

end Waiting

end Xv6.Sched
