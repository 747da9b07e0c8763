/-
The history of the calls of exit and wait.  Every child that a wait takes is the one that
called exit last in its slot, with its pid and the status that it passed.
-/
import Xv6.Sched.Wait

namespace Xv6.Sched

variable {κ δ ι : Type}

/-- Runs of the machine from boot, with their events, the latest first. -/
inductive Runs (cl : Client κ δ ι) : List Event → Machine κ δ → Prop
  | boot (k : κ) (data : δ) : Runs cl [] (boot k data)
  | step {log : List Event} {s s' : Machine κ δ} {a : Action ι} (h : Runs cl log s)
      (hstep : s.step cl a = some (.ok s')) : Runs cl ((s.event cl a).toList ++ log) s'

def Event.slot : Event → Nat
  | .exit i .. | .wait _ i .. => i

/-- The latest event of a slot. -/
def last (i : Nat) (log : List Event) : Option Event := log.find? fun ev => ev.slot == i

/-- Every wait takes the process that called exit last in the slot, and no wait has taken
it before. -/
def Paired : List Event → Prop
  | [] => True
  | .wait _ i pid status :: older => last i older = some (.exit i pid status) ∧ Paired older
  | .exit .. :: older => Paired older

/-- The slot fits its history: from its call of exit on a process keeps its pid, and it is
on its way to become a ZOMBIE with its status, or it is one. -/
def Settled (s : Machine κ δ) (log : List Event) (i : Nat) : Prop :=
  match last i log with
  | some (.exit _ pid status) => (s.slots i).pid = pid ∧
      ((s.slots i).state = .ZOMBIE ∧ (s.slots i).xstate = status ∨
        (s.slots i).state.alive = true ∧ (s.threads i).pos.exitStatus = some status)
  | _ => (s.slots i).state ≠ .ZOMBIE ∧ (s.threads i).pos.exitStatus = none

/-- What a wait in progress will return, and where. -/
def Pos.returning : Pos κ → Option (Int × κ)
  | .op (.waitUnlock _ r k) | .op (.waitReturn r k) => some (r, k)
  | _ => none

section positions

variable {cl : Client κ δ ι} {slots : Nat → Slot} {data data' : δ} {i j : Nat} {x : ι}
  {ok : Bool} {t t' : Thread κ} {instr : Instr κ} {k : κ} {r : Int}

theorem Thread.next_returning (h : t.next cl slots data i x ok = some (instr, t', data'))
    (hpos : t.pos.returning = some (r, k)) :
    t'.pos.returning = some (r, k) ∨ t'.pos = .op (.client k) ∧ t'.ret = r := by
  cases Thread.next_cases h with
  | acquire hy | ready hy | swtch hy | release hy => exact .inl hpos
  | client hy hpos' hnext =>
      rw [hpos'] at hpos
      cases hpos
  | sub hy hpos' hnext =>
      rw [hpos'] at hpos
      cases hpos
  | op hy hpos' hclient hnext =>
      rename_i o p r
      rw [hpos'] at hpos
      cases o <;> cases hpos <;> cases hnext
      · exact .inl rfl
      · exact .inr ⟨rfl, rfl⟩

/-- wait takes the lock of a slot only if it is a child. -/
theorem Thread.next_waitTest {addr : Nat}
    (h : t.next cl slots data i x ok = some (instr, t', data'))
    (hpos : t'.pos = .op (.waitTest addr j k)) :
    t.pos = .op (.waitTest addr j k) ∨
      (slots j).parent = some i ∧ instr = .acquire (.proc j) := by
  cases Thread.next_cases h with
  | acquire hy | ready hy | swtch hy | release hy => exact .inl hpos
  | client hy hpos' hnext =>
      rename_i k' call
      cases call <;> simp only [Call.next] at hpos <;> (try split at hpos) <;> cases hpos
  | sub hy hpos' hnext =>
      rename_i c back p r
      subst hpos
      cases c <;> simp only [Sub.next] at hnext <;> (try split at hnext) <;>
        (try split at hnext) <;> cases back <;> cases hnext
  | op hy hpos' hclient hnext =>
      rename_i o p r
      subst hpos
      cases o <;> simp only [Op.next] at hnext <;> (try split at hnext) <;>
        (try split at hnext) <;> cases hnext
      next hparent => exact .inr ⟨hparent, rfl⟩

theorem Pos.dead_of_exitStatus {p : Pos κ} {st : Int} (h : p.exitStatus = some st) :
    p.dead = false := by
  rcases p with o | ⟨c, back⟩
  · cases o <;> first | rfl | cases h
  · rfl

theorem Pos.dead_of_returning {p : Pos κ} (h : p.returning = some (r, k)) : p.dead = false := by
  rcases p with o | ⟨c, back⟩
  · cases o <;> first | rfl | cases h
  · cases h

theorem Pos.exitStatus_of_exited {p : Pos κ} (h : p.exited = true) : p.exitStatus = none := by
  rcases p with o | ⟨c, back⟩
  · cases o <;> first | rfl | cases h
  · cases h

end positions

section events

variable {cl : Client κ δ ι} {s s' : Machine κ δ} {a : Action ι} {i q : Nat} {pid st : Int}

/-- A call of exit changes nothing but the position of its thread. -/
theorem Machine.event_exit (h : s.event cl a = some (.exit i pid st))
    (hstep : s.step cl a = some (.ok s')) :
    pid = (s.slots i).pid ∧ (∃ c, (s.cpus c).mode = .run i) ∧
      (∃ k, s.threads i = ⟨.idle, .op (.client k), (s.threads i).ret⟩) ∧
      s'.slots = s.slots ∧ (s'.threads i).pos = .op (.exit st) := by
  cases a with
  | timer c => cases h
  | step c x ok =>
      simp only [Machine.event] at h
      split at h
      · next i' hm =>
          split at h
          · next hy =>
              split at h
              · next k hpos =>
                  split at h
                  · next st' d hcall =>
                      cases h
                      have ht : s.threads i = ⟨.idle, .op (.client k), (s.threads i).ret⟩ := by
                        rw [← hy, ← hpos]
                      refine ⟨rfl, ⟨c, hm⟩, ⟨k, ht⟩, ?_⟩
                      simp only [Machine.step, hm, Thread.next, hy, hpos, hcall, Call.next] at hstep
                      split at hstep
                      · cases hstep
                      · cases hstep
                        exact ⟨rfl, by simp [Machine.setThread]⟩
                  · cases h
              · split at h <;> cases h
              · cases h
          · cases h
      · cases h

/-- A wait that takes a child frees its slot and goes on to return its pid. -/
theorem Machine.event_wait (h : s.event cl a = some (.wait q i pid st))
    (hstep : s.step cl a = some (.ok s')) :
    pid = (s.slots i).pid ∧ st = (s.slots i).xstate ∧ (s.slots i).state = .ZOMBIE ∧
      (∃ c, (s.cpus c).mode = .run q) ∧ ∃ addr k,
        s.threads q = ⟨.idle, .op (.waitTest addr i k), (s.threads q).ret⟩ ∧
        s'.slots = Function.update s.slots i {} ∧
        s'.threads = Function.update s.threads q
          ⟨.idle, .op (.waitUnlock i pid k), (s.threads q).ret⟩ := by
  cases a with
  | timer c => cases h
  | step c x ok =>
      simp only [Machine.event] at h
      split at h
      · next q' hm =>
          split at h
          · next hy =>
              split at h
              · split at h <;> cases h
              · next addr j k hpos =>
                  split at h
                  · next hcond =>
                      cases h
                      have ht : s.threads q = ⟨.idle, .op (.waitTest addr i k),
                          (s.threads q).ret⟩ := by
                        rw [← hy, ← hpos]
                      refine ⟨rfl, rfl, hcond.1, ⟨c, hm⟩, addr, k, ht, ?_⟩
                      simp only [Machine.step, hm, Thread.next, hy, hpos, Op.next, hcond.1,
                        if_true] at hstep
                      rw [if_neg hcond.2] at hstep
                      cases hstep
                      exact ⟨rfl, rfl⟩
                  · cases h
              · cases h
          · cases h
      · cases h

end events

/-- wait holds the lock of a child of its process. -/
def Tested (s : Machine κ δ) : Prop :=
  ∀ q addr i k, (s.threads q).pos = .op (.waitTest addr i k) → (s.slots i).parent = some q

section tested

variable {cl : Client κ δ ι} {s s' : Machine κ δ} {a : Action ι}

theorem Tested.step (h : Tested s) (hf : Family s) (hs : Placed s) (hl : Live s)
    (hstep : s.step cl a = some (.ok s')) : Tested s' := by
  intro q addr i k hpos'
  -- Where the thread has not moved, wait_lock and the lock of the child keep the parent.
  have hkeep : (s.threads q).pos = .op (.waitTest addr i k) → (s'.slots i).parent = some q := by
    intro hpos
    have hparent := h q addr i k hpos
    have hwait : (s.threads q).pos.Needs q (.spin waitLock) := by
      rw [hpos]
      simp [Pos.Needs, Op.locks]
    have hlock : (s.threads q).pos.Needs q (.proc i) := by
      rw [hpos]
      simp [Pos.Needs, Op.locks]
    cases hs.slot_step hstep i with
    | keep hc => rw [hc.parent, hparent]
    | alloc hunused hslot =>
        rw [hf.free i hunused] at hparent
        cases hparent
    | undo q' k' child hbuild hslot =>
        have hused := (hs.child q' i false (by rw [hbuild]; rfl)).1
        have hne : i ≠ q' := by
          rintro rfl
          have hdead := hl.dead_of_used (.inr hused)
          rw [hbuild] at hdead
          cases hdead
        have hne' : i ≠ q := by
          rintro rfl
          exact hf.strict i hparent
        have heq : q = q' := hl.needs_unique hs hlock
          (by rw [hbuild]; simp [Pos.Needs, Op.locks]) (by simpa using hne') (by simpa using hne)
        rw [← heq, hpos] at hbuild
        cases hbuild
    | collect q' addr' k' htest hz hevent hafter hslot =>
        have heq : q = q' := hl.needs_unique hs hwait
          (by rw [htest]; simp [Pos.Needs, Op.locks]) (by simp) (by simp)
        rw [← heq, hpos'] at hafter
        cases hafter
    | exit st hmark hrun hafter hslot => rw [hslot, ← hparent]
    | adopt q' pid k' hfork hrun hslot =>
        have heq : q = q' := hl.needs_unique hs hwait
          (by rw [hfork]; simp [Pos.Needs, Op.locks]) (by simp) (by simp)
        rw [← heq, hpos] at hfork
        cases hfork
    | reparent e st hexit hp hafter hslot =>
        have heq : q = e := hl.needs_unique hs hwait
          (by rw [hexit]; simp [Pos.Needs, Op.locks]) (by simp) (by simp)
        rw [← heq, hpos] at hexit
        cases hexit
    | ready q' pid k' hfork hslot => rw [hslot, ← hparent]
  rcases Machine.pos_cases hstep q with heq |
    ⟨c, x, ok, instr, t, data, -, -, ht, hnext, hexec⟩ | ⟨k', hk'⟩
  · exact hkeep (heq ▸ hpos')
  · rw [ht] at hpos'
    rcases Thread.next_waitTest hnext hpos' with hpos | ⟨hparent, rfl⟩
    · exact hkeep hpos
    · rcases Machine.exec_slots hexec with heq | ⟨j, u, hinstr, -⟩ | ⟨j, hinstr, -⟩
      · rw [heq]
        exact hparent
      · cases hinstr
      · cases hinstr
  · rw [hk'] at hpos'
    cases hpos'

end tested

/-- All that is known of a reachable machine about parents and children. -/
structure Sound (s : Machine κ δ) : Prop where
  placed : Placed s
  live : Live s
  family : Family s
  waiting : Waiting s
  tested : Tested s

theorem Sound.step {cl : Client κ δ ι} {s s' : Machine κ δ} {a : Action ι} (h : Sound s)
    (hstep : s.step cl a = some (.ok s')) : Sound s' where
  placed := h.placed.step hstep
  live := h.live.step h.placed hstep
  family := h.family.step h.placed h.live hstep
  waiting := h.waiting.step h.family h.placed h.live hstep
  tested := h.tested.step h.family h.placed h.live hstep

theorem Runs.sound {cl : Client κ δ ι} {log : List Event} {s : Machine κ δ}
    (h : Runs cl log s) : Sound s := by
  induction h with
  | boot k data =>
      exact ⟨.boot k data, .boot k data, .boot k data, .boot k data, by simp [Tested, Sched.boot]⟩
  | step _ hstep ih => exact ih.step hstep

theorem last_cons (ev : Event) (log : List Event) (i : Nat) :
    last i (ev :: log) = if ev.slot = i then some ev else last i log := by
  by_cases h : ev.slot = i <;> simp [last, h]

section settled

variable {cl : Client κ δ ι} {s s' : Machine κ δ} {a : Action ι} {log : List Event} {i : Nat}

theorem slot_of_last {ev : Event} (h : last i log = some ev) : ev.slot = i := by
  simpa using List.find?_some h

/-- A ZOMBIE stays as it is until a wait takes it. -/
theorem Placed.zombie_step (hs : Placed s) (hstep : s.step cl a = some (.ok s'))
    (hz : (s.slots i).state = .ZOMBIE) :
    ((s'.slots i).state = .ZOMBIE ∧ (s'.slots i).pid = (s.slots i).pid ∧
        (s'.slots i).xstate = (s.slots i).xstate) ∨
      ∃ q, s.event cl a = some (.wait q i (s.slots i).pid (s.slots i).xstate) := by
  cases hs.slot_step hstep i with
  | keep hc =>
      refine .inl ⟨?_, hc.pid, hc.xstate⟩
      rcases hc.state with heq | ⟨hal, -⟩
      · rw [heq, hz]
      · rw [hz] at hal
        cases hal
  | alloc hunused hslot =>
      rw [hunused] at hz
      cases hz
  | undo q k child hpos hslot =>
      rw [(hs.child q i false (by rw [hpos]; rfl)).1] at hz
      cases hz
  | collect q addr k hpos hzombie hevent hpos' hslot => exact .inr ⟨q, hevent⟩
  | exit st hpos hrun hpos' hslot =>
      rw [hrun] at hz
      cases hz
  | adopt q pid k hpos hrun hslot => exact .inl (by rw [hslot]; exact ⟨hz, rfl, rfl⟩)
  | reparent e st hpos hp hpos' hslot => exact .inl (by rw [hslot]; exact ⟨hz, rfl, rfl⟩)
  | ready q pid k hpos hslot =>
      rw [(hs.child q i true (by rw [hpos]; rfl)).1] at hz
      cases hz

/-- A process in exit keeps its pid, and is alive until it marks itself. -/
theorem Placed.exit_slot (hs : Placed s) (hstep : s.step cl a = some (.ok s'))
    (hal : (s.slots i).state.alive = true) :
    (s'.slots i).pid = (s.slots i).pid ∧
      ((s'.slots i).state.alive = true ∨ ∃ st, (s.threads i).pos = .op (.exitMark st) ∧
        (s'.slots i).state = .ZOMBIE ∧ (s'.slots i).xstate = st) := by
  cases hs.slot_step hstep i with
  | keep hc =>
      refine ⟨hc.pid, .inl ?_⟩
      rcases hc.state with heq | ⟨-, hal'⟩
      · rw [heq, hal]
      · exact hal'
  | alloc hunused hslot =>
      rw [hunused] at hal
      cases hal
  | undo q k child hbuild hslot =>
      rw [(hs.child q i false (by rw [hbuild]; rfl)).1] at hal
      cases hal
  | collect q addr k htest hzombie hevent hafter hslot =>
      rw [hzombie] at hal
      cases hal
  | exit st hmark hrun hafter hslot =>
      rw [hslot]
      exact ⟨rfl, .inr ⟨st, hmark, rfl, rfl⟩⟩
  | adopt q pid k hfork hrun hslot => exact ⟨by rw [hslot], .inl (by rw [hslot]; exact hal)⟩
  | reparent e st hexit hp hafter hslot =>
      exact ⟨by rw [hslot], .inl (by rw [hslot]; exact hal)⟩
  | ready q pid k hfork hslot => exact ⟨by rw [hslot], .inl (by rw [hslot]; rfl)⟩

/-- A process in exit goes on, or it becomes a ZOMBIE with its status. -/
theorem Live.exit_step (hl : Live s) (hs : Placed s) (hstep : s.step cl a = some (.ok s'))
    {st : Int} (hal : (s.slots i).state.alive = true)
    (hpos : (s.threads i).pos.exitStatus = some st) :
    (s'.slots i).pid = (s.slots i).pid ∧
      ((s'.slots i).state = .ZOMBIE ∧ (s'.slots i).xstate = st ∨
        (s'.slots i).state.alive = true ∧ (s'.threads i).pos.exitStatus = some st) := by
  have hdead := Pos.dead_of_exitStatus hpos
  obtain ⟨hpid, hcase⟩ := hs.exit_slot hstep hal
  refine ⟨hpid, ?_⟩
  rcases hcase with hal' | ⟨st', hmark, hz, hx⟩
  · refine .inr ⟨hal', ?_⟩
    rcases hl.thread_step hs hstep hdead with heq | hown
    · rw [heq, hpos]
    · obtain ⟨c, x, ok, instr, data, -, hnext, hexec⟩ := hown
      rcases Thread.next_exitStatus hnext with heq | ⟨-, k, st', hclient, -⟩ |
        ⟨st', -, rfl, -⟩
      · rw [heq, hpos]
      · rw [hclient] at hpos
        cases hpos
      · generalize s'.threads i = t at hexec
        cases hexec
        simp [Machine.setSlot, Update.apply, ProcState.alive] at hal'
  · rw [hmark] at hpos
    cases hpos
    exact .inl ⟨hz, hx⟩

/-- A process that has not called exit becomes no ZOMBIE. -/
theorem Placed.settled_none_step (hs : Placed s) (hstep : s.step cl a = some (.ok s'))
    (hevent : ∀ pid st, s.event cl a ≠ some (.exit i pid st))
    (hstate : (s.slots i).state ≠ .ZOMBIE) (hpos : (s.threads i).pos.exitStatus = none) :
    (s'.slots i).state ≠ .ZOMBIE ∧ (s'.threads i).pos.exitStatus = none := by
  constructor
  · cases hs.slot_step hstep i with
    | keep hc =>
        rcases hc.state with heq | ⟨-, hal⟩
        · rw [heq]
          exact hstate
        · intro hz
          rw [hz] at hal
          cases hal
    | exit st hmark hrun hafter hslot =>
        rw [hmark] at hpos
        cases hpos
    | alloc hunused hslot =>
        rw [hslot]
        simp
    | undo q k child hbuild hslot =>
        rw [hslot]
        simp
    | collect q addr k htest hzombie hevent hafter hslot =>
        rw [hslot]
        simp
    | adopt q pid k hfork hrun hslot =>
        rw [hslot]
        exact hstate
    | reparent e st hexit hp hafter hslot =>
        rw [hslot]
        exact hstate
    | ready q pid k hfork hslot =>
        rw [hslot]
        simp
  · rcases Machine.pos_cases hstep i with heq |
      ⟨c, x, ok, instr, t, data, rfl, hm, ht, hnext, hexec⟩ | ⟨k', hk'⟩
    · rw [heq, hpos]
    · rw [ht]
      rcases Thread.next_exitStatus hnext with heq | ⟨hy, k, st, hclient, hcall, -⟩ |
        ⟨st, hmark, -⟩
      · rw [heq, hpos]
      · refine absurd ?_ (hevent (s.slots i).pid st)
        simp only [Machine.event, hm, hy, hclient, hcall, if_true]
      · rw [hmark] at hpos
        cases hpos
    · rw [hk']
      rfl

/-- The history of a slot is extended by its own events only. -/
theorem Settled.keep (h : Settled s log i) (hsound : Sound s)
    (hstep : s.step cl a = some (.ok s'))
    (hevent : ∀ ev, s.event cl a = some ev → ev.slot ≠ i) : Settled s' log i := by
  have hexit : ∀ pid st, s.event cl a ≠ some (.exit i pid st) :=
    fun pid st hev => hevent _ hev rfl
  simp only [Settled] at h ⊢
  split
  · next pid st hlast =>
      rw [hlast] at h
      obtain ⟨hpid, ⟨hz, hx⟩ | ⟨hal, hpos⟩⟩ := h
      · rcases hsound.placed.zombie_step hstep hz with ⟨hz', hpid', hx'⟩ | ⟨q, hev⟩
        · exact ⟨by rw [hpid', hpid], .inl ⟨hz', by rw [hx', hx]⟩⟩
        · exact absurd rfl (hevent _ hev)
      · obtain ⟨hpid', hcase⟩ := hsound.live.exit_step hsound.placed hstep hal hpos
        exact ⟨by rw [hpid', hpid], hcase⟩
  · next hlast =>
      have hnone : (s.slots i).state ≠ .ZOMBIE ∧ (s.threads i).pos.exitStatus = none := by
        split at h
        · next pid st hlast' => exact absurd hlast' (hlast _ _ _)
        · exact h
      exact hsound.placed.settled_none_step hstep hexit hnone.1 hnone.2

theorem Settled.of_zombie (h : Settled s log i) (hz : (s.slots i).state = .ZOMBIE) :
    last i log = some (.exit i (s.slots i).pid (s.slots i).xstate) := by
  simp only [Settled] at h
  split at h
  · next j pid st hlast =>
      have hj : j = i := slot_of_last hlast
      obtain ⟨hpid, ⟨-, hx⟩ | ⟨hal, -⟩⟩ := h
      · rw [hlast, hj, hpid, hx]
      · rw [hz] at hal
        cases hal
  · exact absurd hz h.1

/-- The step of a call of exit. -/
theorem Settled.exit {pid st : Int} (hs : Placed s) (hstep : s.step cl a = some (.ok s'))
    (hevent : s.event cl a = some (.exit i pid st)) :
    Settled s' (.exit i pid st :: log) i := by
  obtain ⟨rfl, ⟨c, hm⟩, ⟨k, ht⟩, hslots, hpos⟩ := Machine.event_exit hevent hstep
  have hrun : (s.slots i).state = .RUNNING := by
    apply hs.state_of_run hm
    rw [ht]
    rfl
  simp only [Settled, last_cons, Event.slot, if_true, hslots, hrun, hpos]
  exact ⟨trivial, .inr ⟨rfl, rfl⟩⟩

/-- The step in which a wait takes a child. -/
theorem Settled.wait {q : Nat} {pid st : Int} (hsound : Sound s)
    (hstep : s.step cl a = some (.ok s')) (hevent : s.event cl a = some (.wait q i pid st)) :
    Settled s' (.wait q i pid st :: log) i := by
  obtain ⟨rfl, rfl, hz, -, addr, k, ht, hslots, hthreads⟩ := Machine.event_wait hevent hstep
  have hfits := hsound.live.fits i
  simp only [Fits, hz] at hfits
  have hne : i ≠ q := by
    rintro rfl
    rw [ht] at hfits
    cases hfits.2
  have hnone := Pos.exitStatus_of_exited hfits.2
  simp [Settled, last_cons, Event.slot, hslots, hthreads, hne, hnone]

end settled

theorem Runs.settled {cl : Client κ δ ι} {log : List Event} {s : Machine κ δ}
    (h : Runs cl log s) : Paired log ∧ ∀ i, Settled s log i := by
  induction h with
  | boot k data =>
      refine ⟨trivial, fun i => ?_⟩
      by_cases hi : i = initproc <;> simp [Settled, last, Sched.boot, hi, Pos.exitStatus]
  | step hrun hstep ih =>
      rename_i log s s' a
      have hsound := hrun.sound
      obtain ⟨hpaired, hsettled⟩ := ih
      rcases hev : s.event cl a with _ | ev
      · exact ⟨hpaired, fun i =>
          (hsettled i).keep hsound hstep (fun ev' hev' => by rw [hev] at hev'; cases hev')⟩
      · -- The other slots keep their history.
        have hother : ∀ i, ev.slot ≠ i → Settled s' (ev :: log) i := by
          intro i hi
          have hkeep := (hsettled i).keep hsound hstep (fun ev' hev' => by
            rw [hev] at hev'
            cases hev'
            exact hi)
          simpa only [Settled, last_cons, if_neg hi] using hkeep
        cases ev with
        | exit j pid st =>
            refine ⟨hpaired, fun i => ?_⟩
            by_cases hi : j = i
            · subst hi
              exact Settled.exit hsound.placed hstep hev
            · exact hother i hi
        | wait q j pid st =>
            obtain ⟨hpid, hst, hz, -⟩ := Machine.event_wait hev hstep
            refine ⟨⟨by rw [hpid, hst]; exact (hsettled j).of_zombie hz, hpaired⟩, fun i => ?_⟩
            by_cases hi : j = i
            · subst hi
              exact Settled.wait hsound hstep hev
            · exact hother i hi

section summary

variable {cl : Client κ δ ι} {s s' : Machine κ δ} {a : Action ι}

/-- No process sleeps in wait while it has a ZOMBIE child, unless wait_lock is held. -/
theorem Sound.no_zombie_child (h : Sound s) (hlock : s.lock (.spin waitLock) = none)
    {q i addr : Nat} {c : Sub} {k : κ} (hsl : (s.slots q).state = .SLEEPING)
    (hpos : (s.threads q).pos = .sub c (.waitAgain addr k))
    (hparent : (s.slots i).parent = some q) : (s.slots i).state ≠ .ZOMBIE := by
  intro hz
  have hformed := h.waiting.formed q
  rw [hpos] at hformed
  obtain ⟨n, hphase⟩ := hformed
  have hwaits : s.Waits q := by
    obtain ⟨ch, lk, back, -, hasleep⟩ := h.live.asleep_of_sleeping hsl
    refine ⟨addr, k, ?_⟩
    obtain ⟨m, hphase', -⟩ := hasleep.sleepPhase
    rw [hpos] at hphase'
    change c.sleepPhase = _ at hphase'
    rw [hphase] at hphase'
    cases hphase'
    rcases hasleep with heq | heq | ⟨heq, -⟩ <;> rw [hpos] at heq <;> cases heq
    · exact .inl hpos
    · exact .inr (.inl hpos)
    · exact .inr (.inr ⟨hpos, hsl⟩)
  obtain ⟨e, c', st, j, hexit, hc'⟩ := h.waiting.woken q i hwaits hparent hz
  have hneeds : (s.threads e).pos.Needs e (.spin waitLock) := by
    rw [hexit]
    cases c' <;> first | cases hc' | simp [Pos.Needs, Return.locks, Sub.given]
  obtain ⟨d, -, hheld⟩ := h.live.running_of_needs h.placed hneeds (by simp)
  rw [(h.placed.owner _ d).mpr hheld] at hlock
  cases hlock

/-- What a failing copyout does: nothing, and wait goes on to return -1. -/
theorem Machine.step_waitTest_fails {c q i addr : Nat} {x : ι} {k : κ}
    (hstep : s.step cl (.step c x false) = some (.ok s')) (hm : (s.cpus c).mode = .run q)
    (hy : (s.threads q).yield = .idle) (hpos : (s.threads q).pos = .op (.waitTest addr i k))
    (haddr : addr ≠ 0) (hz : (s.slots i).state = .ZOMBIE) :
    s'.slots = s.slots ∧ (s'.threads q).pos.returning = some (-1, k) := by
  simp only [Machine.step, hm, Thread.next, hy, hpos, Op.next, hz, if_true] at hstep
  rw [if_pos ⟨haddr, trivial⟩] at hstep
  cases hstep
  exact ⟨rfl, by simp [Machine.setThread, Pos.returning]⟩

end summary

/-- exit and wait, in every interleaving.  The history is paired: a wait takes the process
that called exit last in its slot, with its pid and status, and takes it once; from its
call of exit on, a process is on its way to become a ZOMBIE with its status, or is one.
Every created process but init has a parent that is alive, and while wait_lock is free no
process is SLEEPING in wait that has a ZOMBIE child.  A step leaves a ZOMBIE untouched or
takes it for its parent, frees its slot and returns its pid; a failing copyout leaves
everything as it was and returns -1. -/
theorem exit_wait (cl : Client κ δ ι) {log : List Event} {s : Machine κ δ}
    (h : Runs cl log s) :
    Paired log ∧ (∀ i, Settled s log i) ∧
    (∀ i, i ≠ initproc → (s.slots i).state.created = true → ∃ q,
      (s.slots i).parent = some q ∧ (s.slots q).state ≠ .UNUSED ∧
        (s.slots q).state ≠ .ZOMBIE) ∧
    (s.lock (.spin waitLock) = none → ∀ q c addr k, (s.slots q).state = .SLEEPING →
      (s.threads q).pos = .sub c (.waitAgain addr k) →
      ∀ i, (s.slots i).parent = some q → (s.slots i).state ≠ .ZOMBIE) ∧
    ∀ a s', s.step cl a = some (.ok s') →
      (∀ i, (s.slots i).state = .ZOMBIE →
        ((s'.slots i).state = .ZOMBIE ∧ (s'.slots i).pid = (s.slots i).pid ∧
          (s'.slots i).xstate = (s.slots i).xstate) ∨
        ∃ q, s.event cl a = some (.wait q i (s.slots i).pid (s.slots i).xstate)) ∧
      (∀ q i pid st, s.event cl a = some (.wait q i pid st) →
        (s.slots i).parent = some q ∧ (s.slots i).state = .ZOMBIE ∧
          (s'.slots i).state = .UNUSED ∧
          ∃ k, (s'.threads q).pos.returning = some (pid, k)) ∧
      (∀ q r k, (s.threads q).pos.returning = some (r, k) →
        (s'.threads q).pos.returning = some (r, k) ∨
          (s'.threads q).pos = .op (.client k) ∧ (s'.threads q).ret = r) ∧
      ∀ c x q addr i k, a = .step c x false → (s.cpus c).mode = .run q →
        (s.threads q).yield = .idle → (s.threads q).pos = .op (.waitTest addr i k) →
        addr ≠ 0 → (s.slots i).state = .ZOMBIE →
        s'.slots = s.slots ∧ (s'.threads q).pos.returning = some (-1, k) := by
  have hsound := h.sound
  obtain ⟨hpaired, hsettled⟩ := h.settled
  refine ⟨hpaired, hsettled, fun i hne hi => ?_, fun hlock q c addr k hsl hpos i hparent =>
    hsound.no_zombie_child hlock hsl hpos hparent, fun a s' hstep => ⟨fun i hz =>
      hsound.placed.zombie_step hstep hz, fun q i pid st hev => ?_, fun q r k hpos => ?_, ?_⟩⟩
  · obtain ⟨q, hq⟩ := Option.ne_none_iff_exists'.mp (hsound.family.created i hne hi)
    have hal := hsound.family.alive i q hq
    refine ⟨q, hq, ?_, ?_⟩ <;> intro hstate <;> rw [hstate] at hal <;> cases hal
  · obtain ⟨rfl, -, hz, -, addr, k, ht, hslots, hthreads⟩ := Machine.event_wait hev hstep
    refine ⟨hsound.tested q addr i k (by rw [ht]), hz, by rw [hslots]; simp, k, ?_⟩
    rw [hthreads]
    simp [Pos.returning]
  · rcases hsound.live.thread_step hsound.placed hstep (Pos.dead_of_returning hpos) with
      heq | hown
    · exact .inl (by rw [heq, hpos])
    · obtain ⟨c, x, ok, instr, data, -, hnext, -⟩ := hown
      exact Thread.next_returning hnext hpos
  · rintro c x q addr i k rfl hm hy hpos haddr hz
    exact Machine.step_waitTest_fails hstep hm hy hpos haddr hz

/-- The processes are a tree: from each of them the parents lead to init. -/
theorem Runs.descends {cl : Client κ δ ι} {log : List Event} {s : Machine κ δ}
    (h : Runs cl log s) (i : Nat) (hi : (s.slots i).state.created = true) : s.Descends i := by
  induction h generalizing i with
  | boot k data =>
      by_cases hinit : i = initproc
      · exact hinit ▸ .refl
      · simp [Sched.boot, hinit, ProcState.created] at hi
  | @step log s s' a hrun hstep ih =>
      have hs := hrun.sound
      by_cases hinit : i = initproc
      · exact hinit ▸ .refl
      · have hf' := (hs.step hstep).family
        obtain ⟨q, hq⟩ := Option.ne_none_iff_exists'.mp (hf'.created i hinit hi)
        have hlead (hal : (s.slots q).state.alive = true) : s'.Descends i :=
          .head hq (hs.family.descends_step hs.placed hstep hal
            (ih q (ProcState.created_of_alive hal)))
        rcases Family.parent_step hs.placed hstep hq with hold | ⟨pid, k, -, hstate⟩ | ⟨rfl, -⟩
        · exact hlead (hs.family.alive i q hold)
        · exact hlead (by rw [hstate]; rfl)
        · exact .single hq

namespace WaitWitness

/-- Take actions in order and keep the history. -/
def runLog : List Event → Machine Unit Unit → List (Action (Call Unit)) →
    Option (List Event × Machine Unit Unit)
  | log, s, [] => some (log, s)
  | log, s, a :: rest =>
      match s.step anyClient a with
      | some (.ok s') => runLog ((s.event anyClient a).toList ++ log) s' rest
      | _ => none

theorem runs_runLog {log log' : List Event} {s s' : Machine Unit Unit}
    {acts : List (Action (Call Unit))} (h : Runs anyClient log s)
    (hrun : runLog log s acts = some (log', s')) : Runs anyClient log' s' := by
  induction acts generalizing log s with
  | nil =>
      cases hrun
      exact h
  | cons a rest ih =>
      simp only [runLog] at hrun
      split at hrun
      · next hs => exact ih (.step h hs) hrun
      · cases hrun

/-- The first process forks and sleeps in wait; its child exits with status 7 and wakes it;
on a third CPU, wait takes the child. -/
def collected : Option (List Event × Machine Unit Unit) :=
  runLog [] (boot () ()) (steps 0 4 ++ [.step 0 (.fork () ()) true] ++ steps 0 14 ++
    steps 1 7 ++ [.step 0 (.wait 8 ()) true] ++ steps 0 79 ++ [.step 1 (.exit 7) true] ++
    steps 1 264 ++ steps 2 9)

theorem collected_isSome : collected.isSome = true := by decide +kernel

def after : Machine Unit Unit := (collected.get collected_isSome).2

theorem after_runs : Runs anyClient [.wait 0 1 2 7, .exit 1 2 7] after := by
  have hlog : (collected.get collected_isSome).1 = [.wait 0 1 2 7, .exit 1 2 7] := by
    decide +kernel
  have hget : collected = some ((collected.get collected_isSome).1, after) := by
    rw [after, Prod.eta, Option.some_get]
  rw [← hlog]
  exact runs_runLog (.boot () ()) hget

/-- In this run the wait takes the child that has exited, and its slot is free again. -/
theorem exit_wait_fork : Runs anyClient [.wait 0 1 2 7, .exit 1 2 7] after ∧
    Paired [.wait 0 1 2 7, .exit 1 2 7] ∧ Settled after [.wait 0 1 2 7, .exit 1 2 7] 1 ∧
    (after.slots 1).state = .UNUSED :=
  ⟨after_runs, (exit_wait anyClient after_runs).1, (exit_wait anyClient after_runs).2.1 1,
    by decide +kernel⟩

/-- The first process forks. -/
def forked : Option (List Event × Machine Unit Unit) :=
  runLog [] (boot () ()) (steps 0 4 ++ [.step 0 (.fork () ()) true] ++ steps 0 14)

theorem descends_fork : ∃ r ∈ forked, (r.2.slots 1).parent = some 0 ∧ r.2.Descends 1 :=
  have hrun := runs_runLog (.boot () ()) (Option.some_get (x := forked) rfl).symm
  ⟨forked.get rfl, Option.get_mem _, by decide +kernel, hrun.descends 1 (by decide +kernel)⟩

end WaitWitness

end Xv6.Sched
