/-
Parents and children.  `SlotStep` says what a step can do to a slot and where the thread
that does it is; the invariant says that a parent is alive, and that reparent has left no
child behind.
-/
import Xv6.Sched.Live

namespace Xv6.Sched

variable {κ δ ι : Type}

/-- The states of a process that has started and not exited. -/
def ProcState.alive : ProcState → Bool
  | .SLEEPING | .RUNNABLE | .RUNNING => true
  | _ => false

/-- The states of a process that fork has finished creating. -/
def ProcState.created : ProcState → Bool
  | .UNUSED | .USED => false
  | _ => true

theorem ProcState.created_of_alive {st : ProcState} (h : st.alive = true) : st.created = true := by
  cases st <;> first | rfl | cases h

/-- The parents of the process lead to init. -/
def Machine.Descends (s : Machine κ δ) (i : Nat) : Prop :=
  Relation.ReflTransGen (fun i q => (s.slots i).parent = some q) i initproc

/-- What the history records: a process calls exit; a wait of `q` takes a child. -/
inductive Event
  | exit (i : Nat) (pid status : Int)
  | wait (q i : Nat) (pid status : Int)
deriving DecidableEq, Repr

/-- The event of an action. -/
def Machine.event (cl : Client κ δ ι) (s : Machine κ δ) : Action ι → Option Event
  | .timer _ => none
  | .step c x ok =>
      match (s.cpus c).mode with
      | .run i =>
          if (s.threads i).yield = .idle then
            match (s.threads i).pos with
            | .op (.client k) =>
                match cl.step i k (s.threads i).ret s.data x with
                | some (.exit st, _) => some (.exit i (s.slots i).pid st)
                | _ => none
            | .op (.waitTest addr j _) =>
                if (s.slots j).state = .ZOMBIE ∧ ¬ (addr ≠ 0 ∧ ok = false) then
                  some (.wait i j (s.slots j).pid (s.slots j).xstate)
                else none
            | _ => none
          else none
      | _ => none

section positions

variable {cl : Client κ δ ι} {slots : Nat → Slot} {data data' : δ} {i : Nat} {x : ι}
  {ok : Bool} {t t' : Thread κ} {instr : Instr κ}

/-- Where a thread is when it changes a parent, or the state of a slot other than its own. -/
def SlotPos (slots : Nat → Slot) (i : Nat) (ok : Bool) (t t' : Thread κ) : Instr κ → Prop
  | .alloc j => ∃ k child, t.pos = .op (.forkTest j k child) ∧ (slots j).state = .UNUSED
  | .update j .free => (∃ k child, t.pos = .op (.forkBuild j k child)) ∨
      ∃ addr k, t.yield = .idle ∧ t.pos = .op (.waitTest addr j k) ∧
        (slots j).state = .ZOMBIE ∧ ¬ (addr ≠ 0 ∧ ok = false) ∧
        t'.pos = .op (.waitUnlock j (slots j).pid k)
  | .update j (.exit st) => j = i ∧ t.pos = .op (.exitMark st) ∧ t'.pos = .op .exitWaitUnlock
  | .update j (.parent q) => (q = i ∧ ∃ pid k, t.pos = .op (.forkParent j pid k)) ∨
      ∃ st, t.pos = .op (.exitReparent st j) ∧ (slots j).parent = some i ∧ q = initproc ∧
        t'.pos = .sub (.wakeup (some (.proc initproc)) 0) (.exitReparent st (j + 1))
  | .update j .ready => ∃ pid k, t.pos = .op (.forkReady j pid k)
  | _ => True

theorem Thread.next_slotPos (h : t.next cl slots data i x ok = some (instr, t', data')) :
    SlotPos slots i ok t t' instr := by
  cases Thread.next_cases h with
  | acquire hy | ready hy | swtch hy | release hy => trivial
  | client hy hpos hnext =>
      rename_i k call
      cases call <;> simp only [Call.next] <;> (try split) <;> trivial
  | sub hy hpos hnext =>
      rename_i c back p r
      cases c <;> simp only [Sub.next] at hnext <;> (try split at hnext) <;>
        (try split at hnext) <;> cases hnext <;> trivial
  | op hy hpos hclient hnext =>
      rename_i o p r
      cases o <;> simp only [Op.next] at hnext <;> (try split at hnext) <;>
        (try split at hnext) <;> cases hnext <;> simp_all [SlotPos]

end positions

/-- The same process goes on: it may be put to sleep, woken or scheduled. -/
structure Slot.Continues (p p' : Slot) : Prop where
  parent : p'.parent = p.parent
  pid : p'.pid = p.pid
  xstate : p'.xstate = p.xstate
  state : p'.state = p.state ∨ p.state.alive = true ∧ p'.state.alive = true

theorem Slot.Continues.refl (p : Slot) : p.Continues p := ⟨rfl, rfl, rfl, .inl rfl⟩

theorem Slot.continues_wakeup (p : Slot) (ch : Option Chan) :
    p.Continues ((Update.wakeup ch).apply p) := by
  by_cases hsl : p.state = .SLEEPING ∧ p.chan = ch
  · constructor <;> simp [Update.apply, hsl, ProcState.alive]
  · constructor <;> simp [Update.apply, hsl]

theorem Slot.continues_kill (p : Slot) : p.Continues (Update.kill.apply p) := by
  by_cases hsl : p.state = .SLEEPING
  · constructor <;> simp [Update.apply, hsl, ProcState.alive]
  · constructor <;> simp [Update.apply, hsl]

/-- What a step can do to a slot. -/
inductive SlotStep (cl : Client κ δ ι) (s s' : Machine κ δ) (a : Action ι) (j : Nat) : Prop
  | keep (h : (s.slots j).Continues (s'.slots j))
  | alloc (hunused : (s.slots j).state = .UNUSED)
      (hslot : s'.slots j = { s.slots j with pid := s.nextpid, state := .USED })
  | undo (i : Nat) (k child : κ) (hpos : (s.threads i).pos = .op (.forkBuild j k child))
      (hslot : s'.slots j = {})
  | collect (q addr : Nat) (k : κ) (hpos : (s.threads q).pos = .op (.waitTest addr j k))
      (hzombie : (s.slots j).state = .ZOMBIE)
      (hevent : s.event cl a = some (.wait q j (s.slots j).pid (s.slots j).xstate))
      (hpos' : (s'.threads q).pos = .op (.waitUnlock j (s.slots j).pid k))
      (hslot : s'.slots j = {})
  | exit (st : Int) (hpos : (s.threads j).pos = .op (.exitMark st))
      (hrun : (s.slots j).state = .RUNNING)
      (hpos' : (s'.threads j).pos = .op .exitWaitUnlock)
      (hslot : s'.slots j = { s.slots j with xstate := st, state := .ZOMBIE })
  | adopt (q : Nat) (pid : Int) (k : κ) (hpos : (s.threads q).pos = .op (.forkParent j pid k))
      (hrun : (s.slots q).state = .RUNNING)
      (hslot : s'.slots j = { s.slots j with parent := some q })
  | reparent (e : Nat) (st : Int) (hpos : (s.threads e).pos = .op (.exitReparent st j))
      (hparent : (s.slots j).parent = some e)
      (hpos' : (s'.threads e).pos =
        .sub (.wakeup (some (.proc initproc)) 0) (.exitReparent st (j + 1)))
      (hslot : s'.slots j = { s.slots j with parent := some initproc })
  | ready (q : Nat) (pid : Int) (k : κ) (hpos : (s.threads q).pos = .op (.forkReady j pid k))
      (hslot : s'.slots j = { s.slots j with state := .RUNNABLE })

theorem Placed.slot_step {cl : Client κ δ ι} {s s' : Machine κ δ} {a : Action ι}
    (hs : Placed s) (hstep : s.step cl a = some (.ok s')) (j : Nat) :
    SlotStep cl s s' a j := by
  cases Machine.step_cases hstep with
  | schedule hm hrun hsched =>
      rcases (Machine.schedule_frame hsched).2.2 j with heq | ⟨hold, heq⟩
      · exact .keep (heq ▸ .refl _)
      · refine .keep ⟨by rw [heq], by rw [heq], by rw [heq], .inr ?_⟩
        rw [heq, hold]
        exact ⟨rfl, rfl⟩
  | timer hm hheld hidle heq =>
      subst heq
      exact .keep (.refl _)
  | thread hm hnext hexec =>
      rename_i c i x ok instr t data
      have heff := Thread.next_effect (hs.wf i) hnext
      have hslotPos := Thread.next_slotPos hnext
      have hthread : ∀ u k, instr = .update k u → s'.threads i = t := by
        rintro u k rfl
        cases hexec
        exact Function.update_self ..
      rcases Machine.exec_slots hexec with heq | ⟨k, u, hinstr, heq⟩ | ⟨k, hinstr, heq⟩
      · exact .keep (heq ▸ .refl _)
      · by_cases hjk : j = k
        · subst hjk
          have hslot : s'.slots j = u.apply (s.slots j) := by rw [heq, Function.update_self]
          have ht := hthread u j hinstr
          rw [hinstr] at hslotPos heff
          have hrun := hs.state_of_run hm (heff.calm (by simp) (by simp))
          cases u with
          | parent q =>
              rcases hslotPos with ⟨rfl, pid, k, hpos⟩ | ⟨st, hpos, hparent, rfl, hpos'⟩
              · exact .adopt q pid k hpos hrun hslot
              · exact .reparent i st hpos hparent (by rw [ht, hpos']) hslot
          | exit st =>
              obtain ⟨rfl, hpos, hpos'⟩ := hslotPos
              exact .exit st hpos hrun (by rw [ht, hpos']) hslot
          | ready =>
              obtain ⟨pid, k, hpos⟩ := hslotPos
              exact .ready i pid k hpos hslot
          | free =>
              rcases hslotPos with ⟨k, child, hpos⟩ | ⟨addr, k, hy, hpos, hz, haddr, hpos'⟩
              · exact .undo i k child hpos hslot
              · have hevent : s.event cl (.step c x ok) =
                    some (.wait i j (s.slots j).pid (s.slots j).xstate) := by
                  simp only [Machine.event, hm, hy, hpos, if_true]
                  rw [if_pos ⟨hz, haddr⟩]
                exact .collect i addr k hpos hz hevent (by rw [ht, hpos']) hslot
          | wakeup ch => exact .keep (hslot ▸ Slot.continues_wakeup _ ch)
          | kill => exact .keep (hslot ▸ Slot.continues_kill _)
          | clearChan => exact .keep (hslot ▸ ⟨rfl, rfl, rfl, .inl rfl⟩)
          | sleep ch | yield =>
              obtain ⟨rfl, -⟩ := heff.effect
              exact .keep (hslot ▸ ⟨rfl, rfl, rfl, .inr ⟨by rw [hrun]; rfl, rfl⟩⟩)
        · have hslot : s'.slots j = s.slots j := by
            rw [heq, Function.update_of_ne hjk]
          exact .keep (hslot ▸ .refl _)
      · by_cases hjk : j = k
        · subst hjk
          rw [hinstr] at hslotPos
          obtain ⟨k, child, -, hunused⟩ := hslotPos
          exact .alloc hunused (by rw [heq, Function.update_self])
        · have hslot : s'.slots j = s.slots j := by
            rw [heq, Function.update_of_ne hjk]
          exact .keep (hslot ▸ .refl _)

/-- The slots that reparent has gone over for a thread in exit. -/
def Pos.cleared : Pos κ → Option Nat
  | .op (.exitReparent _ j) | .sub _ (.exitReparent _ j) => some j
  | .op (.exitLock _) | .op (.exitMark _) | .sub _ (.exitLock _) => some NPROC
  | _ => none

/-- The status of a call of exit in progress. -/
def Pos.exitStatus : Pos κ → Option Int
  | .op (.exit st) | .op (.exitReparent st _) | .sub _ (.exitReparent st _)
  | .sub _ (.exitLock st) | .op (.exitLock st) | .op (.exitMark st) => some st
  | _ => none

/-- The new process of a fork that has set its parent and not yet its state. -/
def Pos.linked : Pos κ → Option Nat
  | .op (.forkWaitUnlock np ..) | .op (.forkLock np ..) | .op (.forkReady np ..) => some np
  | _ => none

section positions

variable {cl : Client κ δ ι} {slots : Nat → Slot} {data data' : δ} {i : Nat} {x : ι}
  {ok : Bool} {t t' : Thread κ} {instr : Instr κ} {n : Nat}

/-- reparent passes a slot when it is no child, or after it has given it to init. -/
theorem Thread.next_cleared (h : t.next cl slots data i x ok = some (instr, t', data'))
    (hn : t'.pos.cleared = some n) :
    n = 0 ∨ ∃ m, t.pos.cleared = some m ∧ (n ≤ m ∨ n = m + 1 ∧
      ((slots m).parent ≠ some i ∨ instr = .update m (.parent initproc))) := by
  cases Thread.next_cases h with
  | acquire hy | ready hy | swtch hy | release hy => exact .inr ⟨n, hn, .inl (Nat.le_refl n)⟩
  | client hy hpos hnext =>
      rename_i k call
      cases call <;> simp only [Call.next] at hn <;> (try split at hn) <;> cases hn
  | sub hy hpos hnext =>
      rename_i c back p r
      rw [hpos]
      cases c <;> simp only [Sub.next] at hnext <;> (try split at hnext) <;>
        (try split at hnext) <;> cases hnext <;> cases back <;> cases hn <;>
        simp [Pos.cleared]
  | op hy hpos hclient hnext =>
      rename_i o p r
      rw [hpos]
      cases o <;> simp only [Op.next] at hnext <;> (try split at hnext) <;>
        (try split at hnext) <;> cases hnext <;> cases hn <;> simp_all [Pos.cleared]

theorem Thread.next_linked (h : t.next cl slots data i x ok = some (instr, t', data'))
    (hn : t'.pos.linked = some n) :
    t.pos.linked = some n ∨ instr = .update n (.parent i) := by
  cases Thread.next_cases h with
  | acquire hy | ready hy | swtch hy | release hy => exact .inl hn
  | client hy hpos hnext =>
      rename_i k call
      cases call <;> simp only [Call.next] at hn <;> (try split at hn) <;> cases hn
  | sub hy hpos hnext =>
      rename_i c back p r
      cases c <;> simp only [Sub.next] at hnext <;> (try split at hnext) <;>
        (try split at hnext) <;> cases hnext <;> cases back <;> cases hn
  | op hy hpos hclient hnext =>
      rename_i o p r
      rw [hpos]
      cases o <;> simp only [Op.next] at hnext <;> (try split at hnext) <;>
        (try split at hnext) <;> cases hnext <;> cases hn <;> simp [Pos.linked]

/-- A thread is in exit because it was before, or because its client has called exit. -/
theorem Thread.next_exitStatus (h : t.next cl slots data i x ok = some (instr, t', data')) :
    t'.pos.exitStatus = t.pos.exitStatus ∨
      (t.yield = .idle ∧ ∃ k st, t.pos = .op (.client k) ∧
        cl.step i k t.ret data x = some (.exit st, data') ∧ t'.pos = .op (.exit st) ∧
        (i ≠ initproc ∨ instr = .panic "init exiting")) ∨
      ∃ st, t.pos = .op (.exitMark st) ∧ instr = .update i (.exit st) ∧
        t'.pos = .op .exitWaitUnlock := by
  cases Thread.next_cases h with
  | acquire hy | ready hy | swtch hy | release hy => exact .inl rfl
  | client hy hpos hnext =>
      rename_i k call
      cases call with
      | exit st =>
          refine .inr (.inl ⟨hy, k, st, hpos, hnext, ?_⟩)
          by_cases hi : i = initproc
          · simp [Call.next, hi]
          · simp [Call.next, hi]
      | _ => exact .inl (by rw [hpos]; rfl)
  | sub hy hpos hnext =>
      rename_i c back p r
      rw [hpos]
      cases c <;> simp only [Sub.next] at hnext <;> (try split at hnext) <;>
        (try split at hnext) <;> cases hnext <;> cases back <;> exact .inl rfl
  | op hy hpos hclient hnext =>
      rename_i o p r
      rw [hpos]
      cases o <;> simp only [Op.next] at hnext <;> (try split at hnext) <;>
        (try split at hnext) <;> cases hnext <;> first
        | exact .inl rfl
        | exact .inr (.inr ⟨_, rfl, rfl, rfl⟩)

end positions

/-- Parents are alive, init is their root, and exit leaves no child behind. -/
structure Family (s : Machine κ δ) : Prop where
  free : ∀ i, (s.slots i).state = .UNUSED → (s.slots i).parent = none
  alive : ∀ i q, (s.slots i).parent = some q → (s.slots q).state.alive = true
  created : ∀ i, i ≠ initproc → (s.slots i).state.created = true → (s.slots i).parent ≠ none
  strict : ∀ i, (s.slots i).parent ≠ some i
  root : (s.slots initproc).state.alive = true ∧ (s.slots initproc).parent = none ∧
    (s.threads initproc).pos.exitStatus = none
  linked : ∀ i np, (s.threads i).pos.linked = some np → (s.slots np).parent ≠ none
  cleared : ∀ e n, (s.threads e).pos.cleared = some n → ∀ k < n, (s.slots k).parent ≠ some e

theorem Pos.child_of_linked {p : Pos κ} {np : Nat} (h : p.linked = some np) :
    p.child = some (np, true) := by
  rcases p with o | ⟨c, back⟩
  · cases o <;> cases h <;> rfl
  · cases h

theorem Pos.exitStatus_of_cleared {p : Pos κ} {n : Nat} (h : p.cleared = some n) :
    p.exitStatus ≠ none := by
  rcases p with o | ⟨c, back⟩
  · cases o <;> cases h <;> simp [Pos.exitStatus]
  · cases back <;> cases h <;> simp [Pos.exitStatus]

namespace Family

variable {cl : Client κ δ ι} {s s' : Machine κ δ} {a : Action ι} {i e q np n k : Nat}

/-- A process stays alive until it marks itself as a ZOMBIE. -/
theorem alive_step (hs : Placed s) (hstep : s.step cl a = some (.ok s'))
    (hq : (s.slots q).state.alive = true) :
    (s'.slots q).state.alive = true ∨ ∃ st, (s.threads q).pos = .op (.exitMark st) := by
  cases hs.slot_step hstep q with
  | keep hc =>
      rcases hc.state with heq | ⟨-, hal⟩
      · exact .inl (heq ▸ hq)
      · exact .inl hal
  | alloc hunused hslot =>
      rw [hunused] at hq
      cases hq
  | undo i k child hpos hslot =>
      rw [(hs.child i q false (by rw [hpos]; rfl)).1] at hq
      cases hq
  | collect q' addr k hpos hzombie hevent hpos' hslot =>
      rw [hzombie] at hq
      cases hq
  | exit st hpos hrun hpos' hslot => exact .inr ⟨st, hpos⟩
  | adopt q' pid k hpos hrun hslot => exact .inl (by rw [hslot]; exact hq)
  | reparent e st hpos hparent hpos' hslot => exact .inl (by rw [hslot]; exact hq)
  | ready q' pid k hpos hslot => exact .inl (by rw [hslot]; rfl)

/-- A new parent is the caller of fork, or init. -/
theorem parent_step (hs : Placed s) (hstep : s.step cl a = some (.ok s'))
    (hi : (s'.slots i).parent = some q) :
    (s.slots i).parent = some q ∨
      (∃ pid k, (s.threads q).pos = .op (.forkParent i pid k) ∧
        (s.slots q).state = .RUNNING) ∨
      q = initproc ∧ ∃ e st, (s.threads e).pos = .op (.exitReparent st i) ∧
        (s.slots i).parent = some e := by
  cases hs.slot_step hstep i with
  | keep hc => exact .inl (hc.parent ▸ hi)
  | alloc hunused hslot =>
      rw [hslot] at hi
      exact .inl hi
  | undo i' k child hpos hslot =>
      rw [hslot] at hi
      cases hi
  | collect q' addr k hpos hzombie hevent hpos' hslot =>
      rw [hslot] at hi
      cases hi
  | exit st hpos hrun hpos' hslot =>
      rw [hslot] at hi
      exact .inl hi
  | adopt q' pid k hpos hrun hslot =>
      rw [hslot] at hi
      cases hi
      exact .inr (.inl ⟨pid, k, hpos, hrun⟩)
  | reparent e st hpos hparent hpos' hslot =>
      rw [hslot] at hi
      cases hi
      exact .inr (.inr ⟨rfl, e, st, hpos, hparent⟩)
  | ready q' pid k hpos hslot =>
      rw [hslot] at hi
      exact .inl hi

theorem init_alive_step (h : Family s) (hs : Placed s) (hstep : s.step cl a = some (.ok s')) :
    (s'.slots initproc).state.alive = true := by
  rcases alive_step hs hstep h.root.1 with hal | ⟨st, hpos⟩
  · exact hal
  · have hnone := h.root.2.2
    rw [hpos] at hnone
    cases hnone

/-- exit has given all its children away when it marks itself. -/
theorem parent_ne_of_mark (h : Family s) (hl : Live s) {st : Int}
    (hpos : (s.threads q).pos = .op (.exitMark st)) (i : Nat) :
    (s.slots i).parent ≠ some q := by
  by_cases hi : i < NPROC
  · exact h.cleared q NPROC (by rw [hpos]; rfl) i hi
  · rw [h.free i (hl.bound i (Nat.le_of_not_lt hi))]
    simp

theorem free_step (h : Family s) (hs : Placed s) (hstep : s.step cl a = some (.ok s'))
    (hi : (s'.slots i).state = .UNUSED) : (s'.slots i).parent = none := by
  cases hs.slot_step hstep i with
  | keep hc =>
      rcases hc.state with heq | ⟨-, hal⟩
      · rw [hc.parent]
        exact h.free i (heq ▸ hi)
      · rw [hi] at hal
        cases hal
  | alloc hunused hslot =>
      rw [hslot] at hi
      cases hi
  | undo i' k child hpos hslot => rw [hslot]
  | collect q' addr k hpos hzombie hevent hpos' hslot => rw [hslot]
  | exit st hpos hrun hpos' hslot =>
      rw [hslot] at hi
      cases hi
  | adopt q' pid k hpos hrun hslot =>
      rw [hslot] at hi
      rw [(hs.child q' i true (by rw [hpos]; rfl)).1] at hi
      cases hi
  | reparent e st hpos hparent hpos' hslot =>
      rw [hslot] at hi
      rw [h.free i hi] at hparent
      cases hparent
  | ready q' pid k hpos hslot =>
      rw [hslot] at hi
      cases hi

theorem parent_alive_step (h : Family s) (hs : Placed s) (hl : Live s)
    (hstep : s.step cl a = some (.ok s')) (hi : (s'.slots i).parent = some q) :
    (s'.slots q).state.alive = true := by
  rcases parent_step hs hstep hi with hold | ⟨pid, k, hpos, hrun⟩ | ⟨rfl, -⟩
  · rcases alive_step hs hstep (h.alive i q hold) with hal | ⟨st, hmark⟩
    · exact hal
    · exact absurd hold (h.parent_ne_of_mark hl hmark i)
  · rcases alive_step hs hstep (q := q) (by rw [hrun]; rfl) with hal | ⟨st, hmark⟩
    · exact hal
    · rw [hpos] at hmark
      cases hmark
  · exact h.init_alive_step hs hstep

/-- A parent is forgotten only with the process. -/
theorem parent_ne_none_step (hs : Placed s) (hstep : s.step cl a = some (.ok s'))
    (hi : (s.slots i).parent ≠ none) : (s'.slots i).parent ≠ none ∨
      ((∃ i' k child, (s.threads i').pos = .op (.forkBuild i k child)) ∨
        (s.slots i).state = .ZOMBIE) ∧ (s'.slots i).state = .UNUSED := by
  cases hs.slot_step hstep i with
  | keep hc => exact .inl (hc.parent ▸ hi)
  | alloc hunused hslot => exact .inl (by rw [hslot]; exact hi)
  | undo i' k child hpos hslot => exact .inr ⟨.inl ⟨i', k, child, hpos⟩, by rw [hslot]⟩
  | collect q' addr k hpos hzombie hevent hpos' hslot =>
      exact .inr ⟨.inr hzombie, by rw [hslot]⟩
  | exit st hpos hrun hpos' hslot => exact .inl (by rw [hslot]; exact hi)
  | adopt q' pid k hpos hrun hslot => exact .inl (by rw [hslot]; simp)
  | reparent e st hpos hparent hpos' hslot => exact .inl (by rw [hslot]; simp)
  | ready q' pid k hpos hslot => exact .inl (by rw [hslot]; exact hi)

theorem created_step (h : Family s) (hs : Placed s) (hstep : s.step cl a = some (.ok s'))
    (hne : i ≠ initproc) (hi : (s'.slots i).state.created = true) :
    (s'.slots i).parent ≠ none := by
  have hold : (s.slots i).parent ≠ none → (s'.slots i).parent ≠ none := by
    intro hp
    rcases parent_ne_none_step hs hstep hp with hkeep | ⟨-, hunused⟩
    · exact hkeep
    · rw [hunused] at hi
      cases hi
  cases hs.slot_step hstep i with
  | keep hc =>
      apply hold
      apply h.created i hne
      rcases hc.state with heq | ⟨hal, -⟩
      · exact heq ▸ hi
      · revert hal
        cases (s.slots i).state <;> simp [ProcState.alive, ProcState.created]
  | alloc hunused hslot =>
      rw [hslot] at hi
      cases hi
  | undo i' k child hpos hslot =>
      rw [hslot] at hi
      cases hi
  | collect q' addr k hpos hzombie hevent hpos' hslot =>
      rw [hslot] at hi
      cases hi
  | exit st hpos hrun hpos' hslot => exact hold (h.created i hne (by rw [hrun]; rfl))
  | adopt q' pid k hpos hrun hslot =>
      rw [hslot]
      simp
  | reparent e st hpos hparent hpos' hslot =>
      rw [hslot]
      simp
  | ready q' pid k hpos hslot => exact hold (h.linked q' i (by rw [hpos]; rfl))

theorem strict_step (h : Family s) (hs : Placed s) (hstep : s.step cl a = some (.ok s')) :
    (s'.slots i).parent ≠ some i := by
  intro hi
  rcases parent_step hs hstep hi with hold | ⟨pid, k, hpos, hrun⟩ | ⟨rfl, e, st, -, hparent⟩
  · exact h.strict i hold
  · rw [(hs.child i i true (by rw [hpos]; rfl)).1] at hrun
    cases hrun
  · rw [h.root.2.1] at hparent
    cases hparent

theorem root_step (h : Family s) (hs : Placed s) (hstep : s.step cl a = some (.ok s')) :
    (s'.slots initproc).parent = none ∧ (s'.threads initproc).pos.exitStatus = none := by
  constructor
  · by_contra hne
    obtain ⟨q, hq⟩ := Option.ne_none_iff_exists'.mp hne
    rcases parent_step hs hstep hq with hold | ⟨pid, k, hpos, -⟩ | ⟨-, e, st, -, hparent⟩
    · rw [h.root.2.1] at hold
      cases hold
    · have hal := h.root.1
      rw [(hs.child q initproc true (by rw [hpos]; rfl)).1] at hal
      cases hal
    · rw [h.root.2.1] at hparent
      cases hparent
  · rcases Machine.pos_cases hstep initproc with heq |
      ⟨c, x, ok, instr, t, data, -, -, ht, hnext, hexec⟩ | ⟨k, hk⟩
    · rw [heq]
      exact h.root.2.2
    · rw [ht]
      rcases Thread.next_exitStatus hnext with heq | ⟨-, k, st, -, -, -, hinit⟩ | ⟨st, hpos, -⟩
      · rw [heq]
        exact h.root.2.2
      · rcases hinit with hinit | rfl
        · exact absurd rfl hinit
        · cases hexec
      · have hnone := h.root.2.2
        rw [hpos] at hnone
        cases hnone
    · rw [hk]
      rfl

theorem linked_step (h : Family s) (hs : Placed s) (hstep : s.step cl a = some (.ok s'))
    (hlinked : (s'.threads i).pos.linked = some np) : (s'.slots np).parent ≠ none := by
  have hkeep : (s.threads i).pos.linked = some np → (s'.slots np).parent ≠ none := by
    intro hold
    have hchild := Pos.child_of_linked hold
    rcases parent_ne_none_step hs hstep (h.linked i np hold) with hp |
      ⟨⟨i', k, child, hpos⟩ | hz, -⟩
    · exact hp
    · have heq := hs.children i i' np true false hchild (by rw [hpos]; rfl)
      subst heq
      rw [hpos] at hold
      cases hold
    · rw [(hs.child i np true hchild).1] at hz
      cases hz
  rcases Machine.pos_cases hstep i with heq |
    ⟨c, x, ok, instr, t, data, -, -, ht, hnext, hexec⟩ | ⟨k, hk⟩
  · exact hkeep (heq ▸ hlinked)
  · rw [ht] at hlinked
    rcases Thread.next_linked hnext hlinked with hold | rfl
    · exact hkeep hold
    · cases hexec
      simp [Machine.setSlot, Update.apply]
  · rw [hk] at hlinked
    cases hlinked

theorem cleared_step (h : Family s) (hs : Placed s) (hstep : s.step cl a = some (.ok s'))
    (he : (s'.threads e).pos.cleared = some n) (hk : k < n) :
    (s'.slots k).parent ≠ some e := by
  have hinit : e ≠ initproc := by
    rintro rfl
    exact Pos.exitStatus_of_cleared he (h.root_step hs hstep).2
  -- A slot becomes a child of `e` only by its own call of fork.
  have hother : ∀ m, (s.threads e).pos.cleared = some m → (s.slots k).parent ≠ some e →
      (s'.slots k).parent ≠ some e := by
    intro m hm hold hnew
    rcases parent_step hs hstep hnew with hp | ⟨pid, k', hpos, -⟩ | ⟨hp, -⟩
    · exact hold hp
    · rw [hpos] at hm
      cases hm
    · exact hinit hp
  rcases Machine.pos_cases hstep e with heq |
    ⟨c, x, ok, instr, t, data, -, -, ht, hnext, hexec⟩ | ⟨k', hk'⟩
  · rw [heq] at he
    exact hother n he (h.cleared e n he k hk)
  · rw [ht] at he
    rcases Thread.next_cleared hnext he with rfl | ⟨m, hm, hle | ⟨rfl, hcase⟩⟩
    · omega
    · exact hother m hm (h.cleared e m hm k (by omega))
    · by_cases hkm : k < m
      · exact hother m hm (h.cleared e m hm k hkm)
      · have hkm : k = m := by omega
        subst hkm
        rcases hcase with hne | rfl
        · exact hother k hm hne
        · cases hexec
          simpa [Machine.setSlot, Update.apply] using Ne.symm hinit
  · rw [hk'] at he
    cases he

theorem step (h : Family s) (hs : Placed s) (hl : Live s)
    (hstep : s.step cl a = some (.ok s')) : Family s' where
  free _ hi := h.free_step hs hstep hi
  alive _ _ hi := h.parent_alive_step hs hl hstep hi
  created _ hne hi := h.created_step hs hstep hne hi
  strict _ := h.strict_step hs hstep
  root := ⟨h.init_alive_step hs hstep, h.root_step hs hstep⟩
  linked _ _ hi := h.linked_step hs hstep hi
  cleared _ _ he _ hk := h.cleared_step hs hstep he hk

/-- The parents of a process that is alive stay, or init takes their place. -/
theorem descends_step (h : Family s) (hs : Placed s) (hstep : s.step cl a = some (.ok s'))
    (hi : (s.slots i).state.alive = true) (hd : s.Descends i) : s'.Descends i := by
  induction hd using Relation.ReflTransGen.head_induction_on with
  | refl => exact .refl
  | @head i q hq _ ih =>
      rcases parent_ne_none_step hs hstep (by rw [hq]; simp) with
        hne | ⟨⟨j, k, child, hpos⟩ | hzombie, -⟩
      · obtain ⟨q', hq'⟩ := Option.ne_none_iff_exists'.mp hne
        rcases parent_step hs hstep hq' with hold | ⟨pid, k, hpos, -⟩ | ⟨rfl, -⟩
        · cases hq.symm.trans hold
          exact .head hq' (ih (h.alive i q hq))
        · rw [(hs.child q' i true (by rw [hpos]; rfl)).1] at hi
          cases hi
        · exact .single hq'
      · rw [(hs.child j i false (by rw [hpos]; rfl)).1] at hi
        cases hi
      · rw [hzombie] at hi
        cases hi

theorem boot (k : κ) (data : δ) : Family (boot k data) := by
  constructor
  case free | created =>
    intro i
    by_cases hi : i = initproc <;> simp [Sched.boot, hi, ProcState.created]
  case alive | strict =>
    intro i
    by_cases hi : i = initproc <;> simp [Sched.boot, hi]
  case root => simp [Sched.boot, ProcState.alive, Pos.exitStatus]
  case linked => simp [Sched.boot, Pos.linked]
  case cleared => simp [Sched.boot, Pos.cleared]

end Family

end Xv6.Sched
