/-
kill.  The scan compares pids and looks at no state, and a free slot has pid 0.
-/
import Xv6.Sched.Live

namespace Xv6.Sched

open Transition

variable {κ δ ι : Type}

/-- `kill` from slot `j` on, with `n` slots to go. -/
def killFrom (slots : Nat → Slot) (pid : Int) : Nat → Nat → Int × (Nat → Slot)
  | 0, _ => (-1, slots)
  | n + 1, j =>
      if (slots j).pid = pid then
        (0, Function.update slots j (Update.kill.apply (slots j)))
      else killFrom slots pid n (j + 1)

def kill (slots : Nat → Slot) (pid : Int) : Int × (Nat → Slot) := killFrom slots pid NPROC 0

/-- The first slot with this pid. -/
def FirstWith (slots : Nat → Slot) (pid : Int) (j : Nat) : Prop :=
  j < NPROC ∧ (slots j).pid = pid ∧ ∀ i < j, (slots i).pid ≠ pid

section scan

variable (slots : Nat → Slot) (pid : Int)

theorem killFrom_cases (n j : Nat) :
    (∃ i, j ≤ i ∧ i < j + n ∧ (slots i).pid = pid ∧ (∀ k, j ≤ k → k < i → (slots k).pid ≠ pid) ∧
      killFrom slots pid n j = (0, Function.update slots i (Update.kill.apply (slots i)))) ∨
    ((∀ k, j ≤ k → k < j + n → (slots k).pid ≠ pid) ∧ killFrom slots pid n j = (-1, slots)) := by
  induction n generalizing j with
  | zero => exact .inr ⟨fun k hk hlt => by omega, rfl⟩
  | succ n ih =>
      by_cases hj : (slots j).pid = pid
      · exact .inl ⟨j, Nat.le_refl j, by omega, hj, fun k hk hlt => by omega,
          by simp [killFrom, hj]⟩
      · have hstep : killFrom slots pid (n + 1) j = killFrom slots pid n (j + 1) := by
          simp [killFrom, hj]
        rw [hstep]
        rcases ih (j + 1) with ⟨i, hji, hlt, hi, hbefore, heq⟩ | ⟨hnone, heq⟩
        · refine .inl ⟨i, by omega, by omega, hi, fun k hk hki => ?_, heq⟩
          by_cases hkj : k = j
          · exact hkj ▸ hj
          · exact hbefore k (by omega) hki
        · refine .inr ⟨fun k hk hlt => ?_, heq⟩
          by_cases hkj : k = j
          · exact hkj ▸ hj
          · exact hnone k (by omega) (by omega)

/-- kill marks the first slot with the pid, or returns -1. -/
theorem kill_cases :
    (∃ i, FirstWith slots pid i ∧
      kill slots pid = (0, Function.update slots i (Update.kill.apply (slots i)))) ∨
    ((∀ k < NPROC, (slots k).pid ≠ pid) ∧ kill slots pid = (-1, slots)) := by
  rcases killFrom_cases slots pid NPROC 0 with
    ⟨i, -, hlt, hi, hbefore, heq⟩ | ⟨hnone, heq⟩
  · exact .inl ⟨i, ⟨by omega, hi, fun k hk => hbefore k (Nat.zero_le k) hk⟩, heq⟩
  · exact .inr ⟨fun k hk => hnone k (Nat.zero_le k) (by omega), heq⟩

end scan

/-- What kill promises: it returns 0 exactly when a process has the pid, and then it
changes the killed flag of that process, and its state if it was SLEEPING. -/
def KillsNamed (slots : Nat → Slot) (pid : Int) : Prop :=
  ((kill slots pid).1 = 0 ↔ ∃ j < NPROC, (slots j).state ≠ .UNUSED ∧ (slots j).pid = pid) ∧
  ((kill slots pid).1 = 0 → ∃ j < NPROC, (slots j).state ≠ .UNUSED ∧ (slots j).pid = pid ∧
    (kill slots pid).2 = Function.update slots j { slots j with
      killed := 1
      state := if (slots j).state = .SLEEPING then .RUNNABLE else (slots j).state }) ∧
  ((kill slots pid).1 ≠ 0 → kill slots pid = (-1, slots))

/-- kill keeps its promise if the first slot with the pid is in use. -/
theorem killsNamed_of_first {slots : Nat → Slot} {pid : Int}
    (h : ∀ j, FirstWith slots pid j → (slots j).state ≠ .UNUSED) : KillsNamed slots pid := by
  rcases kill_cases slots pid with ⟨i, hfirst, heq⟩ | ⟨hnone, heq⟩
  · have hused := h i hfirst
    refine ⟨⟨fun _ => ⟨i, hfirst.1, hused, hfirst.2.1⟩, fun _ => by rw [heq]⟩,
      fun _ => ⟨i, hfirst.1, hused, hfirst.2.1, by rw [heq]; rfl⟩, fun hne => ?_⟩
    rw [heq] at hne
    exact absurd rfl hne
  · have hret : (kill slots pid).1 ≠ 0 := by rw [heq]; simp
    refine ⟨⟨fun h0 => absurd h0 hret, ?_⟩, fun h0 => absurd h0 hret, fun _ => heq⟩
    rintro ⟨j, hj, -, hpid⟩
    exact absurd hpid (hnone j hj)

/-- A slot that is free has pid 0, and it is found by a scan for 0. -/
theorem killsNamed_iff {slots : Nat → Slot} {pid : Int}
    (hfree : ∀ j, (slots j).state = .UNUSED → (slots j).pid = 0)
    (hlive : ∀ j < NPROC, (slots j).state ≠ .UNUSED → (slots j).pid ≠ 0) :
    KillsNamed slots pid ↔ pid ≠ 0 ∨ ∀ j < NPROC, (slots j).state ≠ .UNUSED := by
  constructor
  · intro h
    by_cases hpid : pid = 0
    · subst hpid
      right
      intro j hj hunused
      have hret : (kill slots 0).1 = 0 := by
        rcases kill_cases slots 0 with ⟨i, -, heq⟩ | ⟨hnone, -⟩
        · rw [heq]
        · exact absurd (hfree j hunused) (hnone j hj)
      obtain ⟨k, hk, hused, hzero⟩ := h.1.mp hret
      exact hlive k hk hused hzero
    · exact .inl hpid
  · intro h
    apply killsNamed_of_first
    intro j hj hunused
    rcases h with hpid | hall
    · exact hpid (hj.2.1.symm.trans (hfree j hunused))
    · exact hall j hj.1 hunused

section alone

variable {cl : Client κ δ ι} {s : Machine κ δ} {c i j : Nat} {pid : Int} {k : κ} {r : Int}

/-- The steps of a thread that no other one disturbs. -/
abbrev Steps (cl : Client κ δ ι) : Machine κ δ → Machine κ δ → Prop :=
  Passage (fun s => s.step cl) fun _ => True

/-- A thread left alone takes the lock of a slot, executes one instruction and lets it go. -/
theorem Machine.section_steps {x : ι} {t₁ : Thread κ} (instr : Instr κ) (t₂ t₃ : Thread κ)
    (slots : Nat → Slot) (hm : (s.cpus c).mode = .run i)
    (hheld : .proc j ∉ (s.cpus c).held) (hfree : s.lock (.proc j) = none)
    (h₁ : (s.threads i).next cl s.slots s.data i x true = some (.acquire (.proc j), t₁, s.data))
    (h₂ : t₁.next cl s.slots s.data i x true = some (instr, t₂, s.data))
    (hinstr : ∀ s' : Machine κ δ, s'.slots = s.slots →
      s'.exec c i instr = some (.ok { s' with slots := slots }))
    (h₃ : t₂.next cl slots s.data i x true = some (.release (.proc j), t₃, s.data)) :
    Steps cl s ({ s with slots := slots }.setThread i t₃) := by
  have hlock : Function.update s.lock (.proc j) none = s.lock := by
    rw [← hfree, Function.update_eq_self]
  have hacquire : s.step cl (.step c x true) =
      some (.ok ((s.take c (.proc j)).setThread i t₁)) := by
    simp [Machine.step, hm, h₁, Machine.exec, Machine.acquire, Machine.setThread, Machine.take,
      hheld, hfree]
  have hmiddle : ((s.take c (.proc j)).setThread i t₁).step cl (.step c x true) =
      some (.ok ({ s.take c (.proc j) with slots := slots }.setThread i t₂)) := by
    simp [Machine.step, Machine.take, Machine.setThread, hm, h₂, hinstr]
  have hrelease : ({ s.take c (.proc j) with slots := slots }.setThread i t₂).step cl
      (.step c x true) = some (.ok ({ s with slots := slots }.setThread i t₃)) := by
    simp [Machine.step, Machine.take, Machine.setThread, hm, h₃, Machine.exec, Machine.release,
      Machine.drop, hlock]
    rw [← hm]
  exact (((Passage.refl trivial).next hacquire trivial).next hmiddle trivial).next hrelease trivial

/-- The thread that calls kill computes what `killFrom` does. -/
theorem kill_steps (x : ι) {n : Nat} (hn : j + n = NPROC) (hm : (s.cpus c).mode = .run i)
    (ht : s.threads i = ⟨.idle, .op (.kill pid j k), r⟩)
    (hheld : ∀ j, .proc j ∉ (s.cpus c).held) (hfree : ∀ j, s.lock (.proc j) = none) :
    Steps cl s ({ s with slots := (killFrom s.slots pid n j).2 }.setThread i
      ⟨.idle, .op (.client k), (killFrom s.slots pid n j).1⟩) := by
  induction n generalizing j s with
  | zero =>
      have hge : j ≥ NPROC := by omega
      apply (Passage.refl trivial).next (a := .step c x true) _ trivial
      simp [Machine.step, hm, Thread.next, ht, Op.next, hge, Machine.exec, killFrom]
  | succ n ih =>
      have hge : ¬ j ≥ NPROC := by omega
      have hacquire : (s.threads i).next cl s.slots s.data i x true =
          some (.acquire (.proc j), ⟨.idle, .op (.killTest pid j k), r⟩, s.data) := by
        simp [Thread.next, ht, Op.next, hge]
      by_cases hpid : (s.slots j).pid = pid
      · simp only [killFrom, if_pos hpid]
        exact Machine.section_steps (.update j .kill) ⟨.idle, .op (.killUnlock j k), r⟩ _ _ hm
          (hheld j) (hfree j) hacquire
          (by simp [Thread.next, Op.next, hpid])
          (fun s' hs => by simp [Machine.exec, Machine.setSlot, hs])
          (by simp [Thread.next, Op.next])
      · simp only [killFrom, if_neg hpid]
        have hskip := Machine.section_steps .nop ⟨.idle, .op (.killSkip pid j k), r⟩
          ⟨.idle, .op (.kill pid (j + 1) k), r⟩ s.slots hm (hheld j) (hfree j) hacquire
          (by simp [Thread.next, Op.next, hpid])
          (fun s' hs => by simp [Machine.exec, ← hs])
          (by simp [Thread.next, Op.next])
        have hrest := ih (s := s.setThread i ⟨.idle, .op (.kill pid (j + 1) k), r⟩) (j := j + 1)
          (by omega) (by simpa [Machine.setThread] using hm) (by simp [Machine.setThread])
          hheld hfree
        simpa [Machine.setThread] using hskip.trans hrest

end alone

/-- The step is not the test of a free slot in a kill with the pid of free slots, 0. -/
def NoKillZero (s : Machine κ δ) : Action ι → Prop
  | .step c _ _ => ∀ i j k, (s.cpus c).mode = .run i →
      (s.threads i).pos = .op (.killTest 0 j k) → (s.slots j).state ≠ .UNUSED
  | .timer _ => True

/-- Free slots have pid 0. -/
def FreePids (s : Machine κ δ) : Prop := ∀ j, (s.slots j).state = .UNUSED → (s.slots j).pid = 0

theorem Update.unused {u : Update} {r : Slot} (h : (u.apply r).state = .UNUSED) :
    r.state = .UNUSED ∧ (u.apply r).pid = r.pid ∧ (u = .kill ∨ (u.apply r).killed = r.killed) ∨
      u = .free := by
  cases u with
  | wakeup ch =>
      simp only [Update.apply] at h ⊢
      split at h
      · cases h
      · next hsl =>
          exact .inl ⟨h, by simp [hsl], .inr (by simp [hsl])⟩
  | kill =>
      simp only [Update.apply] at h
      split at h
      · cases h
      · exact .inl ⟨h, rfl, .inl rfl⟩
  | clearChan | parent q => exact .inl ⟨h, rfl, .inr rfl⟩
  | free => exact .inr rfl
  | sleep ch | yield | exit st | ready => cases h

theorem FreePids.step {cl : Client κ δ ι} {s s' : Machine κ δ} {a : Action ι}
    (h : FreePids s) (hstep : s.step cl a = some (.ok s')) : FreePids s' := by
  intro j hj
  cases Machine.step_cases hstep with
  | schedule hm hrun hsched =>
      rcases (Machine.schedule_frame hsched).2.2 j with heq | ⟨-, heq⟩
      · rw [heq] at hj ⊢
        exact h j hj
      · rw [heq] at hj
        cases hj
  | timer hm hheld hidle heq =>
      subst heq
      exact h j hj
  | thread hm hnext hexec =>
      rcases Machine.exec_slots hexec with heq | ⟨k, u, -, heq⟩ | ⟨k, -, heq⟩ <;>
        rw [heq] at hj ⊢
      · exact h j hj
      · by_cases hjk : j = k
        · subst hjk
          rw [Function.update_self] at hj ⊢
          rcases Update.unused hj with ⟨hold, hpid, -⟩ | rfl
          · rw [hpid]
            exact h j hold
          · rfl
        · rw [Function.update_of_ne hjk] at hj ⊢
          exact h j hj
      · by_cases hjk : j = k
        · subst hjk
          rw [Function.update_self] at hj
          cases hj
        · rw [Function.update_of_ne hjk] at hj ⊢
          exact h j hj

section clean

variable {cl : Client κ δ ι} {slots : Nat → Slot} {data data' : δ} {i j : Nat} {x : ι}
  {ok : Bool} {t t' : Thread κ} {instr : Instr κ}

/-- Only kill sets a killed flag, and only where the pid matches. -/
theorem Thread.next_kill (h : t.next cl slots data i x ok = some (instr, t', data'))
    (hinstr : instr = .update j .kill) :
    ∃ pid k, t.pos = .op (.killTest pid j k) ∧ (slots j).pid = pid := by
  cases Thread.next_cases h with
  | acquire hy | ready hy | swtch hy | release hy => cases hinstr
  | client hy hpos hnext => exact absurd hinstr (Call.next_ne_update _ _ _)
  | sub hy hpos hnext =>
      rename_i c back p r
      subst hinstr
      cases c <;> simp only [Sub.next] at hnext <;> (try split at hnext) <;>
        (try split at hnext) <;> cases hnext
  | op hy hpos hclient hnext =>
      rename_i o p r
      subst hinstr
      cases o <;> simp only [Op.next] at hnext <;> (try split at hnext) <;>
        (try split at hnext) <;> cases hnext
      next hpid => exact ⟨_, _, hpos, hpid⟩

/-- allocproc has found a slot only where it was free. -/
theorem Thread.next_forkBuild {k child : κ}
    (h : t.next cl slots data i x ok = some (instr, t', data'))
    (hpos' : t'.pos = .op (.forkBuild j k child)) :
    t.pos = .op (.forkBuild j k child) ∨ instr = .alloc j ∧ (slots j).state = .UNUSED := by
  cases Thread.next_cases h with
  | acquire hy | ready hy | swtch hy | release hy => exact .inl hpos'
  | client hy hpos hnext =>
      rename_i k' call
      cases call <;> simp only [Call.next] at hpos' <;> (try split at hpos') <;> cases hpos'
  | sub hy hpos hnext =>
      rename_i c back p r
      subst hpos'
      cases c <;> simp only [Sub.next] at hnext <;> (try split at hnext) <;>
        (try split at hnext) <;> first | cases hnext | (cases back <;> cases hnext)
  | op hy hpos hclient hnext =>
      rename_i o p r
      subst hpos'
      cases o <;> simp only [Op.next] at hnext <;> (try split at hnext) <;>
        (try split at hnext) <;> cases hnext
      next hunused => exact .inr ⟨rfl, hunused⟩

end clean

/-- Free slots have no killed flag, and neither has the slot that allocproc returns. -/
structure Clean (s : Machine κ δ) : Prop where
  pids : FreePids s
  free : ∀ j, (s.slots j).state = .UNUSED → (s.slots j).killed = 0
  found : ∀ i np k child, (s.threads i).pos = .op (.forkBuild np k child) →
    (s.slots np).killed = 0

namespace Clean

variable {cl : Client κ δ ι} {s s' : Machine κ δ} {a : Action ι}

/-- A killed flag is set only by kill, on a slot that is in use. -/
theorem killed_step (h : Clean s) (hs : Placed s) (hallowed : NoKillZero s a)
    (hstep : s.step cl a = some (.ok s')) {j : Nat} (hj : (s.slots j).killed = 0) :
    (s'.slots j).killed = 0 ∨ (s.slots j).state ≠ .UNUSED ∧ (s'.slots j).state ≠ .UNUSED ∧
      ∃ c i pid k, (s.cpus c).mode = .run i ∧ .proc j ∈ (s.cpus c).held ∧
        (s.threads i).pos = .op (.killTest pid j k) := by
  cases Machine.step_cases hstep with
  | schedule hm hrun hsched =>
      rcases (Machine.schedule_frame hsched).2.2 j with heq | ⟨-, heq⟩ <;> rw [heq] <;>
        exact .inl hj
  | timer hm hheld hidle heq =>
      subst heq
      exact .inl hj
  | thread hm hnext hexec =>
      rename_i c i x ok instr t data
      rcases Machine.exec_slots hexec with heq | ⟨k, u, hinstr, heq⟩ | ⟨k, -, heq⟩ <;> rw [heq]
      · exact .inl hj
      · by_cases hjk : j = k
        · subst hjk
          rw [Function.update_self]
          cases u with
          | kill =>
              obtain ⟨pid, k, hpos, hpid⟩ := Thread.next_kill hnext hinstr
              have hused : (s.slots j).state ≠ .UNUSED := by
                intro hunused
                have hzero : pid = 0 := hpid.symm.trans (h.pids j hunused)
                subst hzero
                exact hallowed i j k hm hpos hunused
              have hheld := (hinstr ▸ Thread.next_effect (hs.wf i) hnext).effect.1
              refine .inr ⟨hused, ?_, c, i, pid, k, hm, hs.held_of_needs hm hheld, hpos⟩
              simp only [Update.apply]
              split
              · simp
              · exact hused
          | wakeup ch =>
              simp only [Update.apply]
              split <;> exact .inl hj
          | free => exact .inl rfl
          | sleep ch | clearChan | yield | exit st | parent q | ready => exact .inl hj
        · rw [Function.update_of_ne hjk]
          exact .inl hj
      · by_cases hjk : j = k
        · subst hjk
          rw [Function.update_self]
          exact .inl hj
        · rw [Function.update_of_ne hjk]
          exact .inl hj

/-- A slot becomes free only by freeproc. -/
theorem unused_step (hstep : s.step cl a = some (.ok s')) {j : Nat}
    (hj : (s'.slots j).state = .UNUSED) :
    (s.slots j).state = .UNUSED ∨ (s'.slots j).killed = 0 := by
  cases Machine.step_cases hstep with
  | schedule hm hrun hsched =>
      rcases (Machine.schedule_frame hsched).2.2 j with heq | ⟨-, heq⟩ <;> rw [heq] at hj
      · exact .inl hj
      · cases hj
  | timer hm hheld hidle heq =>
      subst heq
      exact .inl hj
  | thread hm hnext hexec =>
      rcases Machine.exec_slots hexec with heq | ⟨k, u, -, heq⟩ | ⟨k, -, heq⟩ <;>
        rw [heq] at hj ⊢
      · exact .inl hj
      · by_cases hjk : j = k
        · subst hjk
          rw [Function.update_self] at hj ⊢
          rcases Update.unused hj with ⟨hold, -, -⟩ | rfl
          · exact .inl hold
          · exact .inr rfl
        · rw [Function.update_of_ne hjk] at hj
          exact .inl hj
      · by_cases hjk : j = k
        · subst hjk
          rw [Function.update_self] at hj
          cases hj
        · rw [Function.update_of_ne hjk] at hj
          exact .inl hj

theorem step (h : Clean s) (hs : Placed s) (hl : Live s) (hallowed : NoKillZero s a)
    (hstep : s.step cl a = some (.ok s')) : Clean s' := by
  constructor
  case pids => exact h.pids.step hstep
  case free =>
    intro j hj
    rcases unused_step hstep hj with hold | hzero
    · rcases h.killed_step hs hallowed hstep (h.free j hold) with hk | ⟨hne, -⟩
      · exact hk
      · exact absurd hold hne
    · exact hzero
  case found =>
    intro i np k child hpos
    -- The lock of the new slot is held by the CPU that runs fork.
    have hkeep : (s.threads i).pos = .op (.forkBuild np k child) →
        (s'.slots np).killed = 0 := by
      intro hold
      rcases h.killed_step hs hallowed hstep (h.found i np k child hold) with hk |
        ⟨-, -, c, i', pid, k', hm, hheld, hpos'⟩
      · exact hk
      · have hne : Lock.proc np ≠ .proc i := by
          rintro ⟨rfl⟩
          have hused := (hs.child i i false (by rw [hold]; rfl)).1
          have hfits := hl.fits i
          simp only [Fits, hused, hold] at hfits
          cases hfits.2
        obtain ⟨c', hm', hheld'⟩ := hl.running_of_needs hs (i := i) (l := .proc np)
          (by rw [hold]; exact List.mem_singleton.mpr rfl) hne
        have hown := (hs.owner _ c).mpr hheld
        rw [(hs.owner _ c').mpr hheld'] at hown
        cases hown
        rw [hm] at hm'
        cases hm'
        rw [hold] at hpos'
        cases hpos'
    rcases Machine.pos_cases hstep i with heq | ⟨c, x, ok, instr, t, data, -, -, rfl, hnext, -⟩ |
      ⟨k', hk'⟩
    · exact hkeep (heq ▸ hpos)
    · rcases Thread.next_forkBuild hnext hpos with hold | ⟨rfl, hunused⟩
      · exact hkeep hold
      · rcases h.killed_step hs hallowed hstep (h.free np hunused) with hk | ⟨hne, -⟩
        · exact hk
        · exact absurd hunused hne
    · rw [hk'] at hpos
      cases hpos

theorem boot (k : κ) (data : δ) : Clean (boot k data) := by
  constructor
  case pids =>
    intro j hj
    by_cases hj' : j = initproc
    · simp [Sched.boot, hj'] at hj
    · simp [Sched.boot, hj']
  case free =>
    intro j hj
    by_cases hj' : j = initproc
    · simp [Sched.boot, hj'] at hj
    · simp [Sched.boot, hj']
  case found => simp [Sched.boot]

end Clean

/-- For every reachable process table and every pid but 0, kill returns 0 exactly when a
process has the pid, and marks only that process; for pid 0 it does so exactly when no
slot is free.  And if no kill(0) comes to a free slot, allocproc returns processes that are
not killed. -/
theorem kill_names_process (cl : Client κ δ ι) (s : Machine κ δ) :
    (Reachable cl (fun _ _ => True) s → ∀ pid : Int,
      (pid ≠ 0 → KillsNamed s.slots pid) ∧
      ((∀ j < NPROC, (s.slots j).state ≠ .UNUSED → (s.slots j).pid ≠ 0) →
        (KillsNamed s.slots pid ↔ pid ≠ 0 ∨ ∀ j < NPROC, (s.slots j).state ≠ .UNUSED))) ∧
    (Reachable cl NoKillZero s → ∀ i np k child,
      (s.threads i).pos = .op (.forkBuild np k child) → (s.slots np).killed = 0) := by
  constructor
  · intro h pid
    have hfree : FreePids s := by
      apply Reach.invariant _ _ h
      · rintro s ⟨k, data, rfl⟩
        exact (Clean.boot k data).pids
      · exact fun s a s' _ hstep hs => hs.step hstep
    refine ⟨fun hpid => killsNamed_of_first fun j hj hunused => ?_, killsNamed_iff hfree⟩
    exact hpid (hj.2.1.symm.trans (hfree j hunused))
  · intro h
    have hall : (Placed s ∧ Live s) ∧ Clean s := by
      apply Reach.invariant _ _ h
      · rintro s ⟨k, data, rfl⟩
        exact ⟨⟨Placed.boot k data, Live.boot k data⟩, Clean.boot k data⟩
      · rintro s a s' hallowed hstep ⟨⟨hs, hl⟩, hc⟩
        exact ⟨⟨hs.step hstep, hl.step hs hstep⟩, hc.step hs hl hallowed hstep⟩
    exact hall.2.found

namespace KillWitness

def runFrom (acts : List (Action (Call Unit))) : Option (Machine Unit Unit) :=
  runAll (fun _ _ => true) (fun s => s.step anyClient) (boot () ()) acts

/-- The first process calls kill(0), then fork; allocproc has found slot 1. -/
def killedZero : Option (Machine Unit Unit) :=
  runFrom (steps 0 4 ++ [.step 0 (.kill 0 ()) true] ++ steps 0 6 ++
    [.step 0 (.fork () ()) true] ++ steps 0 5)

theorem killedZero_isSome : killedZero.isSome = true := by rfl

/-- kill(0) succeeds although no process has pid 0: it marks the first free slot, and the
next process created there starts out killed. -/
theorem kill_zero_marks_free_slot :
    Reachable anyClient (fun _ _ => True) (boot () ()) ∧
      ¬ KillsNamed (boot () () : Machine Unit Unit).slots 0 ∧
      Reachable anyClient (fun _ _ => True) (killedZero.get killedZero_isSome) ∧
      ((killedZero.get killedZero_isSome).threads 0).pos = .op (.forkBuild 1 () ()) ∧
      ((killedZero.get killedZero_isSome).slots 1).killed = 1 := by
  refine ⟨.start ⟨(), (), rfl⟩, ?_, ?_, by decide +kernel, by decide +kernel⟩
  · intro h
    obtain ⟨j, -, hused, hpid⟩ := h.1.mp (by decide +kernel)
    by_cases hj : j = initproc
    · simp [boot, hj] at hpid
    · simp [boot, hj] at hused
  · exact Reach.runAll (fun _ _ _ => trivial) (.start ⟨(), (), rfl⟩)
      (Option.some_get killedZero_isSome).symm

/-- The test of `NoKillZero`. -/
def allowed (s : Machine Unit Unit) : Action (Call Unit) → Bool
  | .step c _ _ =>
      match (s.cpus c).mode with
      | .run i =>
          match (s.threads i).pos with
          | .op (.killTest pid j _) => decide (pid = 0 → (s.slots j).state ≠ .UNUSED)
          | _ => true
      | _ => true
  | .timer _ => true

/-- The first process calls fork, and allocproc has found slot 1. -/
def forked : Option (Machine Unit Unit) :=
  runAll allowed (fun s => s.step anyClient) (boot () ())
    (steps 0 4 ++ [.step 0 (.fork () ()) true] ++ steps 0 5)

theorem forked_isSome : forked.isSome = true := by rfl

theorem noKillZero_of_allowed (s : Machine Unit Unit) (a : Action (Call Unit))
    (h : allowed s a = true) : NoKillZero s a := by
  cases a with
  | step c call ok =>
      intro i j k hm hpos
      simpa [allowed, hm, hpos] using h
  | timer c => trivial

theorem kill_names_process_fork : KillsNamed (boot () () : Machine Unit Unit).slots 1 ∧
    ((forked.get forked_isSome).slots 1).state = .USED ∧
    ((forked.get forked_isSome).slots 1).killed = 0 := by
  refine ⟨((kill_names_process anyClient _).1 (.start ⟨(), (), rfl⟩) 1).1 (by decide),
    by decide +kernel, ?_⟩
  refine (kill_names_process anyClient _).2 ?_ 0 1 () () (by decide +kernel)
  exact Reach.runAll noKillZero_of_allowed (.start ⟨(), (), rfl⟩)
    (Option.some_get forked_isSome).symm

end KillWitness

end Xv6.Sched
