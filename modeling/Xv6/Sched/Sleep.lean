/-
sleep and wakeup.  A process that has let go of its lock inside sleep holds `p->lock`
until it is SLEEPING and off its CPU, so a wakeup that starts later finds it asleep.
-/
import Xv6.Sched.Live

namespace Xv6.Sched

open Transition

variable {κ δ ι : Type}

/-- A call of sleep: its channel, its lock, and how far it is. -/
def Sub.sleepPhase : Sub → Option (Chan × Nat × Nat)
  | .sleep ch lk => some (ch, lk, 0)
  | .sleepRelease ch lk => some (ch, lk, 1)
  | .sleepMark ch lk => some (ch, lk, 2)
  | .sleepSched ch lk => some (ch, lk, 3)
  | .sleepWoken ch lk => some (ch, lk, 4)
  | .sleepUnlock ch lk => some (ch, lk, 5)
  | .sleepRelock ch lk => some (ch, lk, 6)
  | _ => none

def Pos.sleepPhase : Pos κ → Option (Chan × Nat × Nat)
  | .sub c _ => c.sleepPhase
  | .op _ => none

/-- A call of wakeup: its channel, its slot, and how far it is there. -/
def Sub.wakeupPhase : Sub → Option (Option Chan × Nat × Nat)
  | .wakeup ch j => some (ch, j, 0)
  | .wakeupTest ch j => some (ch, j, 1)
  | .wakeupUnlock ch j => some (ch, j, 2)
  | _ => none

def Pos.wakeupPhase : Pos κ → Option (Option Chan × Nat × Nat)
  | .sub c _ => c.wakeupPhase
  | .op _ => none

/-- Process `p` is inside sleep. -/
def Machine.inSleep (p : Nat) (s : Machine κ δ) : Bool :=
  (s.threads p).pos.sleepPhase.isSome

/-- Process `q` is inside wakeup. -/
def Machine.inWakeup (q : Nat) (s : Machine κ δ) : Bool :=
  (s.threads q).pos.wakeupPhase.isSome

@[simp] theorem Return.sleepPhase_op (back : Return κ) :
    (Pos.op back.op).sleepPhase = none := rfl

section phases

variable {cl : Client κ δ ι} {slots : Nat → Slot} {data data' : δ} {i : Nat} {x : ι}
  {ok : Bool} {t t' : Thread κ} {instr : Instr κ} {ch : Chan} {lk n : Nat}

/-- A call of sleep goes through its phases in order and returns with its lock. -/
theorem Thread.next_sleepPhase (h : t.next cl slots data i x ok = some (instr, t', data'))
    (hp : t.pos.sleepPhase = some (ch, lk, n)) :
    t'.pos = t.pos ∨ (n < 6 ∧ t'.pos.sleepPhase = some (ch, lk, n + 1)) ∨
      (n = 6 ∧ t'.pos.sleepPhase = none ∧ instr = .acquire (.spin lk)) := by
  cases Thread.next_cases h with
  | acquire hy | ready hy | swtch hy | release hy => exact .inl rfl
  | client hy hpos hnext =>
      rw [hpos] at hp
      cases hp
  | op hy hpos hclient hnext =>
      rw [hpos] at hp
      cases hp
  | sub hy hpos hnext =>
      rename_i c back p r
      rw [hpos] at hp
      right
      cases c <;> cases hp <;> cases hnext <;> simp [Pos.sleepPhase, Sub.sleepPhase]

theorem Pos.dead_of_sleepPhase {p : Pos κ} (h : p.sleepPhase = some (ch, lk, n)) :
    p.dead = false := by
  cases p with
  | op o => cases h
  | sub c back => rfl

/-- What one step of wakeup does: it passes its own slot, visits a slot, or returns. -/
theorem Thread.next_wakeupPhase {chan : Option Chan} {j m : Nat}
    (h : t.next cl slots data i x ok = some (instr, t', data'))
    (hp : t.pos.wakeupPhase = some (chan, j, m)) :
    t'.pos = t.pos ∨ (NPROC ≤ j ∧ t'.pos.wakeupPhase = none) ∨
      (j = i ∧ t'.pos.wakeupPhase = some (chan, j + 1, 0)) ∨
      (m = 0 ∧ t'.pos.wakeupPhase = some (chan, j, 1)) ∨
      (m = 1 ∧ t'.pos.wakeupPhase = some (chan, j, 2) ∧ instr = .update j (.wakeup chan) ∧
        t.Needs i (.proc j)) ∨
      (m = 2 ∧ t'.pos.wakeupPhase = some (chan, j + 1, 0)) := by
  cases Thread.next_cases h with
  | acquire hy | ready hy | swtch hy | release hy => exact .inl rfl
  | client hy hpos hnext =>
      rw [hpos] at hp
      cases hp
  | op hy hpos hclient hnext =>
      rw [hpos] at hp
      cases hp
  | sub hy hpos hnext =>
      rename_i c back p r
      rw [hpos] at hp
      cases c with
      | wakeup ch k =>
          cases hp
          simp only [Sub.next] at hnext
          split at hnext
          · next hge =>
              cases hnext
              exact .inr (.inl ⟨hge, rfl⟩)
          · split at hnext
            · next heq =>
                cases hnext
                exact .inr (.inr (.inl ⟨heq, rfl⟩))
            · cases hnext
              exact .inr (.inr (.inr (.inl ⟨rfl, rfl⟩)))
      | wakeupTest ch k =>
          cases hp
          cases hnext
          refine .inr (.inr (.inr (.inr (.inl ⟨rfl, rfl, rfl, .inr ?_⟩))))
          rw [hpos]
          exact .inl (List.mem_singleton.mpr rfl)
      | wakeupUnlock ch k =>
          cases hp
          cases hnext
          exact .inr (.inr (.inr (.inr (.inr ⟨rfl, rfl⟩))))
      | _ => cases hp

theorem Pos.dead_of_wakeupPhase {p : Pos κ} {chan : Option Chan} {j m : Nat}
    (h : p.wakeupPhase = some (chan, j, m)) : p.dead = false := by
  cases p with
  | op o => cases h
  | sub c back => rfl

end phases

section steps

variable {cl : Client κ δ ι} {s s' : Machine κ δ} {a : Action ι} {p q : Nat} {ch : Chan}
  {lk n : Nat}

/-- A process inside sleep stays in the phase where it is or enters the next one. -/
theorem Live.sleepPhase_step (h : Live s) (hs : Placed s)
    (hstep : s.step cl a = some (.ok s'))
    (hp : (s.threads p).pos.sleepPhase = some (ch, lk, n)) (hin : s'.inSleep p = true) :
    (s'.threads p).pos.sleepPhase = some (ch, lk, n) ∨
      (s'.threads p).pos.sleepPhase = some (ch, lk, n + 1) := by
  rcases h.thread_step hs hstep (Pos.dead_of_sleepPhase hp) with heq | hown
  · exact .inl (by rw [heq, hp])
  · obtain ⟨c, x, ok, instr, data, hm, hnext, -⟩ := hown
    rcases Thread.next_sleepPhase hnext hp with heq | ⟨-, hph⟩ | ⟨-, hph, -⟩
    · exact .inl (by rw [heq, hp])
    · exact .inr hph
    · rw [Machine.inSleep, hph] at hin
      cases hin

/-- Process `p` runs, holds a spinlock, and is not inside yield. -/
def Machine.Holds (s : Machine κ δ) (p lk : Nat) : Prop :=
  (s.threads p).yield = .idle ∧ ∃ c, (s.cpus c).mode = .run p ∧ .spin lk ∈ (s.cpus c).held

/-- Until it releases the lock, a process inside sleep holds it. -/
theorem Placed.holds_step (hs : Placed s) (hstep : s.step cl a = some (.ok s'))
    (hp : (s.threads p).pos.sleepPhase = some (ch, lk, n)) (hn : n < 2)
    (hholds : s.Holds p lk) :
    s'.Holds p lk ∨ (s'.threads p).pos.sleepPhase = some (ch, lk, 2) := by
  obtain ⟨hy, c, hm, hheld⟩ := hholds
  cases Machine.step_cases hstep with
  | schedule hm' hrun hsched =>
      rename_i d x ok m
      have hdc : c ≠ d := by
        rintro rfl
        exact hrun p (hm'.symm.trans hm)
      left
      refine ⟨by rw [(Machine.schedule_frame hsched).1]; exact hy, c, ?_⟩
      rw [Machine.schedule_cpus hsched hdc]
      exact ⟨hm, hheld⟩
  | timer hm' hnone hidle heq =>
      rename_i d i
      subst heq
      have hip : p ≠ i := by
        rintro rfl
        have hdc := hs.eq_of_proc hm (hs.proc_of_run hm')
        subst hdc
        rw [hnone] at hheld
        cases hheld
      exact .inl ⟨by simpa [Machine.setThread, hip] using hy, c, hm, hheld⟩
  | thread hm' hnext hexec =>
      rename_i d i x ok instr t data
      by_cases hip : p = i
      · subst hip
        have hdc := hs.eq_of_proc hm (hs.proc_of_run hm')
        subst hdc
        -- The two phases acquire p->lock and release the lock of the caller.
        rcases hpos : (s.threads p).pos with o | ⟨sub, back⟩ <;> rw [hpos] at hp
        · cases hp
        · cases sub <;> cases hp <;> first | omega | skip
          · simp only [Thread.next, hy, hpos, Sub.next, Option.some.injEq,
              Prod.mk.injEq] at hnext
            obtain ⟨rfl, rfl, rfl⟩ := hnext
            cases Machine.exec_cases hexec
            left
            refine ⟨by simp [Machine.take, Machine.setThread], d, ?_⟩
            simp [Machine.take, Machine.setThread, hm, hheld]
          · simp only [Thread.next, hy, hpos, Sub.next, Option.some.injEq,
              Prod.mk.injEq] at hnext
            obtain ⟨rfl, rfl, rfl⟩ := hnext
            cases Machine.exec_cases hexec
            exact .inr (by simp [Machine.drop, Machine.setThread, Pos.sleepPhase,
              Sub.sleepPhase])
      · have hdc : c ≠ d := by
          rintro rfl
          rw [hm] at hm'
          cases hm'
          exact hip rfl
        left
        refine ⟨?_, c, ?_⟩
        · rcases Machine.exec_threads hexec with heq | ⟨j, k, hspawn, heq⟩
          · rw [heq, Function.update_of_ne hip]
            exact hy
          · have hused := (hs.child i j false
              (hspawn ▸ Thread.next_effect (hs.wf i) hnext).effect.2.1).1
            have hjp : p ≠ j := by
              rintro rfl
              exact hs.off_of_used hused c (hs.proc_of_run hm)
            rw [heq, Function.update_of_ne hjp, Function.update_of_ne hip]
            exact hy
        · rw [Machine.exec_cpus hexec hdc]
          exact ⟨hm, hheld⟩

/-- The process is inside sleep and will not be SLEEPING again there. -/
def Machine.Awake (s : Machine κ δ) (p : Nat) : Prop :=
  (∃ ch lk n, (s.threads p).pos.sleepPhase = some (ch, lk, n) ∧ 4 ≤ n) ∧
    (s.slots p).state ≠ .SLEEPING

theorem Update.sleeping {u : Update} {r : Slot} (h : (u.apply r).state = .SLEEPING) :
    r.state = .SLEEPING ∨ ∃ ch, u = .sleep ch := by
  cases u with
  | sleep ch => exact .inr ⟨ch, rfl⟩
  | wakeup ch =>
      simp only [Update.apply] at h
      split at h
      · cases h
      · exact .inl h
  | kill =>
      simp only [Update.apply] at h
      split at h
      · cases h
      · exact .inl h
  | clearChan | parent q => exact .inl h
  | yield | exit st | ready | free => cases h

/-- A process becomes SLEEPING only in the phase of sleep that says so. -/
theorem Placed.sleeping_step (hs : Placed s) (hstep : s.step cl a = some (.ok s'))
    (hsl : (s'.slots p).state = .SLEEPING) : (s.slots p).state = .SLEEPING ∨
      ∃ ch lk, (s.threads p).pos.sleepPhase = some (ch, lk, 2) := by
  cases Machine.step_cases hstep with
  | schedule hm' hrun hsched =>
      rcases (Machine.schedule_frame hsched).2.2 p with heq | ⟨-, heq⟩
      · exact .inl (heq ▸ hsl)
      · rw [heq] at hsl
        cases hsl
  | timer hm' hnone hidle heq =>
      subst heq
      exact .inl hsl
  | thread hm' hnext hexec =>
      rename_i d i x ok instr t data
      rcases Machine.exec_slots hexec with heq | ⟨j, u, hinstr, heq⟩ | ⟨j, hinstr, heq⟩
      · exact .inl (heq ▸ hsl)
      · rw [heq] at hsl
        by_cases hpj : p = j
        · subst hpj
          rw [Function.update_self] at hsl
          rcases Update.sleeping hsl with hold | ⟨ch, rfl⟩
          · exact .inl hold
          · obtain ⟨lk, back, -, hpos, -⟩ := Thread.next_sleep hnext hinstr
            have heff := Thread.next_effect (hs.wf i) hnext
            subst hinstr
            obtain ⟨rfl, -⟩ := heff.effect
            exact .inr ⟨ch, lk, by rw [hpos]; rfl⟩
        · rw [Function.update_of_ne hpj] at hsl
          exact .inl hsl
      · rw [heq] at hsl
        by_cases hpj : p = j
        · subst hpj
          rw [Function.update_self] at hsl
          cases hsl
        · rw [Function.update_of_ne hpj] at hsl
          exact .inl hsl

theorem Live.awake_step (h : Live s) (hs : Placed s) (hstep : s.step cl a = some (.ok s'))
    (hawake : s.Awake p) (hin : s'.inSleep p = true) : s'.Awake p := by
  obtain ⟨⟨ch, lk, n, hp, hn⟩, hstate⟩ := hawake
  constructor
  · rcases h.sleepPhase_step hs hstep hp hin with hp' | hp'
    · exact ⟨ch, lk, n, hp', hn⟩
    · exact ⟨ch, lk, n + 1, hp', by omega⟩
  · intro hsl
    rcases hs.sleeping_step hstep hsl with hold | ⟨ch', lk', hp'⟩
    · exact hstate hold
    · rw [hp] at hp'
      cases hp'
      omega

/-- A process that has let go of its lock inside sleep, when another one holds its
`p->lock`: it is asleep on the channel, or it is awake. -/
theorem Live.found (h : Live s) (hs : Placed s) {c : Nat} (hm : (s.cpus c).mode = .run q)
    (hqp : p ≠ q) (hheld : .proc p ∈ (s.cpus c).held)
    (hp : (s.threads p).pos.sleepPhase = some (ch, lk, n)) (hn : 2 ≤ n) :
    4 ≤ n ∧ ((s.slots p).state = .SLEEPING → (s.slots p).chan = some ch) := by
  have hneeds : ∀ m, (s.threads p).pos.sleepPhase = some (ch, lk, m) → 1 ≤ m → m ≤ 5 →
      (s.threads p).pos.Needs p (.proc p) := by
    intro m hm' h1 h5
    rcases hpos : (s.threads p).pos with o | ⟨sub, back⟩ <;> rw [hpos] at hm'
    · cases hm'
    · cases sub <;> cases hm' <;> first | omega | exact .inl (List.mem_singleton.mpr rfl)
  by_cases hcpu : ∃ d, (s.cpus d).proc = some p
  · obtain ⟨d, hd⟩ := hcpu
    have hdc : d ≠ c := by
      rintro rfl
      rw [hs.proc_of_run hm] at hd
      cases hd
      exact hqp rfl
    have hnot : .proc p ∉ (s.cpus d).held := by
      intro hmem
      have hown := (hs.owner _ c).mpr hheld
      rw [(hs.owner _ d).mpr hmem] at hown
      cases hown
      exact hdc rfl
    have hrun : (s.slots p).state = .RUNNING := by
      by_contra hne
      exact hnot ((hs.cpu d).held_of_proc hd hne).1
    have hmode : (s.cpus d).mode = .run p := by
      have hcpu := hs.cpu d
      rcases hcpu.mode_of_proc hd with hmd | hmd | hmd | hmd
      · simp only [CpuOk, hmd] at hcpu
        rw [hcpu.2.1] at hnot
        exact absurd (List.mem_singleton.mpr rfl) hnot
      · exact hmd
      · simp only [CpuOk, hmd, hrun] at hcpu
        exact absurd hcpu.2.2.1 (by simp [ProcState.idle])
      · simp only [CpuOk, hmd, hrun] at hcpu
        exact absurd hcpu.2.2.1 (by simp [ProcState.idle])
    refine ⟨?_, fun hsl => by rw [hrun] at hsl; cases hsl⟩
    by_contra hlt
    exact hnot (hs.held_of_needs hmode (.inr (hneeds n hp (by omega) (by omega))))
  · have hoff : ∀ d, (s.cpus d).proc ≠ some p := fun d hd => hcpu ⟨d, hd⟩
    have hfits := h.fits p
    -- Off its CPU the process is SLEEPING or RUNNABLE, with a saved context.
    have hidle : (s.slots p).state = .SLEEPING ∨ (s.slots p).state = .RUNNABLE := by
      cases hstate : (s.slots p).state with
      | SLEEPING => exact .inl rfl
      | RUNNABLE => exact .inr rfl
      | RUNNING => exact absurd (hs.running p hstate) hcpu
      | UNUSED | USED =>
          simp only [Fits, hstate] at hfits
          rw [Pos.dead_of_sleepPhase hp] at hfits
          cases hfits.2
      | ZOMBIE =>
          simp only [Fits, hstate] at hfits
          rcases hpos : (s.threads p).pos with o | ⟨sub, back⟩ <;> rw [hpos] at hp hfits
          · cases hp
          · cases hfits.2
    have hsaved := hs.saved p hoff (by rcases hidle with hi | hi <;> rw [hi] <;> rfl)
    have hphase : 4 ≤ n := by
      have hresumes := hsaved.2.1
      simp only [Thread.resumes, Bool.or_eq_true, Bool.and_eq_true, beq_iff_eq] at hresumes
      rcases hresumes with hy | ⟨-, hr⟩
      · by_contra hlt
        exact (hs.wf p).1 (by rw [hy]; simp) _ (hneeds n hp (by omega) (by omega))
      · rcases hpos : (s.threads p).pos with o | ⟨sub, back⟩ <;> rw [hpos] at hp hr
        · cases hp
        · cases sub <;> cases hp <;> first | omega | cases hr
    refine ⟨hphase, fun hsl => ?_⟩
    simp only [Fits, hsl] at hfits
    obtain ⟨-, ch', lk', back, hchan, hpos | hpos⟩ := hfits <;> rw [hpos] at hp <;> cases hp
    · omega
    · exact hchan

/-- A wakeup on the channel of a sleeper has woken it when it has passed its slot. -/
def Machine.Passed (s : Machine κ δ) (p q : Nat) (ch : Chan) (lk : Nat) : Prop :=
  ∃ j m n, (s.threads q).pos.wakeupPhase = some (some ch, j, m) ∧
    (s.threads p).pos.sleepPhase = some (ch, lk, n) ∧ 2 ≤ n ∧
    (p < j ∨ p = j ∧ m = 2 → s.Awake p)

theorem Live.phase_mono (h : Live s) (hs : Placed s) (hstep : s.step cl a = some (.ok s'))
    (hp : (s.threads p).pos.sleepPhase = some (ch, lk, n)) (hn : 2 ≤ n)
    (hin : s'.inSleep p = true) :
    ∃ n', (s'.threads p).pos.sleepPhase = some (ch, lk, n') ∧ 2 ≤ n' := by
  rcases h.sleepPhase_step hs hstep hp hin with hp' | hp'
  · exact ⟨n, hp', hn⟩
  · exact ⟨n + 1, hp', by omega⟩

/-- Each step of wakeup keeps this; at the slot of the sleeper it wakes it. -/
theorem Live.passed_step (h : Live s) (hs : Placed s) (hstep : s.step cl a = some (.ok s'))
    (hpassed : s.Passed p q ch lk) (hin : s'.inSleep p = true)
    (hin' : s'.inWakeup q = true) : s'.Passed p q ch lk := by
  obtain ⟨j, m, n, hq, hp, hn, hawake⟩ := hpassed
  obtain ⟨n', hp', hn'⟩ := h.phase_mono hs hstep hp hn hin
  have hkeep : s.Awake p → s'.Awake p := fun ha => h.awake_step hs hstep ha hin
  have hpq : p ≠ q := by
    rintro rfl
    rcases hpos : (s.threads p).pos with o | ⟨sub, back⟩ <;> rw [hpos] at hp hq
    · cases hp
    · cases sub <;> cases hp <;> cases hq
  rcases h.thread_step hs hstep (Pos.dead_of_wakeupPhase hq) with heq | hown
  · exact ⟨j, m, n', by rw [heq, hq], hp', hn', fun hpass => hkeep (hawake hpass)⟩
  · obtain ⟨c, x, ok, instr, data, hm, hnext, hexec⟩ := hown
    rcases Thread.next_wakeupPhase hnext hq with
      heq | ⟨-, hnone⟩ | ⟨rfl, hph⟩ | ⟨rfl, hph⟩ | ⟨rfl, hph, hinstr, hneeds⟩ | ⟨rfl, hph⟩
    · exact ⟨j, m, n', by rw [heq, hq], hp', hn', fun hpass => hkeep (hawake hpass)⟩
    · rw [Machine.inWakeup, hnone] at hin'
      cases hin'
    · refine ⟨j + 1, 0, n', hph, hp', hn', fun hpass => hkeep (hawake (.inl ?_))⟩
      omega
    · refine ⟨j, 1, n', hph, hp', hn', fun hpass => hkeep (hawake (.inl ?_))⟩
      omega
    · refine ⟨j, 2, n', hph, hp', hn', fun hpass => ?_⟩
      by_cases hlt : p < j
      · exact hkeep (hawake (.inl hlt))
      · have hpj : p = j := by omega
        subst hpj
        obtain ⟨h4, hchan⟩ := h.found hs hm hpq (hs.held_of_needs hm hneeds) hp hn
        constructor
        · rcases h.sleepPhase_step hs hstep hp hin with hph' | hph'
          · exact ⟨ch, lk, n, hph', h4⟩
          · exact ⟨ch, lk, n + 1, hph', by omega⟩
        · have hslot : s'.slots p = (Update.wakeup (some ch)).apply (s.slots p) := by
            subst hinstr
            generalize s'.threads q = t at hexec
            cases hexec
            exact Function.update_self ..
          rw [hslot]
          by_cases hsl : (s.slots p).state = .SLEEPING
          · simp [Update.apply, hsl, hchan hsl]
          · simp [Update.apply, hsl]
    · refine ⟨j + 1, 0, n', hph, hp', hn', fun hpass => hkeep (hawake ?_)⟩
      omega

/-- A lock changes hands only when it is free, or when its owner lets it go. -/
theorem Placed.lock_step (hs : Placed s) {c c' : Nat} {l : Lock} {x : ι} {ok : Bool}
    (hstep : s.step cl (.step c x ok) = some (.ok s')) (hl : s.lock l = some c')
    (hne : c' ≠ c) : s'.lock l = some c' := by
  have hs' := hs.step hstep
  rw [hs'.owner]
  have hcpu : s'.cpus c' = s.cpus c' := by
    simp only [Machine.step] at hstep
    split at hstep
    · split at hstep
      · exact (Machine.exec_cpus hstep hne).trans rfl
      · cases hstep
    · exact Machine.schedule_cpus hstep hne
  rw [hcpu]
  exact (hs.owner _ _).mp hl

end steps

/-- A run in which `p`, holding `lk`, calls sleep on a channel; then `q` acquires `lk`,
and later runs wakeup on the channel to its end; all the time `p` is in that call. -/
inductive SleepRun (cl : Client κ δ ι) (p q : Nat) (ch : Chan) (lk : Nat) :
    Machine κ δ → Prop
  | mk {s₀ s₁ s₂ s₃ s₄ s₅ : Machine κ δ} {cp cq : Nat} {back back' : Return κ} {r : Int}
      {x : ι} {ok : Bool} {a : Action ι}
      (hreach : Reachable cl (fun _ _ => True) s₀)
      (hcall : s₀.threads p = ⟨.idle, .sub (.sleep ch lk) back, r⟩)
      (hrun : (s₀.cpus cp).mode = .run p) (hheld : .spin lk ∈ (s₀.cpus cp).held)
      (hsleep : Passage (fun s => s.step cl) (fun s => s.inSleep p = true) s₀ s₁)
      (hacquire : s₁.step cl (.step cq x ok) = some (.ok s₂))
      (hmode : (s₁.cpus cq).mode = .run q)
      (hbefore : s₁.lock (.spin lk) ≠ some cq) (hafter : s₂.lock (.spin lk) = some cq)
      (hthen : Passage (fun s => s.step cl) (fun s => s.inSleep p = true) s₂ s₃)
      (hwakeup : (s₃.threads q).pos = .sub (.wakeup (some ch) 0) back')
      (hscan : Passage (fun s => s.step cl)
        (fun s => s.inSleep p = true ∧ s.inWakeup q = true) s₃ s₄)
      (hreturn : s₄.step cl a = some (.ok s₅)) (hdone : s₅.inWakeup q = false)
      (hstill : s₅.inSleep p = true) : SleepRun cl p q ch lk s₅

/-- No wakeup is lost: when the wakeup of such a run returns, `p` is not SLEEPING in its
call of sleep; and a call of sleep returns only with its lock held. -/
theorem sleep_loses_no_wakeup (cl : Client κ δ ι) :
    (∀ p q ch lk s, SleepRun cl p q ch lk s → (s.slots p).state ≠ .SLEEPING) ∧
    ∀ s s' a p ch lk n, Reachable cl (fun _ _ => True) s →
      s.step cl a = some (.ok s') → (s.threads p).pos.sleepPhase = some (ch, lk, n) →
      s'.inSleep p = false →
      ∃ c, (s'.cpus c).mode = .run p ∧ s'.lock (.spin lk) = some c := by
  constructor
  · rintro p q ch lk s₅ ⟨hreach, hcall, hrun, hheld, hsleep, hacquire, hmode, hbefore, hafter,
      hthen, hwakeup, hscan, hreturn, hdone, hstill⟩
    rename_i s₀ s₁ s₂ s₃ s₄ cp cq back back' r x ok a
    -- Until q acquires the lock, p holds it or has let it go inside sleep.
    have h₁ := hsleep.invariant
      (I := fun s => (Placed s ∧ Live s) ∧ ∃ n,
        (s.threads p).pos.sleepPhase = some (ch, lk, n) ∧ (n < 2 → s.Holds p lk))
      (by
        rintro s b s' hstep - hin ⟨⟨hs, hl⟩, n, hp, hholds⟩
        refine ⟨⟨hs.step hstep, hl.step hs hstep⟩, ?_⟩
        by_cases hn : n < 2
        · rcases hs.holds_step hstep hp hn (hholds hn) with hh | hp'
          · rcases hl.sleepPhase_step hs hstep hp hin with hp' | hp'
            · exact ⟨n, hp', fun _ => hh⟩
            · exact ⟨n + 1, hp', fun _ => hh⟩
          · exact ⟨2, hp', by omega⟩
        · obtain ⟨n', hp', hn'⟩ := hl.phase_mono hs hstep hp (by omega) hin
          exact ⟨n', hp', by omega⟩)
      ⟨⟨hreach.placed, hreach.live⟩, 0, by rw [hcall]; rfl,
        fun _ => ⟨by rw [hcall], cp, hrun, hheld⟩⟩
    obtain ⟨⟨hs₁, hl₁⟩, n, hp₁, hholds⟩ := h₁
    have hn : 2 ≤ n := by
      by_contra hlt
      obtain ⟨-, c, hc, hmem⟩ := hholds (by omega)
      have hown := (hs₁.owner _ c).mpr hmem
      have hne : c ≠ cq := by
        rintro rfl
        exact hbefore hown
      rw [hs₁.lock_step hacquire hown hne] at hafter
      cases hafter
      exact hne rfl
    obtain ⟨n₂, hp₂, hn₂⟩ := hl₁.phase_mono hs₁ hacquire hp₁ hn hthen.first
    have h₃ := hthen.invariant
      (I := fun s => (Placed s ∧ Live s) ∧ ∃ n,
        (s.threads p).pos.sleepPhase = some (ch, lk, n) ∧ 2 ≤ n)
      (by
        rintro s b s' hstep - hin ⟨⟨hs, hl⟩, n, hp, hn⟩
        exact ⟨⟨hs.step hstep, hl.step hs hstep⟩, hl.phase_mono hs hstep hp hn hin⟩)
      ⟨⟨hs₁.step hacquire, hl₁.step hs₁ hacquire⟩, n₂, hp₂, hn₂⟩
    obtain ⟨hsound₃, n₃, hp₃, hn₃⟩ := h₃
    have h₄ := hscan.invariant
      (I := fun s => (Placed s ∧ Live s) ∧ s.Passed p q ch lk)
      (by
        rintro s b s' hstep - ⟨hin, hin'⟩ ⟨⟨hs, hl⟩, hpassed⟩
        exact ⟨⟨hs.step hstep, hl.step hs hstep⟩, hl.passed_step hs hstep hpassed hin hin'⟩)
      ⟨hsound₃, 0, 0, n₃, by rw [hwakeup]; rfl, hp₃, hn₃, by omega⟩
    obtain ⟨⟨hs₄, hl₄⟩, j, m, n₄, hq₄, hp₄, hn₄, hawake⟩ := h₄
    -- wakeup returns only after the last slot.
    have hj : NPROC ≤ j := by
      rcases hl₄.thread_step hs₄ hreturn (Pos.dead_of_wakeupPhase hq₄) with heq | hown
      · rw [Machine.inWakeup, heq, hq₄] at hdone
        cases hdone
      · obtain ⟨c, x', ok', instr, data, -, hnext, -⟩ := hown
        rw [Machine.inWakeup] at hdone
        rcases Thread.next_wakeupPhase hnext hq₄ with
          heq | ⟨hge, -⟩ | ⟨-, hph⟩ | ⟨-, hph⟩ | ⟨-, hph, -⟩ | ⟨-, hph⟩
        · rw [heq, hq₄] at hdone
          cases hdone
        · exact hge
        all_goals
          rw [hph] at hdone
          cases hdone
    have hlt : p < NPROC := by
      apply hl₄.lt
      intro hunused
      have hfits := hl₄.fits p
      simp only [Fits, hunused] at hfits
      rw [Pos.dead_of_sleepPhase hp₄] at hfits
      cases hfits.2
    exact (hl₄.awake_step hs₄ hreturn (hawake (.inl (by omega))) hstill).2
  · intro s s' a p ch lk n hreach hstep hp hout
    rcases hreach.live.thread_step hreach.placed hstep (Pos.dead_of_sleepPhase hp) with
      heq | hown
    · rw [Machine.inSleep, heq, hp] at hout
      cases hout
    · obtain ⟨c, x, ok, instr, data, hm, hnext, hexec⟩ := hown
      rw [Machine.inSleep] at hout
      rcases Thread.next_sleepPhase hnext hp with heq | ⟨-, hph⟩ | ⟨-, -, hinstr⟩
      · rw [heq, hp] at hout
        cases hout
      · rw [hph] at hout
        cases hout
      · subst hinstr
        generalize s'.threads p = t at hexec
        cases Machine.exec_cases hexec
        exact ⟨c, by simp [Machine.take, Machine.setThread, hm], by simp [Machine.take]⟩

namespace SleepWitness

/-- The first process forks, its child runs on CPU 1, and the first process takes a
lock and calls sleep. -/
def start : Option (Machine Unit Unit) :=
  runAll (fun _ _ => true) (fun s => s.step anyClient) (boot () ())
    (steps 0 4 ++ [.step 0 (.fork () ()) true] ++ steps 0 14 ++ steps 1 7 ++
      [.step 0 (.acquire 5 ()) true, .step 0 (.sleep 7 5 ()) true])

theorem start_isSome : start.isSome = true := by rfl

def s₀ : Machine Unit Unit := start.get start_isSome

/-- It falls asleep. -/
def asleep : Option (Machine Unit Unit) :=
  follow (fun s => s.inSleep 0) (fun s => s.step anyClient) s₀ (steps 0 7)

theorem asleep_isSome : asleep.isSome = true := by rfl

def s₁ : Machine Unit Unit := asleep.get asleep_isSome

/-- The child takes the lock. -/
def acquired : Option (Machine Unit Unit) :=
  follow (fun _ => true) (fun s => s.step anyClient) s₁ [.step 1 (.acquire 5 ()) true]

theorem acquired_isSome : acquired.isSome = true := by rfl

def s₂ : Machine Unit Unit := acquired.get acquired_isSome

/-- It calls wakeup. -/
def called : Option (Machine Unit Unit) :=
  follow (fun s => s.inSleep 0) (fun s => s.step anyClient) s₂ [.step 1 (.wakeup 7 ()) true]

theorem called_isSome : called.isSome = true := by rfl

def s₃ : Machine Unit Unit := called.get called_isSome

/-- wakeup goes over all slots. -/
def scanned : Option (Machine Unit Unit) :=
  follow (fun s => s.inSleep 0 && s.inWakeup 1) (fun s => s.step anyClient) s₃ (steps 1 190)

set_option maxRecDepth 4000 in
theorem scanned_isSome : scanned.isSome = true := by rfl

def s₄ : Machine Unit Unit := scanned.get scanned_isSome

def returned : Option (Machine Unit Unit) :=
  follow (fun _ => true) (fun s => s.step anyClient) s₄ (steps 1 1)

set_option maxRecDepth 4000 in
theorem returned_isSome : returned.isSome = true := by rfl

def s₅ : Machine Unit Unit := returned.get returned_isSome

theorem step_of_follow {s s' : Machine Unit Unit} {b : Action (Call Unit)}
    (h : follow (fun _ => true) (fun s => s.step anyClient) s [b] = some s') :
    s.step anyClient b = some (.ok s') := by
  simp only [follow, if_true] at h
  split at h
  · next hs => rw [hs, Option.some.inj h]
  · cases h

theorem s₀_reachable : Reachable anyClient (fun _ _ => True) s₀ :=
  Reach.runAll (fun _ _ _ => trivial) (.start ⟨(), (), rfl⟩) (Option.some_get start_isSome).symm

theorem s₀_call : s₀.threads 0 = ⟨.idle, .sub (.sleep (.addr 7) 6) (.client ()), 2⟩ := by
  rfl

theorem s₃_call : (s₃.threads 1).pos = .sub (.wakeup (some (.addr 7)) 0) (.client ()) := by
  rfl

theorem asleep_path : Passage (fun s => s.step anyClient) (fun s => s.inSleep 0 = true) s₀ s₁ :=
  (Passage.refl (by rfl)).follow (Option.some_get asleep_isSome).symm

theorem called_path : Passage (fun s => s.step anyClient) (fun s => s.inSleep 0 = true) s₂ s₃ :=
  (Passage.refl (by rfl)).follow (Option.some_get called_isSome).symm

theorem scanned_path : Passage (fun s => s.step anyClient)
    (fun s => (s.inSleep 0 && s.inWakeup 1) = true) s₃ s₄ :=
  (Passage.refl (by rfl)).follow (Option.some_get scanned_isSome).symm

theorem run : SleepRun anyClient 0 1 (.addr 7) 6 s₅ := by
  have hscan := scanned_path
  simp only [Bool.and_eq_true] at hscan
  have hrun : (s₀.cpus 0).mode = .run 0 := by rfl
  have hmode : (s₁.cpus 1).mode = .run 1 := by rfl
  refine .mk s₀_reachable s₀_call hrun ?_ asleep_path
    (step_of_follow (Option.some_get acquired_isSome).symm) hmode ?_ ?_ called_path s₃_call
    hscan (step_of_follow (Option.some_get returned_isSome).symm) ?_ ?_
  all_goals decide +kernel

/-- The first process sleeps and its child wakes it. -/
theorem sleep_loses_no_wakeup_fork : SleepRun anyClient 0 1 (.addr 7) 6 s₅ ∧
    (s₅.slots 0).state ≠ .SLEEPING :=
  ⟨run, (sleep_loses_no_wakeup anyClient).1 _ _ _ _ _ run⟩

end SleepWitness

end Xv6.Sched
