/-
What the state of a slot says about its thread: a free slot has a thread that is not
running, a ZOMBIE is at the end of exit, and a process is SLEEPING only inside sleep, on
the channel that it passed.
-/
import Xv6.Sched.Placement

namespace Xv6.Sched

variable {κ δ ι : Type}

section inversion

variable {cl : Client κ δ ι} {slots : Nat → Slot} {data data' : δ} {i j : Nat} {x : ι}
  {ok : Bool} {t t' : Thread κ} {instr : Instr κ}

theorem Call.next_ne_update (call : Call κ) (r : Int) (u : Update) :
    (call.next i r).1 ≠ .update j u := by
  cases call <;> simp only [Call.next] <;> (try split) <;> simp

/-- Only sleep makes a process SLEEPING. -/
theorem Thread.next_sleep {ch : Chan}
    (h : t.next cl slots data i x ok = some (instr, t', data'))
    (hinstr : instr = .update j (.sleep ch)) :
    ∃ lk back, t.yield = .idle ∧ t.pos = .sub (.sleepMark ch lk) back ∧
      t' = ⟨.idle, .sub (.sleepSched ch lk) back, t.ret⟩ := by
  cases Thread.next_cases h with
  | acquire hy | ready hy | swtch hy | release hy => cases hinstr
  | client hy hpos hnext => exact absurd hinstr (Call.next_ne_update _ _ _)
  | sub hy hpos hnext =>
      rename_i c back p r
      subst hinstr
      cases c <;> simp only [Sub.next] at hnext <;> (try split at hnext) <;>
        (try split at hnext) <;> cases hnext
      exact ⟨_, _, hy, hpos, rfl⟩
  | op hy hpos hclient hnext =>
      rename_i o p r
      subst hinstr
      cases o <;> simp only [Op.next] at hnext <;> (try split at hnext) <;>
        (try split at hnext) <;> cases hnext

/-- Only exit makes a process a ZOMBIE. -/
theorem Thread.next_exit {st : Int}
    (h : t.next cl slots data i x ok = some (instr, t', data'))
    (hinstr : instr = .update j (.exit st)) :
    t.yield = .idle ∧ t.pos = .op (.exitMark st) ∧
      t' = ⟨.idle, .op .exitWaitUnlock, t.ret⟩ := by
  cases Thread.next_cases h with
  | acquire hy | ready hy | swtch hy | release hy => cases hinstr
  | client hy hpos hnext => exact absurd hinstr (Call.next_ne_update _ _ _)
  | sub hy hpos hnext =>
      rename_i c back p r
      subst hinstr
      cases c <;> simp only [Sub.next] at hnext <;> (try split at hnext) <;>
        (try split at hnext) <;> cases hnext
  | op hy hpos hclient hnext =>
      rename_i o p r
      subst hinstr
      cases o <;> simp only [Op.next] at hnext <;> (try split at hnext) <;>
        (try split at hnext) <;> cases hnext
      exact ⟨hy, hpos, rfl⟩

end inversion

/-- A thread that has not started, or will not go on. -/
def Pos.dead : Pos κ → Bool
  | .op (.forkret _) | .op .exitReturned => true
  | _ => false

/-- The positions after a process has become a ZOMBIE. -/
def Pos.exited : Pos κ → Bool
  | .op .exitWaitUnlock | .op .exitSched | .op .exitReturned => true
  | _ => false

/-- The thread fits the state of its slot. -/
def Fits (p : Slot) (t : Thread κ) : Prop :=
  match p.state with
  | .UNUSED | .USED => t.yield = .idle ∧ t.pos.dead = true
  | .ZOMBIE => t.yield = .idle ∧ t.pos.exited = true
  | .SLEEPING => t.yield = .idle ∧ ∃ ch lk back, p.chan = some ch ∧
      (t.pos = .sub (.sleepSched ch lk) back ∨ t.pos = .sub (.sleepWoken ch lk) back)
  | .RUNNABLE | .RUNNING => True

/-- Only the state and the channel of the slot matter. -/
theorem Fits.congr {p p' : Slot} {t : Thread κ} (h : Fits p t) (hstate : p'.state = p.state)
    (hchan : p'.chan = p.chan) : Fits p' t := by
  simp only [Fits, hstate, hchan]
  exact h

structure Live (s : Machine κ δ) : Prop where
  bound : ∀ i, NPROC ≤ i → (s.slots i).state = .UNUSED
  fits : ∀ i, Fits (s.slots i) (s.threads i)

theorem Fits.of_running {p : Slot} {t : Thread κ}
    (h : p.state = .RUNNING ∨ p.state = .RUNNABLE) : Fits p t := by
  rcases h with h | h <;> simp [Fits, h]

namespace Live

variable {s s' : Machine κ δ} {c i j : Nat} {t : Thread κ}

theorem lt (h : Live s) (hi : (s.slots i).state ≠ .UNUSED) : i < NPROC := by
  by_contra hge
  exact hi (h.bound i (Nat.le_of_not_lt hge))

/-- The same slots and threads. -/
theorem congr (h : Live s) (hslots : s'.slots = s.slots) (hthreads : s'.threads = s.threads) :
    Live s' :=
  ⟨by rw [hslots]; exact h.bound, by rw [hslots, hthreads]; exact h.fits⟩

/-- One slot and its thread change. -/
theorem set (h : Live s) {p : Slot} (hp : p.state ≠ .UNUSED → i < NPROC) (hfits : Fits p t)
    (hslots : s'.slots = Function.update s.slots i p)
    (hthreads : s'.threads = Function.update s.threads i t) : Live s' := by
  constructor
  · intro k hk
    rw [hslots]
    by_cases hki : k = i
    · subst hki
      rw [Function.update_self]
      by_contra hne
      exact absurd (hp hne) (Nat.not_lt.mpr hk)
    · rw [Function.update_of_ne hki]
      exact h.bound k hk
  · intro k
    rw [hslots, hthreads]
    by_cases hki : k = i
    · subst hki
      simpa using hfits
    · simpa [hki] using h.fits k

theorem schedule (h : Live s) {m : Mode} (hstep : s.schedule c m = some (.ok s')) : Live s' := by
  cases m with
  | scan j =>
      simp only [Machine.schedule] at hstep
      split at hstep <;> cases hstep
      exact h.congr rfl rfl
  | test j =>
      simp only [Machine.schedule] at hstep
      split at hstep
      · next hstate =>
          cases hstep
          apply h.set (i := j) (p := { s.slots j with state := .RUNNING }) (t := s.threads j)
            (fun _ => h.lt (by rw [hstate]; simp)) (.of_running (.inl rfl)) rfl
          exact (Function.update_eq_self _ _).symm
      · cases hstep
        exact h.congr rfl rfl
  | enter j | leave j | back j | unlock j =>
      cases hstep
      exact h.congr rfl rfl
  | run j => cases hstep

/-- The thread of a parked process goes on. -/
theorem fits_parked (h : Live s) {cl : Client κ δ ι} {data data' : δ} {x : ι} {ok : Bool}
    {instr : Instr κ} (hidle : (s.slots i).state.idle = true)
    (hpark : (s.threads i).parked = true)
    (hnext : (s.threads i).next cl s.slots data i x ok = some (instr, t, data')) :
    Fits (s.slots i) t := by
  have hfits := h.fits i
  generalize s.threads i = t₀ at *
  obtain ⟨y, p, r⟩ := t₀
  cases hstate : (s.slots i).state with
  | RUNNABLE => exact .of_running (.inr hstate)
  | SLEEPING =>
      simp only [Fits, hstate] at hfits ⊢
      obtain ⟨rfl, ch, lk, back, hch, hpos⟩ := hfits
      rcases hpos with rfl | rfl
      · cases hnext
        exact ⟨rfl, ch, lk, back, hch, .inr rfl⟩
      · cases hpark
  | ZOMBIE =>
      simp only [Fits, hstate] at hfits ⊢
      obtain ⟨rfl, hpos⟩ := hfits
      rcases p with o | ⟨c, back⟩
      · cases o with
        | exitWaitUnlock | exitSched =>
            cases hnext
            exact ⟨rfl, rfl⟩
        | exitReturned => cases hpark
        | _ => cases hpos
      · cases hpos
  | UNUSED | USED | RUNNING =>
      rw [hstate] at hidle
      cases hidle

/-- A ZOMBIE whose lock another thread holds has left its CPU for good. -/
theorem dead_of_zombie (h : Live s) (hs : Placed s) (hm : (s.cpus c).mode = .run i)
    (hrun : (s.slots i).state = .RUNNING) (hj : .proc j ∈ (s.cpus c).held)
    (hzombie : (s.slots j).state = .ZOMBIE) :
    (s.threads j).yield = .idle ∧ (s.threads j).pos.dead = true := by
  have hc : (s.cpus c).proc ≠ some j := by
    rw [hs.proc_of_run hm]
    rintro ⟨rfl⟩
    rw [hzombie] at hrun
    cases hrun
  have hsaved := hs.saved j (hs.off hj (by rw [hzombie]; simp) hc) (by rw [hzombie]; rfl)
  have hfits := h.fits j
  simp only [Fits, hzombie] at hfits
  obtain ⟨hy, hpos⟩ := hfits
  refine ⟨hy, ?_⟩
  have hpark := hsaved.1
  simp only [Thread.parked, hy] at hpark
  rcases hp : (s.threads j).pos with o | ⟨k, back⟩ <;> rw [hp] at hpos hpark
  · cases o with
    | exitReturned => rfl
    | exitWaitUnlock | exitSched => cases hpark
    | _ => cases hpos
  · cases hpos

/-- The thread of a process moves on, and its slot may be updated. -/
theorem thread (h : Live s) (hs : Placed s) {cl : Client κ δ ι} {x : ι} {ok : Bool}
    {data : δ} {instr : Instr κ} (hm : (s.cpus c).mode = .run i)
    (hnext : (s.threads i).next cl s.slots s.data i x ok = some (instr, t, data))
    (hstep : ({ s with data := data }.setThread i t).exec c i instr = some (.ok s')) :
    Live s' := by
  have heff := Thread.next_effect (hs.wf i) hnext
  have hcpu := hs.cpu c
  simp only [CpuOk, hm] at hcpu
  -- The slot of the thread is RUNNING, or it is parked and about to leave.
  have hown : Fits (s.slots i) t := by
    by_cases hpark : (s.threads i).parked = true
    · simp only [hpark, if_true] at hcpu
      exact h.fits_parked hcpu.2.2 hpark hnext
    · simp only [hpark] at hcpu
      exact .of_running (.inl hcpu.2.2)
  have hlt : i < NPROC := by
    apply h.lt
    intro hunused
    have hidle := ((hs.cpu c).held_of_proc hcpu.1 (by rw [hunused]; simp)).2
    rw [hunused] at hidle
    cases hidle
  have hset : Live ({ s with data := data }.setThread i t) :=
    h.set (fun _ => hlt) hown (Function.update_eq_self _ _).symm rfl
  cases Machine.exec_cases hstep with
  | nop => exact hset
  | acquire | release | swtch => exact hset.congr rfl rfl
  | @spawn j k =>
      have hused := (hs.child i j false heff.effect.2.1).1
      apply hset.set (i := j) (p := s.slots j) (t := { pos := .op (.forkret k) }) h.lt
      · simp [Fits, hused, Pos.dead]
      · exact (Function.update_eq_self _ _).symm
      · rfl
  | @alloc j =>
      have hrun := hs.state_of_run hm (heff.calm (by simp) (by simp))
      obtain ⟨hlt', -, -, hunused, -, -⟩ := heff.effect
      have hji : j ≠ i := by
        rintro rfl
        rw [hrun] at hunused
        cases hunused
      have hdead := h.fits j
      simp only [Fits, hunused] at hdead
      apply hset.set (i := j) (p := { s.slots j with pid := s.nextpid, state := .USED })
        (t := s.threads j) (fun _ => hlt') (by simpa [Fits] using hdead) rfl
      simp [Machine.alloc, Machine.setSlot, Machine.setThread, Function.update_of_ne hji]
  | @update j u =>
      have hrun := hs.state_of_run hm (heff.calm (by simp) (by simp))
      have hslot : ∀ p : Slot, (p.state ≠ .UNUSED → j < NPROC) →
          Fits p (({ s with data := data }.setThread i t).threads j) →
          Live (({ s with data := data }.setThread i t).setSlot j p) := by
        intro p hp hfits
        exact hset.set hp hfits rfl (Function.update_eq_self _ _).symm
      have hbound : ∀ p : Slot, p.state = (s.slots j).state → p.state ≠ .UNUSED →
          j < NPROC := by
        intro p hp hne
        exact h.lt (by rwa [← hp])
      have hj := hset.fits j
      change Fits (s.slots j) _ at hj
      cases u with
      | wakeup chan =>
          by_cases hsl : (s.slots j).state = .SLEEPING ∧ (s.slots j).chan = chan
          · apply hslot
            · exact fun _ => h.lt (by rw [hsl.1]; simp)
            · exact .of_running (.inr (by simp [Update.apply, Machine.setThread, hsl]))
          · apply hslot
            · exact hbound _ (by simp [Update.apply, Machine.setThread, hsl])
            · simpa [Update.apply, Machine.setThread, hsl] using hj
      | kill =>
          by_cases hsl : (s.slots j).state = .SLEEPING
          · apply hslot
            · exact fun _ => h.lt (by rw [hsl]; simp)
            · exact .of_running (.inr (by simp [Update.apply, Machine.setThread, hsl]))
          · apply hslot
            · exact hbound _ (by simp [Update.apply, Machine.setThread, hsl])
            · exact hj.congr (by simp [Update.apply, Machine.setThread, hsl]) rfl
      | sleep chan =>
          obtain ⟨lk, back, -, -, rfl⟩ := Thread.next_sleep hnext rfl
          obtain ⟨rfl, -⟩ := heff.effect
          apply hslot _ (fun _ => hlt)
          simp [Fits, Update.apply, Machine.setThread]
      | clearChan =>
          obtain ⟨rfl, -⟩ := heff.effect
          exact hslot _ (fun _ => hlt) (.of_running (.inl hrun))
      | yield =>
          obtain ⟨rfl, -⟩ := heff.effect
          exact hslot _ (fun _ => hlt) (.of_running (.inr rfl))
      | exit status =>
          obtain ⟨-, -, rfl⟩ := Thread.next_exit hnext rfl
          obtain ⟨rfl, -⟩ := heff.effect
          apply hslot _ (fun _ => hlt)
          simp [Fits, Update.apply, Machine.setThread, Pos.exited]
      | parent q => exact hslot _ (hbound _ rfl) (hj.congr rfl rfl)
      | ready =>
          have hused := (hs.child i j true heff.effect.2.2.1).1
          exact hslot _ (fun _ => h.lt (by rw [hused]; simp)) (.of_running (.inr rfl))
      | free =>
          have hdead : (s.threads j).yield = .idle ∧ (s.threads j).pos.dead = true := by
            rcases heff.effect.2.2.2 with ⟨hzombie, -⟩ | hchild
            · exact h.dead_of_zombie hs hm hrun (hs.held_of_needs hm heff.effect.1) hzombie
            · have hj' := h.fits j
              simp only [Fits, (hs.child i j false hchild).1] at hj'
              exact hj'
          have hji : j ≠ i := by
            rintro rfl
            rcases heff.effect.2.2.2 with ⟨hzombie, -⟩ | hchild
            · rw [hzombie] at hrun
              cases hrun
            · exact hs.not_child hm _ _ hchild
          apply hslot _ (fun hne => absurd rfl hne)
          simpa [Fits, Update.apply, Machine.setThread, hji] using hdead

theorem step (h : Live s) (hs : Placed s) {cl : Client κ δ ι} {a : Action ι}
    (hstep : s.step cl a = some (.ok s')) : Live s' := by
  cases Machine.step_cases hstep with
  | thread hm hnext hexec => exact h.thread hs hm hnext hexec
  | timer hm hheld hidle heq =>
      rename_i c i
      subst heq
      have hnotpark : (s.threads i).parked = false := by
        rw [← Bool.not_eq_true]
        intro hp
        have hmem := hs.held_of_needs hm (Thread.needs_of_parked hp)
        rw [hheld] at hmem
        cases hmem
      have hrun := hs.state_of_run hm hnotpark
      exact h.set (fun _ => h.lt (by rw [hrun]; simp)) (.of_running (.inl hrun))
        (Function.update_eq_self _ _).symm rfl
  | schedule hm hrun hsched => exact h.schedule hsched

/-- A thread moves only by its own code; at most a timer interrupt enters yield. -/
theorem thread_step (h : Live s) (hs : Placed s) {cl : Client κ δ ι} {a : Action ι} {p : Nat}
    (hstep : s.step cl a = some (.ok s')) (hp : (s.threads p).pos.dead = false) :
    (s'.threads p).pos = (s.threads p).pos ∨
      ∃ c x ok instr data, (s.cpus c).mode = .run p ∧
        (s.threads p).next cl s.slots s.data p x ok = some (instr, s'.threads p, data) ∧
        ({ s with data := data }.setThread p (s'.threads p)).exec c p instr =
          some (.ok s') := by
  cases Machine.step_cases hstep with
  | schedule hm hrun hsched => exact .inl (by rw [(Machine.schedule_frame hsched).1])
  | timer hm hheld hidle heq =>
      rename_i c i
      subst heq
      by_cases hpi : p = i
      · subst hpi
        exact .inl (by simp [Machine.setThread])
      · exact .inl (by simp [Machine.setThread, hpi])
  | thread hm hnext hexec =>
      rename_i c i x ok instr t data
      have hother : ∀ j k, instr = .spawn j k → j ≠ p := by
        rintro j k rfl rfl
        have heff := Thread.next_effect (hs.wf i) hnext
        have hused := (hs.child i j false heff.effect.2.1).1
        have hfits := h.fits j
        simp only [Fits, hused] at hfits
        rw [hfits.2] at hp
        cases hp
      by_cases hpi : p = i
      · subst hpi
        have ht : s'.threads p = t := by
          rcases Machine.exec_threads hexec with heq | ⟨j, k, hspawn, heq⟩
          · rw [heq]
            exact Function.update_self ..
          · rw [heq, Function.update_of_ne (hother j k hspawn).symm]
            exact Function.update_self ..
        rw [← ht] at hnext hexec
        exact .inr ⟨c, x, ok, instr, data, hm, hnext, hexec⟩
      · left
        rcases Machine.exec_threads hexec with heq | ⟨j, k, hspawn, heq⟩
        · rw [heq, Function.update_of_ne hpi]
        · rw [heq, Function.update_of_ne (hother j k hspawn).symm, Function.update_of_ne hpi]

theorem boot (k : κ) (data : δ) : Live (boot k data) := by
  constructor
  · intro i hi
    have hne : i ≠ initproc := by
      rintro rfl
      exact absurd hi (by decide)
    simp [Sched.boot, hne]
  · intro i
    by_cases hi : i = initproc
    · simp [Sched.boot, hi, Fits]
    · simp [Sched.boot, hi, Fits, Pos.dead]

end Live

/-- The thread of a slot that is free or being set up. -/
theorem Live.dead_of_used {s : Machine κ δ} {i : Nat} (h : Live s)
    (hi : (s.slots i).state = .UNUSED ∨ (s.slots i).state = .USED) :
    (s.threads i).pos.dead = true := by
  have hfits := h.fits i
  rcases hi with hi | hi <;> simp only [Fits, hi] at hfits <;> exact hfits.2

/-- A thread that needs the lock of another slot is running and holds it. -/
theorem Live.running_of_needs {s : Machine κ δ} (h : Live s) (hs : Placed s) {i : Nat}
    {l : Lock} (hneeds : (s.threads i).pos.Needs i l) (hl : l ≠ .proc i) :
    ∃ c, (s.cpus c).mode = .run i ∧ l ∈ (s.cpus c).held := by
  have hsaved : ¬ (s.threads i).Saved i := fun hsv => hl (hsv.2.2 l (.inr hneeds))
  by_cases hcpu : ∃ c, (s.cpus c).proc = some i
  · obtain ⟨c, hc⟩ := hcpu
    have hok := hs.cpu c
    rcases hok.mode_of_proc hc with hm | hm | hm | hm
    · simp only [CpuOk, hm] at hok
      exact absurd hok.2.2.2 hsaved
    · exact ⟨c, hm, hs.held_of_needs hm (.inr hneeds)⟩
    · simp only [CpuOk, hm] at hok
      exact absurd hok.2.2.2 hsaved
    · simp only [CpuOk, hm] at hok
      exact absurd hok.2.2.2 hsaved
  · exfalso
    have hoff : ∀ c, (s.cpus c).proc ≠ some i := fun c hc => hcpu ⟨c, hc⟩
    have hfits := h.fits i
    cases hstate : (s.slots i).state with
    | RUNNING => exact hcpu (hs.running i hstate)
    | SLEEPING | RUNNABLE | ZOMBIE => exact hsaved (hs.saved i hoff (by rw [hstate]; rfl))
    | UNUSED | USED =>
        simp only [Fits, hstate] at hfits
        rcases hpos : (s.threads i).pos with o | ⟨c, back⟩ <;> rw [hpos] at hfits hneeds
        · cases o with
          | forkret k => exact hl (List.mem_singleton.mp hneeds)
          | exitReturned => cases hneeds
          | _ => cases hfits.2
        · cases hfits.2

/-- Two threads cannot need the same lock, unless it is their own `p->lock`. -/
theorem Live.needs_unique {s : Machine κ δ} (h : Live s) (hs : Placed s) {i i' : Nat} {l : Lock}
    (hi : (s.threads i).pos.Needs i l) (hi' : (s.threads i').pos.Needs i' l)
    (hl : l ≠ .proc i) (hl' : l ≠ .proc i') : i = i' := by
  obtain ⟨c, hm, hheld⟩ := h.running_of_needs hs hi hl
  obtain ⟨c', hm', hheld'⟩ := h.running_of_needs hs hi' hl'
  have hown := (hs.owner _ c).mpr hheld
  rw [(hs.owner _ c').mpr hheld'] at hown
  cases hown
  rw [hm] at hm'
  cases hm'
  rfl

theorem Reachable.live {cl : Client κ δ ι} {A : Machine κ δ → Action ι → Prop}
    {s : Machine κ δ} (h : Reachable cl A s) : Live s := by
  have hboth : Placed s ∧ Live s := by
    apply Transition.Reach.invariant _ _ h
    · rintro s ⟨k, data, rfl⟩
      exact ⟨Placed.boot k data, Live.boot k data⟩
    · exact fun s a s' _ hstep hs => ⟨hs.1.step hstep, hs.2.step hs.1 hstep⟩
  exact hboth.2

end Xv6.Sched
