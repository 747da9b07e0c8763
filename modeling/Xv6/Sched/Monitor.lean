/-
Sleepers and wakers, for code that guards a condition with a lock.  A process falls
asleep on a channel only by letting go of its lock, and it is still asleep only as long
as no wakeup on the channel has passed its slot.
-/
import Xv6.Sched.Sleep

namespace Xv6.Sched

variable {κ δ ι : Type}

/-- The process has let go of its lock inside sleep, and no wakeup has found it since. -/
def Machine.Asleep (s : Machine κ δ) (p : Nat) (ch : Chan) (lk : Nat) (back : Return κ) :
    Prop :=
  (s.threads p).pos = .sub (.sleepMark ch lk) back ∨
    (s.threads p).pos = .sub (.sleepSched ch lk) back ∨
    (s.threads p).pos = .sub (.sleepWoken ch lk) back ∧ (s.slots p).state = .SLEEPING

/-- A wakeup on the channel that has not passed the slot. -/
def Sub.wakes (ch : Chan) (p : Nat) : Sub → Bool
  | .wakeup chan j | .wakeupTest chan j => decide (chan = some ch ∧ j ≤ p)
  | .wakeupUnlock chan j => decide (chan = some ch ∧ j < p)
  | _ => false

section next

variable {cl : Client κ δ ι} {slots : Nat → Slot} {data data' : δ} {i : Nat} {x : ι}
  {ok : Bool} {t t' : Thread κ} {instr : Instr κ} {ch : Chan} {lk : Nat} {back : Return κ}

/-- What comes before the middle of sleep. -/
theorem Thread.next_asleep {c : Sub}
    (h : t.next cl slots data i x ok = some (instr, t', data')) (hpos : t'.pos = .sub c back)
    (hc : c = .sleepMark ch lk ∨ c = .sleepSched ch lk ∨ c = .sleepWoken ch lk) :
    t.pos = .sub c back ∨
      (t.pos = .sub (.sleepRelease ch lk) back ∧ instr = .release (.spin lk)) ∨
      t.pos = .sub (.sleepMark ch lk) back ∨ t.pos = .sub (.sleepSched ch lk) back := by
  cases Thread.next_cases h with
  | acquire hy | ready hy | swtch hy | release hy => exact .inl hpos
  | client hy hpos' hnext =>
      rename_i k call
      rcases hc with rfl | rfl | rfl <;> cases call <;> simp only [Call.next] at hpos <;>
        (try split at hpos) <;> cases hpos
  | op hy hpos' hclient hnext =>
      rename_i o p r
      subst hpos
      rcases hc with rfl | rfl | rfl <;> cases o <;> simp only [Op.next] at hnext <;>
        (try split at hnext) <;> (try split at hnext) <;> cases hnext
  | sub hy hpos' hnext =>
      rename_i c' back' p r
      subst hpos
      rw [hpos']
      rcases hc with rfl | rfl | rfl <;> cases c' <;> simp only [Sub.next] at hnext <;>
        (try split at hnext) <;> (try split at hnext) <;> cases hnext <;> simp

/-- A subroutine keeps the place that it returns to. -/
theorem Thread.next_wakes {c : Sub} {p : Nat}
    (h : t.next cl slots data i x ok = some (instr, t', data')) (hpos : t.pos = .sub c back)
    (hc : c.wakes ch p = true) (hp : p < NPROC) (hpi : p ≠ i) :
    (∃ c', t'.pos = .sub c' back ∧ c'.wakes ch p = true) ∨
      instr = .update p (.wakeup (some ch)) ∧ t.Needs i (.proc p) := by
  cases Thread.next_cases h with
  | acquire hy | ready hy | swtch hy | release hy => exact .inl ⟨c, hpos, hc⟩
  | client hy hpos' hnext =>
      rw [hpos'] at hpos
      cases hpos
  | op hy hpos' hclient hnext =>
      rw [hpos'] at hpos
      cases hpos
  | sub hy hpos' hnext =>
      rename_i c' back' p' r
      rw [hpos'] at hpos
      cases hpos
      cases c with
      | wakeup chan j =>
          simp only [Sub.wakes, decide_eq_true_eq] at hc
          simp only [Sub.next] at hnext
          split at hnext
          · omega
          · split at hnext
            · cases hnext
              exact .inl ⟨_, rfl, decide_eq_true ⟨hc.1, by omega⟩⟩
            · cases hnext
              exact .inl ⟨_, rfl, by simpa [Sub.wakes] using hc⟩
      | wakeupTest chan j =>
          simp only [Sub.wakes, decide_eq_true_eq] at hc
          obtain ⟨rfl, hle⟩ := hc
          cases hnext
          by_cases hjp : j = p
          · subst hjp
            refine .inr ⟨rfl, .inr ?_⟩
            rw [hpos']
            exact .inl (List.mem_singleton.mpr rfl)
          · exact .inl ⟨_, rfl, decide_eq_true ⟨rfl, by omega⟩⟩
      | wakeupUnlock chan j =>
          simp only [Sub.wakes, decide_eq_true_eq] at hc
          cases hnext
          exact .inl ⟨_, rfl, decide_eq_true ⟨hc.1, by omega⟩⟩
      | _ => cases hc

end next

section step

variable {cl : Client κ δ ι} {s s' : Machine κ δ} {a : Action ι} {p q : Nat} {ch : Chan}
  {lk : Nat} {back : Return κ}

theorem Live.asleep_of_sleeping (h : Live s) (hsl : (s.slots p).state = .SLEEPING) :
    ∃ ch lk back, (s.slots p).chan = some ch ∧ s.Asleep p ch lk back := by
  have hfits := h.fits p
  simp only [Fits, hsl] at hfits
  obtain ⟨-, ch, lk, back, hchan, hpos | hpos⟩ := hfits
  · exact ⟨ch, lk, back, hchan, .inr (.inl hpos)⟩
  · exact ⟨ch, lk, back, hchan, .inr (.inr ⟨hpos, hsl⟩)⟩

theorem Machine.Asleep.sleepPhase (h : s.Asleep p ch lk back) :
    ∃ n, (s.threads p).pos.sleepPhase = some (ch, lk, n) ∧ 2 ≤ n ∧
      (4 ≤ n → (s.slots p).state = .SLEEPING) := by
  rcases h with hpos | hpos | ⟨hpos, hsl⟩
  · exact ⟨2, by rw [hpos]; rfl, Nat.le_refl 2, fun h4 => by omega⟩
  · exact ⟨3, by rw [hpos]; rfl, by omega, fun h4 => by omega⟩
  · exact ⟨4, by rw [hpos]; rfl, by omega, fun _ => hsl⟩

/-- A process falls asleep by letting go of its lock. -/
theorem Placed.asleep_step (hs : Placed s) (hstep : s.step cl a = some (.ok s'))
    (h : s'.Asleep p ch lk back) : s.Asleep p ch lk back ∨
      (s.threads p).pos = .sub (.sleepRelease ch lk) back ∧
        ∃ c, (s.cpus c).mode = .run p ∧ s.lock (.spin lk) = some c := by
  obtain ⟨c, hpos, hc, hsl⟩ : ∃ c, (s'.threads p).pos = .sub c back ∧
      (c = .sleepMark ch lk ∨ c = .sleepSched ch lk ∨ c = .sleepWoken ch lk) ∧
      (c = .sleepWoken ch lk → (s'.slots p).state = .SLEEPING) := by
    rcases h with hpos | hpos | ⟨hpos, hsl⟩
    · exact ⟨_, hpos, .inl rfl, fun h => by cases h⟩
    · exact ⟨_, hpos, .inr (.inl rfl), fun h => by cases h⟩
    · exact ⟨_, hpos, .inr (.inr rfl), fun _ => hsl⟩
  -- Where the thread does not move, neither does its state back to SLEEPING.
  have hsame : (s.threads p).pos = .sub c back → s.Asleep p ch lk back := by
    intro hold
    rcases hc with rfl | rfl | rfl
    · exact .inl hold
    · exact .inr (.inl hold)
    · rcases hs.sleeping_step hstep (hsl rfl) with hsl' | ⟨ch', lk', hph⟩
      · exact .inr (.inr ⟨hold, hsl'⟩)
      · rw [hold] at hph
        cases hph
  rcases Machine.pos_cases hstep p with heq |
    ⟨d, x, ok, instr, t, data, -, hm, rfl, hnext, hexec⟩ | ⟨k, hk⟩
  · exact .inl (hsame (heq ▸ hpos))
  · rcases Thread.next_asleep hnext hpos hc with hold | ⟨hold, rfl⟩ | hold | hold
    · exact .inl (hsame hold)
    · refine .inr ⟨hold, d, hm, ?_⟩
      rw [hs.owner]
      simp only [Machine.exec, Machine.release] at hexec
      split at hexec
      · next hheld => exact hheld
      · cases hexec
    · exact .inl (.inl hold)
    · exact .inl (.inr (.inl hold))
  · rw [hk] at hpos
    cases hpos

/-- A wakeup on the channel goes on towards the slot of a sleeper. -/
theorem Live.wakes_step (h : Live s) (hs : Placed s) (hstep : s.step cl a = some (.ok s'))
    {c : Sub} {back' : Return κ} (hpos : (s.threads q).pos = .sub c back')
    (hc : c.wakes ch p = true) (hp : p < NPROC) (hpq : p ≠ q)
    (hasleep : s'.Asleep p ch lk back) :
    ∃ c', (s'.threads q).pos = .sub c' back' ∧ c'.wakes ch p = true := by
  rcases h.thread_step hs hstep (p := q) (by rw [hpos]; rfl) with heq | hown
  · exact ⟨c, by rw [heq, hpos], hc⟩
  · obtain ⟨d, x, ok, instr, data, hm, hnext, hexec⟩ := hown
    rcases Thread.next_wakes hnext hpos hc hp hpq with hkeep | ⟨rfl, hneeds⟩
    · exact hkeep
    · exfalso
      generalize s'.threads q = t at hexec
      cases hexec
      obtain ⟨n, hph, hn, hsl⟩ := hasleep.sleepPhase
      have hph' : (s.threads p).pos.sleepPhase = some (ch, lk, n) := by
        rw [← hph]
        simp [Machine.setSlot, Machine.setThread, hpq]
      obtain ⟨h4, hchan⟩ := h.found hs hm hpq (hs.held_of_needs hm hneeds) hph' hn
      have hstate := hsl h4
      simp only [Machine.setSlot, Machine.setThread, Function.update_self] at hstate
      by_cases hold : (s.slots p).state = .SLEEPING
      · simp [Update.apply, hold, hchan hold] at hstate
      · simp [Update.apply, hold] at hstate

end step

end Xv6.Sched
