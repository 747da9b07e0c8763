/-
Sleepers on a pipe.  Whoever changes the pipe wakes those who wait for the change before it
lets go of the lock, except a writer that finds itself killed between two bytes.
-/
import Xv6.Pipes.Code

namespace Xv6.Pipes

open Sched

/-- The buffer is empty and more may come. -/
def Empty (d : Shared) : Prop := d.pipe.nread = d.pipe.nwrite ∧ d.pipe.writeopen = true

/-- The buffer is full and bytes may be taken. -/
def Full (d : Shared) : Prop :=
  d.pipe.nwrite = d.pipe.nread + PIPESIZE ∧ d.pipe.readopen = true

/-- Every change has been told. -/
def Told (d : Shared) : Prop := d.unsaid = false ∧ d.drained = false

/-- What has been told where a process has the lock of the pipe. -/
def told : Place → Shared → Prop
  | .write (.loop _ _), d => d.drained = false ∧ (d.unsaid = true → d.pipe.readopen = true)
  | .write (.killed _ _), d => d.drained = false ∧ d.pipe.readopen = true
  | .write (.full _ _), d => Told d ∧ Full d
  | .write (.copy _ _), d => d.drained = false ∧ d.pipe.readopen = true ∧
      d.pipe.nwrite ≠ d.pipe.nread + PIPESIZE
  | .read (.killed _), d => Told d ∧ Empty d
  | .read (.loop _ _), d => d.unsaid = false
  | .read (.copy _ _ _), d => d.unsaid = false
  | _, d => Told d

/-- The pipe as something to wait for. -/
def signals : Monitor Place Shared where
  lk := pipeLock
  guards := guards
  free := Told
  holds := told
  governs ch := decide (ch = nreadChan ∨ ch = nwriteChan)
  cond ch d := (ch = nreadChan → Empty d) ∧ (ch = nwriteChan → Full d)
  owes ch d := ch = nreadChan ∧ d.unsaid = true ∨ ch = nwriteChan ∧ d.drained = true

/-- No writer returns because it was killed while the bytes that it has stored since the last
wakeup(&pi->nread) are untold. -/
def TellsFirst (k : Place) (ret : Int) (d : Data) (_ : Input) : Prop :=
  ∀ n i, k = .write (.killed n i) → ret ≠ 0 → d.shared.unsaid = false

section rules

variable {ret : Int} {d d' : Shared} {x : Input} {call : Call Place} {ch : Nat}

theorem signals_pipewrite {w : Write}
    (hA : ∀ n i, w = .killed n i → ret ≠ 0 → d.unsaid = false)
    (h : pipewrite ret d x w = some (call, d')) (ht : told (.write w) d) :
    call.After signals d' := by
  cases w with
  | loop n i =>
      simp only [pipewrite] at h
      split at h
      · split at h
        · next hclosed =>
            cases h
            refine ⟨?_, ht.1⟩
            rw [← Bool.not_eq_true]
            intro hunsaid
            rw [ht.2 hunsaid] at hclosed
            cases hclosed
        · next hopen =>
            cases h
            exact ⟨ht.1, by simpa using hopen⟩
      · cases h
        exact ⟨rfl, ht.1⟩
  | killed n i =>
      simp only [pipewrite] at h
      split at h
      · next hret =>
          cases h
          exact ⟨hA n i rfl hret, ht.1⟩
      · split at h
        · next hfull =>
            cases h
            exact ⟨⟨rfl, ht.1⟩, hfull, ht.2⟩
        · next hfull =>
            cases h
            exact ⟨ht.1, ht.2, hfull⟩
  | full n i =>
      cases h
      refine ⟨ht.1, ⟨(fun hch => by cases hch), fun _ => ht.2⟩, fun d' hd' => ⟨hd'.2, ?_⟩⟩
      intro hunsaid
      rw [hd'.1] at hunsaid
      cases hunsaid
  | copy n i =>
      simp only [pipewrite] at h
      split at h
      · split at h
        · cases h
          exact ⟨ht.1, fun _ => ht.2.1⟩
        · cases h
          exact ⟨rfl, ht.1⟩
      · cases h
  | done i =>
      cases h
      exact ht

theorem signals_piperead {r : Read} (h : piperead ret d x r = some (call, d'))
    (ht : told (.read r) d) : call.After signals d' := by
  cases r with
  | empty n =>
      simp only [piperead] at h
      split at h
      · next hempty =>
          cases h
          exact ⟨ht, hempty⟩
      · cases h
        exact ht.1
  | killed n =>
      simp only [piperead] at h
      split at h <;> cases h
      · exact ht.1
      · exact ⟨ht.1, ⟨fun _ => ht.2, fun hch => by cases hch⟩, fun d' hd' => hd'⟩
  | loop n i =>
      simp only [piperead] at h
      split at h
      · split at h <;> cases h
        · exact ⟨ht, rfl⟩
        · exact ht
      · cases h
        exact ⟨ht, rfl⟩
  | copy n i ch =>
      simp only [piperead] at h
      split at h
      · cases h
        exact ht
      · cases h
        exact ⟨ht, rfl⟩
      · cases h
  | done n i =>
      cases h
      exact ht

theorem signals_pipeclose {c : Close} (h : pipeclose d c = (call, d'))
    (ht : told (.close c) d) : call.After signals d' := by
  rcases c with (_ | _) | _ <;> simp only [pipeclose] at h
  · cases h
    exact ht
  · cases h
    exact ht
  · split at h <;> cases h
    · exact ht
    · exact ht

/-- What a sleeper waits for, or the wakeup that is owed to it. -/
def Due (ch : Nat) (d : Shared) : Prop := signals.cond ch d ∨ signals.owes ch d

/-- A step that leaves the pipe and the record of what was told as they are. -/
theorem Due.same (h : Due ch d) (hpipe : d'.pipe = d.pipe) (hunsaid : d'.unsaid = d.unsaid)
    (hdrained : d'.drained = d.drained) : Due ch d' := by
  simpa only [Due, signals, Empty, Full, hpipe, hunsaid, hdrained] using h

/-- Readers do not mind a wakeup of the writers, nor the other way round. -/
theorem due_nread {h : Due nreadChan d} (hpipe : d'.pipe.nread = d.pipe.nread ∧
    d'.pipe.nwrite = d.pipe.nwrite ∧ d'.pipe.writeopen = d.pipe.writeopen)
    (hunsaid : d'.unsaid = d.unsaid) : Due nreadChan d' := by
  simpa [Due, signals, Empty, hpipe, hunsaid, nreadChan, nwriteChan] using h

theorem due_nwrite {h : Due nwriteChan d} (hpipe : d'.pipe.nread = d.pipe.nread ∧
    d'.pipe.nwrite = d.pipe.nwrite ∧ d'.pipe.readopen = d.pipe.readopen)
    (hdrained : d'.drained = d.drained) : Due nwriteChan d' := by
  simpa [Due, signals, Full, hpipe, hdrained, nreadChan, nwriteChan] using h

theorem due_pipewrite {w : Write} (h : pipewrite ret d x w = some (call, d'))
    (ht : told (.write w) d) (hch : ch = nreadChan ∨ ch = nwriteChan) (hdue : Due ch d) :
    Due ch d' ∨ ∃ k, call = .wakeup ch k := by
  have hsaid : ∀ k, d' = d.said → call = .wakeup nreadChan k →
      Due ch d' ∨ ∃ k, call = .wakeup ch k := by
    rintro k rfl rfl
    rcases hch with rfl | rfl
    · exact .inr ⟨k, rfl⟩
    · exact .inl (due_nwrite (h := hdue) ⟨rfl, rfl, rfl⟩ rfl)
  cases w with
  | loop n i =>
      simp only [pipewrite] at h
      split at h
      · split at h <;> cases h <;> exact .inl hdue
      · cases h
        exact hsaid _ rfl rfl
  | killed n i =>
      simp only [pipewrite] at h
      split at h
      · cases h
        exact .inl hdue
      · split at h <;> cases h
        · exact hsaid _ rfl rfl
        · exact .inl hdue
  | full n i =>
      cases h
      exact .inl hdue
  | copy n i =>
      simp only [pipewrite] at h
      split at h
      · split at h
        · cases h
          rcases hch with rfl | rfl
          · exact .inl (.inr (.inl ⟨rfl, rfl⟩))
          · -- The buffer is not full, so no writer is waiting.
            rcases hdue with hcond | ⟨hch, -⟩ | ⟨-, hdrained⟩
            · exact absurd (hcond.2 rfl).1 ht.2.2
            · cases hch
            · rw [ht.1] at hdrained
              cases hdrained
        · cases h
          exact hsaid _ rfl rfl
      · cases h
  | done i =>
      cases h
      exact .inl hdue

theorem due_piperead {r : Read} (h : piperead ret d x r = some (call, d'))
    (ht : told (.read r) d) (hch : ch = nreadChan ∨ ch = nwriteChan) (hdue : Due ch d) :
    Due ch d' ∨ ∃ k, call = .wakeup ch k := by
  have hrefilled : ∀ k, d' = d.refilled → call = .wakeup nwriteChan k →
      Due ch d' ∨ ∃ k, call = .wakeup ch k := by
    rintro k rfl rfl
    rcases hch with rfl | rfl
    · exact .inl (due_nread (h := hdue) ⟨rfl, rfl, rfl⟩ rfl)
    · exact .inr ⟨k, rfl⟩
  cases r with
  | empty n =>
      simp only [piperead] at h
      split at h <;> cases h <;> exact .inl hdue
  | killed n =>
      simp only [piperead] at h
      split at h <;> cases h <;> exact .inl hdue
  | loop n i =>
      simp only [piperead] at h
      split at h
      · split at h
        · cases h
          exact hrefilled _ rfl rfl
        · next hne =>
            cases h
            rcases hch with rfl | rfl
            · -- The buffer is not empty, so no reader is waiting.
              rcases hdue with hcond | ⟨-, hunsaid⟩ | ⟨hch, -⟩
              · exact absurd (hcond.1 rfl).1 hne
              · rw [ht] at hunsaid
                cases hunsaid
              · cases hch
            · exact .inl (.inr (.inr ⟨rfl, rfl⟩))
      · cases h
        exact hrefilled _ rfl rfl
  | copy n i ch' =>
      simp only [piperead] at h
      split at h
      · cases h
        exact .inl (hdue.same rfl rfl rfl)
      · cases h
        exact hrefilled _ rfl rfl
      · cases h
  | done n i =>
      cases h
      exact .inl hdue

theorem due_pipeclose {c : Close} (h : pipeclose d c = (call, d'))
    (hch : ch = nreadChan ∨ ch = nwriteChan) (hdue : Due ch d) :
    Due ch d' ∨ ∃ k, call = .wakeup ch k := by
  rcases c with (_ | _) | _ <;> simp only [pipeclose] at h
  · cases h
    rcases hch with rfl | rfl
    · exact .inl (due_nread (h := hdue) ⟨rfl, rfl, rfl⟩ rfl)
    · exact .inr ⟨_, rfl⟩
  · cases h
    rcases hch with rfl | rfl
    · exact .inr ⟨_, rfl⟩
    · exact .inl (due_nwrite (h := hdue) ⟨rfl, rfl, rfl⟩ rfl)
  · split at h <;> cases h <;> exact .inl hdue

end rules

theorem signals_governs {ch : Nat} (h : signals.governs ch = true) :
    ch = nreadChan ∨ ch = nwriteChan := by
  simpa [signals] using h

theorem signals_rules : signals.Rules Data.shared client TellsFirst where
  respects _ h := client_respects signals rfl rfl (fun _ => signals_governs) h
  outside _ h hk := (client_outside h hk).1
  inside := by
    intro i k ret d x call d' hA h hk ht
    have hin := client_inside h hk
    cases k with
    | user r | free => cases hk
    | write w =>
        exact signals_pipewrite (fun n i hw hret => hA n i (by rw [hw]) hret) hin ht
    | read r => exact signals_piperead hin ht
    | close c => exact signals_pipeclose (Option.some.inj hin) ht
  enter := by
    intro i k ret d x k' d' hA h hfree
    rcases starts_cases (client_acquire h) with ⟨n, rfl⟩ | ⟨n, rfl⟩ | ⟨w, rfl⟩
    · refine ⟨hfree.2, fun hunsaid => ?_⟩
      rw [hfree.1] at hunsaid
      cases hunsaid
    · exact hfree
    · exact hfree
  signal := by
    intro i k ret d x call d' ch hA h hk ht hgov hdue
    have hin := client_inside h hk
    have hch := signals_governs hgov
    have hnew : Due ch d'.shared ∨ ∃ k, call = .wakeup ch k := by
      cases k with
      | user r | free => cases hk
      | write w => exact due_pipewrite hin ht hch hdue
      | read r => exact due_piperead hin ht hch hdue
      | close c => exact due_pipeclose (Option.some.inj hin) hch hdue
    exact or_assoc.mp hnew
  paid := by
    rintro d ch hfree - (⟨-, hunsaid⟩ | ⟨-, hdrained⟩)
    · rw [hfree.1] at hunsaid
      cases hunsaid
    · rw [hfree.2] at hdrained
      cases hdrained

/-- No wakeup on a pipe is lost, in every interleaving in which no writer that was killed
returns with untold bytes: while the lock of the pipe is free, a process SLEEPING on
&pi->nread finds the pipe empty and its write end open, and a process SLEEPING on
&pi->nwrite finds it full and its read end open. -/
theorem pipe_wakeups {s : Machine Place Data} (h : Run TellsFirst s)
    (hfree : s.lock (.spin (pipeLock + 1)) = none) {p : Nat}
    (hsl : (s.slots p).state = .SLEEPING) :
    ((s.slots p).chan = some (.addr nreadChan) →
      s.data.shared.pipe.nread = s.data.shared.pipe.nwrite ∧
        s.data.shared.pipe.writeopen = true) ∧
    ((s.slots p).chan = some (.addr nwriteChan) →
      s.data.shared.pipe.nwrite = s.data.shared.pipe.nread + PIPESIZE ∧
        s.data.shared.pipe.readopen = true) := by
  obtain ⟨⟨hs, hl⟩, hkept, hsig⟩ := h.kept signals_rules rfl ⟨rfl, rfl⟩
  constructor
  · intro hchan
    exact (hsig.cond_of_sleeping hkept signals_rules hs hl hfree (m := nreadChan) rfl hsl
      hchan).1 rfl
  · intro hchan
    exact (hsig.cond_of_sleeping hkept signals_rules hs hl hfree (m := nwriteChan) rfl hsl
      hchan).2 rfl

namespace WakeupWitness

/-- A child of the first process reads from the empty pipe, and another child runs. -/
def asleep : List (Action Input) :=
  steps 0 4 ++ [.step 0 (.other (.fork () ())) true] ++ steps 0 13 ++ steps 1 7 ++
    [.step 0 (.other (.fork () ())) true] ++ steps 0 16 ++ steps 2 10 ++
    [.step 1 (.read 1) true] ++ steps 1 20

/-- The first process stores one of two bytes, and before it tests `killed` again, the second
child kills it. -/
def killed : List (Action Input) :=
  asleep ++ [.step 0 (.write 2) true] ++ steps 0 5 ++ [.step 0 (.copyin (some 7)) true] ++
    [.step 2 (.other (.kill 1 ())) true] ++ steps 2 3 ++ steps 0 5

def lost : Option (Machine Place Data) :=
  Transition.runAll (permits fun _ _ _ _ => true) (fun s => s.step client) (boot (.user 0) {})
    killed

theorem lost_isSome : lost.isSome = true := by rfl

/-- The lock is free, the buffer holds a byte, and the reader sleeps. -/
theorem pipewrite_killed_loses_wakeup :
    ∃ s : Machine Place Data, Run (fun _ _ _ _ => True) s ∧
      s.lock (.spin (pipeLock + 1)) = none ∧ (s.slots 1).state = .SLEEPING ∧
      (s.slots 1).chan = some (.addr nreadChan) ∧
      s.data.shared.pipe.nread ≠ s.data.shared.pipe.nwrite :=
  ⟨lost.get lost_isSome,
    Run.runAll (fun _ _ _ _ _ => trivial) (Option.some_get lost_isSome).symm,
    by decide +kernel, by decide +kernel, by decide +kernel, by decide +kernel⟩

def tellsFirst (k : Place) (ret : Int) (d : Data) (_ : Input) : Bool :=
  match k with
  | .write (.killed _ _) => ret == 0 || !d.shared.unsaid
  | _ => true

theorem tellsFirst_sound (k : Place) (ret : Int) (d : Data) (x : Input)
    (h : tellsFirst k ret d x = true) : TellsFirst k ret d x := by
  rintro n i rfl hret
  simpa [tellsFirst, hret] using h

def waiting : Option (Machine Place Data) :=
  Transition.runAll (permits tellsFirst) (fun s => s.step client) (boot (.user 0) {}) asleep

theorem waiting_isSome : waiting.isSome = true := by rfl

def reader : Machine Place Data := waiting.get waiting_isSome

theorem reader_run : Run TellsFirst reader :=
  Run.runAll tellsFirst_sound (Option.some_get waiting_isSome).symm

theorem reader_lock : reader.lock (.spin (pipeLock + 1)) = none := by decide +kernel

theorem reader_sleeping : (reader.slots 1).state = .SLEEPING := by decide +kernel

theorem reader_chan : (reader.slots 1).chan = some (.addr nreadChan) := by decide +kernel

/-- The reader of the empty pipe sleeps, and the pipe is empty and open. -/
theorem pipe_wakeups_reader : (reader.slots 1).state = .SLEEPING ∧
    reader.data.shared.pipe.nread = reader.data.shared.pipe.nwrite ∧
    reader.data.shared.pipe.writeopen = true :=
  ⟨reader_sleeping, (pipe_wakeups reader_run reader_lock reader_sleeping).1 reader_chan⟩

end WakeupWitness

end Xv6.Pipes
