/-
kernel/pipe.c: one pipe and any number of readers and writers.  The data are the
`struct pipe`, and a record of the bytes that went through it.
-/
import Xv6.Sched.Guard

namespace Xv6.Pipes

open Sched

def PIPESIZE : UInt32 := 512

/-- `struct pipe`, without its lock. -/
structure Pipe where
  data : UInt32 → UInt8 := fun _ => 0
  nread : UInt32 := 0
  nwrite : UInt32 := 0
  readopen : Bool := true
  writeopen : Bool := true

/-- The pipe and its history: the bytes that pipewrite has stored, that piperead has taken
and that it has copied to its caller, and whether bytes were stored since the last
wakeup(&pi->nread), or taken since the last wakeup(&pi->nwrite). -/
structure Shared where
  pipe : Pipe := {}
  stored : List UInt8 := []
  taken : List UInt8 := []
  returned : List UInt8 := []
  unsaid : Bool := false
  drained : Bool := false

/-- The pipe, and whether its page has been freed. -/
structure Data where
  shared : Shared := {}
  freed : Bool := false

/-- The number of `pi->lock`, and the channels. -/
def pipeLock : Nat := 0
def nreadChan : Nat := 0
def nwriteChan : Nat := 1

inductive Write
  | loop (n : Int) (i : Nat)
  | killed (n : Int) (i : Nat)
  | full (n : Int) (i : Nat)
  | copy (n : Int) (i : Nat)
  | done (i : Nat)
deriving DecidableEq, Repr

inductive Read
  | empty (n : Int)
  | killed (n : Int)
  | loop (n : Int) (i : Nat)
  | copy (n : Int) (i : Nat) (ch : UInt8)
  | done (n : Int) (i : Nat)
deriving DecidableEq, Repr

inductive Close
  | start (writable : Bool)
  | test
deriving DecidableEq, Repr

/-- The places with `pi->lock` in pipewrite, piperead and pipeclose, the end of pipeclose,
and everywhere else, with what the last call has returned. -/
inductive Place
  | user (r : Int)
  | write (w : Write)
  | read (r : Read)
  | close (c : Close)
  | free
deriving DecidableEq, Repr

/-- What the environment chooses: the system call, the result of copyin and copyout, or a
call that has nothing to do with the pipe. -/
inductive Input
  | write (n : Int)
  | read (n : Int)
  | close (writable : Bool)
  | copyin (ch : Option UInt8)
  | copyout (ok : Bool)
  | other (call : Call Unit)
deriving DecidableEq, Repr

instance : Inhabited Input := ⟨.copyout true⟩

namespace Shared

/-- `pi->data[pi->nwrite++ % PIPESIZE] = ch` -/
def store (d : Shared) (ch : UInt8) : Shared :=
  { d with
    pipe := { d.pipe with
      data := Function.update d.pipe.data (d.pipe.nwrite % PIPESIZE) ch
      nwrite := d.pipe.nwrite + 1 }
    stored := d.stored ++ [ch]
    unsaid := true }

/-- The byte that is read next. -/
def front (d : Shared) : UInt8 := d.pipe.data (d.pipe.nread % PIPESIZE)

/-- `ch = pi->data[pi->nread++ % PIPESIZE]` -/
def take (d : Shared) : Shared :=
  { d with
    pipe := { d.pipe with nread := d.pipe.nread + 1 }
    taken := d.taken ++ [d.front]
    drained := true }

/-- wakeup(&pi->nread) -/
def said (d : Shared) : Shared := { d with unsaid := false }

/-- wakeup(&pi->nwrite) -/
def refilled (d : Shared) : Shared := { d with drained := false }

end Shared

def pipewrite (ret : Int) (d : Shared) (x : Input) : Write → Option (Call Place × Shared)
  | .loop n i =>
      if (i : Int) < n then
        if d.pipe.readopen = false then some (.release pipeLock (.user (-1)), d)
        else some (.killed (.write (.killed n i)), d)
      else some (.wakeup nreadChan (.write (.done i)), d.said)
  | .killed n i =>
      if ret ≠ 0 then some (.release pipeLock (.user (-1)), d)
      else if d.pipe.nwrite = d.pipe.nread + PIPESIZE then
        some (.wakeup nreadChan (.write (.full n i)), d.said)
      else some (.goto (.write (.copy n i)), d)
  | .full n i => some (.sleep nwriteChan pipeLock (.write (.loop n i)), d)
  | .copy n i =>
      match x with
      | .copyin byte =>
          match byte with
          | some ch => some (.goto (.write (.loop n (i + 1))), d.store ch)
          | none => some (.wakeup nreadChan (.write (.done i)), d.said)
      | _ => none
  | .done i => some (.release pipeLock (.user i), d)

def piperead (ret : Int) (d : Shared) (x : Input) : Read → Option (Call Place × Shared)
  | .empty n =>
      if d.pipe.nread = d.pipe.nwrite ∧ d.pipe.writeopen = true then
        some (.killed (.read (.killed n)), d)
      else some (.goto (.read (.loop n 0)), d)
  | .killed n =>
      if ret ≠ 0 then some (.release pipeLock (.user (-1)), d)
      else some (.sleep nreadChan pipeLock (.read (.empty n)), d)
  | .loop n i =>
      if (i : Int) < n then
        if d.pipe.nread = d.pipe.nwrite then
          some (.wakeup nwriteChan (.read (.done n i)), d.refilled)
        else some (.goto (.read (.copy n i d.front)), d.take)
      else some (.wakeup nwriteChan (.read (.done n i)), d.refilled)
  | .copy n i ch =>
      match x with
      | .copyout true =>
          some (.goto (.read (.loop n (i + 1))), { d with returned := d.returned ++ [ch] })
      | .copyout false => some (.wakeup nwriteChan (.read (.done n i)), d.refilled)
      | _ => none
  | .done _ i => some (.release pipeLock (.user i), d)

def pipeclose (d : Shared) : Close → Call Place × Shared
  | .start true =>
      (.wakeup nreadChan (.close .test), { d with pipe := { d.pipe with writeopen := false } })
  | .start false =>
      (.wakeup nwriteChan (.close .test), { d with pipe := { d.pipe with readopen := false } })
  | .test =>
      if d.pipe.readopen = false ∧ d.pipe.writeopen = false then
        (.release pipeLock .free, d)
      else (.release pipeLock (.user 0), d)

/-- The same call, made outside of the pipe. -/
def outside : Call Unit → Call Place
  | .goto _ => .goto (.user 0)
  | .acquire n _ => .acquire n (.user 0)
  | .release n _ => .release n (.user 0)
  | .sleep chan n _ => .sleep chan n (.user 0)
  | .wakeup chan _ => .wakeup chan (.user 0)
  | .killed _ => .killed (.user 0)
  | .yield _ => .yield (.user 0)
  | .kill pid _ => .kill pid (.user 0)
  | .fork _ _ => .fork (.user 0) (.user 0)
  | .exit status => .exit status
  | .wait addr _ => .wait addr (.user 0)

/-- The lock and the channels of the pipe are not used by other code. -/
def foreign : Call Unit → Bool
  | .acquire n _ | .release n _ => decide (n ≠ pipeLock)
  | .sleep chan n _ => decide (n ≠ pipeLock ∧ chan ≠ nreadChan ∧ chan ≠ nwriteChan)
  | .wakeup chan _ => decide (chan ≠ nreadChan ∧ chan ≠ nwriteChan)
  | _ => true

/-- A call that has nothing to do with the pipe, or the start of a system call on it. -/
def user (d : Shared) : Input → Option (Call Place × Shared)
  | .other call => if foreign call then some (outside call, d) else none
  | .write n => some (.acquire pipeLock (.write (.loop n 0)), d)
  | .read n => some (.acquire pipeLock (.read (.empty n)), d)
  | .close writable => some (.acquire pipeLock (.close (.start writable)), d)
  | .copyin _ | .copyout _ => none

def onPipe (ret : Int) (d : Shared) (x : Input) : Place → Option (Call Place × Shared)
  | .user _ => user d x
  | .write w => pipewrite ret d x w
  | .read r => piperead ret d x r
  | .close c => some (pipeclose d c)
  | .free => none

/-- The client of the machine that uses one pipe.  pipeclose frees the page when both ends
are closed, and nothing can be done with the pipe after that. -/
def client : Client Place Data Input where
  step _ k ret d x :=
    if d.freed = true then
      match k, x with
      | .user _, .other call => if foreign call then some (outside call, d) else none
      | _, _ => none
    else if k = .free then some (.goto (.user 0), { d with freed := true })
    else (onPipe ret d.shared x k).map fun (call, shared) => (call, { d with shared := shared })

/-- The places with `pi->lock`. -/
def guards : Place → Bool
  | .write _ | .read _ | .close _ => true
  | .user _ | .free => false

section rules

variable {i : Nat} {k : Place} {ret : Int} {d d' : Data} {x : Input} {call : Call Place}

/-- Where a system call on the pipe begins, with the lock. -/
def starts : Place → Bool
  | .write (.loop _ 0) | .read (.empty _) | .close (.start _) => true
  | _ => false

/-- A step outside of the lock is a call of other code, takes the lock, or frees the page. -/
theorem client_outside (h : client.step i k ret d x = some (call, d')) (hk : guards k = false) :
    d'.shared = d.shared ∧ ((∃ c, foreign c = true ∧ call = outside c) ∨
      (∃ k', call = .acquire pipeLock k' ∧ starts k' = true) ∨
      call = .goto (.user 0)) := by
  cases k with
  | write w | read r | close c => cases hk
  | free =>
      simp only [client] at h
      split at h
      · cases h
      · cases h
        exact ⟨rfl, .inr (.inr rfl)⟩
  | user r =>
      cases hfreed : d.freed with
      | true =>
          cases x with
          | other c =>
              simp only [client, hfreed, if_true] at h
              split at h <;> cases h
              next hc => exact ⟨rfl, .inl ⟨c, hc, rfl⟩⟩
          | write n | read n | close writable | copyin ch | copyout ok =>
              simp [client, hfreed] at h
      | false =>
          simp only [client, onPipe, hfreed, Bool.false_eq_true, reduceCtorEq, if_false,
            Option.map_eq_some_iff] at h
          obtain ⟨⟨call', shared⟩, hu, heq⟩ := h
          cases heq
          cases x with
          | other c =>
              simp only [user] at hu
              split at hu <;> cases hu
              next hc => exact ⟨rfl, .inl ⟨c, hc, rfl⟩⟩
          | write n | read n | close writable =>
              cases hu
              exact ⟨rfl, .inr (.inl ⟨_, rfl, rfl⟩)⟩
          | copyin ch | copyout ok => cases hu

/-- A step with the lock is one of pipewrite, piperead or pipeclose. -/
theorem client_inside (h : client.step i k ret d x = some (call, d')) (hk : guards k = true) :
    onPipe ret d.shared x k = some (call, d'.shared) := by
  simp only [client] at h
  split at h
  · cases k with
    | user r | free => cases hk
    | write w | read r | close c => cases h
  · split at h
    · next hfree =>
        rw [hfree] at hk
        cases hk
    · simp only [Option.map_eq_some_iff] at h
      obtain ⟨⟨call', shared⟩, hu, heq⟩ := h
      cases heq
      exact hu

/-- The code of the pipe takes and lets go of its lock as it should, for every monitor on
the lock and the channels of the pipe. -/
theorem client_respects (M : Monitor Place Shared) (hlk : M.lk = pipeLock)
    (hguards : M.guards = guards)
    (hgoverns : ∀ ch, M.governs ch = true → ch = nreadChan ∨ ch = nwriteChan)
    (h : client.step i k ret d x = some (call, d')) : call.Respects M k := by
  cases hk : guards k with
  | false =>
      have huser : guards (.user 0) = false := rfl
      obtain ⟨-, ⟨c, hc, rfl⟩ | ⟨k', rfl, hstart⟩ | rfl⟩ := client_outside h hk
      · cases c <;> simp_all [outside, foreign, Call.Respects]
        next chan n _ =>
          rw [← Bool.not_eq_true]
          intro hgov
          rcases hgoverns chan hgov with rfl | rfl
          · exact hc.2.1 rfl
          · exact hc.2.2 rfl
      · have hk' : guards k' = true := by
          cases k' <;> first | rfl | cases hstart
        simp [Call.Respects, hlk, hguards, hk, hk']
      · simp [Call.Respects, hguards, hk, huser]
  | true =>
      have hin := client_inside h hk
      generalize d'.shared = b at hin
      cases k with
      | user r | free => cases hk
      | write w =>
          cases w <;> simp only [onPipe, pipewrite] at hin <;> (try split at hin) <;>
            (try split at hin) <;> cases hin <;>
            simp [Call.Respects, hlk, hguards, guards]
      | read r =>
          cases r <;> simp only [onPipe, piperead] at hin <;> (try split at hin) <;>
            (try split at hin) <;> cases hin <;>
            simp [Call.Respects, hlk, hguards, guards]
      | close c =>
          rcases c with (_ | _) | _ <;> simp only [onPipe, pipeclose] at hin <;>
            (try split at hin) <;> cases hin <;> simp [Call.Respects, hlk, hguards, guards]

/-- The lock is taken where a system call on the pipe begins. -/
theorem client_acquire {k' : Place}
    (h : client.step i k ret d x = some (.acquire pipeLock k', d')) : starts k' = true := by
  cases hk : guards k with
  | false =>
      obtain ⟨-, ⟨c, hc, heq⟩ | ⟨k'', heq, hstart⟩ | heq⟩ := client_outside h hk
      · cases c <;> simp only [outside, reduceCtorEq, Call.acquire.injEq] at heq
        next n _ =>
          obtain ⟨rfl, -⟩ := heq
          simp [foreign] at hc
      · cases heq
        exact hstart
      · cases heq
  | true =>
      have hin := client_inside h hk
      generalize d'.shared = b at hin
      cases k with
      | user r | free => cases hk
      | write w =>
          cases w <;> simp only [onPipe, pipewrite] at hin <;> (try split at hin) <;>
            (try split at hin) <;> cases hin
      | read r =>
          cases r <;> simp only [onPipe, piperead] at hin <;> (try split at hin) <;>
            (try split at hin) <;> cases hin
      | close c =>
          rcases c with (_ | _) | _ <;> simp only [onPipe, pipeclose] at hin <;>
            (try split at hin) <;> cases hin

theorem starts_cases {k : Place} (h : starts k = true) : (∃ n, k = .write (.loop n 0)) ∨
    (∃ n, k = .read (.empty n)) ∨ ∃ writable, k = .close (.start writable) := by
  unfold starts at h
  split at h <;> simp_all

end rules

/-- The runs from a new pipe in which the environment makes only choices in `A`. -/
def Run (A : Place → Int → Data → Input → Prop) : Machine Place Data → Prop :=
  Transition.Reach (fun s => s = boot (.user 0) {}) (Obeys A) fun s => s.step client

/-- What the rules of a monitor give for the runs of the pipe. -/
theorem Run.kept {A : Place → Int → Data → Input → Prop} {M : Monitor Place Shared}
    (hR : M.Rules Data.shared client A) (hguards : M.guards = guards) (hfree : M.free {})
    {s : Machine Place Data} (h : Run A s) :
    (Placed s ∧ Live s) ∧ M.Kept Data.shared s ∧ M.Signalled Data.shared s := by
  apply Transition.Reach.invariant _ _ h
  · rintro s rfl
    exact ⟨⟨.boot _ _, .boot _ _⟩, .boot (by rw [hguards]; rfl) hfree, .boot M _ _ _⟩
  · rintro s a s' hobeys hstep ⟨⟨hs, hl⟩, hk, hsig⟩
    exact ⟨⟨hs.step hstep, hl.step hs hstep⟩, hk.step hR hs hl hobeys hstep,
      hsig.step hk hR hs hl hobeys hstep⟩

/-- A test of `Obeys` for a decidable choice. -/
def permits (B : Place → Int → Data → Input → Bool) (s : Machine Place Data) :
    Action Input → Bool
  | .step c x _ =>
      match (s.cpus c).mode with
      | .run i =>
          match (s.threads i).pos with
          | .op (.client k) => B k (s.threads i).ret s.data x
          | _ => true
      | _ => true
  | .timer _ => true

theorem Run.runAll {A : Place → Int → Data → Input → Prop} {B : Place → Int → Data → Input → Bool}
    (hB : ∀ k ret d x, B k ret d x = true → A k ret d x) {s : Machine Place Data}
    {acts : List (Action Input)}
    (hrun : Transition.runAll (permits B) (fun s => s.step client) (boot (.user 0) {}) acts =
      some s) : Run A s := by
  refine Transition.Reach.runAll ?_ (.start rfl) hrun
  rintro s (⟨c, x, ok⟩ | c) hp
  · intro i k hmode _ hpos
    simp only [permits, hmode, hpos] at hp
    exact hB _ _ _ _ hp
  · trivial

end Xv6.Pipes
