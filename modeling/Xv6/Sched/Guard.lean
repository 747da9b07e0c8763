/-
Code that keeps its data behind one spinlock.  A monitor says at which places of the
client the lock is held, what holds of the data there, and what holds while the lock is
free; `Rules` are the obligations of the client, and `Holds` is what they give for every
interleaving.
-/
import Xv6.Sched.Monitor

namespace Xv6.Sched

variable {κ δ β ι : Type}

/-- What is known of the data behind a lock, or of the part of them that matters. -/
structure Monitor (κ β : Type) where
  /-- The lock, as the client numbers it. -/
  lk : Nat
  /-- The places at which the client holds the lock. -/
  guards : κ → Bool
  /-- What holds of the data while the lock is free. -/
  free : β → Prop
  /-- What holds of the data at a place with the lock. -/
  holds : κ → β → Prop
  /-- The channels of the monitor. -/
  governs : Nat → Bool
  /-- What a process sleeps for on a channel. -/
  cond : Nat → β → Prop
  /-- The data have changed since the last wakeup on a channel. -/
  owes : Nat → β → Prop

/-- Which locks a call takes, and where it leads. -/
def Call.Respects (M : Monitor κ β) (k : κ) : Call κ → Prop
  | .goto k' | .wakeup _ k' | .killed k' => M.guards k' = M.guards k
  | .acquire n k' =>
      if n = M.lk then M.guards k = false ∧ M.guards k' = true else M.guards k' = M.guards k
  | .release n k' =>
      if n = M.lk then M.guards k = true ∧ M.guards k' = false else M.guards k' = M.guards k
  | .sleep ch n k' => M.guards k' = M.guards k ∧ (M.guards k = true ↔ n = M.lk) ∧
      (M.governs ch = true → M.guards k = true)
  | .yield k' | .kill _ k' | .wait _ k' => M.guards k = false ∧ M.guards k' = false
  | .fork k' child => M.guards k = false ∧ M.guards k' = false ∧ M.guards child = false
  | .exit _ => M.guards k = false

/-- What must hold of the data after a call that was made with the lock. -/
def Call.After (M : Monitor κ β) (d : β) : Call κ → Prop
  | .goto k' | .wakeup _ k' | .killed k' | .acquire _ k' => M.holds k' d
  | .release n k' => if n = M.lk then M.free d else M.holds k' d
  | .sleep ch _ k' => M.free d ∧ M.cond ch d ∧ ∀ d', M.free d' → M.holds k' d'
  | _ => True

/-- The obligations of a client whose environment makes only choices in `A`; `view` is the
part of its data that the lock guards. -/
structure Monitor.Rules (M : Monitor κ β) (view : δ → β) (cl : Client κ δ ι)
    (A : κ → Int → δ → ι → Prop) : Prop where
  respects : ∀ {i k ret d x call d'}, A k ret d x →
    cl.step i k ret d x = some (call, d') → call.Respects M k
  outside : ∀ {i k ret d x call d'}, A k ret d x →
    cl.step i k ret d x = some (call, d') → M.guards k = false → view d' = view d
  inside : ∀ {i k ret d x call d'}, A k ret d x →
    cl.step i k ret d x = some (call, d') → M.guards k = true → M.holds k (view d) →
    call.After M (view d')
  enter : ∀ {i k ret d x k' d'}, A k ret d x →
    cl.step i k ret d x = some (.acquire M.lk k', d') → M.free (view d) → M.holds k' (view d)
  signal : ∀ {i k ret d x call d' ch}, A k ret d x →
    cl.step i k ret d x = some (call, d') → M.guards k = true → M.holds k (view d) →
    M.governs ch = true → M.cond ch (view d) ∨ M.owes ch (view d) →
    M.cond ch (view d') ∨ M.owes ch (view d') ∨ ∃ k', call = .wakeup ch k'
  paid : ∀ {b ch}, M.free b → M.governs ch = true → ¬ M.owes ch b

/-- The places of the client to which a call of kernel/proc.c returns. -/
def Return.conts : Return κ → List κ
  | .waitKilled _ k | .waitAgain _ k => [k]
  | _ => []

def Op.conts : Op κ → List κ
  | .client _ | .exit _ | .exitReparent .. | .exitLock _ | .exitMark _ | .exitWaitUnlock
  | .exitSched | .exitReturned => []
  | .fork _ k child | .forkTest _ k child | .forkSkip _ k child | .forkBuild _ k child =>
      [k, child]
  | .forkret k | .forkUndo _ k | .forkUnlock _ _ k | .forkWait _ _ k | .forkParent _ _ k
  | .forkWaitUnlock _ _ k | .forkLock _ _ k | .forkReady _ _ k | .forkDone _ _ k | .wait _ k
  | .waitScan _ _ _ k | .waitTest _ _ k | .waitSkip _ _ k | .waitKilled _ k
  | .waitUnlock _ _ k | .waitReturn _ k | .kill _ _ k | .killTest _ _ k | .killSkip _ _ k
  | .killUnlock _ k => [k]

/-- The thread is between acquire and release of the lock, and not in the middle of sleep. -/
def Pos.inside (M : Monitor κ β) : Pos κ → Bool
  | .op (.client k) => M.guards k
  | .sub c (.client k) => M.guards k && decide (c.given ≠ some (.spin (M.lk + 1)))
  | _ => false

/-- Calls of kernel/proc.c other than sleep, wakeup and killed are made without the lock,
and the channels of the monitor are slept on with it. -/
def Pos.Ok (M : Monitor κ β) : Pos κ → Prop
  | .op o => ∀ k ∈ o.conts, M.guards k = false
  | .sub c (.client k) => ∀ ch lk n, c.sleepPhase = some (ch, lk, n) →
      (M.guards k = true ↔ lk = M.lk + 1) ∧
      (∀ m, ch = .addr m → M.governs m = true → M.guards k = true) ∧
      (M.guards k = true → ∀ d, M.free d → M.holds k d)
  | .sub c back => (∀ k ∈ back.conts, M.guards k = false) ∧
      ∀ m lk n, c.sleepPhase ≠ some (.addr m, lk, n)

/-- What is known of the data where a thread has the lock. -/
def Pos.Asserts (M : Monitor κ β) (d : β) : Pos κ → Prop
  | .op (.client k) => M.guards k = true → M.holds k d
  | .sub c (.client k) => M.guards k = true → c.given ≠ some (.spin (M.lk + 1)) →
      match c.sleepPhase with
      | some (ch, _, _) => M.free d ∧ ∀ m, ch = .addr m → M.cond m d
      | none => M.holds k d
  | _ => True

/-- What a step of a thread does with the lock. -/
inductive MonitorStep (M : Monitor κ β) (d d' : β) (t t' : Thread κ) (instr : Instr κ) : Prop
  | outside (h : t.pos.inside M = false) (h' : t'.pos.inside M = false) (hdata : d' = d)
  | stay (h : t.pos.inside M = true) (h' : t'.pos.inside M = true) (hy : t'.yield = .idle)
      (hswtch : instr ≠ .swtch) (hrelease : instr ≠ .release (.spin (M.lk + 1)))
      (hat : t'.pos.Asserts M d')
  | enter (h : t.pos.inside M = false) (h' : t'.pos.inside M = true) (hy : t'.yield = .idle)
      (hacquire : instr = .acquire (.spin (M.lk + 1))) (hdata : d' = d)
      (hat : M.free d → t'.pos.Asserts M d)
  | leave (h : t.pos.inside M = true) (h' : t'.pos.inside M = false)
      (hrelease : instr = .release (.spin (M.lk + 1))) (hfree : M.free d')

section next

variable {M : Monitor κ β} {view : δ → β} {cl : Client κ δ ι}
  {A : κ → Int → δ → ι → Prop} {slots : Nat → Slot} {d d' : δ} {b b' : β} {i : Nat} {x : ι}
  {ok : Bool} {t t' : Thread κ} {instr : Instr κ}

/-- A step that moves the thread from `p` to `p'`, with or without the lock. -/
theorem MonitorStep.of_same {p p' : Pos κ} {r r' : Int} {g : Bool}
    (h : p.inside M = g) (h' : p'.inside M = g) (hout : g = false → b' = b)
    (hswtch : instr ≠ .swtch) (hrelease : instr ≠ .release (.spin (M.lk + 1)))
    (hat : g = true → p'.Asserts M b') :
    MonitorStep M b b' ⟨.idle, p, r⟩ ⟨.idle, p', r'⟩ instr := by
  cases g with
  | false => exact .outside h h' (hout rfl)
  | true => exact .stay h h' rfl hswtch hrelease (hat rfl)

/-- A call of the client. -/
theorem Monitor.Rules.next_call (hR : M.Rules view cl A) {k : κ} {r : Int} {call : Call κ}
    (hA : A k r d x) (hstep : cl.step i k r d x = some (call, d'))
    (hat : M.guards k = true → M.holds k (view d)) :
    (call.next i r).2.pos.Ok M ∧ MonitorStep M (view d) (view d')
      ⟨.idle, .op (.client k), r⟩ (call.next i r).2 (call.next i r).1 := by
  have hresp := hR.respects hA hstep
  have hout := hR.outside hA hstep
  have hin : M.guards k = true → call.After M (view d') := fun hg => hR.inside hA hstep hg (hat hg)
  cases call with
  | goto k' =>
      exact ⟨by simp [Call.next, Pos.Ok, Op.conts], .of_same rfl hresp hout (by simp [Call.next])
        (by simp [Call.next]) fun hg _ => hin hg⟩
  | wakeup ch k' =>
      refine ⟨by simp [Call.next, Pos.Ok, Sub.sleepPhase], .of_same rfl ?_ hout
        (by simp [Call.next]) (by simp [Call.next]) fun hg _ _ => hin hg⟩
      simpa [Call.next, Pos.inside, Sub.given, Call.Respects] using hresp
  | killed k' =>
      refine ⟨by simp [Call.next, Pos.Ok, Sub.sleepPhase], .of_same rfl ?_ hout
        (by simp [Call.next]) (by simp [Call.next]) fun hg _ _ => hin hg⟩
      simpa [Call.next, Pos.inside, Sub.given, Call.Respects] using hresp
  | acquire n k' =>
      refine ⟨by simp [Call.next, Pos.Ok, Op.conts], ?_⟩
      by_cases hn : n = M.lk
      · subst hn
        simp only [Call.Respects, if_true] at hresp
        have hd := hout hresp.1
        exact .enter hresp.1 hresp.2 rfl rfl hd fun hfree _ => hR.enter hA hstep hfree
      · simp only [Call.Respects, if_neg hn] at hresp
        exact .of_same rfl hresp hout (by simp [Call.next]) (by simp [Call.next])
          fun hg _ => hin hg
  | release n k' =>
      refine ⟨by simp [Call.next, Pos.Ok, Op.conts], ?_⟩
      by_cases hn : n = M.lk
      · subst hn
        simp only [Call.Respects, if_true] at hresp
        exact .leave hresp.1 hresp.2 rfl (by simpa [Call.After] using hin hresp.1)
      · simp only [Call.Respects, if_neg hn] at hresp
        refine .of_same rfl hresp hout (by simp [Call.next]) (by simpa [Call.next] using hn)
          fun hg _ => ?_
        simpa [Call.After, hn] using hin hg
  | sleep ch n k' =>
      obtain ⟨hk, hn, hgov⟩ := hresp
      constructor
      · intro ch' lk m hph
        simp only [Sub.sleepPhase, Option.some.injEq, Prod.mk.injEq] at hph
        obtain ⟨rfl, rfl, -⟩ := hph
        rw [hk]
        refine ⟨by simpa using hn, fun m hm => ?_, fun hg => (hin hg).2.2⟩
        cases hm
        exact hgov
      · refine .of_same rfl ?_ hout (by simp [Call.next]) (by simp [Call.next])
          fun hg _ _ => ⟨(hin hg).1, fun m hm => ?_⟩
        · simpa [Call.next, Pos.inside, Sub.given] using hk
        · cases hm
          exact (hin hg).2.1
  | yield k' =>
      exact ⟨by simp [Call.next, Pos.Ok, Op.conts],
        .outside hresp.1 hresp.2 (hout hresp.1)⟩
  | kill pid k' =>
      exact ⟨by simpa [Call.next, Pos.Ok, Op.conts] using hresp.2,
        .outside hresp.1 rfl (hout hresp.1)⟩
  | wait addr k' =>
      exact ⟨by simpa [Call.next, Pos.Ok, Op.conts] using hresp.2,
        .outside hresp.1 rfl (hout hresp.1)⟩
  | fork k' child =>
      exact ⟨by simpa [Call.next, Pos.Ok, Op.conts] using hresp.2,
        .outside hresp.1 rfl (hout hresp.1)⟩
  | exit st =>
      by_cases hi : i = initproc
      · exact ⟨by simp [Call.next, hi, Pos.Ok, Op.conts],
          .outside hresp (by simp [Call.next, hi, Pos.inside]) (hout hresp)⟩
      · exact ⟨by simp [Call.next, hi, Pos.Ok, Op.conts],
          .outside hresp (by simp [Call.next, hi, Pos.inside]) (hout hresp)⟩

/-- A step of sleep, wakeup or killed that was not called by the client. -/
theorem Monitor.next_sub_other {c : Sub} {back : Return κ} {r r' : Int} {p : Pos κ}
    (hclient : ∀ k, back ≠ .client k) (hok : (Pos.sub c back).Ok M)
    (h : c.next slots i back r = (instr, p, r')) :
    p.Ok M ∧ (Pos.sub c back).inside M = false ∧ p.inside M = false := by
  cases back with
  | client k => exact absurd rfl (hclient k)
  | exitReparent st j | exitLock st | waitKilled addr k | waitAgain addr k =>
      cases c <;> simp only [Sub.next] at h <;> (try split at h) <;> (try split at h) <;>
        cases h <;> simp_all [Pos.Ok, Op.conts, Return.conts, Return.op, Pos.inside,
          Sub.sleepPhase]

/-- A step of wakeup or killed, called by the client. -/
theorem Monitor.next_sub_call {c : Sub} {k : κ} {r r' : Int} {p : Pos κ}
    (hc : c.sleepPhase = none) (hat : (Pos.sub c (.client k)).Asserts M b)
    (h : c.next slots i (.client k) r = (instr, p, r')) :
    p.Ok M ∧ MonitorStep M b b ⟨.idle, .sub c (.client k), r⟩ ⟨.idle, p, r'⟩ instr := by
  have hgiven : c.given = none := by cases c <;> first | rfl | cases hc
  have hinside : (Pos.sub c (.client k)).inside M = M.guards k := by
    simp [Pos.inside, hgiven]
  have hholds : M.guards k = true → M.holds k b := by
    intro hg
    simpa [hc] using hat hg (by simp [hgiven])
  have hcases : instr ≠ .swtch ∧ instr ≠ .release (.spin (M.lk + 1)) ∧
      (p = .op (.client k) ∨ ∃ c', p = .sub c' (.client k) ∧ c'.sleepPhase = none) := by
    cases c <;> simp only [Sub.next] at h <;> (try split at h) <;> (try split at h) <;>
      cases h <;> simp_all [Return.op, Sub.sleepPhase]
  obtain ⟨hswtch, hrelease, rfl | ⟨c', rfl, hc'⟩⟩ := hcases
  · exact ⟨by simp [Pos.Ok, Op.conts], .of_same hinside rfl (fun _ => rfl) hswtch hrelease
      fun _ => hholds⟩
  · have hgiven' : c'.given = none := by cases c' <;> first | rfl | cases hc'
    refine ⟨by simp [Pos.Ok, hc'], .of_same hinside ?_ (fun _ => rfl) hswtch hrelease
      fun hg _ _ => ?_⟩
    · simp [Pos.inside, hgiven']
    · simpa [hc'] using hholds hg

/-- A step of sleep, called by the client. -/
theorem Monitor.next_sub_sleep {c : Sub} {k : κ} {r r' : Int} {p : Pos κ} {ch : Chan}
    {lk n : Nat} (hc : c.sleepPhase = some (ch, lk, n)) (hok : (Pos.sub c (.client k)).Ok M)
    (hat : (Pos.sub c (.client k)).Asserts M b)
    (h : c.next slots i (.client k) r = (instr, p, r')) :
    p.Ok M ∧ MonitorStep M b b ⟨.idle, .sub c (.client k), r⟩ ⟨.idle, p, r'⟩ instr := by
  obtain ⟨hlk, hgov, hresume⟩ := hok ch lk n hc
  have hok' : ∀ c' n', c'.sleepPhase = some (ch, lk, n') → (Pos.sub c' (.client k)).Ok M := by
    intro c' n' hc' ch' lk' m hm
    rw [hc'] at hm
    cases hm
    exact ⟨hlk, hgov, hresume⟩
  -- In the middle of sleep the lock has been given up.
  have hmiddle : ∀ c', c'.given = some (.spin lk) →
      (Pos.sub c' (.client k)).inside M = false := by
    intro c' hc'
    simp only [Pos.inside, hc', Bool.and_eq_false_iff, decide_eq_false_iff_not, not_not]
    by_cases hg : M.guards k = true
    · exact .inr (by rw [hlk.mp hg])
    · exact .inl (by simpa using hg)
  cases c with
  | sleep ch' lk' =>
      cases hc
      cases h
      refine ⟨hok' _ 1 rfl, .of_same rfl ?_ (fun _ => rfl) (by simp) (by simp) fun hg => ?_⟩
      · simp [Pos.inside, Sub.given]
      · simpa [Pos.Asserts, Sub.given, Sub.sleepPhase] using hat
  | sleepRelease ch' lk' =>
      cases hc
      cases h
      refine ⟨hok' _ 2 rfl, ?_⟩
      by_cases hg : M.guards k = true
      · have hfree := (hat hg (by simp [Sub.given])).1
        exact .leave (by simpa [Pos.inside, Sub.given] using hg) (hmiddle _ rfl)
          (by rw [hlk.mp hg]) hfree
      · exact .outside (by simpa [Pos.inside, Sub.given] using hg) (hmiddle _ rfl) rfl
  | sleepMark ch' lk' =>
      cases hc
      cases h
      exact ⟨hok' _ 3 rfl, .outside (hmiddle _ rfl) (hmiddle _ rfl) rfl⟩
  | sleepSched ch' lk' =>
      cases hc
      cases h
      exact ⟨hok' _ 4 rfl, .outside (hmiddle _ rfl) (hmiddle _ rfl) rfl⟩
  | sleepWoken ch' lk' =>
      cases hc
      cases h
      exact ⟨hok' _ 5 rfl, .outside (hmiddle _ rfl) (hmiddle _ rfl) rfl⟩
  | sleepUnlock ch' lk' =>
      cases hc
      cases h
      exact ⟨hok' _ 6 rfl, .outside (hmiddle _ rfl) (hmiddle _ rfl) rfl⟩
  | sleepRelock ch' lk' =>
      cases hc
      cases h
      refine ⟨by simp [Return.op, Pos.Ok, Op.conts], ?_⟩
      by_cases hg : M.guards k = true
      · exact .enter (hmiddle _ rfl) hg rfl (by rw [hlk.mp hg]) rfl
          fun hfree _ => hresume hg b hfree
      · exact .outside (hmiddle _ rfl) (by simpa [Return.op, Pos.inside] using hg) rfl
  | _ => cases hc

/-- A step of fork, exit, wait or kill. -/
theorem Monitor.next_op {o : Op κ} {ok : Bool} {r r' : Int} {p : Pos κ}
    (hclient : ∀ k, o ≠ .client k) (hok : (Pos.op o).Ok M)
    (h : o.next slots i ok r = (instr, p, r')) :
    p.Ok M ∧ (Pos.op o).inside M = false ∧ p.inside M = false := by
  cases o <;> simp only [Op.next] at h <;> (try split at h) <;> (try split at h) <;> cases h <;>
    simp_all [Pos.Ok, Op.conts, Return.conts, Pos.inside, Sub.sleepPhase]

/-- What a step of a thread does with the lock of the monitor. -/
theorem Monitor.Rules.next (hR : M.Rules view cl A)
    (hA : ∀ k, t.yield = .idle → t.pos = .op (.client k) → A k t.ret d x)
    (hok : t.pos.Ok M) (hidle : t.pos.inside M = true → t.yield = .idle)
    (hat : t.pos.Asserts M (view d)) (h : t.next cl slots d i x ok = some (instr, t', d')) :
    t'.pos.Ok M ∧ MonitorStep M (view d) (view d') t t' instr := by
  -- A thread that is inside yield does not have the lock.
  have hyield : t.yield ≠ .idle → t.pos.inside M = false := by
    intro hy
    rw [← Bool.not_eq_true]
    exact fun hin => hy (hidle hin)
  obtain ⟨y, p, r⟩ := t
  cases Thread.next_cases h with
  | acquire hy | ready hy | swtch hy | release hy =>
      have hout := hyield (by rw [hy]; simp)
      exact ⟨hok, .outside hout hout rfl⟩
  | client hy hpos hnext =>
      cases hy
      cases hpos
      exact hR.next_call (hA _ rfl rfl) hnext hat
  | op hy hpos hclient hnext =>
      cases hy
      cases hpos
      obtain ⟨hok', hin, hin'⟩ := Monitor.next_op hclient hok hnext
      exact ⟨hok', .outside hin hin' rfl⟩
  | sub hy hpos hnext =>
      rename_i c back p' r'
      cases hy
      cases hpos
      by_cases hclient : ∃ k, back = .client k
      · obtain ⟨k, rfl⟩ := hclient
        rcases hc : c.sleepPhase with _ | ⟨ch, lk, n⟩
        · exact Monitor.next_sub_call hc hat hnext
        · exact Monitor.next_sub_sleep hc hok hat hnext
      · obtain ⟨hok', hin, hin'⟩ :=
          Monitor.next_sub_other (fun k hk => hclient ⟨k, hk⟩) hok hnext
        exact ⟨hok', .outside hin hin' rfl⟩

end next

section machine

variable {s s' : Machine κ δ} {c i : Nat} {instr : Instr κ} {l : Lock}

theorem Machine.exec_data (h : s.exec c i instr = some (.ok s')) : s'.data = s.data := by
  cases Machine.exec_cases h <;> rfl

/-- A CPU keeps a lock that it does not release, and goes on with its thread. -/
theorem Machine.exec_held (h : s.exec c i instr = some (.ok s')) (hl : l ∈ (s.cpus c).held)
    (hswtch : instr ≠ .swtch) (hrelease : instr ≠ .release l) :
    (s'.cpus c).mode = (s.cpus c).mode ∧ l ∈ (s'.cpus c).held := by
  cases Machine.exec_cases h with
  | nop | update | alloc | spawn => exact ⟨rfl, hl⟩
  | swtch => exact absurd rfl hswtch
  | acquire => simp [Machine.take, hl]
  | @release l' =>
      have hne : l ≠ l' := by
        rintro rfl
        exact hrelease rfl
      simp [Machine.drop, (List.mem_erase_of_ne hne).mpr hl]

theorem Machine.exec_acquire (h : s.exec c i (.acquire l) = some (.ok s')) :
    s.lock l = none ∧ (s'.cpus c).mode = (s.cpus c).mode ∧ l ∈ (s'.cpus c).held := by
  cases Machine.exec_cases h with
  | acquire hfree => exact ⟨hfree, by simp [Machine.take]⟩

end machine

/-- fork sets up only the thread of the process that it is creating. -/
theorem Thread.next_spawn {cl : Client κ δ ι} {slots : Nat → Slot} {d d' : δ} {i j : Nat}
    {x : ι} {ok : Bool} {t t' : Thread κ} {instr : Instr κ} {child : κ}
    (h : t.next cl slots d i x ok = some (instr, t', d')) (hinstr : instr = .spawn j child) :
    ∃ k, t.pos = .op (.forkBuild j k child) := by
  cases Thread.next_cases h with
  | acquire hy | ready hy | swtch hy | release hy => cases hinstr
  | client hy hpos hnext =>
      rename_i k call
      cases call <;> simp only [Call.next] at hinstr <;> (try split at hinstr) <;> cases hinstr
  | sub hy hpos hnext =>
      rename_i c back p r
      subst hinstr
      cases c <;> simp only [Sub.next] at hnext <;> (try split at hnext) <;>
        (try split at hnext) <;> cases hnext
  | op hy hpos hclient hnext =>
      rename_i o p r
      subst hinstr
      cases o <;> simp only [Op.next] at hnext <;> (try split at hnext) <;>
        (try split at hnext) <;> cases hnext
      exact ⟨_, hpos⟩

/-- The environment makes only choices in `A`. -/
def Obeys (A : κ → Int → δ → ι → Prop) (s : Machine κ δ) : Action ι → Prop
  | .step c x _ => ∀ i k, (s.cpus c).mode = .run i → (s.threads i).yield = .idle →
      (s.threads i).pos = .op (.client k) → A k (s.threads i).ret s.data x
  | .timer _ => True

/-- What the rules give: a thread inside has the lock, and the data are as they should be
there, or everywhere else if nobody is inside. -/
structure Monitor.Kept (M : Monitor κ β) (view : δ → β) (s : Machine κ δ) : Prop where
  ok : ∀ i, (s.threads i).pos.Ok M
  inside : ∀ i, (s.threads i).pos.inside M = true → (s.threads i).yield = .idle ∧
    ∃ c, (s.cpus c).mode = .run i ∧ .spin (M.lk + 1) ∈ (s.cpus c).held
  asserts : ∀ i, (s.threads i).pos.Asserts M (view s.data)
  free : (∀ i, (s.threads i).pos.inside M = false) → M.free (view s.data)

theorem Pos.asserts_of_outside {M : Monitor κ β} {p : Pos κ} {d : β}
    (h : p.inside M = false) : p.Asserts M d := by
  rcases p with o | ⟨c, back⟩
  · cases o with
    | client k =>
        intro hg
        simp only [Pos.inside] at h
        rw [hg] at h
        cases h
    | _ => trivial
  · cases back with
    | client k =>
        intro hg hgiven
        simp [Pos.inside, hg, hgiven] at h
    | _ => trivial

namespace Monitor.Kept

variable {M : Monitor κ β} {view : δ → β} {cl : Client κ δ ι}
  {A : κ → Int → δ → ι → Prop} {s s' : Machine κ δ} {a : Action ι} {i j : Nat}

/-- At most one thread is inside. -/
theorem unique (h : M.Kept view s) (hs : Placed s) (hi : (s.threads i).pos.inside M = true)
    (hj : (s.threads j).pos.inside M = true) : i = j := by
  obtain ⟨-, c, hm, hheld⟩ := h.inside i hi
  obtain ⟨-, c', hm', hheld'⟩ := h.inside j hj
  have hown := (hs.owner _ c).mpr hheld
  rw [(hs.owner _ c').mpr hheld'] at hown
  cases hown
  rw [hm] at hm'
  cases hm'
  rfl

theorem outside_of_free (h : M.Kept view s) (hs : Placed s)
    (hfree : s.lock (.spin (M.lk + 1)) = none) (i : Nat) :
    (s.threads i).pos.inside M = false := by
  rw [← Bool.not_eq_true]
  intro hi
  obtain ⟨-, c, -, hheld⟩ := h.inside i hi
  rw [(hs.owner _ c).mpr hheld] at hfree
  cases hfree

/-- The threads other than the one that makes a step. -/
theorem other (h : M.Kept view s) (hs : Placed s) (hl : Live s) {c : Nat} {x : ι} {ok : Bool}
    {instr : Instr κ} {t : Thread κ} {d : δ} (hm : (s.cpus c).mode = .run i)
    (hnext : (s.threads i).next cl s.slots s.data i x ok = some (instr, t, d))
    (hexec : ({ s with data := d }.setThread i t).exec c i instr = some (.ok s')) (hji : j ≠ i) :
    (s'.threads j).pos.Ok M ∧
      (s'.threads j).pos.inside M = (s.threads j).pos.inside M ∧
      ((s'.threads j).pos.inside M = true → s'.threads j = s.threads j ∧
        ∃ c', (s'.cpus c').mode = .run j ∧ .spin (M.lk + 1) ∈ (s'.cpus c').held) := by
  have hsame : s'.threads j = s.threads j →
      (s'.threads j).pos.Ok M ∧
        (s'.threads j).pos.inside M = (s.threads j).pos.inside M ∧
        ((s'.threads j).pos.inside M = true → s'.threads j = s.threads j ∧
          ∃ c', (s'.cpus c').mode = .run j ∧ .spin (M.lk + 1) ∈ (s'.cpus c').held) := by
    intro heq
    rw [heq]
    refine ⟨h.ok j, rfl, fun hin => ⟨rfl, ?_⟩⟩
    obtain ⟨-, c', hm', hheld⟩ := h.inside j hin
    have hne : c' ≠ c := by
      rintro rfl
      rw [hm] at hm'
      cases hm'
      exact hji rfl
    refine ⟨c', ?_⟩
    rw [Machine.exec_cpus hexec hne]
    exact ⟨hm', hheld⟩
  rcases Machine.exec_threads hexec with heq | ⟨j', child, hspawn, heq⟩
  · exact hsame (by rw [heq, Function.update_of_ne hji])
  · by_cases hjj : j = j'
    · subst hjj
      obtain ⟨k, hpos⟩ := Thread.next_spawn hnext hspawn
      have hchild : M.guards child = false := by
        have hok := h.ok i
        rw [hpos] at hok
        exact hok child (by simp [Op.conts])
      have hdead := hl.dead_of_used (.inr (hs.child i j false (by rw [hpos]; rfl)).1)
      have hout : (s.threads j).pos.inside M = false := by
        rcases hp : (s.threads j).pos with o | ⟨c', back⟩ <;> rw [hp] at hdead
        · cases o <;> first | rfl | cases hdead
        · cases hdead
      have ht : s'.threads j = { pos := .op (.forkret child) } := by
        rw [heq, Function.update_self]
      rw [ht, hout]
      exact ⟨by simpa [Pos.Ok, Op.conts] using hchild, rfl, fun hin => by cases hin⟩
    · exact hsame (by rw [heq, Function.update_of_ne hjj, Function.update_of_ne hji])

/-- The thread that makes a step. -/
theorem mover (h : M.Kept view s) (hR : M.Rules view cl A) {c : Nat} {x : ι} {ok : Bool}
    {instr : Instr κ} {t : Thread κ} {d : δ} (hobeys : Obeys A s (.step c x ok))
    (hm : (s.cpus c).mode = .run i)
    (hnext : (s.threads i).next cl s.slots s.data i x ok = some (instr, t, d)) :
    t.pos.Ok M ∧ MonitorStep M (view s.data) (view d) (s.threads i) t instr :=
  hR.next (fun k hy hpos => hobeys i k hm hy hpos) (h.ok i) (fun hin => (h.inside i hin).1)
    (h.asserts i) hnext

theorem thread (h : M.Kept view s) (hR : M.Rules view cl A) (hs : Placed s) (hl : Live s) {c : Nat}
    {x : ι} {ok : Bool} {instr : Instr κ} {t : Thread κ} {d : δ}
    (hobeys : Obeys A s (.step c x ok)) (hm : (s.cpus c).mode = .run i)
    (hnext : (s.threads i).next cl s.slots s.data i x ok = some (instr, t, d))
    (hexec : ({ s with data := d }.setThread i t).exec c i instr = some (.ok s')) :
    M.Kept view s' := by
  obtain ⟨hok, hmove⟩ := h.mover hR hobeys hm hnext
  have hdata : s'.data = d := (Machine.exec_data hexec).trans rfl
  have ht : s'.threads i = t := by
    rcases Machine.exec_threads hexec with heq | ⟨j, child, hspawn, heq⟩
    · rw [heq, Function.update_self]
    · have hne : i ≠ j := by
        rintro rfl
        obtain ⟨k, hpos⟩ := Thread.next_spawn hnext hspawn
        exact hs.not_child hm i false (by rw [hpos]; rfl)
      rw [heq, Function.update_of_ne hne, Function.update_self]
  -- If another thread is inside, the step has not changed the data.
  have hsame : ∀ j, j ≠ i → (s.threads j).pos.inside M = true → view d = view s.data := by
    intro j hji hj
    have hi : (s.threads i).pos.inside M ≠ true := fun hi => hji (h.unique hs hj hi)
    cases hmove with
    | outside _ _ hd => exact hd
    | enter _ _ _ _ hd => exact hd
    | stay hin => exact absurd hin hi
    | leave hin => exact absurd hin hi
  constructor
  case ok =>
    intro j
    by_cases hji : j = i
    · rw [hji, ht]
      exact hok
    · exact (h.other hs hl hm hnext hexec hji).1
  case inside =>
    intro j hj
    by_cases hji : j = i
    · subst hji
      rw [ht] at hj ⊢
      cases hmove with
      | outside _ hout => rw [hout] at hj; cases hj
      | leave _ hout => rw [hout] at hj; cases hj
      | stay hin _ hy hswtch hrelease =>
          obtain ⟨-, c', hm', hheld⟩ := h.inside j hin
          have hc := hs.eq_of_proc hm (hs.proc_of_run hm')
          subst hc
          obtain ⟨hmode, hheld'⟩ := Machine.exec_held hexec hheld hswtch hrelease
          exact ⟨hy, c', hmode.trans hm, hheld'⟩
      | enter _ _ hy hacquire =>
          subst hacquire
          obtain ⟨-, hmode, hheld⟩ := Machine.exec_acquire hexec
          exact ⟨hy, c, hmode.trans hm, hheld⟩
    · obtain ⟨-, hin, hcpu⟩ := h.other hs hl hm hnext hexec hji
      obtain ⟨heq, hheld⟩ := hcpu hj
      rw [heq]
      exact ⟨(h.inside j (hin ▸ hj)).1, hheld⟩
  case asserts =>
    intro j
    rw [hdata]
    by_cases hji : j = i
    · subst hji
      rw [ht]
      cases hmove with
      | outside _ hout => exact Pos.asserts_of_outside hout
      | leave _ hout => exact Pos.asserts_of_outside hout
      | stay _ _ _ _ _ hat => exact hat
      | enter _ _ _ hacquire hd hat =>
          subst hacquire
          obtain ⟨hfree, -, -⟩ := Machine.exec_acquire hexec
          rw [hd]
          exact hat (h.free (h.outside_of_free hs hfree))
    · obtain ⟨-, hin, hcpu⟩ := h.other hs hl hm hnext hexec hji
      cases hj : (s'.threads j).pos.inside M with
      | false => exact Pos.asserts_of_outside hj
      | true =>
          rw [(hcpu hj).1, hsame j hji (hin ▸ hj)]
          exact h.asserts j
  case free =>
    intro hall
    rw [hdata]
    have hi := hall i
    rw [ht] at hi
    cases hmove with
    | leave _ _ _ hfree => exact hfree
    | stay _ hin => rw [hi] at hin; cases hin
    | enter _ hin => rw [hi] at hin; cases hin
    | outside hout _ hd =>
        rw [hd]
        apply h.free
        intro j
        by_cases hji : j = i
        · rw [hji]
          exact hout
        · rw [← (h.other hs hl hm hnext hexec hji).2.1]
          exact hall j

theorem step (h : M.Kept view s) (hR : M.Rules view cl A) (hs : Placed s) (hl : Live s)
    (hobeys : Obeys A s a) (hstep : s.step cl a = some (.ok s')) : M.Kept view s' := by
  cases Machine.step_cases hstep with
  | thread hm hnext hexec => exact h.thread hR hs hl hobeys hm hnext hexec
  | timer hm hheld hidle heq =>
      rename_i c i
      subst heq
      -- The interrupted thread holds no lock.
      have hout : (s.threads i).pos.inside M = false := by
        rw [← Bool.not_eq_true]
        intro hin
        obtain ⟨-, c', hm', hheld'⟩ := h.inside i hin
        have hc := hs.eq_of_proc hm (hs.proc_of_run hm')
        subst hc
        rw [hheld] at hheld'
        cases hheld'
      have hpos : ∀ j, ((s.setThread i { s.threads i with yield := .acquire }).threads j).pos =
          (s.threads j).pos := by
        intro j
        by_cases hji : j = i
        · subst hji
          simp [Machine.setThread]
        · simp [Machine.setThread, hji]
      constructor
      case ok => exact fun j => hpos j ▸ h.ok j
      case asserts => exact fun j => hpos j ▸ h.asserts j
      case free => exact fun hall => h.free fun j => hpos j ▸ hall j
      case inside =>
        intro j hj
        rw [hpos] at hj
        have hji : j ≠ i := by
          rintro rfl
          rw [hout] at hj
          cases hj
        simpa [Machine.setThread, hji] using h.inside j hj
  | schedule hm hrun hsched =>
      obtain ⟨hthreads, hdata, -⟩ := Machine.schedule_frame hsched
      constructor
      case ok => exact fun j => hthreads ▸ h.ok j
      case asserts => exact fun j => hthreads ▸ hdata ▸ h.asserts j
      case free => exact fun hall => hdata ▸ h.free fun j => hthreads ▸ hall j
      case inside =>
        intro j hj
        rw [hthreads] at hj ⊢
        obtain ⟨hy, c', hm', hheld⟩ := h.inside j hj
        refine ⟨hy, c', ?_⟩
        rw [Machine.schedule_cpus hsched]
        · exact ⟨hm', hheld⟩
        · rintro rfl
          exact hrun j (hm.symm.trans hm')

theorem boot {k : κ} {d : δ} (hk : M.guards k = false) (hd : M.free (view d)) :
    M.Kept view (boot k d) := by
  constructor
  case ok => simpa [Sched.boot, Pos.Ok, Op.conts] using hk
  case inside => simp [Sched.boot, Pos.inside]
  case asserts => exact fun i => trivial
  case free => exact fun _ => hd

/-- What holds at every place with the lock and while the lock is free holds always. -/
theorem always {P : β → Prop} (h : M.Kept view s)
    (hholds : ∀ k b, M.guards k = true → M.holds k b → P b) (hfree : ∀ b, M.free b → P b) :
    P (view s.data) := by
  by_cases hall : ∀ i, (s.threads i).pos.inside M = false
  · exact hfree _ (h.free hall)
  · obtain ⟨i, hi⟩ := not_forall.mp hall
    have hat := h.asserts i
    rcases hpos : (s.threads i).pos with o | ⟨c, back⟩ <;> rw [hpos] at hi hat
    · cases o with
      | client k =>
          have hg : M.guards k = true := by simpa [Pos.inside] using hi
          exact hholds k _ hg (hat hg)
      | _ => exact absurd rfl hi
    · cases back with
      | client k =>
          simp only [Pos.inside, Bool.and_eq_false_iff, decide_eq_false_iff_not, not_or,
            Bool.not_eq_false, not_not] at hi
          have hsub := hat hi.1 hi.2
          split at hsub
          · exact hfree _ hsub.1
          · exact hholds k _ hi.1 hsub
      | _ => exact absurd rfl hi

end Monitor.Kept

/-- Every sleeper on a channel of the monitor has what it sleeps for, or will be woken:
the data have changed and the wakeup is owed, or it is on its way. -/
def Monitor.Signalled (M : Monitor κ β) (view : δ → β) (s : Machine κ δ) : Prop :=
  ∀ p m back, M.governs m = true → s.Asleep p (.addr m) (M.lk + 1) back →
    M.cond m (view s.data) ∨ M.owes m (view s.data) ∨
      ∃ q c k, (s.threads q).pos = .sub c (.client k) ∧ M.guards k = true ∧
        c.wakes (.addr m) p = true

section signal

variable {M : Monitor κ β} {view : δ → β} {cl : Client κ δ ι}
  {A : κ → Int → δ → ι → Prop} {s s' : Machine κ δ} {a : Action ι}

/-- The data change only in a step of a client that has the lock. -/
theorem Monitor.Rules.data_step (hR : M.Rules view cl A)
    (hobeys : Obeys A s a) (hstep : s.step cl a = some (.ok s')) :
    view s'.data = view s.data ∨ ∃ i k x call, (s.threads i).pos = .op (.client k) ∧
      M.guards k = true ∧ A k (s.threads i).ret s.data x ∧
      cl.step i k (s.threads i).ret s.data x = some (call, s'.data) ∧
      ∀ ch k', call = .wakeup ch k' →
        (s'.threads i).pos = .sub (.wakeup (some (.addr ch)) 0) (.client k') := by
  cases Machine.step_cases hstep with
  | schedule hm hrun hsched => exact .inl (by rw [(Machine.schedule_frame hsched).2.1])
  | timer hm hheld hidle heq =>
      subst heq
      exact .inl rfl
  | thread hm hnext hexec =>
      rename_i c i x ok instr t d
      have hdata : s'.data = d := (Machine.exec_data hexec).trans rfl
      rw [hdata]
      cases Thread.next_cases hnext with
      | acquire hy | ready hy | swtch hy | release hy => exact .inl rfl
      | sub hy hpos hn => exact .inl rfl
      | op hy hpos hclient hn => exact .inl rfl
      | client hy hpos hn =>
          rename_i k call
          have hA := hobeys i k hm hy hpos
          cases hg : M.guards k with
          | false => exact .inl (hR.outside hA hn hg)
          | true =>
              refine .inr ⟨i, k, x, call, hpos, hg, hA, hn, ?_⟩
              rintro ch k' rfl
              cases hexec
              simp [Machine.setThread, Call.next]

/-- A process that is about to let go of the lock inside sleep. -/
theorem Monitor.Kept.cond_of_release (h : M.Kept view s) {p m : Nat} {back : Return κ}
    (hm : M.governs m = true)
    (hpos : (s.threads p).pos = .sub (.sleepRelease (.addr m) (M.lk + 1)) back) :
    M.cond m (view s.data) := by
  have hok := h.ok p
  have hat := h.asserts p
  rw [hpos] at hok hat
  cases back with
  | client k =>
      obtain ⟨-, hgov, -⟩ := hok _ _ _ rfl
      exact (hat (hgov m rfl hm) (by simp [Sub.given])).2 m rfl
  | exitReparent st j | exitLock st | waitKilled addr k | waitAgain addr k =>
      exact absurd rfl (hok.2 m _ _)

theorem Monitor.Signalled.step (h : M.Signalled view s) (hk : M.Kept view s)
    (hR : M.Rules view cl A) (hs : Placed s) (hl : Live s) (hobeys : Obeys A s a)
    (hstep : s.step cl a = some (.ok s')) : M.Signalled view s' := by
  intro p m back hm hasleep
  -- What was true of the old data is true of the new ones, or a wakeup has begun.
  have hnew : M.cond m (view s.data) ∨ M.owes m (view s.data) →
      M.cond m (view s'.data) ∨ M.owes m (view s'.data) ∨
      ∃ q c k, (s'.threads q).pos = .sub c (.client k) ∧ M.guards k = true ∧
        c.wakes (.addr m) p = true := by
    intro hold
    rcases hR.data_step hobeys hstep with heq |
      ⟨i, k, x, call, hpos, hg, hA, hcall, hpos'⟩
    · rw [heq]
      exact hold.imp_right .inl
    · have hholds : M.holds k (view s.data) := by
        have hat := hk.asserts i
        rw [hpos] at hat
        exact hat hg
      rcases hR.signal hA hcall hg hholds hm hold with hc | ho | ⟨k', rfl⟩
      · exact .inl hc
      · exact .inr (.inl ho)
      · have hresp : M.guards k' = M.guards k := hR.respects hA hcall
        exact .inr (.inr ⟨i, _, k', hpos' m k' rfl, by rw [hresp, hg], by simp [Sub.wakes]⟩)
  rcases hs.asleep_step hstep hasleep with hold | ⟨hpos, -⟩
  · rcases h p m back hm hold with hc | ho | ⟨q, c, k, hpos, hg, hw⟩
    · exact hnew (.inl hc)
    · exact hnew (.inr ho)
    · have hpq : p ≠ q := by
        rintro rfl
        obtain ⟨n, hphase, -⟩ := hold.sleepPhase
        rw [hpos] at hphase
        cases c <;> cases hphase <;> cases hw
      have hlt : p < NPROC := by
        apply hl.lt
        intro hunused
        have hdead := hl.dead_of_used (.inl hunused)
        obtain ⟨n, hphase, -⟩ := hold.sleepPhase
        rw [Pos.dead_of_sleepPhase hphase] at hdead
        cases hdead
      obtain ⟨c', hpos', hw'⟩ := hl.wakes_step hs hstep hpos hw hlt hpq hasleep
      exact .inr (.inr ⟨q, c', k, hpos', hg, hw'⟩)
  · exact hnew (.inl (hk.cond_of_release hm hpos))

/-- While the lock is free, whoever sleeps on a channel of the monitor has a reason. -/
theorem Monitor.Signalled.cond_of_sleeping (h : M.Signalled view s) (hk : M.Kept view s)
    (hR : M.Rules view cl A) (hs : Placed s) (hl : Live s)
    (hfree : s.lock (.spin (M.lk + 1)) = none) {p m : Nat} (hm : M.governs m = true)
    (hsl : (s.slots p).state = .SLEEPING) (hchan : (s.slots p).chan = some (.addr m)) :
    M.cond m (view s.data) := by
  have hout := hk.outside_of_free hs hfree
  obtain ⟨ch, lk, back, hchan', hasleep⟩ := hl.asleep_of_sleeping hsl
  rw [hchan] at hchan'
  cases hchan'
  have hlk : lk = M.lk + 1 := by
    obtain ⟨n, hphase, -⟩ := hasleep.sleepPhase
    have hok := hk.ok p
    rcases hpos : (s.threads p).pos with o | ⟨c, back'⟩ <;> rw [hpos] at hphase hok
    · cases hphase
    · cases back' with
      | client k =>
          obtain ⟨hiff, hgov, -⟩ := hok _ _ _ hphase
          exact hiff.mp (hgov m rfl hm)
      | exitReparent st j | exitLock st | waitKilled addr k | waitAgain addr k =>
          exact absurd hphase (hok.2 m _ _)
  subst hlk
  rcases h p m back hm hasleep with hc | ho | ⟨q, c, k, hpos, hg, hw⟩
  · exact hc
  · exact absurd ho (hR.paid (hk.free hout) hm)
  · have hin := hout q
    rw [hpos] at hin
    have hgiven : c.given = none := by cases c <;> first | rfl | cases hw
    simp [Pos.inside, hg, hgiven] at hin

theorem Monitor.Signalled.boot (M : Monitor κ β) (view : δ → β) (k : κ) (d : δ) :
    M.Signalled view (Sched.boot k d) := by
  intro p m back hm hasleep
  rcases hasleep with hpos | hpos | ⟨hpos, -⟩ <;> cases hpos

end signal

end Xv6.Sched
