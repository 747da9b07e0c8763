/-
The nesting of push_off and pop_off.  `noff` of a CPU is the nesting of the thread that
runs there, and `intena` belongs to that thread from its first push_off on, with sched
carrying it over a switch to another CPU.
-/
import Xv6.Spinlock.Code

namespace Xv6.Spinlock

open Sched (Lock ProcState)

/-- The code keeps to the discipline from a nesting `n` and locks `held` on: a lock is
acquired once, inside of a push_off that stays until it is released, and at sched only
p->lock is held. -/
def Safe (me : Option Nat) : List Instr → Nat → List Lock → Prop
  | [], _, _ => True
  | .pushOff :: code, n, held => Safe me code (n + 1) held
  | .popOff :: code, n, held => held.length < n ∧ Safe me code (n - 1) held
  | .lock l :: code, n, held => l ∉ held ∧ held.length < n ∧ Safe me code n (l :: held)
  | .unlock l :: code, n, held => l ∈ held ∧ Safe me code n (held.erase l)
  | .intr _ :: code, n, held => n = 0 ∧ Safe me code n held
  | .sched st :: code, n, held =>
      (∃ i, me = some i ∧ held = [.proc i]) ∧ n = 1 ∧ st ≠ .RUNNING ∧ Safe me code n held
  | .wake _ :: code, n, held => Safe me code n held
  | .dispatch j :: code, n, held =>
      me = none ∧ held = [.proc j] ∧ n = 1 ∧ Safe me code n held

theorem safe_forkret (i : Nat) : Safe (some i) (forkret i) 1 [.proc i] := by
  simp [forkret, myproc, release, Safe]

/-- What a disciplined thread calls is safe. -/
theorem Op.safe {me : Option Nat} {t : Thread} {op : Op} (hidle : t.held.length ≤ t.nest)
    (h : op.Allowed me t) : Safe me (op.code me) t.nest t.held := by
  cases op with
  | pushOff => simp [Op.code, Safe]
  | popOff => exact ⟨h, trivial⟩
  | acquire l => exact ⟨h, Nat.lt_succ_of_le hidle, trivial⟩
  | release l =>
      have hmem : l ∈ t.held := h
      have hpos := List.length_pos_of_mem hmem
      simp only [Op.code, Spinlock.release, Safe, List.length_erase_of_mem hmem]
      exact ⟨hmem, by omega, trivial⟩
  | sleep lk =>
      obtain ⟨⟨i, rfl, hlk⟩, hheld, hnest⟩ := h
      have herase : [Lock.proc i, lk].erase lk = [Lock.proc i] := by
        rw [List.erase_cons_tail (by simpa using fun h => hlk h.symm), List.erase_cons_head]
      rw [hheld, hnest]
      simp [Op.code, Spinlock.sleep, myproc, Spinlock.acquire, Spinlock.release, Safe, herase,
        hlk.symm]
  | yield =>
      obtain ⟨hme, hnest⟩ := h
      obtain ⟨i, rfl⟩ := Option.ne_none_iff_exists'.mp hme
      have hheld : t.held = [] := List.length_eq_zero_iff.mp (by omega)
      rw [hheld, hnest]
      simp [Op.code, Spinlock.yield, myproc, Spinlock.acquire, Spinlock.release, Safe]
  | wakeup j =>
      have hj : Lock.proc j ∉ t.held := h
      by_cases hme : me = some j
      · simp only [Op.code, Spinlock.wakeup, hme, if_true, myproc, Safe]
        exact ⟨by omega, trivial⟩
      · simp [Op.code, Spinlock.wakeup, hme, myproc, Spinlock.acquire, Spinlock.release, Safe,
          hj, Nat.lt_succ_of_le hidle]
  | intr on => exact ⟨h, trivial⟩
  | scan j =>
      obtain ⟨rfl, hnest⟩ := h
      have hheld : t.held = [] := List.length_eq_zero_iff.mp (by omega)
      rw [hheld, hnest]
      simp [Op.code, Spinlock.scan, Spinlock.acquire, Spinlock.release, Safe]

/-- An interrupt comes between two instructions that are outside of all push_offs. -/
theorem Handler.safe {me : Option Nat} {code : List Instr} (h : Handler)
    (hcode : Safe me code 0 []) :
    Safe me (.intr false :: (h.code me ++ .intr true :: code)) 0 [] := by
  cases h with
  | timer =>
      cases me with
      | none => simp [Handler.code, Safe, hcode]
      | some i =>
          simp [Handler.code, Spinlock.yield, myproc, Spinlock.acquire, Spinlock.release, Safe,
            hcode]
  | device l => simp [Handler.code, Spinlock.acquire, Spinlock.release, Safe, hcode]
  | wakeup j =>
      by_cases hme : me = some j
      · subst hme
        simp [Handler.code, Spinlock.wakeup, myproc, Safe, hcode]
      · simp [Handler.code, Spinlock.wakeup, hme, myproc, Spinlock.acquire, Spinlock.release,
          Safe, hcode]

/-- The thread that runs on CPU `c`, whose registers are `m`. -/
structure Executing (locks : Lock → Option Nat) (c : Nat) (m : Cpu) (t : Thread) : Prop where
  noff : m.noff = t.nest
  count : m.noff = m.pushes - m.pops
  off : 0 < t.nest → m.sie = false
  owns : ∀ l, locks l = some c ↔ l ∈ t.held
  nodup : t.held.Nodup
  inside : t.held.length ≤ t.nest
  safe : Safe m.proc t.code t.nest t.held
  intena : ∀ b, m.proc ≠ none → 0 < t.nest → t.before = some b →
    if t.inSched then t.intena = b else m.intena = b

/-- A thread in swtch, with the lock of process `i`. -/
structure Waiting (me : Option Nat) (i : Nat) (t : Thread) : Prop where
  nest : t.nest = 1
  held : t.held = [.proc i]
  safe : Safe me t.code 1 [.proc i]

/-- sched has kept the interrupt state of the thread. -/
def Thread.Kept (t : Thread) : Prop := ∀ b, t.before = some b → t.inSched = true ∧ t.intena = b

/-- A switch between two threads that both hold the lock of process `i`, and nothing else:
the one that waited finds the CPU as it expects it. -/
theorem Waiting.executing {me : Option Nat} {i c : Nat} {t t₀ : Thread} {m : Cpu}
    {locks : Lock → Option Nat} (h : Waiting me i t) (hexec : Executing locks c m t₀)
    (hnest : t₀.nest = 1) (hheld : t₀.held = [.proc i]) (hkept : me ≠ none → t.Kept) :
    Executing locks c { m with proc := me } t where
  noff := by rw [h.nest, ← hnest]; exact hexec.noff
  count := hexec.count
  off _ := hexec.off (by omega)
  owns l := by rw [hexec.owns, hheld, h.held]
  nodup := by simp [h.held]
  inside := by simp [h.held, h.nest]
  safe := by rw [h.nest, h.held]; exact h.safe
  intena b hme _ hb := by
    obtain ⟨hsched, hintena⟩ := hkept hme b hb
    rw [if_pos hsched]
    exact hintena

structure Inv (s : Machine) : Prop where
  running : ∀ c, Executing s.locks c (s.cpus c) (s.running c)
  scheduler : ∀ c, (s.schedulers c).inSched = false
  waiting : ∀ c i, (s.cpus c).proc = some i → Waiting none i (s.schedulers c)
  parked : ∀ i, (∀ c, (s.cpus c).proc ≠ some i) →
    Waiting (some i) i (s.threads i) ∧ (s.threads i).Kept
  unique : ∀ c d i, (s.cpus c).proc = some i → (s.cpus d).proc = some i → c = d
  status : ∀ c i, (s.cpus c).proc = some i → s.state i = .RUNNING

section put

variable {s : Machine} {c : Nat} {m : Cpu} {t : Thread}

@[simp] theorem Machine.put_cpus : (s.put c m t).cpus = Function.update s.cpus c m := by
  unfold Machine.put
  split <;> rfl

@[simp] theorem Machine.put_locks : (s.put c m t).locks = s.locks := by
  unfold Machine.put
  split <;> rfl

@[simp] theorem Machine.put_state : (s.put c m t).state = s.state := by
  unfold Machine.put
  split <;> rfl

theorem Machine.put_running_self : (s.put c m t).running c = t := by
  unfold Machine.running
  rw [Machine.put_cpus, Function.update_self]
  unfold Machine.put
  cases hproc : m.proc with
  | none => exact Function.update_self ..
  | some i => exact Function.update_self ..

theorem Machine.put_schedulers {i : Nat} (hproc : m.proc = some i) :
    (s.put c m t).schedulers = s.schedulers := by
  simp only [Machine.put, hproc]

theorem Machine.put_threads {i : Nat} (hi : m.proc ≠ some i) :
    (s.put c m t).threads i = s.threads i := by
  unfold Machine.put
  split
  · next j hj =>
      have hij : i ≠ j := fun h => hi (h ▸ hj)
      exact Function.update_of_ne hij ..
  · rfl

theorem Machine.put_schedulers_of_ne {d : Nat} (hd : d ≠ c) :
    (s.put c m t).schedulers d = s.schedulers d := by
  unfold Machine.put
  split
  · rfl
  · exact Function.update_of_ne hd ..

theorem Machine.running_congr {s' : Machine} {d : Nat} (hcpu : s'.cpus d = s.cpus d)
    (hthreads : ∀ i, (s.cpus d).proc = some i → s'.threads i = s.threads i)
    (hsched : s'.schedulers d = s.schedulers d) : s'.running d = s.running d := by
  unfold Machine.running
  rw [hcpu]
  cases hproc : (s.cpus d).proc with
  | some i => exact hthreads i hproc
  | none => exact hsched

theorem Machine.put_running_of_ne {d : Nat} (hd : d ≠ c)
    (hother : ∀ i, m.proc = some i → (s.cpus d).proc ≠ some i) :
    (s.put c m t).running d = s.running d :=
  Machine.running_congr (by rw [Machine.put_cpus, Function.update_of_ne hd])
    (fun i hi => Machine.put_threads fun h => hother i h hi) (Machine.put_schedulers_of_ne hd)

end put

section steps

variable {s : Machine} {c : Nat}

/-- A step that does not switch: what runs on the CPU changes, and the locks and the
states of the others do not. -/
theorem Inv.put (h : Inv s) {s₁ : Machine} {m : Cpu} {t : Thread}
    (hcpus : s₁.cpus = s.cpus) (hthreads : s₁.threads = s.threads)
    (hscheds : s₁.schedulers = s.schedulers)
    (hlocks : ∀ d, d ≠ c → ∀ l, s₁.locks l = some d ↔ s.locks l = some d)
    (hstate : ∀ i, s.state i = .RUNNING → s₁.state i = .RUNNING)
    (hproc : m.proc = (s.cpus c).proc) (hexec : Executing s₁.locks c m t)
    (hin : m.proc = none → t.inSched = false) : Inv (s₁.put c m t) := by
  have hproc' : ∀ d, ((s₁.put c m t).cpus d).proc = (s.cpus d).proc := by
    intro d
    rw [Machine.put_cpus, hcpus]
    by_cases hd : d = c
    · subst hd
      rw [Function.update_self, hproc]
    · rw [Function.update_of_ne hd]
  have hrunning : ∀ d, s₁.running d = s.running d := fun d => by
    simp only [Machine.running, hcpus, hthreads, hscheds]
  refine ⟨fun d => ?_, fun d => ?_, fun d i hi => ?_, fun i hi => ?_, fun d e i hd he => ?_,
    fun d i hi => ?_⟩
  · by_cases hd : d = c
    · subst hd
      rw [Machine.put_cpus, Function.update_self, Machine.put_running_self, Machine.put_locks]
      exact hexec
    · have hother : ∀ i, m.proc = some i → (s₁.cpus d).proc ≠ some i := by
        intro i hi hdi
        rw [hproc] at hi
        rw [hcpus] at hdi
        exact hd (h.unique d c i hdi hi)
      rw [Machine.put_cpus, Function.update_of_ne hd, Machine.put_running_of_ne hd hother,
        Machine.put_locks, hrunning, hcpus]
      have hd' := h.running d
      exact { hd' with owns := fun l => (hlocks d hd l).trans (hd'.owns l) }
  · by_cases hd : d = c
    · subst hd
      unfold Machine.put
      split
      · simpa only [hscheds] using h.scheduler d
      · next hnone => simpa using hin hnone
    · rw [Machine.put_schedulers_of_ne hd, hscheds]
      exact h.scheduler d
  · rw [hproc'] at hi
    by_cases hd : d = c
    · subst hd
      rw [Machine.put_schedulers (hproc.trans hi), hscheds]
      exact h.waiting d i hi
    · rw [Machine.put_schedulers_of_ne hd, hscheds]
      exact h.waiting d i hi
  · simp only [hproc'] at hi
    have hne : m.proc ≠ some i := fun hm => hi c (hproc.symm.trans hm)
    rw [Machine.put_threads hne, hthreads]
    exact h.parked i hi
  · rw [hproc'] at hd he
    exact h.unique d e i hd he
  · rw [hproc'] at hi
    rw [Machine.put_state]
    exact hstate i (h.status d i hi)

/-- What runs on a CPU that a switch on another one does not touch. -/
theorem Inv.elsewhere (h : Inv s) {s' : Machine} {d : Nat} (hcpu : s'.cpus d = s.cpus d)
    (hthreads : ∀ i, (s.cpus d).proc = some i → s'.threads i = s.threads i)
    (hsched : s'.schedulers d = s.schedulers d) (hlocks : s'.locks = s.locks) :
    Executing s'.locks d (s'.cpus d) (s'.running d) := by
  rw [Machine.running_congr hcpu hthreads hsched, hcpu, hlocks]
  exact h.running d

/-- A step that touches nothing but the CPU and the thread on it. -/
theorem Inv.putLocal (h : Inv s) {m : Cpu} {t : Thread} (hproc : m.proc = (s.cpus c).proc)
    (hexec : Executing s.locks c m t) (hin : m.proc = none → t.inSched = false) :
    Inv (s.put c m t) :=
  h.put rfl rfl rfl (fun _ _ _ => .rfl) (fun _ hi => hi) hproc hexec hin

/-- The CPU gives back or takes a lock that no other CPU has. -/
theorem Inv.setLock (h : Inv s) {l : Lock} {owner : Option Nat} {t : Thread}
    (hbefore : s.locks l = none ∨ s.locks l = some c) (howner : ∀ d, owner = some d → d = c)
    (hexec : Executing (s.setLock l owner).locks c (s.cpus c) t)
    (hin : t.inSched = false) : Inv ((s.setLock l owner).put c (s.cpus c) t) := by
  refine h.put rfl rfl rfl (fun d hd l' => ?_) (fun _ hi => hi) rfl hexec fun _ => hin
  by_cases hl : l' = l
  · subst hl
    have hafter : owner ≠ some d := fun ho => hd (howner d ho)
    have hbefore' : s.locks l' ≠ some d := by
      rcases hbefore with hb | hb <;> simp [hb, hd.symm]
    simp [Machine.setLock, hafter, hbefore']
  · simp [Machine.setLock, hl]

/-- The code before the thread on a CPU. -/
theorem Inv.safe (h : Inv s) {code : List Instr} (hcode : (s.running c).code = code) :
    Safe (s.cpus c).proc code (s.running c).nest (s.running c).held :=
  hcode ▸ (h.running c).safe

/-- The step keeps the invariant, or waits. -/
def Fine (r : Option (Except String Machine)) : Prop :=
  r = none ∨ ∃ s', r = some (.ok s') ∧ Inv s'

theorem Inv.pushOff (h : Inv s) {code : List Instr} (hin : (s.running c).inSched = false)
    (hcode : (s.running c).code = .pushOff :: code) :
    Fine (s.exec c { s.running c with code := code } .pushOff) := by
  have hexec := h.running c
  have hsafe := h.safe hcode
  refine .inr ⟨_, rfl, h.putLocal rfl
    { noff := ?_, count := ?_, off := fun _ => rfl, owns := hexec.owns, nodup := hexec.nodup,
      inside := Nat.le_succ_of_le hexec.inside, safe := hsafe, intena := ?_ } fun _ => hin⟩
  · have hnoff := hexec.noff
    simp only [Cpu.pushOff, Thread.pushed]
    omega
  · have hcount := hexec.count
    simp only [Cpu.pushOff]
    omega
  · intro b hproc _ hbefore
    simp only [Thread.pushed, hin, Bool.false_eq_true, if_false, Cpu.pushOff, hexec.noff]
      at hbefore ⊢
    by_cases hnest : (s.running c).nest = 0
    · rw [if_pos hnest, Option.some.injEq] at hbefore
      rw [if_pos (by omega), hbefore]
    · rw [if_neg hnest] at hbefore
      have hintena := hexec.intena b hproc (by omega) hbefore
      rw [hin] at hintena
      rw [if_neg (by omega)]
      exact hintena

/-- `pop_off` does not panic. -/
theorem Executing.popOff {locks : Lock → Option Nat} {m : Cpu} {t : Thread}
    (h : Executing locks c m t) (hpos : 0 < t.nest) :
    m.popOff = .ok { m with
      noff := m.noff - 1
      sie := if m.noff - 1 = 0 ∧ m.intena then true else m.sie
      pops := m.pops + 1 } := by
  have hnoff := h.noff
  rw [Cpu.popOff, if_neg (by simp [h.off hpos]), if_neg (by omega)]

theorem Inv.popOff (h : Inv s) {code : List Instr} (hin : (s.running c).inSched = false)
    (hcode : (s.running c).code = .popOff :: code) :
    Fine (s.exec c { s.running c with code := code } .popOff) := by
  have hexec := h.running c
  have hsafe := h.safe hcode
  obtain ⟨hlt, hsafe⟩ := hsafe
  have hnoff := hexec.noff
  have hoff := hexec.off (by omega)
  rw [Machine.exec, hexec.popOff (by omega)]
  refine .inr ⟨_, rfl, h.putLocal rfl
    { noff := ?_, count := ?_, off := fun hpos => ?_, owns := hexec.owns, nodup := hexec.nodup,
      inside := Nat.le_sub_one_of_lt hlt, safe := hsafe, intena := ?_ } fun _ => hin⟩
  · simp only
    omega
  · have hcount := hexec.count
    simp only
    omega
  · simp only at hpos ⊢
    rw [if_neg (fun hzero => by omega), hoff]
  · intro b hproc hpos hbefore
    exact hexec.intena b hproc (by simp only at hpos; omega) hbefore

theorem Inv.lock (h : Inv s) {code : List Instr} {l : Lock}
    (hin : (s.running c).inSched = false) (hcode : (s.running c).code = .lock l :: code) :
    Fine (s.exec c { s.running c with code := code } (.lock l)) := by
  have hexec := h.running c
  have hsafe := h.safe hcode
  obtain ⟨hl, hlt, hsafe⟩ := hsafe
  have hholding : s.locks l ≠ some c := fun hown => hl ((hexec.owns l).mp hown)
  rw [Machine.exec, if_neg hholding]
  by_cases hfree : s.locks l = none
  · rw [if_pos hfree]
    refine .inr ⟨_, rfl, h.setLock (.inl hfree) (fun d hd => (Option.some.inj hd).symm)
      { hexec with
        owns := fun l' => ?_
        nodup := List.nodup_cons.mpr ⟨hl, hexec.nodup⟩
        inside := hlt
        safe := hsafe } hin⟩
    by_cases hl' : l' = l
    · subst hl'
      simp [Machine.setLock]
    · simpa [Machine.setLock, hl'] using hexec.owns l'
  · exact .inl (if_neg hfree)

theorem Inv.unlock (h : Inv s) {code : List Instr} {l : Lock}
    (hin : (s.running c).inSched = false) (hcode : (s.running c).code = .unlock l :: code) :
    Fine (s.exec c { s.running c with code := code } (.unlock l)) := by
  have hexec := h.running c
  have hsafe := h.safe hcode
  obtain ⟨hl, hsafe⟩ := hsafe
  have hholding : s.locks l = some c := (hexec.owns l).mpr hl
  rw [Machine.exec, if_pos hholding]
  refine .inr ⟨_, rfl, h.setLock (.inr hholding) (fun d hd => by cases hd)
    { hexec with
      owns := fun l' => ?_
      nodup := hexec.nodup.erase l
      inside := Nat.le_trans List.length_erase_le hexec.inside
      safe := hsafe } hin⟩
  rw [hexec.nodup.mem_erase_iff]
  by_cases hl' : l' = l
  · subst hl'
    simp [Machine.setLock]
  · simpa [Machine.setLock, hl'] using hexec.owns l'

theorem Inv.intr (h : Inv s) {code : List Instr} {on : Bool}
    (hin : (s.running c).inSched = false) (hcode : (s.running c).code = .intr on :: code) :
    Fine (s.exec c { s.running c with code := code } (.intr on)) := by
  have hexec := h.running c
  have hsafe := h.safe hcode
  obtain ⟨hzero, hsafe⟩ := hsafe
  exact .inr ⟨_, rfl, h.putLocal rfl
    { hexec with
      off := fun hpos => absurd hzero (Nat.ne_of_gt hpos)
      safe := hsafe } fun _ => hin⟩

theorem Inv.wake (h : Inv s) {code : List Instr} {j : Nat}
    (hin : (s.running c).inSched = false) (hcode : (s.running c).code = .wake j :: code) :
    Fine (s.exec c { s.running c with code := code } (.wake j)) := by
  have hexec := h.running c
  have hsafe := h.safe hcode
  refine .inr ⟨_, rfl, h.put rfl rfl rfl (fun _ _ _ => .rfl) (fun i hi => ?_) rfl
    { hexec with safe := hsafe } fun _ => hin⟩
  by_cases hij : i = j
  · subst hij
    simp [Machine.setState, hi]
  · simp [Machine.setState, hij, hi]

/-- The switch to the scheduler.  The lock of the process and its push_off go over to
the scheduler, which waits to undo them; the process keeps `intena`. -/
theorem Inv.sched (h : Inv s) {code : List Instr} {st : ProcState}
    (hin : (s.running c).inSched = false) (hcode : (s.running c).code = .sched st :: code) :
    Fine (s.exec c { s.running c with code := code } (.sched st)) := by
  have hexec := h.running c
  have hsafe := h.safe hcode
  obtain ⟨⟨i, hproc, hheld⟩, hnest, hst, hsafe⟩ := hsafe
  have howns : s.locks (.proc i) = some c := (hexec.owns _).mpr (by simp [hheld])
  have hnoff : (s.cpus c).noff = 1 := by rw [hexec.noff, hnest]; rfl
  have hoff : (s.cpus c).sie = false := hexec.off (by omega)
  have hwait := h.waiting c i hproc
  simp only [Machine.exec, hproc]
  rw [Machine.sched, if_neg (by simpa [Machine.setState] using howns),
    if_neg (by simpa [Machine.setState] using hnoff),
    if_neg (by simpa [Machine.setState] using hst), if_neg (by simpa [Machine.setState] using hoff)]
  have hother : ∀ d k, d ≠ c → (s.cpus d).proc = some k → k ≠ i := by
    rintro d k hd hk rfl
    exact hd (h.unique d c k hk hproc)
  have hproc' : ∀ d k, ((Function.update s.cpus c { s.cpus c with proc := none }) d).proc =
      some k → (s.cpus d).proc = some k ∧ k ≠ i := by
    intro d k hk
    by_cases hd : d = c
    · subst hd
      simp at hk
    · rw [Function.update_of_ne hd] at hk
      exact ⟨hk, hother d k hd hk⟩
  refine .inr ⟨_, rfl, fun d => ?_, h.scheduler, fun d k hk => ?_, fun k hk => ?_,
    fun d e k hd he => ?_, fun d k hk => ?_⟩
  · by_cases hd : d = c
    · subst hd
      simp only [Machine.running, Function.update_self]
      exact hwait.executing hexec hnest hheld fun hne => absurd rfl hne
    · exact h.elsewhere (Function.update_of_ne hd ..)
        (fun k hk => Function.update_of_ne (hother d k hd hk) ..) rfl rfl
  · exact h.waiting d k (hproc' d k hk).1
  · by_cases hki : k = i
    · subst hki
      simp only [Function.update_self]
      refine ⟨⟨hnest, hheld, by rw [hnest, hheld, hproc] at hsafe; exact hsafe⟩, fun b hb => ?_⟩
      have hintena := hexec.intena b (by simp [hproc]) (by omega) hb
      rw [hin] at hintena
      exact ⟨rfl, hintena⟩
    · simp only [Function.update_of_ne hki]
      refine h.parked k fun d hd => ?_
      by_cases hdc : d = c
      · subst hdc
        exact hki (Option.some.inj (hd.symm.trans hproc))
      · exact hk d (by simpa only [Function.update_of_ne hdc, Machine.setState] using hd)
  · exact h.unique d e k (hproc' d k hd).1 (hproc' e k he).1
  · obtain ⟨hk, hki⟩ := hproc' d k hk
    simpa [Machine.setState, hki] using h.status d k hk

/-- The switch to a process.  It is runnable, so it runs on no other CPU. -/
theorem Inv.dispatch (h : Inv s) {code : List Instr} {j : Nat}
    (hin : (s.running c).inSched = false) (hcode : (s.running c).code = .dispatch j :: code) :
    Fine (s.exec c { s.running c with code := code } (.dispatch j)) := by
  have hexec := h.running c
  have hsafe := h.safe hcode
  obtain ⟨hproc, hheld, hnest, hsafe⟩ := hsafe
  rw [Machine.exec]
  by_cases hstate : s.state j = .RUNNABLE
  · rw [if_pos hstate]
    have hfree : ∀ d, (s.cpus d).proc ≠ some j := fun d hd => by
      rw [h.status d j hd] at hstate
      cases hstate
    obtain ⟨hwait, hkept⟩ := h.parked j hfree
    have hproc' : ∀ d k, ((Function.update s.cpus c { s.cpus c with proc := some j }) d).proc =
        some k → d = c ∧ k = j ∨ d ≠ c ∧ (s.cpus d).proc = some k := by
      intro d k hk
      by_cases hd : d = c
      · subst hd
        rw [Function.update_self] at hk
        exact .inl ⟨rfl, (Option.some.inj hk).symm⟩
      · rw [Function.update_of_ne hd] at hk
        exact .inr ⟨hd, hk⟩
    refine .inr ⟨_, rfl, fun d => ?_, fun d => ?_, fun d k hk => ?_, fun k hk => ?_,
      fun d e k hd he => ?_, fun d k hk => ?_⟩
    · by_cases hd : d = c
      · subst hd
        simp only [Machine.running, Function.update_self, Machine.setState]
        exact hwait.executing hexec hnest hheld fun _ => hkept
      · exact h.elsewhere (Function.update_of_ne hd ..) (fun _ _ => rfl)
          (Function.update_of_ne hd ..) rfl
    · by_cases hd : d = c
      · subst hd
        simpa using hin
      · simpa [Machine.setState, hd] using h.scheduler d
    · rcases hproc' d k hk with ⟨rfl, rfl⟩ | ⟨hd, hk⟩
      · simp only [Function.update_self]
        exact ⟨hnest, hheld, by rw [hnest, hheld, hproc] at hsafe; exact hsafe⟩
      · simp only [Function.update_of_ne hd]
        exact h.waiting d k hk
    · refine h.parked k fun d hd => ?_
      by_cases hdc : d = c
      · subst hdc
        rw [hproc] at hd
        cases hd
      · exact hk d (by simpa only [Function.update_of_ne hdc] using hd)
    · rcases hproc' d k hd with ⟨hdc, hkd⟩ | ⟨hdc, hd'⟩ <;>
        rcases hproc' e k he with ⟨hec, hke⟩ | ⟨hec, he'⟩
      · exact hdc.trans hec.symm
      · exact absurd (hkd ▸ he') (hfree e)
      · exact absurd (hke ▸ hd') (hfree d)
      · exact h.unique d e k hd' he'
    · rcases hproc' d k hk with ⟨rfl, rfl⟩ | ⟨hd, hk⟩
      · simp [Machine.setState]
      · have hkj : k ≠ j := fun hkj => hfree d (hkj ▸ hk)
        simpa [Machine.setState, hkj] using h.status d k hk
  · rw [if_neg hstate]
    exact .inr ⟨_, rfl, h.putLocal rfl
      { hexec with safe := hsafe } fun _ => hin⟩

theorem Inv.exec (h : Inv s) {instr : Instr} {code : List Instr}
    (hin : (s.running c).inSched = false) (hcode : (s.running c).code = instr :: code) :
    Fine (s.exec c { s.running c with code := code } instr) := by
  cases instr with
  | pushOff => exact h.pushOff hin hcode
  | popOff => exact h.popOff hin hcode
  | lock l => exact h.lock hin hcode
  | unlock l => exact h.unlock hin hcode
  | intr on => exact h.intr hin hcode
  | sched st => exact h.sched hin hcode
  | wake j => exact h.wake hin hcode
  | dispatch j => exact h.dispatch hin hcode

/-- A thread that has other code before it, and is otherwise as it was. -/
theorem Inv.setCode (h : Inv s) {code : List Instr} (hin : (s.running c).inSched = false)
    (hsafe : Safe (s.cpus c).proc code (s.running c).nest (s.running c).held) :
    Inv (s.put c (s.cpus c) { s.running c with code := code }) :=
  h.putLocal rfl
    { h.running c with safe := hsafe } fun _ => hin

/-- The first thing a thread does behind swtch is to take back its `intena`. -/
theorem Inv.resume (h : Inv s) (hin : (s.running c).inSched = true) :
    Inv (s.put c { s.cpus c with intena := (s.running c).intena }
      { s.running c with inSched := false }) := by
  have hexec := h.running c
  refine h.putLocal rfl
    { hexec with intena := fun b hproc hpos hb => ?_ } fun _ => rfl
  have hintena := hexec.intena b hproc hpos hb
  rw [if_pos hin] at hintena
  exact hintena

/-- A disciplined step keeps the invariant, and is no panic. -/
theorem Inv.step (h : Inv s) {a : Action} (hallowed : Allowed s a) : Fine (s.step a) := by
  cases a with
  | call c op =>
      simp only [Machine.step]
      by_cases hidle : (s.running c).inSched = false ∧ (s.running c).code = []
      · rw [if_pos hidle]
        exact .inr ⟨_, rfl, h.setCode hidle.1 (Op.safe (h.running c).inside hallowed)⟩
      · exact .inl (if_neg hidle)
  | trap c hd =>
      simp only [Machine.step]
      by_cases hon : (s.running c).inSched = false ∧ (s.cpus c).sie = true
      · rw [if_pos hon]
        have hexec := h.running c
        -- interrupts are on, so the thread is outside of all push_offs
        have hnest : (s.running c).nest = 0 := by
          by_contra hne
          have hoff := hexec.off (Nat.pos_of_ne_zero hne)
          rw [hon.2] at hoff
          cases hoff
        have hheld : (s.running c).held = [] := by
          have hinside := hexec.inside
          exact List.length_eq_zero_iff.mp (by omega)
        have hsafe := hexec.safe
        rw [hnest, hheld] at hsafe
        refine .inr ⟨_, rfl, h.setCode hon.1 ?_⟩
        rw [hnest, hheld]
        exact hd.safe hsafe
      · exact .inl (if_neg hon)
  | step c =>
      simp only [Machine.step]
      by_cases hin : (s.running c).inSched = true
      · rw [if_pos hin]
        exact .inr ⟨_, rfl, h.resume hin⟩
      · rw [if_neg hin]
        cases hcode : (s.running c).code with
        | nil => exact .inl rfl
        | cons instr code => exact h.exec (Bool.eq_false_iff.mpr hin) hcode

end steps

theorem Inv.boot (state : Nat → ProcState) : Inv (boot state) where
  running c := by
    simp only [Machine.running, Spinlock.boot]
    exact
      { noff := rfl, count := rfl, off := fun _ => rfl, owns := by simp, nodup := by simp,
        inside := by simp, safe := trivial, intena := by simp }
  scheduler _ := rfl
  waiting _ _ hi := by cases hi
  parked i _ := ⟨⟨rfl, rfl, safe_forkret i⟩, fun b hb => by cases hb⟩
  unique _ _ _ hi := by cases hi
  status _ _ hi := by cases hi

theorem Reachable.inv {s : Machine} (h : Reachable s) : Inv s := by
  refine Transition.Reach.invariant (fun s hs => ?_) (fun s a s' hallowed hstep hs => ?_) h
  · obtain ⟨state, rfl⟩ := hs
    exact Inv.boot state
  · rcases hs.step hallowed with hnone | ⟨s₁, hok, hinv⟩
    · rw [hnone] at hstep
      cases hstep
    · rw [hok] at hstep
      cases hstep
      exact hinv

/-- The interrupt state after the pop_off that ends the nesting of a process. -/
theorem Inv.restores {s s' : Machine} {c i : Nat} {b : Bool} {code : List Instr} (h : Inv s)
    (hproc : (s.cpus c).proc = some i) (hin : (s.threads i).inSched = false)
    (hcode : (s.threads i).code = .popOff :: code) (hnest : (s.threads i).nest = 1)
    (hbefore : (s.threads i).before = some b) (hstep : s.step (.step c) = some (.ok s')) :
    (s'.threads i).nest = 0 ∧ (s'.cpus c).sie = b := by
  have hrun : s.running c = s.threads i := by simp only [Machine.running, hproc]
  have hexec := h.running c
  have hintena := hexec.intena b (by simp [hproc]) (by rw [hrun]; omega)
    (by rw [hrun]; exact hbefore)
  rw [hrun] at hexec hintena
  rw [hin] at hintena
  have hnoff := hexec.noff
  have hoff := hexec.off (by omega)
  have hpop := hexec.popOff (by omega)
  simp only [Machine.step, hrun, hin, hcode, Machine.exec, hpop] at hstep
  cases hstep
  simp only [Machine.put, hproc, Function.update_self, hnest]
  refine ⟨trivial, ?_⟩
  have hzero : (s.cpus c).noff - 1 = 0 := by omega
  have hb : (s.cpus c).intena = b := hintena
  cases b with
  | true => simp only [hzero, hb, and_self, if_true]
  | false => simp [hb, hoff]

/-- push_off and pop_off nest, for disciplined threads on any number of CPUs.  `noff` is
the number of push_offs on its CPU that are not undone, all of them made by the thread
that runs there; interrupts are off inside of them; no step panics; and the pop_off that
ends the nesting of a process puts the interrupt state back to what it was before the
push_off that began it, on whichever CPU that was. -/
theorem interrupt_nesting {s : Machine} (h : Reachable s) :
    (∀ c, (s.cpus c).noff = (s.cpus c).pushes - (s.cpus c).pops ∧
      (s.cpus c).noff = (s.running c).nest ∧
      ((s.cpus c).noff > 0 → (s.cpus c).sie = false)) ∧
    (∀ a, Allowed s a → ∀ msg, s.step a ≠ some (.error msg)) ∧
    (∀ c i b code s', (s.cpus c).proc = some i → (s.threads i).inSched = false →
      (s.threads i).code = .popOff :: code → (s.threads i).nest = 1 →
      (s.threads i).before = some b → s.step (.step c) = some (.ok s') →
      (s'.threads i).nest = 0 ∧ (s'.cpus c).sie = b) := by
  have hinv := h.inv
  refine ⟨fun c => ?_, fun a hallowed msg hstep => ?_, fun c i b code s' hproc hin hcode hnest
    hbefore hstep => hinv.restores hproc hin hcode hnest hbefore hstep⟩
  · have hexec := hinv.running c
    exact ⟨hexec.count, hexec.noff, fun hpos => hexec.off (by have := hexec.noff; omega)⟩
  · rcases hinv.step hallowed with hnone | ⟨s', hok, -⟩
    · rw [hnone] at hstep
      cases hstep
    · rw [hok] at hstep
      cases hstep

namespace Migration

/-- The calls that the run below makes. -/
def allowed (s : Machine) : Action → Bool
  | .call c .yield => (s.cpus c).proc.isSome && (s.running c).nest == 0
  | .call c (.intr _) => (s.running c).nest == 0
  | .call c (.scan _) => (s.cpus c).proc.isNone && (s.running c).nest == 0
  | .call _ _ => false
  | .trap _ _ => true
  | .step _ => true

theorem allowed_sound (s : Machine) (a : Action) (h : allowed s a = true) : Allowed s a := by
  cases a with
  | trap c hd => trivial
  | step c => trivial
  | call c op =>
      cases op with
      | yield | intr on | scan j =>
          simpa [allowed, Allowed, Op.Allowed, Option.isSome_iff_ne_none] using h
      | pushOff | popOff | acquire l | release l | sleep lk | wakeup j => cases h

/-- CPU 0 switches interrupts on and runs process 0, which yields; CPU 1, with interrupts
off, runs it up to the pop_off that ends the yield. -/
def acts : List Action :=
  [.call 0 (.intr true), .step 0, .call 0 (.scan 0)] ++ List.replicate 7 (.step 0) ++
    [.call 0 .yield] ++ List.replicate 9 (.step 0) ++ [.call 1 (.scan 0)] ++
    List.replicate 5 (.step 1)

def run (acts : List Action) : Option Machine :=
  Transition.runAll allowed Machine.step (boot fun i => if i = 0 then .RUNNABLE else .UNUSED) acts

def before : Option Machine := run acts

/-- Process 0 on CPU 1, one pop_off before the end of its nesting. -/
theorem before_eq : (before.map fun s => ((s.cpus 1).proc, s.threads 0)) =
    some (some 0, { code := [.popOff], intena := true, nest := 1, before := some true }) := by
  decide

end Migration

/-- A process that yields with interrupts on gets them back on another CPU. -/
theorem interrupt_nesting_migration :
    ∃ s s', Reachable s ∧ (s.cpus 1).proc = some 0 ∧ (s.cpus 1).sie = false ∧
      s.step (.step 1) = some (.ok s') ∧ (s'.cpus 1).sie = true := by
  obtain ⟨s, hs⟩ : ∃ s, Migration.before = some s := by
    cases h : Migration.before with
    | none =>
        have heq := Migration.before_eq
        rw [h] at heq
        cases heq
    | some s => exact ⟨s, rfl⟩
  have hreach : Reachable s :=
    Transition.Reach.runAll Migration.allowed_sound (.start ⟨_, rfl⟩) hs
  have heq := Migration.before_eq
  rw [hs, Option.map_some, Option.some.injEq, Prod.mk.injEq] at heq
  obtain ⟨hproc, hthread⟩ := heq
  obtain ⟨hcpus, hpanic, hrestores⟩ := interrupt_nesting hreach
  have hrun : s.running 1 = s.threads 0 := by simp only [Machine.running, hproc]
  obtain ⟨-, hnoff, hoff⟩ := hcpus 1
  rw [hrun, hthread] at hnoff
  obtain ⟨s', hstep⟩ : ∃ s', s.step (.step 1) = some (.ok s') := by
    cases hres : s.step (.step 1) with
    | none =>
        simp only [Machine.step, hrun, hthread, Machine.exec] at hres
        split at hres
        · cases hres
        · split at hres <;> cases hres
    | some r =>
        cases r with
        | error msg => exact absurd hres (hpanic (.step 1) trivial msg)
        | ok s' => exact ⟨s', rfl⟩
  refine ⟨s, s', hreach, hproc, hoff (by rw [hnoff]; decide), hstep, ?_⟩
  exact (hrestores 1 0 true [] s' hproc (by rw [hthread]) (by rw [hthread]) (by rw [hthread])
    (by rw [hthread]) hstep).2

/-- Mutual exclusion: the owner of a lock is the CPU whose thread holds it, so that no two
running threads hold it at once, and interrupts are off there. -/
theorem mutual_exclusion {s : Machine} (h : Reachable s) (c : Nat) (l : Lock) :
    (s.locks l = some c ↔ l ∈ (s.running c).held) ∧
    (l ∈ (s.running c).held → (s.cpus c).sie = false ∧
      ∀ d, l ∈ (s.running d).held → d = c) := by
  have hc := h.inv.running c
  refine ⟨hc.owns l, fun hl => ⟨?_, fun d hd => ?_⟩⟩
  · have hpos := List.length_pos_of_mem hl
    exact hc.off (Nat.lt_of_lt_of_le hpos hc.inside)
  · have hown := ((h.inv.running d).owns l).mpr hd
    exact Option.some.inj (hown.symm.trans ((hc.owns l).mpr hl))

/-- In the yield above, behind the acquire of p->lock. -/
theorem mutual_exclusion_yield :
    ∃ s, Reachable s ∧ (s.cpus 0).proc = some 0 ∧ s.locks (.proc 0) = some 0 ∧
      (s.cpus 0).sie = false ∧ ∀ d, .proc 0 ∈ (s.running d).held → d = 0 := by
  have hsome : ((Migration.run (Migration.acts.take 15)).any fun s =>
      decide ((s.cpus 0).proc = some 0 ∧ .proc 0 ∈ (s.running 0).held)) = true := by decide
  obtain ⟨s, hs, hheld⟩ := (Option.any_eq_true _ _).mp hsome
  obtain ⟨hproc, hheld⟩ := of_decide_eq_true hheld
  have hreach : Reachable s :=
    Transition.Reach.runAll Migration.allowed_sound (.start ⟨_, rfl⟩) hs
  obtain ⟨howner, hexcludes⟩ := mutual_exclusion hreach 0 (.proc 0)
  exact ⟨s, hreach, hproc, howner.mpr hheld, hexcludes hheld⟩

end Xv6.Spinlock
