/-
A pipe is a bounded queue.  The 32-bit counters are the numbers of bytes stored and taken,
modulo 2^32, and the buffer holds the bytes in between.
-/
import Xv6.Pipes.Code

namespace Xv6.Pipes

open Sched

/-- Where a byte is in the buffer. -/
def index (j : Nat) : UInt32 := UInt32.ofNat (j % 512)

/-- The buffer holds the bytes that were stored and not taken. -/
structure Fifo (d : Shared) : Prop where
  nread : d.pipe.nread.toNat = d.taken.length % 2 ^ 32
  nwrite : d.pipe.nwrite.toNat = d.stored.length % 2 ^ 32
  taken_le : d.taken.length ≤ d.stored.length
  fits : d.stored.length ≤ d.taken.length + 512
  data : ∀ j, d.taken.length ≤ j → ∀ h : j < d.stored.length,
    d.pipe.data (index j) = d.stored[j]
  order : d.taken <+: d.stored

theorem mod_eq_index {c : UInt32} {n : Nat} (h : c.toNat = n % 2 ^ 32) :
    c % PIPESIZE = index n := by
  apply UInt32.toNat.inj
  have h512 : UInt32.toNat 512 = 512 := rfl
  simp only [PIPESIZE, index, UInt32.toNat_mod, UInt32.toNat_ofNat', h512, h]
  omega

theorem index_ne {j n : Nat} (hj : j < n) (hn : n < j + 512) : index j ≠ index n := by
  intro h
  have hnat := congrArg UInt32.toNat h
  simp only [index, UInt32.toNat_ofNat'] at hnat
  omega

theorem toNat_succ {c : UInt32} {n : Nat} (h : c.toNat = n % 2 ^ 32) :
    (c + 1).toNat = (n + 1) % 2 ^ 32 := by
  simp only [UInt32.toNat_add, UInt32.toNat_one, h]
  omega

namespace Fifo

variable {d : Shared}

/-- The test for an empty buffer compares the wrapped counters. -/
theorem empty_iff (h : Fifo d) :
    d.pipe.nread = d.pipe.nwrite ↔ d.taken.length = d.stored.length := by
  rw [← UInt32.toNat_inj, h.nread, h.nwrite]
  have h₁ := h.taken_le
  have h₂ := h.fits
  omega

/-- So does the test for a full one. -/
theorem full_iff (h : Fifo d) :
    d.pipe.nwrite = d.pipe.nread + PIPESIZE ↔ d.stored.length = d.taken.length + 512 := by
  have h₁ := h.taken_le
  have h₂ := h.fits
  rw [← UInt32.toNat_inj, UInt32.toNat_add, h.nread, h.nwrite]
  simp only [PIPESIZE, UInt32.toNat_ofNat]
  omega

theorem sub_eq (h : Fifo d) :
    (d.pipe.nwrite - d.pipe.nread).toNat = d.stored.length - d.taken.length := by
  have h₁ := h.taken_le
  have h₂ := h.fits
  rw [UInt32.toNat_sub, h.nread, h.nwrite]
  omega

theorem store (h : Fifo d) (ch : UInt8) (hfull : d.pipe.nwrite ≠ d.pipe.nread + PIPESIZE) :
    Fifo (d.store ch) := by
  have hlt : d.stored.length < d.taken.length + 512 :=
    Nat.lt_of_le_of_ne h.fits (fun heq => hfull (h.full_iff.mpr heq))
  constructor
  case nread => exact h.nread
  case nwrite => simpa [Shared.store] using toNat_succ h.nwrite
  case taken_le =>
    simp only [Shared.store, List.length_append, List.length_singleton]
    exact Nat.le_succ_of_le h.taken_le
  case fits =>
    simp only [Shared.store, List.length_append, List.length_singleton]
    omega
  case data =>
    intro j hj hlen
    simp only [Shared.store, List.length_append, List.length_singleton] at hj hlen
    simp only [Shared.store, mod_eq_index h.nwrite]
    by_cases hjn : j = d.stored.length
    · subst hjn
      simp
    · have hlt' : j < d.stored.length := by omega
      rw [Function.update_of_ne (index_ne hlt' (by omega)), List.getElem_append_left hlt']
      exact h.data j hj hlt'
  case order => exact h.order.trans (List.prefix_append _ _)

/-- The byte that is read next is the oldest one. -/
theorem front_eq (h : Fifo d) (hlt : d.taken.length < d.stored.length) :
    d.front = d.stored[d.taken.length] := by
  rw [Shared.front, mod_eq_index h.nread]
  exact h.data _ (Nat.le_refl _) hlt

theorem take (h : Fifo d) (hempty : d.pipe.nread ≠ d.pipe.nwrite) : Fifo d.take := by
  have hlt : d.taken.length < d.stored.length :=
    Nat.lt_of_le_of_ne h.taken_le (fun heq => hempty (h.empty_iff.mpr heq))
  constructor
  case nread => simpa [Shared.take] using toNat_succ h.nread
  case nwrite => exact h.nwrite
  case taken_le =>
    simp only [Shared.take, List.length_append, List.length_singleton]
    exact hlt
  case fits =>
    simp only [Shared.take, List.length_append, List.length_singleton]
    exact Nat.le_trans h.fits (by omega)
  case data =>
    intro j hj hlen
    simp only [Shared.take, List.length_append, List.length_singleton] at hj
    exact h.data j (by omega) hlen
  case order =>
    have htake := List.prefix_iff_eq_take.mp h.order
    simp only [Shared.take, h.front_eq hlt]
    rw [List.prefix_iff_eq_take, List.length_append, List.length_singleton,
      List.take_add_one, ← htake]
    simp [List.getElem?_eq_getElem hlt]

end Fifo

/-- What holds of the queue where a process has the lock of the pipe. -/
def queued : Place → Shared → Prop
  | .write (.copy _ _), d => Fifo d ∧ d.returned = d.taken ∧
      d.pipe.nwrite ≠ d.pipe.nread + PIPESIZE
  | .read (.loop _ i), d => Fifo d ∧ d.returned = d.taken ∧
      (i = 0 → d.pipe.nread ≠ d.pipe.nwrite ∨ d.pipe.writeopen = false)
  | .read (.copy _ _ ch), d => Fifo d ∧ d.taken = d.returned ++ [ch]
  | .read (.done n i), d => Fifo d ∧ d.returned = d.taken ∧
      (i = 0 → 0 < n → d.pipe.nread = d.pipe.nwrite ∧ d.pipe.writeopen = false)
  | _, d => Fifo d ∧ d.returned = d.taken

/-- The pipe as a queue. -/
def queue : Monitor Place Shared where
  lk := pipeLock
  guards := guards
  free d := Fifo d ∧ d.returned = d.taken
  holds := queued
  governs _ := false
  cond _ _ := True
  owes _ _ := False

/-- All user copies succeed. -/
def Copies (_ : Place) (_ : Int) (_ : Data) (x : Input) : Prop :=
  x ≠ .copyin none ∧ x ≠ .copyout false

theorem Fifo.congr {d d' : Shared} (h : Fifo d) (hdata : d'.pipe.data = d.pipe.data)
    (hnread : d'.pipe.nread = d.pipe.nread) (hnwrite : d'.pipe.nwrite = d.pipe.nwrite)
    (hstored : d'.stored = d.stored) (htaken : d'.taken = d.taken) : Fifo d' := by
  obtain ⟨h₁, h₂, h₃, h₄, h₅, h₆⟩ := h
  constructor
  case nread => rw [hnread, htaken, h₁]
  case nwrite => rw [hnwrite, hstored, h₂]
  case taken_le => rwa [htaken, hstored]
  case fits => rwa [htaken, hstored]
  case data =>
    intro j hj hlen
    rw [htaken] at hj
    simp only [hdata, hstored] at hlen ⊢
    exact h₅ j hj hlen
  case order => rwa [htaken, hstored]

section rules

variable {k : Place} {ret : Int} {d d' : Shared} {x : Input} {call : Call Place}

theorem queue_pipewrite {w : Write} (hx : x ≠ .copyin none)
    (h : pipewrite ret d x w = some (call, d')) (hq : queued (.write w) d) :
    call.After queue d' := by
  cases w with
  | loop n i =>
      simp only [pipewrite] at h
      split at h
      · split at h <;> cases h
        · exact hq
        · exact hq
      · cases h
        exact ⟨hq.1.congr rfl rfl rfl rfl rfl, hq.2⟩
  | killed n i =>
      simp only [pipewrite] at h
      split at h
      · cases h
        exact hq
      · split at h
        · cases h
          exact ⟨hq.1.congr rfl rfl rfl rfl rfl, hq.2⟩
        · next hfull =>
            cases h
            exact ⟨hq.1, hq.2, hfull⟩
  | full n i =>
      cases h
      exact ⟨hq, trivial, fun d' hd' => hd'⟩
  | copy n i =>
      simp only [pipewrite] at h
      split at h
      · split at h
        · cases h
          exact ⟨hq.1.store _ hq.2.2, hq.2.1⟩
        · exact absurd rfl hx
      · cases h
  | done i =>
      cases h
      exact hq

theorem queue_piperead {r : Read} (hx : x ≠ .copyout false)
    (h : piperead ret d x r = some (call, d')) (hq : queued (.read r) d) :
    call.After queue d' := by
  cases r with
  | empty n =>
      simp only [piperead] at h
      split at h
      · cases h
        exact hq
      · next hcond =>
          cases h
          refine ⟨hq.1, hq.2, fun _ => ?_⟩
          simpa [imp_iff_not_or] using hcond
  | killed n =>
      simp only [piperead] at h
      split at h <;> cases h
      · exact hq
      · exact ⟨hq, trivial, fun d' hd' => hd'⟩
  | loop n i =>
      obtain ⟨hfifo, hret, hfirst⟩ := hq
      simp only [piperead] at h
      split at h
      · split at h
        · next hempty =>
            cases h
            refine ⟨hfifo.congr rfl rfl rfl rfl rfl, hret, fun hi _ => ⟨hempty, ?_⟩⟩
            rcases hfirst hi with hne | hclosed
            · exact absurd hempty hne
            · exact hclosed
        · next hne =>
            cases h
            refine ⟨hfifo.take hne, ?_⟩
            simp [Shared.take, hret]
      · next hge =>
          cases h
          exact ⟨hfifo.congr rfl rfl rfl rfl rfl, hret, fun hi hn => by omega⟩
  | copy n i ch =>
      simp only [piperead] at h
      split at h
      · cases h
        refine ⟨hq.1.congr rfl rfl rfl rfl rfl, hq.2.symm, fun hi => by omega⟩
      · exact absurd rfl hx
      · cases h
  | done n i =>
      cases h
      exact ⟨hq.1, hq.2.1⟩

theorem queue_pipeclose {c : Close} (h : pipeclose d c = (call, d'))
    (hq : queued (.close c) d) : call.After queue d' := by
  rcases c with (_ | _) | _ <;> simp only [pipeclose] at h
  · cases h
    exact ⟨hq.1.congr rfl rfl rfl rfl rfl, hq.2⟩
  · cases h
    exact ⟨hq.1.congr rfl rfl rfl rfl rfl, hq.2⟩
  · split at h <;> cases h
    · exact hq
    · exact hq

end rules

theorem queue_rules : queue.Rules Data.shared client Copies where
  respects _ h := client_respects queue rfl rfl (by simp [queue]) h
  outside _ h hk := (client_outside h hk).1
  inside := by
    intro i k ret d x call d' hA h hk hq
    have hin := client_inside h hk
    cases k with
    | user r | free => cases hk
    | write w => exact queue_pipewrite hA.1 hin hq
    | read r => exact queue_piperead hA.2 hin hq
    | close c => exact queue_pipeclose (Option.some.inj hin) hq
  enter := by
    intro i k ret d x k' d' hA h hfree
    rcases starts_cases (client_acquire h) with ⟨n, rfl⟩ | ⟨n, rfl⟩ | ⟨w, rfl⟩ <;> exact hfree
  signal := by
    intro i k ret d x call d' ch hA h hk hq hgov
    cases hgov
  paid := by
    intro b ch hb hgov
    cases hgov

theorem queue_boot : queue.free {} := by
  refine ⟨⟨rfl, rfl, Nat.le_refl _, Nat.zero_le _, fun j hj hlen => ?_, List.prefix_refl _⟩, rfl⟩
  exact absurd hlen (Nat.not_lt_zero j)

/-- A pipe is a bounded queue, in every interleaving in which the user copies succeed: the
bytes that piperead has returned are the first of those that pipewrite has stored, in their
order, at most PIPESIZE bytes are in the buffer, also when the counters have wrapped around,
and piperead of at least one byte returns 0 only when the buffer is empty and the write end
closed. -/
theorem pipe_fifo {s : Machine Place Data} (h : Run Copies s) :
    s.data.shared.returned <+: s.data.shared.stored ∧
      s.data.shared.pipe.nwrite - s.data.shared.pipe.nread ≤ PIPESIZE ∧
      (s.data.shared.pipe.nwrite - s.data.shared.pipe.nread).toNat =
        s.data.shared.stored.length - s.data.shared.taken.length ∧
      ∀ p n, 0 < n → (s.threads p).pos = .op (.client (.read (.done n 0))) →
        s.data.shared.pipe.nread = s.data.shared.pipe.nwrite ∧
          s.data.shared.pipe.writeopen = false := by
  obtain ⟨-, hkept, -⟩ := h.kept queue_rules rfl queue_boot
  have hfifo : Fifo s.data.shared ∧ s.data.shared.returned <+: s.data.shared.taken := by
    apply hkept.always (P := fun d => Fifo d ∧ d.returned <+: d.taken)
    · intro k d hk hq
      change queued k d at hq
      unfold queued at hq
      split at hq
      · exact ⟨hq.1, hq.2.1 ▸ List.prefix_refl _⟩
      · exact ⟨hq.1, hq.2.1 ▸ List.prefix_refl _⟩
      · exact ⟨hq.1, hq.2 ▸ List.prefix_append _ _⟩
      · exact ⟨hq.1, hq.2.1 ▸ List.prefix_refl _⟩
      · exact ⟨hq.1, hq.2 ▸ List.prefix_refl _⟩
    · exact fun d hd => ⟨hd.1, hd.2 ▸ List.prefix_refl _⟩
  refine ⟨hfifo.2.trans hfifo.1.order, ?_, hfifo.1.sub_eq, fun p n hn hpos => ?_⟩
  · have hfits := hfifo.1.fits
    rw [UInt32.le_iff_toNat_le, hfifo.1.sub_eq]
    simp only [PIPESIZE, UInt32.reduceToNat]
    omega
  · have hat := hkept.asserts p
    rw [hpos] at hat
    exact (hat rfl).2.2 rfl hn

namespace FifoWitness

def copies (_ : Place) (_ : Int) (_ : Data) (x : Input) : Bool :=
  decide (x ≠ .copyin none ∧ x ≠ .copyout false)

theorem copies_sound (k : Place) (ret : Int) (d : Data) (x : Input)
    (h : copies k ret d x = true) : Copies k ret d x := by
  simpa [copies, Copies] using h

/-- The first process writes two bytes and reads one of them. -/
def written : Option (Machine Place Data) :=
  Transition.runAll (permits copies) (fun s => s.step client) (boot (.user 0) {})
    (steps 0 4 ++ [.step 0 (.write 2) true] ++ steps 0 5 ++
      [.step 0 (.copyin (some 7)) true] ++ steps 0 5 ++
      [.step 0 (.copyin (some 8)) true] ++ steps 0 193 ++ [.step 0 (.read 1) true] ++ steps 0 8)

theorem written_isSome : written.isSome = true := by decide +kernel

def after : Machine Place Data := written.get written_isSome

theorem after_run : Run Copies after :=
  Run.runAll copies_sound (Option.some_get written_isSome).symm

/-- In this run the first byte has been returned and the second is in the buffer. -/
theorem pipe_fifo_write : Run Copies after ∧ after.data.shared.stored = [7, 8] ∧
    after.data.shared.returned = [7] ∧
    after.data.shared.returned <+: after.data.shared.stored :=
  ⟨after_run, by decide +kernel, by decide +kernel, (pipe_fifo after_run).1⟩

end FifoWitness

end Xv6.Pipes
