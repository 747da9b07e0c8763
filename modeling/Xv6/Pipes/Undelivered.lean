/-
What a call of piperead takes from the pipe and what it delivers.  The byte whose copyout fails
has been taken before.
-/
import Xv6.Pipes.Code

namespace Xv6.Pipes

open Sched

/-- The number of bytes that a read has delivered where it is. -/
def Read.count : Read → Nat
  | .empty _ | .killed _ => 0
  | .loop _ i | .copy _ i _ | .done _ i => i

/-- A step of piperead inside its loop, where `ok i` is the result of copyout for byte `i` of
the buffer of the caller. -/
def readStep (ok : Nat → Bool) (x : Read × Shared) : Option (Read × Shared) :=
  match piperead 0 x.2 (.copyout (ok x.1.count)) x.1 with
  | some (.goto (.read r), d) => some (r, d)
  | some (.wakeup _ (.read r), d) => some (r, d)
  | _ => none

/-- The loop of piperead, for at most so many steps. -/
def readLoop (ok : Nat → Bool) : Nat → Read × Shared → Read × Shared
  | 0, x => x
  | fuel + 1, x =>
      match readStep ok x with
      | some x' => readLoop ok fuel x'
      | none => x

section steps

variable {ok : Nat → Bool} {n : Int} {i : Nat} {d : Shared} {ch : UInt8}

theorem readStep_stop (h : ¬ (i : Int) < n ∨ d.pipe.nread = d.pipe.nwrite) :
    readStep ok (.loop n i, d) = some (.done n i, d.refilled) := by
  by_cases hi : (i : Int) < n
  · have hempty := h.resolve_left (not_not_intro hi)
    simp [readStep, piperead, hi, hempty]
  · simp [readStep, piperead, hi]

theorem readStep_take (hi : (i : Int) < n) (hne : d.pipe.nread ≠ d.pipe.nwrite) :
    readStep ok (.loop n i, d) = some (.copy n i d.front, d.take) := by
  simp [readStep, piperead, hi, hne]

theorem readStep_copied (h : ok i = true) : readStep ok (.copy n i ch, d) =
    some (.loop n (i + 1), { d with returned := d.returned ++ [ch] }) := by
  simp [readStep, piperead, Read.count, h]

theorem readStep_failed (h : ok i = false) :
    readStep ok (.copy n i ch, d) = some (.done n i, d.refilled) := by
  simp [readStep, piperead, Read.count, h]

theorem readStep_done : readStep ok (.done n i, d) = none := by
  simp [readStep, piperead]

end steps

/-- The number of bytes in the pipe. -/
def Shared.unread (d : Shared) : Nat := (d.pipe.nwrite - d.pipe.nread).toNat

theorem unread_eq (d : Shared) :
    d.unread = (2 ^ 32 - d.pipe.nread.toNat + d.pipe.nwrite.toNat) % 2 ^ 32 :=
  UInt32.toNat_sub ..

theorem unread_take {d : Shared} (hne : d.pipe.nread ≠ d.pipe.nwrite) :
    d.take.unread + 1 = d.unread := by
  have hr := d.pipe.nread.toNat_lt
  have hw := d.pipe.nwrite.toNat_lt
  have hne' := mt UInt32.toNat_inj.mp hne
  simp only [unread_eq, Shared.take, UInt32.toNat_add, UInt32.reduceToNat]
  omega

/-- A read that takes `i` bytes out of the pipe leaves it empty exactly if these are all. -/
theorem nread_add_ne {d : Shared} {i : Nat} (hle : i ≤ d.unread) :
    d.pipe.nread + UInt32.ofNat i ≠ d.pipe.nwrite ↔ i < d.unread := by
  have hr := d.pipe.nread.toNat_lt
  have hw := d.pipe.nwrite.toNat_lt
  rw [unread_eq] at *
  rw [ne_eq, ← UInt32.toNat_inj, UInt32.toNat_add, UInt32.toNat_ofNat_of_lt' (by
    rw [UInt32.size]
    omega)]
  omega

/-- The end of a read that has delivered `i₀` bytes in `d`: the bytes up to `i` are delivered and
taken, and perhaps one more is taken, for which copyout has failed. -/
structure ReadEnds (ok : Nat → Bool) (n : Int) (d : Shared) (i₀ i : Nat) (d' : Shared) :
    Prop where
  ge : i₀ ≤ i
  le : i - i₀ ≤ d.unread
  delivered : ∀ j, i₀ ≤ j → j < i → ok j = true
  returned : d'.returned.length = d.returned.length + (i - i₀)
  result :
    (((i : Int) < n → d.pipe.nread + UInt32.ofNat (i - i₀) = d.pipe.nwrite) ∧
      d'.pipe.nread = d.pipe.nread + UInt32.ofNat (i - i₀)) ∨
    ((i : Int) < n ∧ d.pipe.nread + UInt32.ofNat (i - i₀) ≠ d.pipe.nwrite ∧ ok i = false ∧
      d'.pipe.nread = d.pipe.nread + UInt32.ofNat (i - i₀) + 1)

theorem ofNat_succ_sub {i i₀ : Nat} (h : i₀ + 1 ≤ i) :
    UInt32.ofNat (i - i₀) = 1 + UInt32.ofNat (i - (i₀ + 1)) := by
  rw [show i - i₀ = 1 + (i - (i₀ + 1)) by omega, UInt32.ofNat_add]
  rfl

section ends

variable {ok : Nat → Bool} {n : Int} {d d' : Shared} {i₀ i : Nat}

/-- Nothing is left to do. -/
theorem ReadEnds.stop (h : (i₀ : Int) < n → d.pipe.nread = d.pipe.nwrite) :
    ReadEnds ok n d i₀ i₀ d.refilled := by
  refine ⟨Nat.le_refl _, by omega, fun j hj hj' => by omega, by simp [Shared.refilled], .inl ?_⟩
  simpa [Shared.refilled] using h

/-- The byte that is taken cannot be copied. -/
theorem ReadEnds.fail (hi : (i₀ : Int) < n) (hne : d.pipe.nread ≠ d.pipe.nwrite)
    (hok : ok i₀ = false) : ReadEnds ok n d i₀ i₀ d.take.refilled := by
  refine ⟨Nat.le_refl _, by omega, fun j hj hj' => by omega,
    by simp [Shared.take, Shared.refilled], .inr ?_⟩
  simp [Shared.take, Shared.refilled, hi, hne, hok]

/-- A byte is delivered before the others. -/
theorem ReadEnds.next (hok : ok i₀ = true) (hne : d.pipe.nread ≠ d.pipe.nwrite)
    (h : ReadEnds ok n { d.take with returned := d.take.returned ++ [d.front] } (i₀ + 1) i d') :
    ReadEnds ok n d i₀ i d' := by
  have hge := h.ge
  have hres := h.result
  have hret := h.returned
  have hle : i - (i₀ + 1) ≤ d.take.unread := h.le
  have hunread := unread_take hne
  simp only [Shared.take, List.length_append, List.length_singleton] at hres hret
  refine ⟨by omega, by omega, fun j hj hji => ?_, by omega, ?_⟩
  · by_cases hj₀ : j = i₀
    · rw [hj₀, hok]
    · exact h.delivered j (by omega) hji
  · rw [ofNat_succ_sub hge, ← UInt32.add_assoc]
    exact hres

end ends

/-- The loop returns on every pipe and every buffer. -/
theorem readLoop_ends (ok : Nat → Bool) (n : Int) (k i₀ fuel : Nat)
    (hk : n ≤ i₀ + k) (hfuel : 2 * k + 2 ≤ fuel) (d : Shared) :
    ∃ i d', readLoop ok fuel (.loop n i₀, d) = (.done n i, d') ∧ ReadEnds ok n d i₀ i d' := by
  induction k generalizing i₀ fuel d with
  | zero =>
      obtain ⟨fuel, rfl⟩ : ∃ m, fuel = m + 2 := ⟨fuel - 2, by omega⟩
      have hstop : ¬ (i₀ : Int) < n := by omega
      refine ⟨i₀, d.refilled, ?_, .stop fun hi => absurd hi hstop⟩
      simp only [readLoop, readStep_stop (.inl hstop), readStep_done]
  | succ k ih =>
      obtain ⟨fuel, rfl⟩ : ∃ m, fuel = m + 3 := ⟨fuel - 3, by omega⟩
      by_cases hgo : (i₀ : Int) < n ∧ d.pipe.nread ≠ d.pipe.nwrite
      · obtain ⟨hi, hne⟩ := hgo
        cases hok : ok i₀ with
        | true =>
            obtain ⟨i, d', hloop, hend⟩ := ih (i₀ + 1) (fuel + 1) (by omega) (by omega)
              { d.take with returned := d.take.returned ++ [d.front] }
            refine ⟨i, d', ?_, hend.next hok hne⟩
            rw [readLoop, readStep_take hi hne]
            simp only
            rw [readLoop, readStep_copied hok]
            exact hloop
        | false =>
            refine ⟨i₀, d.take.refilled, ?_, .fail hi hne hok⟩
            rw [readLoop, readStep_take hi hne]
            simp only
            rw [readLoop, readStep_failed hok]
            simp only
            rw [readLoop, readStep_done]
      · have hempty : (i₀ : Int) < n → d.pipe.nread = d.pipe.nwrite := fun hi =>
          not_not.mp fun hne => hgo ⟨hi, hne⟩
        have hstop : ¬ (i₀ : Int) < n ∨ d.pipe.nread = d.pipe.nwrite :=
          (Decidable.em _).elim (fun hi => .inr (hempty hi)) .inl
        refine ⟨i₀, d.refilled, ?_, .stop hempty⟩
        simp only [readLoop, readStep_stop hstop, readStep_done]

/-- The lock of the pipe, without a condition on the pipe. -/
def exclusive : Monitor Place Shared where
  lk := pipeLock
  guards := guards
  free _ := True
  holds _ _ := True
  governs _ := false
  cond _ _ := True
  owes _ _ := False

theorem exclusive_rules : exclusive.Rules Data.shared client fun _ _ _ _ => True where
  respects _ h := client_respects exclusive rfl rfl (fun _ hgov => by cases hgov) h
  outside _ h hk := (client_outside h hk).1
  inside := by
    intro i k ret d x call d' _ _ _ _
    cases call with
    | release n k' =>
        rw [Call.After]
        split <;> trivial
    | sleep ch n k' => exact ⟨trivial, trivial, fun _ _ => trivial⟩
    | _ => trivial
  enter _ _ _ := trivial
  signal _ _ _ _ hgov := by cases hgov
  paid _ hgov := by cases hgov

/-- While a process is in piperead, the pipe changes only in its own steps. -/
theorem reader_alone {s s' : Machine Place Data} (h : Run (fun _ _ _ _ => True) s) {p : Nat}
    {r : Read} (hpos : (s.threads p).pos = .op (.client (.read r))) {a : Action Input}
    (hstep : s.step client a = some (.ok s')) :
    s'.data.shared = s.data.shared ∨ ∃ x call,
      piperead (s.threads p).ret s.data.shared x r = some (call, s'.data.shared) := by
  obtain ⟨⟨hs, -⟩, hkept, -⟩ := h.kept exclusive_rules rfl trivial
  have hobeys : Obeys (fun _ _ _ _ => True) s a := by
    cases a with
    | step c x ok => exact fun _ _ _ _ _ => trivial
    | timer c => trivial
  refine (exclusive_rules.data_step hobeys hstep).imp_right ?_
  rintro ⟨i, k, x, call, hi, hk, -, hcall, -⟩
  have hin : ∀ {q k}, (s.threads q).pos = .op (.client k) → guards k = true →
      (s.threads q).pos.inside exclusive = true := by
    intro q k hq hk
    rw [hq]
    exact hk
  obtain rfl := hkept.unique hs (hin hi hk) (hin hpos rfl)
  rw [hpos] at hi
  cases hi
  exact ⟨x, call, client_inside hcall rfl⟩

/-- A read that returns `i` has delivered `i` bytes.  It has taken exactly these from the pipe
if and only if every byte that it asks for and the pipe has can be copied out: the first one that
cannot is lost.  Nobody else changes the pipe in the meantime. -/
theorem piperead_takes_iff (ok : Nat → Bool) (n : Int) (d : Shared) :
    (∃ i d', readLoop ok (2 * n.toNat + 2) (.loop n 0, d) = (.done n i, d') ∧
      (∀ j < i, ok j = true) ∧ d'.returned.length = d.returned.length + i ∧
      (d'.pipe.nread = d.pipe.nread + UInt32.ofNat i ↔
        ∀ j : Nat, (j : Int) < n → j < (d.pipe.nwrite - d.pipe.nread).toNat → ok j = true)) ∧
    ∀ s s' : Machine Place Data, Run (fun _ _ _ _ => True) s → ∀ p r a,
      (s.threads p).pos = .op (.client (.read r)) → s.step client a = some (.ok s') →
      s'.data.shared = s.data.shared ∨ ∃ x call,
        piperead (s.threads p).ret s.data.shared x r = some (call, s'.data.shared) := by
  refine ⟨?_, fun s s' h p r a hpos hstep => reader_alone h hpos hstep⟩
  obtain ⟨i, d', hloop, hend⟩ :=
    readLoop_ends ok n n.toNat 0 (2 * n.toNat + 2) (by omega) (Nat.le_refl _) d
  have hres := hend.result
  have hret := hend.returned
  have hle := hend.le
  rw [Nat.sub_zero] at hres hret hle
  have hdelivered : ∀ j < i, ok j = true := fun j hj => hend.delivered j (Nat.zero_le j) hj
  refine ⟨i, d', hloop, hdelivered, hret, ?_⟩
  rcases hres with ⟨hempty, hread⟩ | ⟨hi, hne, hfail, hread⟩
  · refine iff_of_true hread fun j hjn hj => hdelivered j (lt_of_not_ge fun hij => ?_)
    exact (nread_add_ne hle).mpr (lt_of_le_of_lt hij hj) (hempty (by omega))
  · refine iff_of_false (fun heq => ?_) fun hall => ?_
    · rw [hread] at heq
      exact absurd (UInt32.add_eq_left.mp heq) (by decide)
    · exact absurd (hall i hi ((nread_add_ne hle).mp hne)) (by simp [hfail])

namespace UndeliveredWitness

/-- A pipe with one byte. -/
def one : Shared := Shared.store {} 7

/-- The buffer of the caller is not mapped: the read returns 0, and the byte is gone. -/
theorem piperead_loses_byte : ∃ d', readLoop (fun _ => false) 4 (.loop 1 0, one) =
    (.done 1 0, d') ∧ d'.returned = [] ∧ one.pipe.nread = 0 ∧ d'.pipe.nread = 1 ∧
      d'.pipe.nread = d'.pipe.nwrite :=
  ⟨one.take.refilled, rfl, rfl, rfl, rfl, rfl⟩

end UndeliveredWitness

end Xv6.Pipes
