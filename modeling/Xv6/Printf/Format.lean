/-
`printf` of kernel/printf.c and `vprintf` of user/printf.c.  The kernel reads ahead
behind a `%`, the user library keeps a state between two characters; on formats made of
the known directives both print piece by piece, and differ in the numbers only.
-/
import Xv6.Printf.Printint

namespace Xv6.Printf

inductive Directive
  | d | ld | lld | u | lu | llu | x | lx | llx | p | s | percent
deriving DecidableEq, Repr

def percentSign : UInt8 := 37

/-- What stands behind the `%`. -/
def Directive.text : Directive → Str
  | .d => [100]
  | .ld => [108, 100]
  | .lld => [108, 108, 100]
  | .u => [117]
  | .lu => [108, 117]
  | .llu => [108, 108, 117]
  | .x => [120]
  | .lx => [108, 120]
  | .llx => [108, 108, 120]
  | .p => [112]
  | .s => [115]
  | .percent => [37]

/-- The tests on `c0`, `c1` and `c2`, in the order of the source, which is the same in
both files; the number is what is added to `i`. -/
def directive (c0 c1 c2 : UInt8) : Option (Directive × Nat) :=
  if c0 = 100 then some (.d, 0)
  else if c0 = 108 ∧ c1 = 100 then some (.ld, 1)
  else if c0 = 108 ∧ c1 = 108 ∧ c2 = 100 then some (.lld, 2)
  else if c0 = 117 then some (.u, 0)
  else if c0 = 108 ∧ c1 = 117 then some (.lu, 1)
  else if c0 = 108 ∧ c1 = 108 ∧ c2 = 117 then some (.llu, 2)
  else if c0 = 120 then some (.x, 0)
  else if c0 = 108 ∧ c1 = 120 then some (.lx, 1)
  else if c0 = 108 ∧ c1 = 108 ∧ c2 = 120 then some (.llx, 2)
  else if c0 = 112 then some (.p, 0)
  else if c0 = 115 then some (.s, 0)
  else if c0 = 37 then some (.percent, 0)
  else none

/-- `digits[x >> 60]` and `x <<= 4`, over and over. -/
def ptrDigits (digit : Nat → UInt8) : Nat → BitVec 64 → Str
  | 0, _ => []
  | n + 1, x => digit (x >>> 60).toNat :: ptrDigits digit n (x <<< 4)

def Kernel.printptr (x : BitVec 64) : Str := [48, 120] ++ ptrDigits Kernel.digit 16 x

def User.printptr (x : BitVec 64) : Str := [48, 120] ++ ptrDigits User.digit 16 x

/-- "(null)" -/
def null : Str := [40, 110, 117, 108, 108, 41]

/-- The string that is printed for a pointer; `strings` are the strings in memory. -/
def printstr (strings : BitVec 64 → Str) (s : BitVec 64) : Str := if s = 0 then null else strings s

/-- `va_arg(ap, int)`: an argument takes 64 bits, of which an int is the lower half. -/
def vaInt (arg : BitVec 64) : BitVec 32 := arg.setWidth 32

/-- What the kernel prints for an argument.  An int becomes a long long. -/
def Kernel.convert (strings : BitVec 64 → Str) : Directive → BitVec 64 → Except Fault Str
  | .d, arg => Kernel.printint ((vaInt arg).signExtend 64) 10 true
  | .ld, arg => Kernel.printint arg 10 true
  | .lld, arg => Kernel.printint arg 10 true
  | .u, arg => Kernel.printint ((vaInt arg).signExtend 64) 10 false
  | .lu, arg => Kernel.printint arg 10 false
  | .llu, arg => Kernel.printint arg 10 false
  | .x, arg => Kernel.printint ((vaInt arg).signExtend 64) 16 false
  | .lx, arg => Kernel.printint arg 16 false
  | .llx, arg => Kernel.printint arg 16 false
  | .p, arg => .ok (Kernel.printptr arg)
  | .s, arg => .ok (printstr strings arg)
  | .percent, _ => .ok [percentSign]

/-- What the user library prints for an argument.  A uint64 becomes an int. -/
def User.convert (strings : BitVec 64 → Str) : Directive → BitVec 64 → Except Fault Str
  | .d, arg => User.printint (vaInt arg) 10 true
  | .ld, arg => User.printint (arg.setWidth 32) 10 true
  | .lld, arg => User.printint (arg.setWidth 32) 10 true
  | .u, arg => User.printint (vaInt arg) 10 false
  | .lu, arg => User.printint (arg.setWidth 32) 10 false
  | .llu, arg => User.printint (arg.setWidth 32) 10 false
  | .x, arg => User.printint (vaInt arg) 16 false
  | .lx, arg => User.printint (arg.setWidth 32) 16 false
  | .llx, arg => User.printint (arg.setWidth 32) 16 false
  | .p, arg => .ok (User.printptr arg)
  | .s, arg => .ok (printstr strings arg)
  | .percent, _ => .ok [percentSign]

abbrev Convert := Directive → BitVec 64 → Except Fault Str

/-- A directive takes the next argument, `%%` none. -/
def emit (convert : Convert) (dir : Directive) (args : List (BitVec 64)) :
    Except Fault (Str × List (BitVec 64)) :=
  if dir = .percent then .ok ([percentSign], args)
  else
    match args with
    | [] => .error .arguments
    | arg :: args => (convert dir arg).map (·, args)

/-- The loop of `printf` in the kernel, from `fmt[i]` on. -/
def Kernel.printf (strings : BitVec 64 → Str) (fmt : Str) (args : List (BitVec 64)) :
    Except Fault Str :=
  match fmt with
  | [] => .ok []
  | cx :: fmt =>
      if cx ≠ percentSign then (Kernel.printf strings fmt args).map (cx :: ·)
      else
        match fmt with
        | [] => .ok []
        | c0 :: fmt =>
            match directive c0 (fmt.getD 0 0) (fmt.getD 1 0) with
            | some (dir, n) =>
                match emit (Kernel.convert strings) dir args with
                | .error e => .error e
                | .ok (out, args) => (Kernel.printf strings (fmt.drop n) args).map (out ++ ·)
            | none => (Kernel.printf strings fmt args).map ([percentSign, c0] ++ ·)
termination_by fmt.length
decreasing_by all_goals simp +arith

/-- The loop of `vprintf`, from `fmt[i]` on; `state` is set behind a `%`. -/
def User.vprintf (strings : BitVec 64 → Str) (state : Bool) (fmt : Str)
    (args : List (BitVec 64)) : Except Fault Str :=
  match fmt with
  | [] => .ok []
  | c0 :: fmt =>
      if state = false then
        if c0 = percentSign then User.vprintf strings true fmt args
        else (User.vprintf strings false fmt args).map (c0 :: ·)
      else
        match directive c0 (fmt.getD 0 0) (fmt.getD 1 0) with
        | some (dir, n) =>
            match emit (User.convert strings) dir args with
            | .error e => .error e
            | .ok (out, args) => (User.vprintf strings false (fmt.drop n) args).map (out ++ ·)
        | none => (User.vprintf strings false fmt args).map ([percentSign, c0] ++ ·)
termination_by fmt.length
decreasing_by all_goals simp +arith

/-- A character of a format that stands for itself, or a directive. -/
inductive Piece
  | lit (c : UInt8)
  | conv (dir : Directive)
deriving DecidableEq, Repr

def Piece.text : Piece → Str
  | .lit c => [c]
  | .conv dir => percentSign :: dir.text

/-- The format that pieces make up. -/
def format (ps : List Piece) : Str := ps.flatMap Piece.text

/-- A literal character is no `%`, and does not end the string. -/
def Piece.Ok : Piece → Prop
  | .lit c => c ≠ percentSign ∧ c ≠ 0
  | .conv _ => True

def Piece.emit (convert : Convert) : Piece → List (BitVec 64) →
    Except Fault (Str × List (BitVec 64))
  | .lit c, args => .ok ([c], args)
  | .conv dir, args => Printf.emit convert dir args

/-- The output of a sequence of pieces. -/
def output (convert : Convert) : List Piece → List (BitVec 64) → Except Fault Str
  | [], _ => .ok []
  | p :: ps, args =>
      match p.emit convert args with
      | .error e => .error e
      | .ok (out, args) => (output convert ps args).map (out ++ ·)

theorem directive_text (dir : Directive) (rest : Str) :
    ∃ c0 more, dir.text = c0 :: more ∧
      directive c0 ((more ++ rest).getD 0 0) ((more ++ rest).getD 1 0) =
        some (dir, more.length) := by
  cases dir <;> exact ⟨_, _, rfl, rfl⟩

/-- A loop that prints a character as itself and a directive with `convert` prints the
pieces of a format in turn. -/
theorem eq_output {run : Str → List (BitVec 64) → Except Fault Str} {convert : Convert}
    (hnil : ∀ args, run [] args = .ok [])
    (hlit : ∀ c fmt args, c ≠ percentSign → run (c :: fmt) args = (run fmt args).map (c :: ·))
    (hconv : ∀ c0 fmt dir n args, directive c0 (fmt.getD 0 0) (fmt.getD 1 0) = some (dir, n) →
      run (percentSign :: c0 :: fmt) args =
        (emit convert dir args).bind fun r => (run (fmt.drop n) r.2).map (r.1 ++ ·))
    {ps : List Piece} (hok : ∀ p ∈ ps, p.Ok) (args : List (BitVec 64)) :
    run (format ps) args = output convert ps args := by
  induction ps generalizing args with
  | nil => exact hnil args
  | cons p ps ih =>
      have ih' := ih fun p' hp' => hok p' (List.mem_cons_of_mem p hp')
      have htext : format (p :: ps) = p.text ++ format ps := by simp [format]
      rw [htext, output]
      cases p with
      | lit c =>
          have hc : c ≠ percentSign := (hok (.lit c) List.mem_cons_self).1
          rw [Piece.text, List.singleton_append, hlit c _ _ hc, ih']
          rfl
      | conv dir =>
          obtain ⟨c0, more, htext, hdir⟩ := directive_text dir (format ps)
          rw [Piece.text, htext, List.cons_append, List.cons_append, hconv c0 _ dir _ args hdir,
            Piece.emit]
          cases emit convert dir args with
          | error e => rfl
          | ok r => simp only [Except.bind, List.drop_left, ih']

theorem Kernel.printf_format (strings : BitVec 64 → Str) {ps : List Piece}
    (hok : ∀ p ∈ ps, p.Ok) (args : List (BitVec 64)) :
    Kernel.printf strings (format ps) args = output (Kernel.convert strings) ps args := by
  refine eq_output (fun args => by rw [Kernel.printf]) (fun c fmt args hc => ?_)
    (fun c0 fmt dir n args hdir => ?_) hok args
  · rw [Kernel.printf.eq_def]
    simp only [if_pos hc]
  · rw [Kernel.printf, if_neg (by simp), hdir]
    dsimp only
    cases emit (Kernel.convert strings) dir args <;> rfl

theorem User.vprintf_format (strings : BitVec 64 → Str) {ps : List Piece}
    (hok : ∀ p ∈ ps, p.Ok) (args : List (BitVec 64)) :
    User.vprintf strings false (format ps) args = output (User.convert strings) ps args := by
  refine eq_output (fun args => by rw [User.vprintf]) (fun c fmt args hc => ?_)
    (fun c0 fmt dir n args hdir => ?_) hok args
  · rw [User.vprintf, if_pos rfl, if_neg hc]
  · rw [User.vprintf, if_pos rfl, if_pos rfl, User.vprintf, if_neg (by simp), hdir]
    dsimp only
    cases emit (User.convert strings) dir args <;> rfl

/-- Digits above 9 in lower case. -/
def lower (c : UInt8) : UInt8 := if 65 ≤ c ∧ c ≤ 70 then c + 32 else c

theorem lower_kernel {i : Nat} (hi : i < 16) : lower (Kernel.digit i) = Kernel.digit i := by
  interval_cases i <;> rfl

theorem lower_user {i : Nat} (hi : i < 16) : lower (User.digit i) = Kernel.digit i := by
  interval_cases i <;> rfl

section numbers

variable {base : Nat}

theorem map_lower_numeral {digit : Nat → UInt8} (hdigit : ∀ i < 16, lower (digit i) =
    Kernel.digit i) (hbase : 1 < base) (hle : base ≤ 16) (v : Int) :
    (numeral digit base v).map lower = numeral Kernel.digit base v := by
  have hdigits : ((Numeral.digits base v.natAbs).map digit).map lower =
      (Numeral.digits base v.natAbs).map Kernel.digit := by
    rw [List.map_map]
    refine List.map_congr_left fun d hd => hdigit d ?_
    have := Numeral.lt_of_mem_digits hbase hd
    omega
  rw [numeral, List.map_append, hdigits, numeral]
  congr 1
  split <;> rfl

/-- The digit that a character stands for. -/
def digitValue (c : UInt8) : Nat := Kernel.digits.idxOf c

theorem digitValue_digit {i : Nat} (hi : i < 16) : digitValue (Kernel.digit i) = i := by
  interval_cases i <;> rfl

theorem digit_ne_minus {i : Nat} (hi : i < 16) : Kernel.digit i ≠ minus := by
  interval_cases i <;> decide

theorem map_digitValue (hbase : 1 < base) (hle : base ≤ 16) (n : Nat) :
    ((Numeral.digits base n).map Kernel.digit).map digitValue = Numeral.digits base n := by
  rw [List.map_map]
  conv_rhs => rw [← List.map_id (Numeral.digits base n)]
  refine List.map_congr_left fun d hd => digitValue_digit ?_
  have := Numeral.lt_of_mem_digits hbase hd
  omega

/-- Different numbers have different numerals. -/
theorem numeral_injective (hbase : 1 < base) (hle : base ≤ 16) :
    Function.Injective (numeral Kernel.digit base) := by
  have hnat : ∀ m n, (Numeral.digits base m).map Kernel.digit =
      (Numeral.digits base n).map Kernel.digit → m = n := fun m n h => by
    have hds := congrArg (List.map digitValue) h
    rw [map_digitValue hbase hle, map_digitValue hbase hle] at hds
    exact Numeral.digits_injective base hds
  have hminus : ∀ m t, (Numeral.digits base m).map Kernel.digit ≠ minus :: t := fun m t h => by
    have hmem : minus ∈ (Numeral.digits base m).map Kernel.digit := h ▸ List.mem_cons_self
    obtain ⟨d, hd, heq⟩ := List.mem_map.mp hmem
    have := Numeral.lt_of_mem_digits hbase hd
    exact digit_ne_minus (by omega) heq
  intro v v' h
  by_cases hv : v < 0 <;> by_cases hv' : v' < 0
  · simp only [numeral, hv, hv', if_true, List.singleton_append, List.cons.injEq, true_and] at h
    have := hnat _ _ h
    omega
  · simp only [numeral, hv, hv', if_true, if_false, List.singleton_append, List.nil_append] at h
    exact absurd h.symm (hminus _ _)
  · simp only [numeral, hv, hv', if_true, if_false, List.singleton_append, List.nil_append] at h
    exact absurd h (hminus _ _)
  · simp only [numeral, hv, hv', if_false, List.nil_append] at h
    have := hnat _ _ h
    omega

/-- The characters of a text other than `-`. -/
def solid (s : Str) : Nat := s.countP (· != minus)

theorem solid_append (s t : Str) : solid (s ++ t) = solid s + solid t := List.countP_append

theorem digit_mem_ne_minus (hbase : 1 < base) (hle : base ≤ 16) {n : Nat} {c : UInt8}
    (hc : c ∈ (Numeral.digits base n).map Kernel.digit) : c ≠ minus := by
  obtain ⟨d, hd, rfl⟩ := List.mem_map.mp hc
  have := Numeral.lt_of_mem_digits hbase hd
  exact digit_ne_minus (by omega)

theorem solid_numeral (hbase : 1 < base) (hle : base ≤ 16) (v : Int) :
    solid (numeral Kernel.digit base v) = (Numeral.digits base v.natAbs).length := by
  have hdigits : solid ((Numeral.digits base v.natAbs).map Kernel.digit) =
      (Numeral.digits base v.natAbs).length := by
    rw [solid, List.countP_eq_length.mpr, List.length_map]
    intro c hc
    simpa using digit_mem_ne_minus hbase hle hc
  rw [numeral, solid_append, hdigits]
  split <;> simp [solid]

/-- The characters that the numeral of `v` has more than its digits. -/
theorem length_numeral (digit : Nat → UInt8) (v : Int) : (numeral digit base v).length =
    (if v < 0 then 1 else 0) + (Numeral.digits base v.natAbs).length := by
  rw [numeral, List.length_append, List.length_map]
  split <;> rfl

/-- A text starts with the `-` of a numeral, or with its first digit. -/
theorem head_numeral (hbase : 1 < base) (hle : base ≤ 16) (v : Int) (r : Str) :
    (numeral Kernel.digit base v ++ r).head? = some minus ↔ v < 0 := by
  by_cases hv : v < 0
  · simp [numeral, hv]
  · obtain ⟨d, ds, hds⟩ := List.exists_cons_of_ne_nil
      (Numeral.shortest_digits hbase v.natAbs).ne_nil
    have hmem : Kernel.digit d ∈ (Numeral.digits base v.natAbs).map Kernel.digit := by
      rw [hds]
      exact List.mem_map_of_mem List.mem_cons_self
    have hne := digit_mem_ne_minus hbase hle hmem
    simp [numeral, hv, hds, hne]

/-- Two outputs of one piece: the same text, or the numerals of two numbers of which the
first is not the closer one to 0. -/
def Covers (out out' : Str) : Prop :=
  out = out' ∨ ∃ base v v', 1 < base ∧ base ≤ 16 ∧ v'.natAbs ≤ v.natAbs ∧
    out = numeral Kernel.digit base v ∧ out' = numeral Kernel.digit base v'

theorem Covers.solid_le {out out' : Str} (h : Covers out out') : solid out' ≤ solid out := by
  obtain rfl | ⟨base, v, v', hbase, hle, habs, rfl, rfl⟩ := h
  · exact Nat.le_refl _
  · rw [solid_numeral hbase hle, solid_numeral hbase hle]
    exact Numeral.length_digits_mono hbase habs

/-- If two texts agree, and the second one has not more behind the piece, then the two
outputs of the piece are the same. -/
theorem Covers.eq_of_append {out out' r r' : Str} (h : Covers out out')
    (happ : out ++ r = out' ++ r') (hr : solid r' ≤ solid r) : out = out' := by
  obtain rfl | ⟨base, v, v', hbase, hle, habs, rfl, rfl⟩ := id h
  · rfl
  · have hsum := congrArg solid happ
    rw [solid_append, solid_append, solid_numeral hbase hle, solid_numeral hbase hle] at hsum
    have hmono := Numeral.length_digits_mono hbase habs
    have hsign : v < 0 ↔ v' < 0 := by
      rw [← head_numeral hbase hle v r, happ, head_numeral hbase hle]
    -- As many digits and the same sign: the two numerals are equally long.
    have hlen : (numeral Kernel.digit base v).length = (numeral Kernel.digit base v').length := by
      rw [length_numeral, length_numeral, if_congr hsign rfl rfl]
      omega
    exact List.append_inj_left happ hlen

/-- Two numbers are printed in the same way exactly when they are the same. -/
theorem printNumber_agree {w w' : Nat} {xx : BitVec w} {yy : BitVec w'} {sign : Bool}
    {out out' : Str} (hbase : 1 < base) (hle : base ≤ 16)
    (hk : printNumber Kernel.digit xx base sign = .ok out)
    (hu : printNumber User.digit yy base sign = .ok out') :
    out.map lower = out'.map lower ↔ value xx sign = value yy sign := by
  rw [printNumber_eq hbase] at hk hu
  split at hk <;> cases hk
  split at hu <;> cases hu
  rw [map_lower_numeral (fun _ => lower_kernel) hbase hle,
    map_lower_numeral (fun _ => lower_user) hbase hle]
  exact (numeral_injective hbase hle).eq_iff

theorem printNumber_covers {w w' : Nat} {xx : BitVec w} {yy : BitVec w'} {sign : Bool}
    {out out' : Str} (hbase : 1 < base) (hle : base ≤ 16)
    (habs : (value yy sign).natAbs ≤ (value xx sign).natAbs)
    (hk : printNumber Kernel.digit xx base sign = .ok out)
    (hu : printNumber User.digit yy base sign = .ok out') :
    Covers (out.map lower) (out'.map lower) := by
  rw [printNumber_eq hbase] at hk hu
  split at hk <;> cases hk
  split at hu <;> cases hu
  exact .inr ⟨base, _, _, hbase, hle, habs,
    map_lower_numeral (fun _ => lower_kernel) hbase hle _,
    map_lower_numeral (fun _ => lower_user) hbase hle _⟩

end numbers

theorem shiftRight_lt (x : BitVec 64) : (x >>> 60).toNat < 16 := by
  have hlt : x.toNat < 2 ^ 60 * 16 := x.isLt
  rw [BitVec.toNat_ushiftRight, Nat.shiftRight_eq_div_pow]
  exact Nat.div_lt_of_lt_mul hlt

theorem map_lower_ptrDigits (n : Nat) (x : BitVec 64) :
    (ptrDigits Kernel.digit n x).map lower = (ptrDigits User.digit n x).map lower := by
  induction n generalizing x with
  | zero => rw [ptrDigits, ptrDigits]
  | succ n ih =>
      have hlt := shiftRight_lt x
      rw [ptrDigits, ptrDigits, List.map_cons, List.map_cons, lower_kernel hlt, lower_user hlt, ih]

/-- The arguments that both print as the same number: those of `%ld` that are ints, those
of `%u` and `%x` that are not negative ints, and those of `%lu` and `%lx` that are uints. -/
def Directive.Fits : Directive → BitVec 64 → Prop
  | .ld, arg => -2 ^ 31 ≤ arg.toInt ∧ arg.toInt < 2 ^ 31
  | .lld, arg => -2 ^ 31 ≤ arg.toInt ∧ arg.toInt < 2 ^ 31
  | .u, arg => 0 ≤ (vaInt arg).toInt
  | .x, arg => 0 ≤ (vaInt arg).toInt
  | .lu, arg => arg.toNat < 2 ^ 32
  | .llu, arg => arg.toNat < 2 ^ 32
  | .lx, arg => arg.toNat < 2 ^ 32
  | .llx, arg => arg.toNat < 2 ^ 32
  | .d, _ => True
  | .p, _ => True
  | .s, _ => True
  | .percent, _ => True

theorem value_long (arg : BitVec 64) :
    value arg true = value (arg.setWidth 32) true ↔ -2 ^ 31 ≤ arg.toInt ∧ arg.toInt < 2 ^ 31 := by
  have hlt := arg.isLt
  simp only [value, if_true, BitVec.toInt_eq_toNat_cond, BitVec.toNat_setWidth]
  split <;> split <;> omega

theorem value_ulong (arg : BitVec 64) :
    value arg false = value (arg.setWidth 32) false ↔ arg.toNat < 2 ^ 32 := by
  simp only [value, Bool.false_eq_true, if_false, BitVec.toNat_setWidth]
  omega

theorem value_int (x : BitVec 32) : value (x.signExtend 64) true = value x true := by
  simp only [value, if_true]
  exact BitVec.toInt_signExtend_of_le (by decide)

theorem value_uint (x : BitVec 32) :
    value (x.signExtend 64) false = value x false ↔ 0 ≤ x.toInt := by
  have hlt := x.isLt
  simp only [value, Bool.false_eq_true, if_false, BitVec.toInt_eq_msb_cond,
    BitVec.toNat_signExtend, BitVec.toNat_setWidth]
  cases x.msb with
  | false =>
      simp only [Bool.false_eq_true, if_false]
      omega
  | true =>
      simp only [if_true]
      omega

/-- The two print the same for an argument if and only if it fits. -/
theorem convert_agree (strings : BitVec 64 → Str) {dir : Directive} {arg : BitVec 64}
    {out out' : Str} (hk : Kernel.convert strings dir arg = .ok out)
    (hu : User.convert strings dir arg = .ok out') :
    out.map lower = out'.map lower ↔ dir.Fits arg := by
  cases dir with
  | d =>
      rw [printNumber_agree (by decide) (by decide) hk hu, value_int, vaInt]
      simp [Directive.Fits]
  | ld | lld =>
      rw [printNumber_agree (by decide) (by decide) hk hu, value_long]
      rfl
  | u | x =>
      rw [printNumber_agree (by decide) (by decide) hk hu, value_uint]
      rfl
  | lu | llu | lx | llx =>
      rw [printNumber_agree (by decide) (by decide) hk hu, value_ulong]
      rfl
  | p =>
      cases hk
      cases hu
      simp [Directive.Fits, Kernel.printptr, User.printptr, map_lower_ptrDigits]
  | s | percent =>
      cases hk
      cases hu
      simp [Directive.Fits]

/-- The number of the user library is the one of the kernel, or closer to 0. -/
theorem convert_covers (strings : BitVec 64 → Str) {dir : Directive} {arg : BitVec 64}
    {out out' : Str} (hk : Kernel.convert strings dir arg = .ok out)
    (hu : User.convert strings dir arg = .ok out') :
    Covers (out.map lower) (out'.map lower) := by
  cases dir with
  | d =>
      refine printNumber_covers (by decide) (by decide) ?_ hk hu
      rw [value_int]
  | ld | lld =>
      refine printNumber_covers (by decide) (by decide) ?_ hk hu
      have hlt := arg.isLt
      simp only [value, if_true, BitVec.toInt_eq_toNat_cond, BitVec.toNat_setWidth]
      split <;> split <;> omega
  | u | x =>
      refine printNumber_covers (by decide) (by decide) ?_ hk hu
      have hlt := (vaInt arg).isLt
      simp only [value, Bool.false_eq_true, if_false, BitVec.toNat_signExtend,
        BitVec.toNat_setWidth]
      omega
  | lu | llu | lx | llx =>
      refine printNumber_covers (by decide) (by decide) ?_ hk hu
      simp only [value, Bool.false_eq_true, if_false, BitVec.toNat_setWidth]
      omega
  | p =>
      cases hk
      cases hu
      exact .inl (by simp [Kernel.printptr, User.printptr, map_lower_ptrDigits])
  | s | percent =>
      cases hk
      cases hu
      exact .inl rfl

/-- A number that is also one of 32 bits leaves room in the buffer. -/
theorem printNumber_ok {w base : Nat} (digit : Nat → UInt8) {xx : BitVec w} {yy : BitVec 32}
    {sign : Bool} (hbase : base = 10 ∨ base = 16) (h : value xx sign = value yy sign) :
    ∃ out, printNumber digit xx base sign = .ok out := by
  have hlt := yy.isLt
  have hlow : -2 ^ 31 ≤ value yy sign ∧ value yy sign < 2 ^ 32 := by
    unfold value
    rw [BitVec.toInt_eq_toNat_cond]
    split
    · split <;> omega
    · omega
  have hfits : (numeral digit base (value xx sign)).length ≤ bufSize := by
    rw [h, length_numeral_le_iff digit (by omega)]
    rcases hbase with rfl | rfl <;> omega
  rw [printNumber_eq (by omega), if_pos hfits]
  exact ⟨_, rfl⟩

theorem User.convert_ok (strings : BitVec 64 → Str) (dir : Directive) (arg : BitVec 64) :
    ∃ out, User.convert strings dir arg = .ok out := by
  cases dir with
  | d | ld | lld | u | lu | llu => exact printNumber_ok User.digit (.inl rfl) rfl
  | x | lx | llx => exact printNumber_ok User.digit (.inr rfl) rfl
  | p | s | percent => exact ⟨_, rfl⟩

theorem Kernel.convert_ok (strings : BitVec 64 → Str) {dir : Directive} {arg : BitVec 64}
    (h : dir.Fits arg) : ∃ out, Kernel.convert strings dir arg = .ok out := by
  cases dir with
  | d => exact printNumber_ok Kernel.digit (.inl rfl) (value_int (vaInt arg))
  | ld | lld => exact printNumber_ok Kernel.digit (.inl rfl) ((value_long arg).mpr h)
  | u => exact printNumber_ok Kernel.digit (.inl rfl) ((value_uint (vaInt arg)).mpr h)
  | x => exact printNumber_ok Kernel.digit (.inr rfl) ((value_uint (vaInt arg)).mpr h)
  | lu | llu => exact printNumber_ok Kernel.digit (.inl rfl) ((value_ulong arg).mpr h)
  | lx | llx => exact printNumber_ok Kernel.digit (.inr rfl) ((value_ulong arg).mpr h)
  | p | s | percent => exact ⟨_, rfl⟩

/-- There is an argument for the piece, and it fits. -/
def Piece.Fits : Piece → List (BitVec 64) → Prop
  | .lit _, _ => True
  | .conv dir, args => dir = .percent ∨ ∃ arg rest, args = arg :: rest ∧ dir.Fits arg

/-- The arguments for the pieces behind this one. -/
def Piece.rest : Piece → List (BitVec 64) → List (BitVec 64)
  | .lit _, args => args
  | .conv dir, args => if dir = .percent then args else args.tail

/-- All arguments of a format fit their directives. -/
def Narrow : List Piece → List (BitVec 64) → Prop
  | [], _ => True
  | p :: ps, args => p.Fits args ∧ Narrow ps (p.rest args)

theorem emit_arg {convert : Convert} {dir : Directive} (hdir : dir ≠ .percent)
    {arg : BitVec 64} {args args' : List (BitVec 64)} {out : Str} :
    emit convert dir (arg :: args) = .ok (out, args') ↔
      convert dir arg = .ok out ∧ args' = args := by
  rw [emit, if_neg hdir]
  cases convert dir arg <;> simp [Except.map, eq_comm]

theorem Piece.emit_ok {convert : Convert} {p : Piece} {args args' : List (BitVec 64)}
    {out : Str} (h : p.emit convert args = .ok (out, args')) : args' = p.rest args := by
  cases p with
  | lit c =>
      cases h
      rfl
  | conv dir =>
      by_cases hdir : dir = .percent
      · subst hdir
        cases h
        rfl
      · rw [Piece.rest, if_neg hdir]
        cases args with
        | nil =>
            rw [Piece.emit, Printf.emit, if_neg hdir] at h
            cases h
        | cons arg args => exact ((emit_arg hdir).mp h).2

/-- One piece: both print it, and in the same way, if and only if it fits. -/
theorem Piece.emit_agree (strings : BitVec 64 → Str) (p : Piece) (args : List (BitVec 64)) :
    (∃ out out', p.emit (Kernel.convert strings) args = .ok (out, p.rest args) ∧
      p.emit (User.convert strings) args = .ok (out', p.rest args) ∧
      out.map lower = out'.map lower) ↔ p.Fits args := by
  cases p with
  | lit c => exact ⟨fun _ => trivial, fun _ => ⟨[c], [c], rfl, rfl, rfl⟩⟩
  | conv dir =>
      by_cases hdir : dir = .percent
      · subst hdir
        exact ⟨fun _ => .inl rfl, fun _ => ⟨_, _, rfl, rfl, rfl⟩⟩
      · simp only [Piece.emit, Piece.rest, if_neg hdir]
        constructor
        · rintro ⟨out, out', hk, hu, heq⟩
          cases args with
          | nil =>
              rw [Printf.emit, if_neg hdir] at hk
              cases hk
          | cons arg args =>
              rw [List.tail_cons, emit_arg hdir] at hk hu
              exact .inr ⟨arg, args, rfl, (convert_agree strings hk.1 hu.1).mp heq⟩
        · rintro (hdir' | ⟨arg, args, rfl, hfits⟩)
          · exact absurd hdir' hdir
          · obtain ⟨out, hk⟩ := Kernel.convert_ok strings hfits
            obtain ⟨out', hu⟩ := User.convert_ok strings dir arg
            exact ⟨out, out', (emit_arg hdir).mpr ⟨hk, rfl⟩, (emit_arg hdir).mpr ⟨hu, rfl⟩,
              (convert_agree strings hk hu).mpr hfits⟩

theorem Piece.emit_covers {strings : BitVec 64 → Str} {p : Piece} {args : List (BitVec 64)}
    {out out' : Str} (hk : p.emit (Kernel.convert strings) args = .ok (out, p.rest args))
    (hu : p.emit (User.convert strings) args = .ok (out', p.rest args)) :
    Covers (out.map lower) (out'.map lower) := by
  cases p with
  | lit c =>
      cases hk
      cases hu
      exact .inl rfl
  | conv dir =>
      by_cases hdir : dir = .percent
      · subst hdir
        cases hk
        cases hu
        exact .inl rfl
      · simp only [Piece.emit] at hk hu
        cases args with
        | nil =>
            rw [Printf.emit, if_neg hdir] at hk
            cases hk
        | cons arg args =>
            exact convert_covers strings ((emit_arg hdir).mp hk).1 ((emit_arg hdir).mp hu).1

theorem output_cons {convert : Convert} {p : Piece} {ps : List Piece}
    {args : List (BitVec 64)} {out : Str} :
    output convert (p :: ps) args = .ok out ↔ ∃ first rest,
      p.emit convert args = .ok (first, p.rest args) ∧
      output convert ps (p.rest args) = .ok rest ∧ out = first ++ rest := by
  rw [output]
  cases hemit : p.emit convert args with
  | error e => simp
  | ok res =>
      obtain ⟨first, args'⟩ := res
      obtain rfl := Piece.emit_ok hemit
      cases hrest : output convert ps (p.rest args) with
      | error e => simp [hrest, Except.map]
      | ok rest => simp [hrest, Except.map, eq_comm]

/-- The two outputs of the pieces are there, and differ in the case of digits only. -/
def AgreeOn (strings : BitVec 64 → Str) (ps : List Piece) (args : List (BitVec 64)) : Prop :=
  ∃ out out', output (Kernel.convert strings) ps args = .ok out ∧
    output (User.convert strings) ps args = .ok out' ∧ out.map lower = out'.map lower

theorem agreeOn_nil (strings : BitVec 64 → Str) (args : List (BitVec 64)) :
    AgreeOn strings [] args := ⟨[], [], rfl, rfl, rfl⟩

/-- Behind a piece that fits, the rest decides. -/
theorem agreeOn_cons {strings : BitVec 64 → Str} {p : Piece} {ps : List Piece}
    {args : List (BitVec 64)} (hfits : p.Fits args) :
    AgreeOn strings (p :: ps) args ↔ AgreeOn strings ps (p.rest args) := by
  obtain ⟨first, first', hk, hu, heq⟩ := (Piece.emit_agree strings p args).mpr hfits
  constructor
  · rintro ⟨out, out', hout, hout', hsame⟩
    obtain ⟨o, rest, hko, hrest, rfl⟩ := output_cons.mp hout
    obtain ⟨o', rest', huo, hrest', rfl⟩ := output_cons.mp hout'
    rw [hk] at hko
    rw [hu] at huo
    cases hko
    cases huo
    rw [List.map_append, List.map_append, heq] at hsame
    exact ⟨rest, rest', hrest, hrest', List.append_cancel_left hsame⟩
  · rintro ⟨rest, rest', hrest, hrest', hsame⟩
    refine ⟨first ++ rest, first' ++ rest', output_cons.mpr ⟨first, rest, hk, hrest, rfl⟩,
      output_cons.mpr ⟨first', rest', hu, hrest', rfl⟩, ?_⟩
    rw [List.map_append, List.map_append, heq, hsame]

theorem output_solid {strings : BitVec 64 → Str} {ps : List Piece} {args : List (BitVec 64)}
    {out out' : Str} (hk : output (Kernel.convert strings) ps args = .ok out)
    (hu : output (User.convert strings) ps args = .ok out') :
    solid (out'.map lower) ≤ solid (out.map lower) := by
  induction ps generalizing args out out' with
  | nil =>
      cases hk
      cases hu
      exact Nat.le_refl _
  | cons p ps ih =>
      obtain ⟨o, rest, hko, hrest, rfl⟩ := output_cons.mp hk
      obtain ⟨o', rest', huo, hrest', rfl⟩ := output_cons.mp hu
      have hpiece := (Piece.emit_covers hko huo).solid_le
      have hrests := ih hrest hrest'
      simp only [List.map_append, solid_append]
      omega

/-- No piece can make up for another one: the kernel never prints fewer characters other
than `-` for it. -/
theorem fits_of_agreeOn_cons {strings : BitVec 64 → Str} {p : Piece} {ps : List Piece}
    {args : List (BitVec 64)} (h : AgreeOn strings (p :: ps) args) : p.Fits args := by
  obtain ⟨out, out', hout, hout', hsame⟩ := h
  obtain ⟨o, rest, hko, hrest, rfl⟩ := output_cons.mp hout
  obtain ⟨o', rest', huo, hrest', rfl⟩ := output_cons.mp hout'
  rw [List.map_append, List.map_append] at hsame
  have hpiece : o.map lower = o'.map lower :=
    (Piece.emit_covers hko huo).eq_of_append hsame (output_solid hrest hrest')
  exact (Piece.emit_agree strings p args).mp ⟨o, o', hko, huo, hpiece⟩

theorem agreeOn_iff (strings : BitVec 64 → Str) (ps : List Piece) (args : List (BitVec 64)) :
    AgreeOn strings ps args ↔ Narrow ps args := by
  induction ps generalizing args with
  | nil => exact ⟨fun _ => trivial, fun _ => agreeOn_nil strings args⟩
  | cons p ps ih =>
      constructor
      · intro h
        have hfits : p.Fits args := fits_of_agreeOn_cons h
        exact ⟨hfits, (ih _).mp ((agreeOn_cons hfits).mp h)⟩
      · rintro ⟨hfits, hrest⟩
        exact (agreeOn_cons hfits).mpr ((ih _).mpr hrest)

/-- The two outputs are there, and differ in the case of digits only. -/
def Agree (strings : BitVec 64 → Str) (ps : List Piece) (args : List (BitVec 64)) : Prop :=
  ∃ out out', Kernel.printf strings (format ps) args = .ok out ∧
    User.vprintf strings false (format ps) args = .ok out' ∧ out.map lower = out'.map lower

/-- The two versions print a format without an overflow, and in the same way, if and only
if every argument fits its directive. -/
theorem printf_agree_iff (strings : BitVec 64 → Str) (ps : List Piece)
    (args : List (BitVec 64)) (hok : ∀ p ∈ ps, p.Ok) :
    Agree strings ps args ↔ Narrow ps args := by
  rw [← agreeOn_iff strings, Agree, Kernel.printf_format strings hok,
    User.vprintf_format strings hok, AgreeOn]

/-- "1%%%x\n" and the argument 255. -/
theorem printf_agree_iff_hex :
    Agree (fun _ => []) [.lit 49, .conv .percent, .conv .x, .lit 10] [255] := by
  have hfits : Directive.Fits .x 255 := show 0 ≤ (vaInt 255).toInt by decide
  exact (printf_agree_iff (fun _ => []) [.lit 49, .conv .percent, .conv .x, .lit 10] [255]
    (by simp [Piece.Ok, percentSign])).mpr
    ⟨trivial, .inl rfl, .inr ⟨255, [], rfl, hfits⟩, trivial, trivial⟩

/-- "%ld" of 2^32, and "%x" of -1: the user library prints the lower half only, the
kernel a sign that `%x` does not have. -/
theorem printf_disagree :
    Kernel.printf (fun _ => []) (format [.conv .ld]) [4294967296] =
        .ok [52, 50, 57, 52, 57, 54, 55, 50, 57, 54] ∧
      User.vprintf (fun _ => []) false (format [.conv .ld]) [4294967296] = .ok [48] ∧
      Kernel.printf (fun _ => []) (format [.conv .x]) [-1] = .ok (List.replicate 16 102) ∧
      User.vprintf (fun _ => []) false (format [.conv .x]) [-1] = .ok (List.replicate 8 70) := by
  have hok : ∀ dir, ∀ p ∈ [Piece.conv dir], p.Ok := by simp [Piece.Ok]
  rw [Kernel.printf_format _ (hok .ld), User.vprintf_format _ (hok .ld),
    Kernel.printf_format _ (hok .x), User.vprintf_format _ (hok .x)]
  decide

end Xv6.Printf
