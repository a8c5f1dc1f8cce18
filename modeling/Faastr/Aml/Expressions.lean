import Faastr.Aml.Bounds

/-!
AML integer expressions against what ACPI says they mean.

`Expr` is the syntax of expressions with null targets, `encode` their bytes and
`value` their meaning, modulo `2^64`. An expression is `Exact` if `parse_term_arg`
reads its bytes, whatever stands behind them, as its value and its length.

* Constants and the operators on two operands are exact, to any depth
  (`parsedAs_of_kept`), except that the two shifts are each computed as the other.
* An argument is taken for a local behind the last one.
* `ToInteger` and `FindSetLeftBit` read their operand one byte too late, so that
  the length they return is too short for what they have read (`not_exact_toInteger`,
  `not_exact_findSetLeftBit`).
-/

namespace Faastr.Aml

open Faastr.Lib AmlExecutionContext Interp

/-! ### Syntax and meaning -/

inductive Constant
  | zero
  | one
  | ones
  | byte (n : UInt8)
  | word (n : UInt16)
  | dword (n : UInt32)
  | qword (n : UInt64)
  deriving DecidableEq, Repr

namespace Constant

def encode : Constant → List UInt8
  | .zero => [0x00]
  | .one => [0x01]
  | .ones => [0xFF]
  | .byte n => 0x0A :: leBytes 1 n.toNat
  | .word n => 0x0B :: leBytes 2 n.toNat
  | .dword n => 0x0C :: leBytes 4 n.toNat
  | .qword n => 0x0E :: leBytes 8 n.toNat

def value : Constant → UInt64
  | .zero => 0
  | .one => 1
  | .ones => 0xFFFFFFFFFFFFFFFF
  | .byte n => n.toUInt64
  | .word n => n.toUInt64
  | .dword n => n.toUInt64
  | .qword n => n

end Constant

inductive BinOp
  | add
  | subtract
  | multiply
  | and
  | or
  | xor
  | shiftLeft
  | shiftRight
  deriving DecidableEq, Repr

namespace BinOp

def head : BinOp → UInt8
  | .add => 0x72
  | .subtract => 0x74
  | .multiply => 0x77
  | .and => 0x7B
  | .or => 0x7D
  | .xor => 0x7F
  | .shiftLeft => 0x79
  | .shiftRight => 0x7A

def IsShift (op : BinOp) : Prop := op = .shiftLeft ∨ op = .shiftRight

instance (op : BinOp) : Decidable op.IsShift := inferInstanceAs (Decidable (_ ∨ _))

/-- What ACPI computes. -/
def value : BinOp → UInt64 → UInt64 → UInt64
  | .add, x, y => x + y
  | .subtract, x, y => x - y
  | .multiply, x, y => x * y
  | .and, x, y => x &&& y
  | .or, x, y => x ||| y
  | .xor, x, y => x ^^^ y
  | .shiftLeft, x, n => UInt64.ofNat (x.toNat * 2 ^ n.toNat)
  | .shiftRight, x, n => UInt64.ofNat (x.toNat / 2 ^ n.toNat)

/-- The operator whose value the parser computes. -/
def parsed : BinOp → BinOp
  | .shiftLeft => .shiftRight
  | .shiftRight => .shiftLeft
  | op => op

end BinOp

inductive Expr
  | const (c : Constant)
  | arg (n : Fin 7)
  | binary (op : BinOp) (lhs rhs : Expr)
  | toInteger (operand : Expr)
  | findSetLeftBit (operand : Expr)
  deriving DecidableEq, Repr

namespace Expr

/-- The encoding with null targets. -/
def encode : Expr → List UInt8
  | .const c => c.encode
  | .arg n => [0x68 + UInt8.ofNat n]
  | .binary op lhs rhs => op.head :: (lhs.encode ++ (rhs.encode ++ [0x00]))
  | .toInteger operand => 0x99 :: (operand.encode ++ [0x00])
  | .findSetLeftBit operand => 0x81 :: (operand.encode ++ [0x00])

/-- The one-based position of the highest bit that is set, 0 if none is. -/
def leftmostBit (x : UInt64) : UInt64 :=
  if x = 0 then 0 else UInt64.ofNat (x.toNat.log2 + 1)

/-- The value in a method with these arguments. -/
def value (args : Fin 7 → UInt64) : Expr → UInt64
  | .const c => c.value
  | .arg n => args n
  | .binary op lhs rhs => op.value (lhs.value args) (rhs.value args)
  | .toInteger operand => operand.value args
  | .findSetLeftBit operand => leftmostBit (operand.value args)

/-- An expression and all that it is built from. -/
def subterms : Expr → List Expr
  | .const c => [.const c]
  | .arg n => [.arg n]
  | .binary op lhs rhs => .binary op lhs rhs :: (lhs.subterms ++ rhs.subterms)
  | .toInteger operand => .toInteger operand :: operand.subterms
  | .findSetLeftBit operand => .findSetLeftBit operand :: operand.subterms

def depth : Expr → Nat
  | .const _ => 0
  | .arg _ => 0
  | .binary _ lhs rhs => max lhs.depth rhs.depth + 1
  | .toInteger operand => operand.depth + 1
  | .findSetLeftBit operand => operand.depth + 1

/-- A shift is by less than 64. -/
def CountBelow (args : Fin 7 → UInt64) : Expr → Prop
  | .binary op _ rhs => op.IsShift → (rhs.value args).toNat < 64
  | _ => True

/-- What the parser gets right: constants and operators, and of the shifts those that give
the same to the left and to the right. -/
def Kept (args : Fin 7 → UInt64) : Expr → Prop
  | .const _ => True
  | .binary op lhs rhs =>
    op.IsShift → BinOp.shiftLeft.value (lhs.value args) (rhs.value args) =
      BinOp.shiftRight.value (lhs.value args) (rhs.value args)
  | .arg _ => False
  | .toInteger _ => False
  | .findSetLeftBit _ => False

theorem self_mem_subterms (e : Expr) : e ∈ e.subterms := by
  cases e <;> exact List.mem_cons_self

theorem forall_subterms_binary {P : Expr → Prop} {op : BinOp} {lhs rhs : Expr} :
    (∀ e ∈ (binary op lhs rhs).subterms, P e) ↔
      P (.binary op lhs rhs) ∧ (∀ e ∈ lhs.subterms, P e) ∧ ∀ e ∈ rhs.subterms, P e := by
  rw [subterms, List.forall_mem_cons, List.forall_mem_append]

theorem subterms_trans {e e' e'' : Expr} (h : e' ∈ e.subterms) (h' : e'' ∈ e'.subterms) :
    e'' ∈ e.subterms := by
  induction e with
  | const c =>
    rw [List.mem_singleton.mp h] at h'
    exact h'
  | arg n =>
    rw [List.mem_singleton.mp h] at h'
    exact h'
  | binary op lhs rhs ihl ihr =>
    rcases List.mem_cons.mp h with rfl | hmem
    · exact h'
    · refine List.mem_cons_of_mem _ (List.mem_append.mpr ?_)
      exact (List.mem_append.mp hmem).imp ihl ihr
  | toInteger operand ih =>
    rcases List.mem_cons.mp h with rfl | hmem
    · exact h'
    · exact List.mem_cons_of_mem _ (ih hmem)
  | findSetLeftBit operand ih =>
    rcases List.mem_cons.mp h with rfl | hmem
    · exact h'
    · exact List.mem_cons_of_mem _ (ih hmem)

end Expr

/-! ### Exactness -/

/-- A context that executes a method; the arguments in the expression hold integers. -/
structure Running (args : Fin 7 → UInt64) (e : Expr) (m : Machine) : Prop where
  executing : m.ctx.state = .EXECUTING
  argument : ∀ n : Fin 7, .arg n ∈ e.subterms →
    m.ctx.argVars[n.val]? = some (.Integer (args n))

/-- A value is an integer, or refers to an object that is. -/
def Reads (m : Machine) (v : AmlValue) (x : UInt64) : Prop :=
  (integerOf v).exec m = .ok (.ok x, m) ∨ (getValue v >>= integerOf).exec m = .ok (.ok x, m)

/-- The bytes of an expression are parsed as its value and its length. -/
def Exact (env : Env) (args : Fin 7 → UInt64) (e : Expr) : Prop :=
  ∀ m, Running args e m → ∀ trailing : List UInt8, ∃ enough, ∀ fuel ≥ enough, ∃ v m',
    ((parsers env fuel).termArg (e.encode ++ trailing)).exec m =
      .ok (.ok ⟨v, e.encode.length⟩, m') ∧ Reads m' v (e.value args)

/-- A context with these arguments. -/
def runningMachine (args : Fin 7 → UInt64) : Machine :=
  { Machine.new none with
    ctx.argVars := Vector.ofFn fun i =>
      if h : i.val < 7 then .Integer (args ⟨i, h⟩) else .Uninitialized }

theorem runningMachine_running (args : Fin 7 → UInt64) (e : Expr) :
    Running args e (runningMachine args) := by
  constructor
  · rfl
  · intro n _
    have hn : n.val < 8 := by omega
    simp [runningMachine, hn]

theorem reads_integer_iff {m : Machine} {x y : UInt64} : Reads m (.Integer x) y ↔ x = y := by
  constructor
  · rintro (h | h)
    · cases h
      rfl
    · cases h
  · rintro rfl
    exact .inl rfl

/-! ### Data in pieces -/

/-- A parser behind some bytes. -/
theorem exec_parseAt {p : AmlParser} {data rest : List UInt8} {start : Nat} {m : Machine}
    (front : List UInt8) (hdata : data = front ++ rest) (hstart : start = front.length) :
    (parseAt p data start).exec m = (p rest).exec m := by
  have hslice : (sliceFrom data start).exec m = .ok (.ok rest, m) := by
    rw [sliceFrom, hdata, hstart, if_pos (by simp), List.drop_left]
    rfl
  exact exec_bind_ok hslice

theorem exec_integerAt {bytes : List UInt8} {width : Nat} (hwidth : bytes.length = width)
    (b : UInt8) (trailing : List UInt8) (m : Machine) :
    (integerAt (b :: (bytes ++ trailing)) width).exec m =
      .ok (.ok ⟨.Integer (UInt64.ofNat (leNat bytes)), 1 + width⟩, m) := by
  have hslice : (slice (b :: (bytes ++ trailing)) 1 (1 + width)).exec m =
      .ok (.ok bytes, m) := by
    have htake : (b :: (bytes ++ trailing)).take (1 + width) = b :: bytes := by
      rw [Nat.add_comm, List.take_succ_cons, List.take_left' hwidth]
    rw [slice, if_pos (by simp [hwidth]; omega), htake]
    rfl
  exact exec_bind_ok hslice

variable {env : Env} {inner : Parsers} {m : Machine}

/-! ### Constants -/

/-- Data is tried behind the locals. -/
theorem exec_termArg_data (hstate : m.ctx.state = .EXECUTING) {b : UInt8} {rest : List UInt8}
    (hb : ¬ (0x68 ≤ b ∧ b ≤ 0x6E)) {r : AmlParseType} {m' : Machine}
    (h : (computationalData inner (b :: rest) b).exec m = .ok (.ok r, m')) :
    (parseTermArg env inner (b :: rest)).exec m = .ok (.ok r, m') := by
  have hcomputational : (parseComputationalData inner (b :: rest)).exec m = .ok (.ok r, m') := by
    rw [parseComputationalData, exec_executing hstate]
    exact h
  have hdata : (parseDataObj inner (b :: rest)).exec m = .ok (.ok r, m') := by
    rw [parseDataObj, exec_executing hstate]
    exact exec_selector_cons hcomputational _
  rw [parseTermArg, selector_cons_refused (parseLocalObj_refuses hb), exec_executing hstate]
  exact exec_selector_cons hdata _

/-- A number behind the byte that says how wide it is. -/
theorem exec_termArg_integer (hstate : m.ctx.state = .EXECUTING) {b : UInt8} {width n : Nat}
    (hb : ¬ (0x68 ≤ b ∧ b ≤ 0x6E)) (hn : n < 256 ^ width) (trailing : List UInt8)
    (hwidth : computationalData inner (b :: (leBytes width n ++ trailing)) b =
      integerAt (b :: (leBytes width n ++ trailing)) width) :
    (parseTermArg env inner (b :: leBytes width n ++ trailing)).exec m =
      .ok (.ok ⟨.Integer (UInt64.ofNat n), (b :: leBytes width n).length⟩, m) := by
  rw [List.cons_append]
  refine exec_termArg_data hstate hb ?_
  rw [hwidth, exec_integerAt (leBytes_length width n), leNat_leBytes hn, List.length_cons,
    leBytes_length, Nat.add_comm]

theorem exec_const (hstate : m.ctx.state = .EXECUTING) (c : Constant) (trailing : List UInt8) :
    ∃ v, (parseTermArg env inner (c.encode ++ trailing)).exec m =
        .ok (.ok ⟨v, c.encode.length⟩, m) ∧ (integerOf v).exec m = .ok (.ok c.value, m) := by
  cases c with
  | zero => exact ⟨_, exec_termArg_data hstate (by decide) rfl, rfl⟩
  | one => exact ⟨_, exec_termArg_data hstate (by decide) rfl, rfl⟩
  | ones => exact ⟨_, exec_termArg_data hstate (by decide) rfl, rfl⟩
  | byte n =>
    refine ⟨_, exec_termArg_integer hstate (by decide) n.toNat_lt trailing rfl, ?_⟩
    rw [Constant.value, ← UInt64.ofNat_uInt8ToNat]
    rfl
  | word n =>
    refine ⟨_, exec_termArg_integer hstate (by decide) n.toNat_lt trailing rfl, ?_⟩
    rw [Constant.value, ← UInt64.ofNat_uInt16ToNat]
    rfl
  | dword n =>
    refine ⟨_, exec_termArg_integer hstate (by decide) n.toNat_lt trailing rfl, ?_⟩
    rw [Constant.value, ← UInt64.ofNat_uInt32ToNat]
    rfl
  | qword n =>
    refine ⟨_, exec_termArg_integer hstate (by decide) n.toNat_lt trailing rfl, ?_⟩
    rw [UInt64.ofNat_toNat]
    rfl

/-! ### Operators -/

theorem shiftRight_eq {x n : UInt64} (h : n.toNat < 64) :
    x >>> n = BinOp.shiftRight.value x n := by
  apply UInt64.toNat_inj.mp
  have hle : x.toNat / 2 ^ n.toNat < 2 ^ 64 :=
    Nat.lt_of_le_of_lt (Nat.div_le_self _ _) x.toNat_lt
  rw [UInt64.toNat_shiftRight, Nat.mod_eq_of_lt h, Nat.shiftRight_eq_div_pow, BinOp.value,
    UInt64.toNat_ofNat_of_lt' hle]

theorem shiftLeft_eq {x n : UInt64} (h : n.toNat < 64) :
    x <<< n = BinOp.shiftLeft.value x n := by
  apply UInt64.toNat_inj.mp
  rw [UInt64.toNat_shiftLeft, Nat.mod_eq_of_lt h, Nat.shiftLeft_eq, BinOp.value,
    UInt64.toNat_ofNat']

/-- The opcode of an operator is tried first of those that do not refuse its byte, and computes
its value, but for the shifts. -/
theorem exists_parseBinary (env : Env) (inner : Parsers) (op : BinOp) (rest : List UInt8) :
    ∃ f more, (∀ x y : UInt64, (op.IsShift → y.toNat < 64) → f x y = op.parsed.value x y) ∧
      parseTermArg env inner (op.head :: rest) =
        executing (selector (parseBinary inner op.head (onIntegers f) :: more))
          (op.head :: rest) := by
  cases op with
  | add => exact ⟨_, _, fun x y _ => rfl, parseTermArg_eq_drop (by decide) rest⟩
  | subtract => exact ⟨_, _, fun x y _ => rfl, parseTermArg_eq_drop (by decide) rest⟩
  | multiply => exact ⟨_, _, fun x y _ => rfl, parseTermArg_eq_drop (by decide) rest⟩
  | and => exact ⟨_, _, fun x y _ => rfl, parseTermArg_eq_drop (by decide) rest⟩
  | or => exact ⟨_, _, fun x y _ => rfl, parseTermArg_eq_drop (by decide) rest⟩
  | xor => exact ⟨_, _, fun x y _ => rfl, parseTermArg_eq_drop (by decide) rest⟩
  | shiftLeft =>
    exact ⟨_, _, fun x y hy => shiftRight_eq (hy (.inl rfl)), parseTermArg_eq_drop (by decide) rest⟩
  | shiftRight =>
    exact ⟨_, _, fun x y hy => shiftLeft_eq (hy (.inr rfl)), parseTermArg_eq_drop (by decide) rest⟩

theorem exec_onIntegers {f : UInt64 → UInt64 → UInt64} {vl vr : AmlValue} {x y : UInt64}
    (hl : (integerOf vl).exec m = .ok (.ok x, m)) (hr : (integerOf vr).exec m = .ok (.ok y, m)) :
    (onIntegers f vl vr).exec m = .ok (.ok (.Integer (f x y)), m) := by
  rw [onIntegers, exec_bind_ok hl, exec_bind_ok hr]
  rfl

/-- The null target takes nothing. -/
theorem exec_parseTarget_null (hstate : m.ctx.state = .EXECUTING) (trailing : List UInt8) :
    (parseTarget inner (0x00 :: trailing)).exec m = .ok (.ok ⟨.None, 1⟩, m) := by
  rw [parseTarget, exec_executing hstate]
  rfl

theorem exec_store_none (fuel : Nat) (value : AmlValue) :
    (attempt (modifyValue fuel .None value)).exec m = .ok (.ok (.error .AmlValueError), m) := by
  cases fuel <;> rfl

/-- Two operands that are parsed to their ends, and a null target. -/
theorem exec_parseBinary (hstate : m.ctx.state = .EXECUTING) {op : UInt8}
    {f : UInt64 → UInt64 → UInt64} {left right trailing : List UInt8} {vl vr : AmlValue}
    {x y : UInt64}
    (hleft : (inner.termArg (left ++ (right ++ (0x00 :: trailing)))).exec m =
      .ok (.ok ⟨vl, left.length⟩, m))
    (hright : (inner.termArg (right ++ (0x00 :: trailing))).exec m =
      .ok (.ok ⟨vr, right.length⟩, m))
    (hl : (integerOf vl).exec m = .ok (.ok x, m)) (hr : (integerOf vr).exec m = .ok (.ok y, m)) :
    (parseBinary inner op (onIntegers f) (op :: (left ++ (right ++ (0x00 :: trailing))))).exec m =
      .ok (.ok ⟨.Integer (f x y), 1 + left.length + right.length + 1⟩, m) := by
  let data := op :: (left ++ (right ++ (0x00 :: trailing)))
  have hlhs : (parseAt inner.termArg data 1).exec m = .ok (.ok ⟨vl, left.length⟩, m) :=
    (exec_parseAt [op] rfl rfl).trans hleft
  have hrhs : (parseAt inner.termArg data (1 + left.length)).exec m =
      .ok (.ok ⟨vr, right.length⟩, m) :=
    (exec_parseAt (op :: left) rfl (Nat.add_comm _ _)).trans hright
  have htarget : (parseAt (parseTarget inner) data (1 + left.length + right.length)).exec m =
      .ok (.ok ⟨.None, 1⟩, m) := by
    refine (exec_parseAt (op :: (left ++ right)) ?_ ?_).trans (exec_parseTarget_null hstate trailing)
    · rw [List.cons_append, List.append_assoc]
    · rw [List.length_cons, List.length_append]
      omega
  rw [parseBinary, exec_opcode hstate, exec_bind_ok hlhs, exec_bind_ok hrhs, exec_bind_ok htarget,
    exec_bind_ok (exec_onIntegers hl hr), store, bind_assoc, exec_bind_ok (exec_store_none _ _)]
  rfl

/-! ### Whole expressions -/

/-- With this much fuel an expression is parsed to its end, as its value, and nothing else
happens. -/
def ParsedAs (env : Env) (args : Fin 7 → UInt64) (m : Machine) (fuel : Nat) (e : Expr) : Prop :=
  ∀ trailing : List UInt8, ∃ v,
    ((parsers env fuel).termArg (e.encode ++ trailing)).exec m =
      .ok (.ok ⟨v, e.encode.length⟩, m) ∧ (integerOf v).exec m = .ok (.ok (e.value args), m)

section Whole

variable {args : Fin 7 → UInt64} (hstate : m.ctx.state = .EXECUTING)

include hstate

/-- An operator whose operands are parsed as their values. -/
theorem exec_binary {fuel : Nat} {op : BinOp} {lhs rhs : Expr}
    (hlhs : ParsedAs env args m fuel lhs) (hrhs : ParsedAs env args m fuel rhs)
    (hcount : Expr.CountBelow args (.binary op lhs rhs)) (trailing : List UInt8) :
    ((parsers env (fuel + 1)).termArg ((Expr.binary op lhs rhs).encode ++ trailing)).exec m =
      .ok (.ok ⟨.Integer (op.parsed.value (lhs.value args) (rhs.value args)),
        (Expr.binary op lhs rhs).encode.length⟩, m) := by
  have hencode : (Expr.binary op lhs rhs).encode ++ trailing =
      op.head :: (lhs.encode ++ (rhs.encode ++ (0x00 :: trailing))) := by
    simp only [Expr.encode, List.cons_append, List.append_assoc, List.nil_append]
  have hlength : (Expr.binary op lhs rhs).encode.length =
      1 + lhs.encode.length + rhs.encode.length + 1 := by
    simp only [Expr.encode, List.length_cons, List.length_append, List.length_nil]
    omega
  obtain ⟨f, more, hf, hparse⟩ := exists_parseBinary env (parsers env fuel) op
    (lhs.encode ++ (rhs.encode ++ (0x00 :: trailing)))
  obtain ⟨vl, hleft, hl⟩ := hlhs (rhs.encode ++ (0x00 :: trailing))
  obtain ⟨vr, hright, hr⟩ := hrhs (0x00 :: trailing)
  rw [hencode, hlength, ← hf _ _ hcount, parsers_succ_termArg, hparse, exec_executing hstate]
  exact exec_selector_cons (exec_parseBinary hstate hleft hright hl hr) more

omit hstate in
theorem parsed_value_of_kept {op : BinOp} {lhs rhs : Expr}
    (h : Expr.Kept args (.binary op lhs rhs)) :
    op.parsed.value (lhs.value args) (rhs.value args) =
      op.value (lhs.value args) (rhs.value args) := by
  cases op with
  | shiftLeft => exact (h (.inl rfl)).symm
  | shiftRight => exact h (.inr rfl)
  | _ => rfl

open Expr in
/-- **Constants and operators are parsed to their ends**, whatever stands behind them and however
deep they are nested. -/
theorem parsedAs_of_kept (env : Env) {e : Expr} (hkept : ∀ e' ∈ e.subterms, Kept args e')
    (hcount : ∀ e' ∈ e.subterms, CountBelow args e') {fuel : Nat} (hfuel : e.depth < fuel) :
    ParsedAs env args m fuel e := by
  induction e generalizing fuel with
  | const c =>
    obtain ⟨fuel, rfl⟩ := Nat.exists_eq_add_one_of_ne_zero (Nat.ne_of_gt hfuel)
    exact exec_const hstate c
  | arg n => exact (hkept _ (self_mem_subterms _)).elim
  | toInteger operand => exact (hkept _ (self_mem_subterms _)).elim
  | findSetLeftBit operand => exact (hkept _ (self_mem_subterms _)).elim
  | binary op lhs rhs ihl ihr =>
    rw [forall_subterms_binary] at hkept hcount
    obtain ⟨hself, hkl, hkr⟩ := hkept
    obtain ⟨hbelow, hcl, hcr⟩ := hcount
    obtain ⟨fuel, rfl⟩ := Nat.exists_eq_add_one_of_ne_zero (Nat.ne_zero_of_lt hfuel)
    have hdepth : max lhs.depth rhs.depth < fuel := Nat.lt_of_succ_lt_succ hfuel
    have hlhs := ihl hkl hcl (Nat.lt_of_le_of_lt (Nat.le_max_left _ _) hdepth)
    have hrhs := ihr hkr hcr (Nat.lt_of_le_of_lt (Nat.le_max_right _ _) hdepth)
    intro trailing
    refine ⟨_, exec_binary hstate hlhs hrhs hbelow trailing, ?_⟩
    rw [parsed_value_of_kept hself]
    rfl

end Whole

/-! ### What is not exact -/

/-- The byte of an argument is a local's to the parser, and there is no such local. -/
theorem not_exact_arg (env : Env) (args : Fin 7 → UInt64) (n : Fin 7) :
    ¬ Exact env args (.arg n) := by
  intro h
  obtain ⟨enough, hexact⟩ := h _ (runningMachine_running args _) []
  obtain ⟨v, m', hrun, hreads⟩ := hexact (enough + 1) (Nat.le_succ _)
  have hrange : ∀ n : Fin 7, 0x68 ≤ 0x68 + UInt8.ofNat n ∧ 0x68 + UInt8.ofNat n ≤ 0x6E := by decide
  have hbehind : ∀ n : Fin 7, 8 ≤ (0x68 + UInt8.ofNat n - 0x60).toNat := by decide
  have hlocal : (parseLocalObj ((Expr.arg n).encode ++ [])).exec (runningMachine args) =
      .ok (.ok ⟨.ObjectReference (.LocalObj (0x68 + UInt8.ofNat n - 0x60)), 1⟩,
        runningMachine args) := by
    rw [parseLocalObj, exec_executing rfl]
    show (if _ then _ else _ : Interp AmlParseType).exec _ = _
    rw [if_pos (hrange n)]
    rfl
  rw [parsers_succ_termArg, parseTermArg, exec_executing rfl, exec_selector_cons hlocal] at hrun
  cases hrun
  rcases hreads with hreads | hreads
  · cases hreads
  · have hnone : (runningMachine args).ctx.localVars[(0x68 + UInt8.ofNat n - 0x60).toNat]? = none :=
      Vector.getElem?_eq_none (hbehind n)
    have hpanic : (getValue (.ObjectReference (.LocalObj (0x68 + UInt8.ofNat n - 0x60)))).exec
        (runningMachine args) = .error .panic := by
      show (liftM (orPanic (runningMachine args).ctx.localVars[_]?) : Interp AmlValue).exec _ = _
      rw [hnone]
      rfl
    rw [exec_bind, hpanic] at hreads
    cases hreads

/-- A result that is too short is not exact. -/
theorem not_exact_of_short {env : Env} {args : Fin 7 → UInt64} {e : Expr} {b : UInt8}
    {rest : List UInt8} (hencode : e.encode = b :: rest)
    (hshort : ∀ fuel, ((parsers env fuel).termArg (b :: rest)).Gives fun r => r.len ≤ rest.length) :
    ¬ Exact env args e := by
  intro h
  obtain ⟨enough, hexact⟩ := h _ (runningMachine_running args _) []
  obtain ⟨v, m', hrun, -⟩ := hexact enough (Nat.le_refl _)
  rw [List.append_nil, hencode] at hrun
  exact Nat.not_succ_le_self _ (hshort enough _ _ _ hrun)

theorem not_exact_toInteger (env : Env) (args : Fin 7 → UInt64) (operand : Expr) :
    ¬ Exact env args (.toInteger operand) := by
  refine not_exact_of_short rfl fun fuel => ?_
  cases fuel with
  | zero => exact .halt _
  | succ fuel =>
    exact parseTermArg_late_operand (parsers_bounded env fuel) (by decide) rfl (by decide) _

theorem not_exact_findSetLeftBit (env : Env) (args : Fin 7 → UInt64) (operand : Expr) :
    ¬ Exact env args (.findSetLeftBit operand) := by
  refine not_exact_of_short rfl fun fuel => ?_
  cases fuel with
  | zero => exact .halt _
  | succ fuel =>
    exact parseTermArg_late_operand (parsers_bounded env fuel) (by decide) rfl (by decide) _

/-- A shift of exact operands is exact only if it gives the same both ways. -/
theorem kept_of_exact_binary {env : Env} {args : Fin 7 → UInt64} {op : BinOp} {lhs rhs : Expr}
    (hlhs : ∀ e ∈ lhs.subterms, e.Kept args) (hrhs : ∀ e ∈ rhs.subterms, e.Kept args)
    (hcount : ∀ e ∈ (Expr.binary op lhs rhs).subterms, e.CountBelow args)
    (hexact : Exact env args (.binary op lhs rhs)) : Expr.Kept args (.binary op lhs rhs) := by
  intro hshift
  rw [Expr.forall_subterms_binary] at hcount
  obtain ⟨hbelow, hcl, hcr⟩ := hcount
  obtain ⟨enough, henough⟩ := hexact _ (runningMachine_running args _) []
  -- fuel that is enough for the whole and for both operands
  obtain ⟨fuel, hfuel, hl, hr⟩ : ∃ fuel, enough ≤ fuel ∧ lhs.depth < fuel ∧ rhs.depth < fuel :=
    ⟨enough + lhs.depth + rhs.depth + 1, by omega, by omega, by omega⟩
  have hstate : (runningMachine args).ctx.state = .EXECUTING := rfl
  have hparsed := exec_binary hstate (parsedAs_of_kept hstate env hlhs hcl hl)
    (parsedAs_of_kept hstate env hrhs hcr hr) hbelow []
  obtain ⟨v, m', hrun, hreads⟩ := henough (fuel + 1) (Nat.le_succ_of_le hfuel)
  rw [hparsed] at hrun
  cases hrun
  have hvalue := reads_integer_iff.mp hreads
  rcases hshift with rfl | rfl
  · exact hvalue.symm
  · exact hvalue

theorem exact_of_kept (env : Env) {args : Fin 7 → UInt64} {e : Expr}
    (hkept : ∀ e' ∈ e.subterms, e'.Kept args) (hcount : ∀ e' ∈ e.subterms, e'.CountBelow args) :
    Exact env args e := by
  intro m hm trailing
  refine ⟨e.depth + 1, fun fuel hfuel => ?_⟩
  obtain ⟨v, hrun, hvalue⟩ := parsedAs_of_kept hm.executing env hkept hcount hfuel trailing
  exact ⟨v, m, hrun, .inl hvalue⟩

/-! ### The result -/

open Expr in
/-- **Which expressions are parsed as what they mean.** An expression with shifts by less than 64
is exact, with all that it is built from, if and only if it has no argument, no `ToInteger` and no
`FindSetLeftBit`, and its shifts give the same to the left and to the right.

An expression may be exact by chance though a part of it is not, as `And` with zero is; so the
parts are taken with it. -/
theorem expressions_exact_iff (env : Env) (args : Fin 7 → UInt64) (e : Expr)
    (hcount : ∀ e' ∈ e.subterms, CountBelow args e') :
    (∀ e' ∈ e.subterms, Exact env args e') ↔ ∀ e' ∈ e.subterms, Kept args e' := by
  constructor
  · intro hexact
    induction e with
    | const c => exact List.forall_mem_singleton.mpr trivial
    | arg n => exact (not_exact_arg env args n (hexact _ (self_mem_subterms _))).elim
    | toInteger operand =>
      exact (not_exact_toInteger env args operand (hexact _ (self_mem_subterms _))).elim
    | findSetLeftBit operand =>
      exact (not_exact_findSetLeftBit env args operand (hexact _ (self_mem_subterms _))).elim
    | binary op lhs rhs ihl ihr =>
      obtain ⟨hself, hl, hr⟩ := forall_subterms_binary.mp hexact
      obtain ⟨-, hcl, hcr⟩ := forall_subterms_binary.mp hcount
      have hkl := ihl hcl hl
      have hkr := ihr hcr hr
      exact forall_subterms_binary.mpr ⟨kept_of_exact_binary hkl hkr hcount hself, hkl, hkr⟩
  · intro hkept e' he'
    exact exact_of_kept env (fun e'' he'' => hkept e'' (subterms_trans he' he''))
      fun e'' he'' => hcount e'' (subterms_trans he' he'')

/-- Surroundings in which nothing happens. -/
def bareEnv : Env where
  monotonic := fun _ => (0, 0)
  execute := fun _ _ _ acpi => .ok (.None, acpi)
  sdtPointers := none
  parseAmlWithScope := fun _ _ acpi => .ok (.ok [], acpi)

/-- One shifted left by one is two, and parsed as nought. -/
theorem shiftLeft_shifts_right :
    (Expr.binary .shiftLeft (.const .one) (.const .one)).encode = [0x79, 0x01, 0x01, 0x00] ∧
    (Expr.binary .shiftLeft (.const .one) (.const .one)).value (fun _ => 0) = 2 ∧
    ((parsers bareEnv 2).termArg [0x79, 0x01, 0x01, 0x00]).exec (runningMachine fun _ => 0) =
      .ok (.ok ⟨.Integer 0, 4⟩, runningMachine fun _ => 0) ∧
    ¬ Exact bareEnv (fun _ => 0) (.binary .shiftLeft (.const .one) (.const .one)) := by
  refine ⟨rfl, by decide, rfl, ?_⟩
  intro hexact
  have hone : ∀ e ∈ (Expr.const .one).subterms, e.Kept fun _ => 0 :=
    List.forall_mem_singleton.mpr trivial
  have hcount : ∀ e ∈ (Expr.binary .shiftLeft (.const .one) (.const .one)).subterms,
      e.CountBelow fun _ => 0 :=
    Expr.forall_subterms_binary.mpr ⟨fun _ => by decide, List.forall_mem_singleton.mpr trivial,
      List.forall_mem_singleton.mpr trivial⟩
  have hsame := kept_of_exact_binary hone hone hcount hexact (.inl rfl)
  exact absurd hsame (by decide)

/-- A sum that is shifted by nought is exact. -/
theorem sum_shifted_by_zero_exact :
    Exact bareEnv (fun _ => 0) (.binary .shiftRight (.binary .add (.const .one) (.const (.byte 2)))
      (.const .zero)) := by
  refine (expressions_exact_iff bareEnv (fun _ => 0) _ ?_).mpr ?_ _ (Expr.self_mem_subterms _)
  · refine Expr.forall_subterms_binary.mpr ⟨fun _ => by decide, ?_,
      List.forall_mem_singleton.mpr trivial⟩
    exact Expr.forall_subterms_binary.mpr ⟨fun hshift => absurd hshift (by decide),
      List.forall_mem_singleton.mpr trivial, List.forall_mem_singleton.mpr trivial⟩
  · refine Expr.forall_subterms_binary.mpr ⟨fun _ => by decide, ?_,
      List.forall_mem_singleton.mpr trivial⟩
    exact Expr.forall_subterms_binary.mpr ⟨fun hshift => absurd hshift (by decide),
      List.forall_mem_singleton.mpr trivial, List.forall_mem_singleton.mpr trivial⟩

end Faastr.Aml
