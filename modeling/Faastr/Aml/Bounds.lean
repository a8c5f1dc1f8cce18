import Faastr.Aml.Terms

/-!
Lengths and first bytes of terms (`acpi/aml/type2opcode.rs`, `dataobj.rs`,
`termlist.rs`).

* A caller goes on reading behind the length that a term's parser returns. However
  a term ends, that length stays inside the data (`parsers_bounded`): what an
  offset is wrong by is read twice or left over, never read from behind the end.
* The parsers are tried one after the other, but the first byte decides: all that
  stand before the opcode's own refuse it (`parseTermArg_eq_drop`).
-/

namespace Faastr.Aml

open AmlExecutionContext Interp

/-- What a parser needs of the ones it calls back. -/
structure Parsers.Bounded (inner : Parsers) : Prop where
  termArg : Aml.Bounded inner.termArg
  superName : Aml.Bounded inner.superName

variable {env : Env} {inner : Parsers} (h : inner.Bounded)

include h

/-! ### Names -/

theorem parseTarget_bounded : Bounded (parseTarget inner) := by
  refine executing_bounded fun data => .bind (byteAt_gives data 0) fun b hb => ?_
  split
  · exact .pure hb
  · exact h.superName data

theorem parseParams_gives (data : List UInt8) (offset count : Nat) (ho : offset ≤ data.length) :
    (parseParams inner data offset count).Gives fun r => r.2 ≤ data.length := by
  induction count generalizing offset with
  | zero => exact .pure ho
  | succ count ih =>
    refine .bind (parseAt_gives h.termArg data offset) fun res hres => ?_
    exact .bind (ih _ hres) fun r hr => .pure hr

theorem parseMethodInvocation_bounded : Bounded (parseMethodInvocation env inner) := by
  refine executing_bounded fun data => .bind (parseNameString_bounded data) fun name hname => ?_
  refine .seq fun method => ?_
  split
  · exact .throw _
  · refine .seq fun method => .bind (parseParams_gives h data _ _ hname) fun r hr => ?_
    exact .seq fun _ => .seq fun _ => .seq fun _ => .pure hr

theorem parseDefRefOf_bounded : Bounded (parseDefRefOf inner) := by
  refine opcode_bounded fun data => .bind (parseAt_gives h.superName data 1) fun obj hobj => ?_
  refine .seq fun reference => ?_
  split
  · exact .pure hobj
  · exact .throw _

theorem parseDefDerefOf_bounded : Bounded (parseDefDerefOf inner) := by
  refine opcode_bounded fun data => .bind (parseAt_gives h.termArg data 1) fun obj hobj => ?_
  refine .seq fun res => ?_
  split
  · exact .throw _
  · exact .pure hobj

theorem parseDefIndex_bounded : Bounded (parseDefIndex inner) := by
  refine opcode_bounded fun data => .seq fun obj => .seq fun idx => ?_
  refine .bind (parseAt_gives (parseTarget_bounded h) data _) fun target htarget => ?_
  exact .seq fun _ => .pure htarget

theorem parseType6Opcode_bounded : Bounded (parseType6Opcode env inner) := by
  refine executing_bounded (selector_bounded ?_)
  simp only [List.forall_mem_cons]
  exact ⟨parseDefDerefOf_bounded h, parseDefRefOf_bounded h, parseDefIndex_bounded h,
    parseMethodInvocation_bounded h, List.forall_mem_nil _⟩

theorem parseSuperName_bounded : Bounded (parseSuperName env inner) := by
  refine executing_bounded (selector_bounded ?_)
  simp only [List.forall_mem_cons]
  exact ⟨parseSimpleName_bounded, parseType6Opcode_bounded h, parseDebugObj_bounded,
    List.forall_mem_nil _⟩

theorem parseDefObjectType_bounded : Bounded (parseDefObjectType inner) := by
  refine opcode_bounded (selector_bounded ?_)
  simp only [List.forall_mem_cons]
  exact ⟨h.superName, parseDefRefOf_bounded h, parseDefDerefOf_bounded h, parseDefIndex_bounded h,
    List.forall_mem_nil _⟩

/-! ### Data objects -/

omit h in
theorem slice_package (data : List UInt8) (start pkgLength : Nat) :
    (slice data start (1 + pkgLength)).Gives fun _ => 1 + pkgLength ≤ data.length :=
  (slice_gives data _ _).mono fun _ hslice => hslice.2.2

omit h in
theorem parseDefPackage_bounded : Bounded (parseDefPackage inner) := by
  refine opcode_bounded fun data => .seq fun ⟨pkgLength, pkgLengthLen⟩ => .seq fun numelements => ?_
  refine .bind (slice_package data _ pkgLength) fun _ hlength => ?_
  exact .seq fun _ => .seq fun _ => .pure hlength

omit h in
theorem parseDefVarPackage_bounded : Bounded (parseDefVarPackage inner) := by
  refine opcode_bounded fun data => .seq fun ⟨pkgLength, pkgLengthLen⟩ => ?_
  refine .bind (slice_package data _ pkgLength) fun _ hlength => .seq fun numElements => ?_
  exact .seq fun _ => .seq fun _ => .seq fun _ => .seq fun _ => .pure hlength

omit h in
theorem parseDefBuffer_bounded : Bounded (parseDefBuffer inner) := by
  refine opcode_bounded fun data => .seq fun ⟨pkgLength, pkgLengthLen⟩ => .seq fun bufferSize => ?_
  exact .bind (slice_package data _ pkgLength) fun _ hlength => .seq fun _ => .pure hlength

omit h in
theorem integerAt_gives (data : List UInt8) (width : Nat) :
    (integerAt data width).Gives fun r => r.len ≤ data.length :=
  .bind (slice_gives data 1 (1 + width)) fun _ hslice => .pure hslice.2.2

omit h in
theorem parseStringData_gives (data : List UInt8) :
    (parseStringData data).Gives fun r => r.len ≤ data.length := by
  refine .bind (byteAt_gives data _) fun b hb => ?_
  split
  · refine .pure ?_
    dsimp only
    omega
  · exact .throw _

omit h in
theorem parseComputationalData_bounded : Bounded (parseComputationalData inner) := by
  refine executing_bounded fun data => .bind (byteAt_gives data 0) fun b hb => ?_
  unfold computationalData
  split
  · exact integerAt_gives data 1
  · exact integerAt_gives data 2
  · exact integerAt_gives data 4
  · exact parseStringData_gives data
  · exact integerAt_gives data 8
  · exact .pure hb
  · exact .pure hb
  · refine .bind (byteAt_gives data 1) fun revision hrevision => ?_
    split
    · exact .pure hrevision
    · exact .throw _
  · exact .pure hb
  · exact parseDefBuffer_bounded data

omit h in
theorem parseDataObj_bounded : Bounded (parseDataObj inner) := by
  refine executing_bounded (selector_bounded ?_)
  simp only [List.forall_mem_cons]
  exact ⟨parseComputationalData_bounded, parseDefPackage_bounded, parseDefVarPackage_bounded,
    List.forall_mem_nil _⟩

/-! ### Opcodes -/

omit h in
theorem waitUntil_gives (attemptOnce : Interp Bool) (forever : Bool) (limit start : UInt64)
    (len tries : Nat) :
    (waitUntil env attemptOnce forever limit start len tries).Gives fun r => r.len = len := by
  induction tries with
  | zero => exact .halt _
  | succ tries ih =>
    refine .seq fun done => ?_
    split
    · exact .pure rfl
    · split
      · exact ih
      · refine .seq fun now => ?_
        split
        · exact .pure rfl
        · exact ih

omit h in
theorem parseDefAcquire_bounded : Bounded (parseDefAcquire env inner) := by
  refine opcodeExtended_bounded fun data _ => .seq fun obj => .seq fun low => ?_
  refine .bind (byteAt_gives data _) fun high hhigh => .seq fun start => ?_
  refine (waitUntil_gives _ _ _ _ _ _).mono fun r hr => ?_
  omega

theorem parseDefWait_bounded : Bounded (parseDefWait env inner) := by
  refine opcodeExtended_bounded fun data _ => .seq fun obj => ?_
  refine .bind (parseAt_gives h.termArg data _) fun timeout htimeout => ?_
  refine .seq fun _ => .seq fun _ => (waitUntil_gives _ _ _ _ _ _).mono fun r hr => ?_
  omega

omit h in
theorem parseDefTimer_bounded : Bounded (parseDefTimer env) :=
  opcodeExtended_bounded fun _ hlength => .seq fun _ => .pure hlength

theorem parseStep_bounded (op : UInt8) (step : UInt64 → UInt64) :
    Bounded (parseStep inner op step) :=
  opcode_bounded fun data => .bind (parseAt_gives h.superName data 1) fun _ hobj =>
    .seq fun _ => .pure hobj

theorem parseLogical_bounded (op : UInt8) (test : AmlValue → AmlValue → Interp Bool) :
    Bounded (parseLogical inner op test) :=
  opcode_bounded fun data => .seq fun _ => .bind (parseAt_gives h.termArg data _) fun _ hrhs =>
    .seq fun _ => .pure hrhs

theorem parseDefLnot_bounded : Bounded (parseDefLnot inner) :=
  opcode_bounded fun data => .bind (parseAt_gives h.termArg data 1) fun _ hoperand =>
    .seq fun _ => .pure hoperand

theorem parseBinary_bounded (op : UInt8) (compute : AmlValue → AmlValue → Interp AmlValue) :
    Bounded (parseBinary inner op compute) := by
  refine opcode_bounded fun data => .seq fun lhs => .seq fun rhs => ?_
  refine .bind (parseAt_gives (parseTarget_bounded h) data _) fun target htarget => ?_
  exact .seq fun _ => .seq fun _ => .pure htarget

theorem parseConcat_bounded (op : UInt8) (compute : AmlValue → AmlValue → Interp AmlValue) :
    Bounded (parseConcat inner op compute) := by
  refine opcode_bounded fun data => .seq fun lhs => .seq fun rhs => ?_
  refine .bind (parseAt_gives (parseTarget_bounded h) data _) fun target htarget => ?_
  exact .seq fun _ => .seq fun _ => .pure htarget

theorem parseDefDivide_bounded : Bounded (parseDefDivide inner) := by
  refine opcode_bounded fun data => .seq fun lhs => .seq fun rhs => .seq fun remainder => ?_
  refine .bind (parseAt_gives (parseTarget_bounded h) data _) fun quotient hquotient => ?_
  refine .seq fun numerator => .seq fun denominator => ?_
  split
  · exact .halt _
  · exact .seq fun _ => .seq fun _ => .pure hquotient

/-- What starts behind the length's own start is not counted. -/
theorem parseUnary_gives (start base : Nat) (compute : AmlValue → Interp AmlValue)
    (data : List UInt8) :
    (parseUnary inner start base compute data).Gives fun r =>
      start + r.len ≤ base + data.length := by
  refine .seq fun operand => ?_
  refine .bind (parseAt_gives (parseTarget_bounded h) data _) fun target htarget => ?_
  refine .seq fun res => .seq fun _ => .pure ?_
  dsimp only
  omega

theorem parseUnary_bounded {start base : Nat} (hbase : base ≤ start)
    (compute : AmlValue → Interp AmlValue) : Bounded (parseUnary inner start base compute) :=
  fun data => (parseUnary_gives h start base compute data).mono fun r hr => by omega

theorem parseDefToString_bounded : Bounded (parseDefToString inner) := by
  refine opcode_bounded fun data => .seq fun operand => .seq fun length => ?_
  refine .bind (parseAt_gives (parseTarget_bounded h) data _) fun target htarget => ?_
  refine .seq fun buf => ?_
  split
  · exact .seq fun _ => .seq fun _ => .seq fun _ => .pure htarget
  · exact .throw _

theorem parseDefSizeOf_bounded : Bounded (parseDefSizeOf inner) :=
  opcode_bounded fun data => .bind (parseAt_gives h.superName data 1) fun _ hname =>
    .seq fun _ => .seq fun _ => .pure hname

theorem parseDefStore_bounded : Bounded (parseDefStore inner) :=
  opcode_bounded fun data => .seq fun _ => .bind (parseAt_gives h.superName data _)
    fun _ htarget => .seq fun _ => .pure htarget

omit h in
theorem parseDefCopyObject_bounded : Bounded (parseDefCopyObject inner) :=
  opcode_bounded fun data => .seq fun _ => .bind (parseAt_gives parseSimpleName_bounded data _)
    fun _ hdestination => .seq fun _ => .pure hdestination

theorem parseDefCondRefOf_bounded : Bounded (parseDefCondRefOf inner) := by
  refine opcodeExtended_bounded fun data _ => .seq fun obj => ?_
  refine .bind (parseAt_gives (parseTarget_bounded h) data _) fun target htarget => ?_
  have hlen : 1 + obj.len + target.len ≤ data.length := by omega
  refine .seq fun reference => ?_
  split
  · exact .pure hlen
  · exact .seq fun _ => .pure hlen

theorem parseDefMid_bounded : Bounded (parseDefMid inner) := by
  refine opcode_bounded fun data => .seq fun source => .seq fun index => .seq fun length => ?_
  refine .bind (parseAt_gives (parseTarget_bounded h) data _) fun target htarget => ?_
  exact .seq fun _ => .seq fun _ => .seq fun _ => .seq fun _ => .pure htarget

theorem parseDefMatch_bounded : Bounded (parseDefMatch inner) := by
  refine opcode_bounded fun data => .seq fun searchPkg => .seq fun _ => .seq fun _ => ?_
  refine .seq fun firstOperand => .seq fun _ => .seq fun _ => .seq fun secondOperand => ?_
  refine .bind (parseAt_gives h.termArg data _) fun startIndex hstart => ?_
  refine .seq fun pkg => .seq fun idx => .seq fun found => ?_
  split
  · exact .pure hstart
  · exact .pure hstart

theorem parseDefLoadTable_bounded : Bounded (parseDefLoadTable env inner) := by
  refine opcodeExtended_bounded fun data _ => .seq fun signature => .seq fun oemId => ?_
  refine .seq fun oemTableId => .seq fun rootPath => .seq fun parameterPath => ?_
  refine .bind (parseAt_gives h.termArg data _) fun parameterData hdata => .seq fun table => ?_
  split
  · exact .seq fun _ => .pure hdata
  · exact .pure hdata

/-! ### All of them -/

theorem type2Defs_bounded : ∀ p ∈ type2Defs env inner, Bounded p := by
  have hunary {start base : Nat} (hbase : base ≤ start) (compute : AmlValue → Interp AmlValue) :=
    parseUnary_bounded h hbase compute
  simp only [type2Defs, List.forall_mem_cons]
  refine ⟨parseStep_bounded h _ _, parseDefAcquire_bounded, parseDefWait_bounded h,
    parseLogical_bounded h _ _, parseLogical_bounded h _ _, parseLogical_bounded h _ _,
    parseLogical_bounded h _ _, parseDefLnot_bounded h, parseLogical_bounded h _ _,
    parseDefSizeOf_bounded h, parseDefStore_bounded h, parseBinary_bounded h _ _,
    opcode_bounded (hunary (by omega) _), opcode_bounded (hunary (by omega) _),
    opcodeExtended_bounded fun data _ => hunary (by omega) _ data,
    opcode_bounded (hunary (by omega) _), opcode_bounded (hunary (by omega) _),
    parseDefToString_bounded h, parseBinary_bounded h _ _, parseBinary_bounded h _ _,
    parseBinary_bounded h _ _, parseBinary_bounded h _ _, parseBinary_bounded h _ _,
    parseBinary_bounded h _ _, parseBinary_bounded h _ _, parseConcat_bounded h _ _,
    parseConcat_bounded h _ _, parseDefCondRefOf_bounded h, parseDefCopyObject_bounded,
    parseStep_bounded h _ _, parseDefDivide_bounded h, opcode_bounded (hunary (by omega) _),
    opcode_bounded (hunary (by omega) _),
    opcodeExtended_bounded fun data _ => hunary (by omega) _ data, parseDefLoadTable_bounded h,
    parseDefMatch_bounded h, parseDefMid_bounded h, parseBinary_bounded h _ _,
    parseBinary_bounded h _ _, parseBinary_bounded h _ _, opcode_bounded (hunary (by omega) _),
    parseDefTimer_bounded, parseDefBuffer_bounded, parseDefPackage_bounded,
    parseDefVarPackage_bounded, parseDefObjectType_bounded h, parseDefDerefOf_bounded h,
    parseDefRefOf_bounded h, parseDefIndex_bounded h, List.forall_mem_nil _⟩

theorem parseType2Opcode_bounded : Bounded (parseType2Opcode env inner) := by
  refine executing_bounded (selector_bounded fun p hp => ?_)
  rcases List.mem_append.mp hp with hdef | hinvocation
  · exact type2Defs_bounded h p hdef
  · rw [List.mem_singleton.mp hinvocation]
    exact parseMethodInvocation_bounded h

theorem parseTermArg_bounded : Bounded (parseTermArg env inner) := by
  refine executing_bounded (selector_bounded ?_)
  simp only [List.forall_mem_cons]
  exact ⟨parseLocalObj_bounded, parseDataObj_bounded, parseArgObj_bounded,
    parseType2Opcode_bounded h, List.forall_mem_nil _⟩

omit h in
/-- **No term stands for more bytes than there are**, however deep its parts are. -/
theorem parsers_bounded (env : Env) (fuel : Nat) : (parsers env fuel).Bounded := by
  induction fuel with
  | zero =>
    constructor
    · exact fun _ => .halt _
    · exact fun _ => .halt _
  | succ fuel ih =>
    constructor
    · exact parseTermArg_bounded ih
    · exact parseSuperName_bounded ih

/-! ### First bytes -/

/-- The first bytes of the opcodes, in the order in which they are tried. -/
def type2Heads : List UInt8 :=
  [0x75, 0x5B, 0x5B, 0x90, 0x93, 0x94, 0x95, 0x92, 0x91, 0x87, 0x70, 0x74, 0x96, 0x98, 0x5B, 0x97,
    0x99, 0x9C, 0x72, 0x7F, 0x79, 0x7A, 0x85, 0x7B, 0x7D, 0x84, 0x73, 0x5B, 0x9D, 0x76, 0x78, 0x81,
    0x82, 0x5B, 0x5B, 0x28, 0x9E, 0x77, 0x7C, 0x7E, 0x80, 0x5B, 0x11, 0x12, 0x13, 0x8E, 0x83, 0x71,
    0x88]

omit h in
theorem type2Defs_headed : Headed type2Heads (type2Defs env inner) := by
  unfold type2Heads type2Defs
  repeat' first | exact .nil | refine .cons (fun b hb => opcode_refuses _ hb) ?_

/-- The first bytes of data, of arguments and of names. -/
def startsOperand (b : UInt8) : Bool :=
  b ∈ [0x0A, 0x0B, 0x0C, 0x0D, 0x0E, 0x01, 0xFF, 0x5B, 0x11, 0x12, 0x13] ||
    (0x68 ≤ b && b ≤ 0x6E) || startsName b

omit h in
theorem parseMethodInvocation_refuses {b : UInt8} (hb : startsName b = false) :
    Refuses b (parseMethodInvocation env inner) := by
  intro rest
  refine executing_ext fun m hstate => ?_
  rw [exec_bind, parseNameString_refuses hb, exec_executing hstate]
  rfl

section Operands

variable {b : UInt8} (hb : startsOperand b = false)

include hb

omit h in
theorem ne_of_startsOperand {op : UInt8} (hop : startsOperand op = true) : b ≠ op := by
  rintro rfl
  rw [hop] at hb
  cases hb

omit h in
theorem parseComputationalData_refuses : Refuses b (parseComputationalData inner) := by
  intro rest
  refine executing_ext fun m hstate => ?_
  show (computationalData inner (b :: rest) b).exec m = _
  unfold computationalData
  split
  case h_10 =>
    rw [parseDefBuffer, opcode_refuses _ (ne_of_startsOperand hb (by decide)) rest,
      exec_executing hstate]
  all_goals exact absurd rfl (ne_of_startsOperand hb (by decide))

omit h in
theorem parseDataObj_refuses : Refuses b (parseDataObj inner) := by
  refine selector_refuses ?_
  simp only [List.forall_mem_cons]
  exact ⟨parseComputationalData_refuses hb, opcode_refuses _ (ne_of_startsOperand hb (by decide)),
    opcode_refuses _ (ne_of_startsOperand hb (by decide)), List.forall_mem_nil _⟩

omit h in
/-- **A term that is no operand is parsed by its opcode's parser first.** -/
theorem parseTermArg_eq_drop (rest : List UInt8) :
    parseTermArg env inner (b :: rest) =
      executing (selector ((type2Defs env inner).drop (type2Heads.idxOf b) ++
        [parseMethodInvocation env inner])) (b :: rest) := by
  have harg : ¬ (0x68 ≤ b ∧ b ≤ 0x6E) := by
    simp only [startsOperand, Bool.or_eq_false_iff, Bool.and_eq_false_iff, decide_eq_false_iff_not]
      at hb
    exact not_and_or.mpr hb.1.2
  calc parseTermArg env inner (b :: rest)
      = executing (selector [parseType2Opcode env inner]) (b :: rest) := by
        rw [parseTermArg, selector_cons_refused (parseLocalObj_refuses harg),
          selector_cons_refused (parseDataObj_refuses hb),
          selector_cons_refused (parseArgObj_refuses harg)]
    _ = executing (parseType2Opcode env inner) (b :: rest) :=
        executing_ext fun m _ => exec_selector_singleton _ _ m
    _ = _ := by
        rw [parseType2Opcode, executing_executing, selector_drop_idxOf type2Defs_headed]

/-- **An operand that is read one byte too late makes the length one too short**: the parsers in
front and behind refuse the byte, so there is no other result. -/
theorem parseTermArg_late_operand {compute : AmlValue → Interp AmlValue}
    (hop : (type2Defs env inner).drop (type2Heads.idxOf b) =
      opcode b (parseUnary inner 2 1 compute) ::
        (type2Defs env inner).drop (type2Heads.idxOf b + 1))
    (hafter : b ∉ type2Heads.drop (type2Heads.idxOf b + 1)) (rest : List UInt8) :
    (parseTermArg env inner (b :: rest)).Gives fun r => r.len ≤ rest.length := by
  have hname : startsName b = false := by
    rw [startsOperand, Bool.or_eq_false_iff] at hb
    exact hb.2
  have hrefused {p : AmlParser} (hp : Refuses b p) :
      (p (b :: rest)).Gives fun r => r.len ≤ rest.length :=
    (hp.gives rest).mono fun r hr => hr.2 ▸ Nat.zero_le _
  rw [parseTermArg_eq_drop hb, hop]
  refine executing_gives (selector_gives ?_) (Nat.zero_le _)
  simp only [List.cons_append, List.forall_mem_cons, List.forall_mem_append]
  refine ⟨?_, ?_, hrefused (parseMethodInvocation_refuses hname), List.forall_mem_nil _⟩
  · refine executing_gives (.seq fun _ => .seq fun _ => ?_) (Nat.zero_le _)
    refine (parseUnary_gives h 2 1 compute _).mono fun r hr => ?_
    rw [List.length_cons] at hr
    omega
  · exact fun p hp => hrefused (Headed.refuses (List.forall₂_drop _ type2Defs_headed) hafter p hp)

end Operands

end Faastr.Aml
