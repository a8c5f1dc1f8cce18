import Faastr.Aml.Expressions

/-!
`Match` over a package of integers, strings and buffers. An integer may be one of the constants
`Zero`, `One`, `Ones` and `Revision`, which are values of a kind of their own.

The index is advanced before the tests, so that the loop leaves it behind the element it has found;
a string without an eighth byte to be cut at is not skipped; and a constant as the first operand is
not taken for an integer.

* `search_gives`: what the loop finds.
* `match_right_iff`: the answer is right when nothing is to be found, and the first operand is not a
  constant.
-/

namespace Faastr.Aml

/-! ### Questions and answers -/

/-- An integer, or one of the constants. -/
def numeral (constant : Bool) (i : UInt64) : AmlValue :=
  if constant then .IntegerConstant i else .Integer i

/-- An element of a package. -/
inductive Item
  | integer (constant : Bool) (i : UInt64)
  | string (s : Str)
  | buffer (b : List UInt8)
  deriving DecidableEq, Repr

namespace Item

def value : Item → AmlValue
  | integer constant i => numeral constant i
  | string s => .String s
  | buffer b => .Buffer b

/-- The conversion comes back: a string can be cut behind its eighth byte. -/
def Readable : Item → Prop
  | string s => (Str.splitAtByte s 8).isSome
  | _ => True

/-- The integer that an element converts to. -/
def reading (item : Item) : Option UInt64 :=
  match (item.value.getAsInteger none).run with
  | .ok (.ok i) => some i
  | _ => none

end Item

/-- Two comparisons, with their right-hand sides. -/
structure Query where
  first : MatchOpcode
  i : UInt64
  second : MatchOpcode
  j : UInt64

/-- An element converts to an integer that satisfies both comparisons. -/
def Query.meets (q : Query) (item : Item) : Bool :=
  item.reading.any fun val => q.first.holds val q.i && q.second.holds val q.j

/-- The least index from the start on at which an element is as asked for, or `Ones`. -/
def Query.answer (q : Query) (pkg : List Item) (start : Nat) : AmlValue :=
  match (pkg.drop start).findIdx? q.meets with
  | some k => .Integer (UInt64.ofNat (start + k))
  | none => .IntegerConstant 0xFFFFFFFFFFFFFFFF

/-! ### The loop -/

section Loop

variable {q : Query} {m m' : Machine}

theorem readable_iff (item : Item) :
    item.Readable ↔ ∃ r, (item.value.getAsInteger none).run = .ok r := by
  cases item with
  | integer constant i => exact iff_of_true trivial (by cases constant <;> exact ⟨_, rfl⟩)
  | buffer b =>
    refine iff_of_true trivial ?_
    show ∃ r, (AmlValue.bufferInteger b).run = .ok r
    unfold AmlValue.bufferInteger
    split
    · exact ⟨_, rfl⟩
    · exact ⟨_, rfl⟩
  | string s =>
    show (Str.splitAtByte s 8).isSome ↔ ∃ r, (AmlValue.stringInteger s).run = .ok r
    unfold AmlValue.stringInteger
    cases Str.splitAtByte s 8 with
    | none => exact iff_of_false nofun nofun
    | some cut => exact iff_of_true rfl ⟨_, rfl⟩

/-- An element is converted, whatever tables there are. -/
theorem exec_attempt_integerOf (item : Item) : (attempt (integerOf item.value)).exec m =
    (item.value.getAsInteger none).run.map fun r => (.ok r, m) := by
  have horder : item.value.getAsInteger m.acpi.sdtOrder = item.value.getAsInteger none := by
    cases item with
    | integer constant i => cases constant <;> rfl
    | string s => rfl
    | buffer b => rfl
  rw [Interp.exec_attempt, integerOf, Interp.exec_convert, horder]
  cases (item.value.getAsInteger none).run <;> rfl

variable (q) in
/-- The loop over the elements from an index on. -/
def Query.search (items : List Item) (idx : Nat) : Interp (Option Nat) :=
  matchFrom integerOf q.first q.second q.i q.j (items.map Item.value) idx

/-- One turn of the loop. -/
theorem exec_search_cons (item : Item) (items : List Item) (idx : Nat) (h : item.Readable) :
    (q.search (item :: items) idx).exec m =
      if q.meets item then .ok (.ok (some (idx + 1)), m) else (q.search items (idx + 1)).exec m := by
  obtain ⟨r, hr⟩ := (readable_iff item).mp h
  have hrun : (attempt (integerOf item.value)).exec m = .ok (.ok r, m) := by
    rw [exec_attempt_integerOf, hr]
    rfl
  rw [Query.search, List.map_cons, matchFrom, Interp.exec_bind_ok hrun, Query.meets, Item.reading, hr]
  cases r with
  | error e => rfl
  | ok val =>
    simp only [Option.any_some, Bool.and_eq_true]
    split
    · rfl
    · rfl

theorem exec_search_none {items : List Item} {idx : Nat}
    (h : ∀ item ∈ items, item.Readable ∧ q.meets item = false) :
    (q.search items idx).exec m = .ok (.ok none, m) := by
  induction items generalizing idx with
  | nil => rfl
  | cons item items ih =>
    obtain ⟨⟨hread, hmeets⟩, hitems⟩ := List.forall_mem_cons.mp h
    rw [exec_search_cons item items idx hread, hmeets]
    exact ih hitems

/-- **What the loop finds is the index behind the first element that is as asked for.** -/
theorem search_gives {items : List Item} {idx : Nat} {r : Option Nat}
    (h : (q.search items idx).exec m = .ok (.ok r, m')) :
    (r = none ∧ ∀ item ∈ items, item.Readable ∧ q.meets item = false) ∨
      ∃ k, items.findIdx? q.meets = some k ∧ r = some (idx + k + 1) := by
  induction items generalizing idx with
  | nil =>
    cases h
    exact .inl ⟨rfl, List.forall_mem_nil _⟩
  | cons item items ih =>
    have hread : item.Readable := by
      by_contra hnot
      rw [readable_iff] at hnot
      rw [Query.search, List.map_cons, matchFrom, Interp.exec_bind, exec_attempt_integerOf] at h
      cases hrun : (item.value.getAsInteger none).run with
      | ok r => exact hnot ⟨r, hrun⟩
      | error reason =>
        rw [hrun] at h
        cases h
    rw [exec_search_cons item items idx hread] at h
    rw [List.findIdx?_cons]
    cases hmeets : q.meets item with
    | true =>
      rw [hmeets] at h
      cases h
      exact .inr ⟨0, rfl, rfl⟩
    | false =>
      rw [hmeets] at h
      rcases ih h with ⟨hnone, hitems⟩ | ⟨k, hk, hr⟩
      · exact .inl ⟨hnone, List.forall_mem_cons.mpr ⟨⟨hread, hmeets⟩, hitems⟩⟩
      · refine .inr ⟨k + 1, ?_, ?_⟩
        · rw [hk]
          rfl
        · rw [hr]
          congr 1
          omega

end Loop

/-! ### The term -/

def MatchOpcode.code : MatchOpcode → UInt8
  | .MTR => 0
  | .MEQ => 1
  | .MLE => 2
  | .MLT => 3
  | .MGE => 4
  | .MGT => 5

theorem MatchOpcode.read_code (op : MatchOpcode) : read op.code = pure op := by
  cases op <;> rfl

/-- A `Match` whose operands are read: a package, two integers and a start, each of them with
whether it is a constant. -/
structure MatchTerm (inner : Parsers) (m : Machine) where
  rest : List UInt8
  pkg : List Item
  query : Query
  start : UInt64
  iConstant : Bool
  jConstant : Bool
  startConstant : Bool
  pkgLen : Nat
  iLen : Nat
  jLen : Nat
  startLen : Nat
  afterPkg : Machine
  afterI : Machine
  afterJ : Machine
  afterStart : Machine
  running : m.ctx.state = .EXECUTING
  readsPkg : (parseAt inner.termArg (0x28 :: rest) 1).exec m =
    .ok (.ok ⟨.Package (pkg.map Item.value), pkgLen⟩, afterPkg)
  firstOp : (0x28 :: rest)[1 + pkgLen]? = some query.first.code
  readsI : (parseAt inner.termArg (0x28 :: rest) (2 + pkgLen)).exec afterPkg =
    .ok (.ok ⟨numeral iConstant query.i, iLen⟩, afterI)
  secondOp : (0x28 :: rest)[2 + pkgLen + iLen]? = some query.second.code
  readsJ : (parseAt inner.termArg (0x28 :: rest) (3 + pkgLen + iLen)).exec afterI =
    .ok (.ok ⟨numeral jConstant query.j, jLen⟩, afterJ)
  readsStart : (parseAt inner.termArg (0x28 :: rest) (3 + pkgLen + iLen + jLen)).exec afterJ =
    .ok (.ok ⟨numeral startConstant start, startLen⟩, afterStart)

namespace MatchTerm

variable {inner : Parsers} {m : Machine} (t : MatchTerm inner m)

/-- The term yields the answer to its question. -/
def Right : Prop :=
  ∃ len m', (parseDefMatch inner (0x28 :: t.rest)).exec m =
    .ok (.ok ⟨t.query.answer t.pkg t.start.toNat, len⟩, m')

theorem exec_byteAt {data : List UInt8} {i : Nat} {b : UInt8} (h : data[i]? = some b) (m : Machine) :
    (byteAt data i).exec m = .ok (.ok b, m) := by
  rw [byteAt, h]
  rfl

/-- A constant is converted as the integer that it is. -/
theorem exec_integerOf_numeral (constant : Bool) (i : UInt64) (m : Machine) :
    (integerOf (numeral constant i)).exec m = .ok (.ok i, m) := by
  cases constant <;> rfl

/-- The operands are read, and the elements are compared as what the first operand is. -/
theorem exec_parseDefMatch : (parseDefMatch inner (0x28 :: t.rest)).exec m =
    (do
      let len := 3 + t.pkgLen + t.iLen + t.jLen + t.startLen
      match ← findMatch (t.pkg.map Item.value) t.query.first t.query.second
          (numeral t.iConstant t.query.i) (numeral t.jConstant t.query.j) t.start.toNat with
      | some found => return ⟨.Integer (UInt64.ofNat found), len⟩
      | none => return ⟨.IntegerConstant 0xFFFFFFFFFFFFFFFF, len⟩ : Interp AmlParseType).exec
      t.afterStart := by
  have hstart : ∀ k : UInt64 → Interp AmlParseType,
      (integerOf (numeral t.startConstant t.start) >>= k).exec t.afterStart =
        (k t.start).exec t.afterStart :=
    fun _ => Interp.exec_bind_ok (exec_integerOf_numeral _ _ _)
  rw [parseDefMatch, exec_opcode t.running, Interp.exec_bind_ok t.readsPkg,
    Interp.exec_bind_ok (exec_byteAt t.firstOp _), MatchOpcode.read_code, pure_bind,
    Interp.exec_bind_ok t.readsI, Interp.exec_bind_ok (exec_byteAt t.secondOp _),
    MatchOpcode.read_code, pure_bind, Interp.exec_bind_ok t.readsJ,
    Interp.exec_bind_ok t.readsStart]
  exact hstart _

/-- With an integer as first operand the loop is run. -/
theorem exec_findMatch (h : t.iConstant = false) :
    (findMatch (t.pkg.map Item.value) t.query.first t.query.second (numeral t.iConstant t.query.i)
      (numeral t.jConstant t.query.j) t.start.toNat).exec t.afterStart =
    (t.query.search (t.pkg.drop t.start.toNat) t.start.toNat).exec t.afterStart := by
  rw [h, Query.search, List.map_drop]
  exact Interp.exec_bind_ok (exec_integerOf_numeral _ _ _)

/-- A constant as first operand is refused. -/
theorem exec_findMatch_constant (h : t.iConstant = true) :
    (findMatch (t.pkg.map Item.value) t.query.first t.query.second (numeral t.iConstant t.query.i)
      (numeral t.jConstant t.query.j) t.start.toNat).exec t.afterStart =
    .ok (.error .AmlValueError, t.afterStart) := by
  rw [h]
  rfl

/-- **The answer is right if and only if the first operand is not a constant, every element from the
start on can be read and none of them is as asked for.** -/
theorem match_right_iff : t.Right ↔ t.iConstant = false ∧
    ∀ item ∈ t.pkg.drop t.start.toNat, item.Readable ∧ t.query.meets item = false := by
  rw [Right, exec_parseDefMatch]
  constructor
  · rintro ⟨len, m', hrun⟩
    obtain ⟨r, m₁, hfind, hrest⟩ := Interp.exec_bind_eq_ok hrun
    have hinteger : t.iConstant = false := by
      by_contra hconstant
      rw [exec_findMatch_constant t (by simpa using hconstant)] at hfind
      cases hfind
    refine ⟨hinteger, ?_⟩
    rw [exec_findMatch t hinteger] at hfind
    rcases search_gives hfind with ⟨-, hnone⟩ | ⟨k, hk, rfl⟩
    · exact hnone
    · -- The index is one more than that of the element.
      rw [Query.answer, hk] at hrest
      simp only [Interp.exec_pure, Except.ok.injEq, Prod.mk.injEq, AmlParseType.mk.injEq,
        AmlValue.Integer.injEq] at hrest
      have hnat := congrArg UInt64.toNat hrest.1.1
      simp only [UInt64.toNat_ofNat'] at hnat
      omega
  · rintro ⟨hinteger, hnone⟩
    have hanswer : t.query.answer t.pkg t.start.toNat = .IntegerConstant 0xFFFFFFFFFFFFFFFF := by
      rw [Query.answer, List.findIdx?_eq_none_iff.mpr fun item hitem => (hnone item hitem).2]
    have hfind := (exec_findMatch t hinteger).trans (exec_search_none hnone)
    rw [hanswer, Interp.exec_bind_ok hfind]
    exact ⟨_, _, rfl⟩

end MatchTerm

/-! ### A package of one number -/

/-- `Match (Package () { One, 5 }, op, 5, MTR, Zero, Zero)`. -/
def fiveTerm (op : MatchOpcode) : MatchTerm (parsers bareEnv 4) (runningMachine fun _ => 0) where
  rest := [0x12, 0x05, 0x02, 0x01, 0x0A, 0x05, op.code, 0x0A, 0x05, 0x00, 0x00, 0x00]
  pkg := [.integer true 1, .integer false 5]
  query := ⟨op, 5, .MTR, 0⟩
  start := 0
  iConstant := false
  jConstant := true
  startConstant := true
  pkgLen := 6
  iLen := 2
  jLen := 1
  startLen := 1
  afterPkg := runningMachine fun _ => 0
  afterI := runningMachine fun _ => 0
  afterJ := runningMachine fun _ => 0
  afterStart := runningMachine fun _ => 0
  running := rfl
  readsPkg := rfl
  firstOp := rfl
  readsI := rfl
  secondOp := rfl
  readsJ := rfl
  readsStart := rfl

theorem nothing_above_five : (fiveTerm .MGT).Right := by
  refine (MatchTerm.match_right_iff (fiveTerm .MGT)).mpr ⟨rfl, ?_⟩
  show ∀ item ∈ [Item.integer true 1, .integer false 5],
    item.Readable ∧ (fiveTerm .MGT).query.meets item = false
  exact List.forall_mem_cons.mpr ⟨⟨trivial, by decide⟩, List.forall_mem_singleton.mpr ⟨trivial, by decide⟩⟩

/-- **Five is found at one, and the answer is two.** -/
theorem five_found_behind : (fiveTerm .MEQ).query.answer (fiveTerm .MEQ).pkg 0 = .Integer 1 ∧
    (parseDefMatch (parsers bareEnv 4) (0x28 :: (fiveTerm .MEQ).rest)).exec
      (runningMachine fun _ => 0) = .ok (.ok ⟨.Integer 2, 13⟩, runningMachine fun _ => 0) :=
  ⟨rfl, rfl⟩

end Faastr.Aml
