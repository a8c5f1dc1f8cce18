import Faastr.Aml.Context
import Mathlib.Data.List.Forall2

/-!
The AML parser's building blocks (`acpi/aml/parsermacros.rs`, `pkglength.rs`,
`namestring.rs`).

Parsing is evaluating: a parser reads the front of its data, may change the
machine and returns a value with the number of bytes it stands for, which its
caller takes on trust. `Gives` says what a result is like whenever there is one;
`Bounded` is the case of a length that stays inside the data, and the parsers of
this module are shown to have it.
-/

namespace Faastr.Aml

/-! ### Results -/

structure AmlParseType where
  val : AmlValue
  len : Nat

abbrev AmlParser := List UInt8 → Interp AmlParseType

/-- Whenever code gives a result, `P` holds of it. -/
def Interp.Gives {α : Type} (x : Interp α) (P : α → Prop) : Prop :=
  ∀ m a m', x.exec m = .ok (.ok a, m') → P a

namespace Interp.Gives

variable {α β : Type} {x : Interp α} {f : α → Interp β} {P : α → Prop} {Q : β → Prop}

theorem any : Gives x fun _ => True := fun _ _ _ _ => trivial

theorem pure {a : α} (h : P a) : Gives (Pure.pure a) P := by
  rintro m _ m' ⟨⟩
  exact h

theorem throw (e : AmlError) : Gives (MonadExcept.throw e) P := by
  rintro m a m' ⟨⟩

theorem halt (reason : Stop) : Gives (Aml.halt reason) P := by
  rintro m a m' ⟨⟩

theorem bind (hx : Gives x P) (hf : ∀ a, P a → Gives (f a) Q) : Gives (x >>= f) Q := by
  intro m b m' h
  obtain ⟨a, m₁, hrun, hrest⟩ := exec_bind_eq_ok h
  exact hf a (hx m a m₁ hrun) m₁ b m' hrest

theorem mono {P' : α → Prop} (hx : Gives x P) (h : ∀ a, P a → P' a) : Gives x P' :=
  fun m a m' hrun => h a (hx m a m' hrun)

/-- Code whose result does not matter. -/
theorem seq (hf : ∀ a, Gives (f a) Q) : Gives (x >>= f) Q := .bind any fun a _ => hf a

theorem attempt (hx : Gives x P) : Gives (Aml.attempt x) fun r => ∀ a, r = .ok a → P a := by
  rintro m r m' h a rfl
  rw [exec_attempt] at h
  cases hrun : x.exec m with
  | error reason =>
    rw [hrun] at h
    cases h
  | ok result =>
    obtain ⟨r, m₁⟩ := result
    rw [hrun] at h
    cases h
    exact hx m a _ hrun

end Interp.Gives

/-- A result stands for no more bytes than there are. -/
def Bounded (p : AmlParser) : Prop := ∀ data, (p data).Gives fun r => r.len ≤ data.length

/-! ### Data -/

/-- `data[i]`. -/
def byteAt (data : List UInt8) (i : Nat) : Interp UInt8 :=
  match data[i]? with
  | some b => pure b
  | none => halt .panic

/-- `&data[start..stop]`. -/
def slice (data : List UInt8) (start stop : Nat) : Interp (List UInt8) :=
  if start ≤ stop ∧ stop ≤ data.length then pure ((data.take stop).drop start) else halt .panic

/-- `&data[start..]`. -/
def sliceFrom (data : List UInt8) (start : Nat) : Interp (List UInt8) :=
  if start ≤ data.length then pure (data.drop start) else halt .panic

/-- A parser at `&data[start..]`. -/
def parseAt (p : AmlParser) (data : List UInt8) (start : Nat) : Interp AmlParseType := do
  p (← sliceFrom data start)

/-- The opcode is refused unless the check holds. -/
def require (ok : Bool) : Interp Unit := if ok then pure () else throw .AmlInvalidOpCode

theorem byteAt_gives (data : List UInt8) (i : Nat) :
    (byteAt data i).Gives fun _ => i < data.length := by
  unfold byteAt
  split
  · next b hb => exact .pure (List.getElem?_eq_some_iff.mp hb).1
  · exact .halt _

theorem slice_gives (data : List UInt8) (start stop : Nat) :
    (slice data start stop).Gives fun d =>
      d.length = stop - start ∧ start ≤ stop ∧ stop ≤ data.length := by
  unfold slice
  split
  · next h =>
    refine .pure ⟨?_, h⟩
    rw [List.length_drop, List.length_take, Nat.min_eq_left h.2]
  · exact .halt _

theorem sliceFrom_gives (data : List UInt8) (start : Nat) :
    (sliceFrom data start).Gives fun d => start + d.length = data.length := by
  unfold sliceFrom
  split
  · next h =>
    refine .pure ?_
    rw [List.length_drop]
    omega
  · exact .halt _

theorem parseAt_gives {p : AmlParser} (h : Bounded p) (data : List UInt8) (start : Nat) :
    (parseAt p data start).Gives fun r => start + r.len ≤ data.length := by
  refine .bind (sliceFrom_gives data start) fun d hd => (h d).mono fun r hr => ?_
  omega

/-! ### Selecting by the first bytes -/

/-- What every parser starts with: nothing is parsed once the method has returned
or left its loop. -/
def executing (p : AmlParser) : AmlParser := fun data => do
  match (← get).ctx.state with
  | .EXECUTING => p data
  | _ => return ⟨.None, 0⟩

/-- `parser_opcode!`. -/
def opcode (op : UInt8) (p : AmlParser) : AmlParser := executing fun data => do
  require ((← byteAt data 0) == op)
  p data

/-- `parser_opcode_extended!`. -/
def opcodeExtended (op : UInt8) (p : AmlParser) : AmlParser := executing fun data => do
  require ((← byteAt data 0) == 0x5B)
  require ((← byteAt data 1) == op)
  p data

/-- `parser_selector!` and `parser_selector_simple!`: the parsers in turn, up to one that does
not refuse the opcode. -/
def selector {α : Type} : List (List UInt8 → Interp α) → List UInt8 → Interp α
  | [], _ => throw .AmlInvalidOpCode
  | p :: ps, data => do
    match ← attempt (p data) with
    | .ok r => return r
    | .error .AmlInvalidOpCode => selector ps data
    | .error e => throw e

theorem executing_gives {p : AmlParser} {data : List UInt8} {P : AmlParseType → Prop}
    (h : (p data).Gives P) (hstopped : P ⟨.None, 0⟩) : (executing p data).Gives P := by
  refine .seq fun m => ?_
  split
  · exact h
  · exact .pure hstopped

theorem executing_bounded {p : AmlParser} (h : Bounded p) : Bounded (executing p) :=
  fun data => executing_gives (h data) (Nat.zero_le _)

theorem opcode_bounded {op : UInt8} {p : AmlParser} (h : Bounded p) : Bounded (opcode op p) :=
  executing_bounded fun data => .seq fun _ => .seq fun _ => h data

theorem opcodeExtended_bounded {op : UInt8} {p : AmlParser}
    (h : ∀ data, 2 ≤ data.length → (p data).Gives fun r => r.len ≤ data.length) :
    Bounded (opcodeExtended op p) :=
  executing_bounded fun data => .seq fun _ => .seq fun _ =>
    .bind (byteAt_gives data 1) fun _ hlength => .seq fun _ => h data hlength

/-- A result of a selection is a result of one of the parsers. -/
theorem selector_gives {α : Type} {ps : List (List UInt8 → Interp α)} {data : List UInt8}
    {P : α → Prop} (h : ∀ p ∈ ps, (p data).Gives P) : (selector ps data).Gives P := by
  induction ps with
  | nil => exact .throw _
  | cons p ps ih =>
    obtain ⟨hp, hps⟩ := List.forall_mem_cons.mp h
    refine .bind (.attempt hp) fun r hr => ?_
    split
    · next a => exact .pure (hr a rfl)
    · exact ih hps
    · exact .throw _

theorem selector_bounded {ps : List AmlParser} (h : ∀ p ∈ ps, Bounded p) :
    Bounded (selector ps) := fun data => selector_gives fun p hp => h p hp data

/-! ### Refused opcodes -/

theorem exec_executing {p : AmlParser} {data : List UInt8} {m : Machine}
    (h : m.ctx.state = .EXECUTING) : (executing p data).exec m = (p data).exec m := by
  unfold executing
  rw [Interp.exec_bind_ok Interp.exec_get, h]

theorem exec_executing_stopped {p : AmlParser} {data : List UInt8} {m : Machine}
    (h : m.ctx.state ≠ .EXECUTING) :
    (executing p data).exec m = .ok (.ok ⟨.None, 0⟩, m) := by
  unfold executing
  rw [Interp.exec_bind_ok Interp.exec_get]
  split
  · next hstate => exact absurd hstate h
  · rfl

/-- Behind `executing` only a method that runs matters. -/
theorem executing_ext {p q : AmlParser} {data : List UInt8}
    (h : ∀ m : Machine, m.ctx.state = .EXECUTING → (p data).exec m = (q data).exec m) :
    executing p data = executing q data := by
  funext m
  by_cases hstate : m.ctx.state = .EXECUTING
  · exact (exec_executing hstate).trans ((h m hstate).trans (exec_executing hstate).symm)
  · exact (exec_executing_stopped hstate).trans (exec_executing_stopped hstate).symm

theorem executing_executing (p : AmlParser) (data : List UInt8) :
    executing (executing p) data = executing p data :=
  executing_ext fun _ hstate => exec_executing hstate

/-- A parser that is running refuses data with this first byte, and does nothing else. -/
def Refuses (b : UInt8) (p : AmlParser) : Prop :=
  ∀ rest, p (b :: rest) = executing (fun _ => throw .AmlInvalidOpCode) (b :: rest)

theorem Refuses.gives {b : UInt8} {p : AmlParser} (h : Refuses b p) (rest : List UInt8) :
    (p (b :: rest)).Gives fun r => r.val = .None ∧ r.len = 0 := by
  rw [h rest]
  exact executing_gives (.throw _) ⟨rfl, rfl⟩

/-- A parser that refuses leaves the selection to the others. -/
theorem exec_selector_refused {α : Type} {p : List UInt8 → Interp α} {data : List UInt8}
    {m : Machine} (h : (p data).exec m = .ok (.error .AmlInvalidOpCode, m))
    (ps : List (List UInt8 → Interp α)) :
    (selector (p :: ps) data).exec m = (selector ps data).exec m := by
  have hattempt : (attempt (p data)).exec m = .ok (.ok (.error .AmlInvalidOpCode), m) := by
    rw [Interp.exec_attempt, h]
    rfl
  exact Interp.exec_bind_ok hattempt

theorem selector_cons_refused {b : UInt8} {p : AmlParser} (h : Refuses b p)
    (ps : List AmlParser) (rest : List UInt8) :
    executing (selector (p :: ps)) (b :: rest) = executing (selector ps) (b :: rest) := by
  refine executing_ext fun m hstate => exec_selector_refused ?_ ps
  rw [h rest, exec_executing hstate]
  rfl

theorem selector_refuses {b : UInt8} {ps : List AmlParser} (h : ∀ p ∈ ps, Refuses b p) :
    Refuses b (executing (selector ps)) := by
  intro rest
  induction ps with
  | nil => rfl
  | cons p ps ih =>
    obtain ⟨hp, hps⟩ := List.forall_mem_cons.mp h
    rw [selector_cons_refused hp, ih hps]

/-- Each parser is for one first byte only. -/
abbrev Headed (heads : List UInt8) (ps : List AmlParser) : Prop :=
  List.Forall₂ (fun op p => ∀ b, b ≠ op → Refuses b p) heads ps

theorem Headed.refuses {heads : List UInt8} {ps : List AmlParser} (h : Headed heads ps)
    {b : UInt8} (hb : b ∉ heads) : ∀ p ∈ ps, Refuses b p := by
  induction h with
  | nil => exact List.forall_mem_nil _
  | cons hp _ ih =>
    rw [List.mem_cons, not_or] at hb
    exact List.forall_mem_cons.mpr ⟨hp b hb.1, ih hb.2⟩

/-- A selection begins at the parser of the first byte. -/
theorem selector_drop_idxOf {heads : List UInt8} {ps : List AmlParser} (h : Headed heads ps)
    (qs : List AmlParser) (b : UInt8) (rest : List UInt8) :
    executing (selector (ps ++ qs)) (b :: rest) =
      executing (selector (ps.drop (heads.idxOf b) ++ qs)) (b :: rest) := by
  induction h with
  | nil => rfl
  | @cons op p heads ps hp _ ih =>
    by_cases hb : b = op
    · rw [hb, List.idxOf_cons_self]
      rfl
    · rw [List.idxOf_cons_ne _ (Ne.symm hb), List.drop_succ_cons, List.cons_append,
        selector_cons_refused (hp b hb), ih]

/-- A result of the first parser is the selection's. -/
theorem exec_selector_cons {p : AmlParser} {data : List UInt8} {m m' : Machine}
    {r : AmlParseType} (h : (p data).exec m = .ok (.ok r, m')) (ps : List AmlParser) :
    (selector (p :: ps) data).exec m = .ok (.ok r, m') := by
  have hattempt : (attempt (p data)).exec m = .ok (.ok (.ok r), m') := by
    rw [Interp.exec_attempt, h]
    rfl
  exact Interp.exec_bind_ok hattempt

/-- A selection of one parser is that parser. -/
theorem exec_selector_singleton (p : AmlParser) (data : List UInt8) (m : Machine) :
    (selector [p] data).exec m = (p data).exec m := by
  unfold selector
  rw [Interp.exec_bind, Interp.exec_attempt]
  cases hrun : (p data).exec m with
  | error reason => rfl
  | ok result =>
    obtain ⟨r, m'⟩ := result
    cases r with
    | ok a => rfl
    | error e => cases e <;> rfl

/-- Code that requires what does not hold of the first byte. -/
theorem exec_require_first {α : Type} (check : UInt8 → Bool) (f : UInt8 → Unit → Interp α)
    {b : UInt8} {rest : List UInt8} {m : Machine} (hb : check b = false) :
    (byteAt (b :: rest) 0 >>= fun a => require (check a) >>= f a).exec m =
      .ok (.error .AmlInvalidOpCode, m) := by
  show (require (check b) >>= f b).exec m = _
  rw [hb]
  rfl

theorem exec_opcode {op : UInt8} {p : AmlParser} {rest : List UInt8} {m : Machine}
    (h : m.ctx.state = .EXECUTING) :
    (opcode op p (op :: rest)).exec m = (p (op :: rest)).exec m := by
  rw [opcode, exec_executing h]
  show (require (op == op) >>= fun _ => p (op :: rest)).exec m = _
  rw [beq_self_eq_true]
  rfl

theorem opcode_refuses {op b : UInt8} (p : AmlParser) (hb : b ≠ op) : Refuses b (opcode op p) :=
  fun _ => executing_ext fun _ _ =>
    exec_require_first (· == op) _ (beq_eq_false_iff_ne.mpr hb)

/-! ### Package lengths -/

/-- The bytes behind the lead byte, least significant first. -/
def pkgLengthBytes (data : List UInt8) : Nat → Nat → Interp Nat
  | _, 0 => pure 0
  | i, count + 1 => do
    let b ← byteAt data (1 + i)
    return b.toNat * 16 * 256 ^ i + (← pkgLengthBytes data (i + 1) count)

/-- `parse_pkg_length`: the length and the number of bytes it is written in. -/
def parsePkgLength (data : List UInt8) : Interp (Nat × Nat) := do
  let leadByte ← byteAt data 0
  let countBytes := (leadByte >>> 6).toNat
  if countBytes = 0 then return ((leadByte &&& 0x3F).toNat, 1)
  else if (leadByte >>> 4) &&& 0x03 ≠ 0 then throw (.AmlParseError "Invalid package length")
  else return ((leadByte &&& 0x0F).toNat + (← pkgLengthBytes data 0 countBytes), countBytes + 1)

/-- `parse_pkg_length(&data[1..])`. -/
def pkgLengthAt (data : List UInt8) : Interp (Nat × Nat) := do
  parsePkgLength (← sliceFrom data 1)

/-! ### Name strings -/

/-- A name and the number of bytes it is written in. -/
abbrev NameParser := List UInt8 → Interp (List UInt8 × Nat)

def isLeadNameChar (b : UInt8) : Bool := (0x41 ≤ b && b ≤ 0x5A) || b == 0x5F

def isNameChar (b : UInt8) : Bool :=
  (0x30 ≤ b && b ≤ 0x39) || (0x41 ≤ b && b ≤ 0x5A) || b == 0x5F

def parseNullName : NameParser := fun data => do
  require ((← byteAt data 0) == 0x00)
  return ([], 1)

/-- Four characters without the underscores at their end; nothing but
underscores is popped empty, and the look at its last character fails. -/
def parseNameSeg : NameParser := fun data => do
  let a ← byteAt data 0
  require (isLeadNameChar a)
  let b ← byteAt data 1
  require (isNameChar b)
  let c ← byteAt data 2
  require (isNameChar c)
  let d ← byteAt data 3
  require (isNameChar d)
  let nameSeg := ([a, b, c, d].reverse.dropWhile (· == 0x5F)).reverse
  if nameSeg = [] then halt .panic else return (nameSeg, 4)

def parseDualNamePath : NameParser := fun data => do
  require ((← byteAt data 0) == 0x2E)
  let (first, firstLen) ← parseNameSeg (← slice data 1 5)
  let (second, secondLen) ← parseNameSeg (← slice data 5 9)
  return (first ++ [0x2E] ++ second, 1 + firstLen + secondLen)

/-- The segments of a multi name path from one on, with a dot behind each. -/
def multiNameSegs (data : List UInt8) : Nat → Nat → Interp (List UInt8 × Nat)
  | _, 0 => pure ([], 0)
  | currentSeg, count + 1 => do
    let (seg, len) ← parseNameSeg (← sliceFrom data (currentSeg * 4 + 2))
    let (more, moreLen) ← multiNameSegs data (currentSeg + 1) count
    return (seg ++ [0x2E] ++ more, len + moreLen)

def parseMultiNamePath : NameParser := fun data => do
  require ((← byteAt data 0) == 0x2F)
  let segCount ← byteAt data 1
  if segCount = 0 then throw (.AmlParseError "MultiName Path - can't have zero name segments")
  else do
    let (characters, len) ← multiNameSegs data 0 segCount.toNat
    return (characters.dropLast, 2 + len)

/-- The root, or the carets up to a byte that is none. -/
def rootOrCarets (data : List UInt8) : Interp (List UInt8) := do
  let first ← byteAt data 0
  if first = 0x5C then return [first]
  else if first = 0x5E then do
    let carets := data.takeWhile (· == 0x5E)
    let _ ← byteAt data carets.length
    return carets
  else return []

def parseNameString : AmlParser := executing fun data => do
  let characters ← rootOrCarets data
  let (chr, len) ← selector
    [parseDualNamePath, parseMultiNamePath, parseNullName, parseNameSeg]
    (← sliceFrom data characters.length)
  match Str.fromUtf8 (characters ++ chr) with
  | some s => return ⟨.String s, len + characters.length⟩
  | none => throw (.AmlParseError "Namestring - Name is invalid")

/-! ### Bounds of names -/

/-- A name is written in no more bytes than there are. -/
def NameBounded (p : NameParser) : Prop := ∀ data, (p data).Gives fun r => r.2 ≤ data.length

theorem parseNullName_bounded : NameBounded parseNullName := fun data =>
  .bind (byteAt_gives data 0) fun _ hb => .seq fun _ => .pure hb

theorem parseNameSeg_gives (data : List UInt8) :
    (parseNameSeg data).Gives fun r => r.2 = 4 ∧ 4 ≤ data.length := by
  refine .seq fun a => .seq fun _ => .seq fun b => .seq fun _ => .seq fun c => .seq fun _ => ?_
  refine .bind (byteAt_gives data 3) fun d hd => .seq fun _ => ?_
  dsimp only
  split
  · exact .halt _
  · exact .pure ⟨rfl, hd⟩

theorem parseNameSeg_bounded : NameBounded parseNameSeg := fun data =>
  (parseNameSeg_gives data).mono fun r hr => by omega

theorem parseDualNamePath_bounded : NameBounded parseDualNamePath := by
  intro data
  refine .seq fun b => .seq fun _ => .seq fun d => .bind (parseNameSeg_gives d) fun r hr => ?_
  refine .bind (slice_gives data 5 9) fun d' hd' => .bind (parseNameSeg_gives d') fun r' hr' => ?_
  refine .pure ?_
  dsimp only
  omega

theorem multiNameSegs_gives (data : List UInt8) (currentSeg count : Nat) :
    (multiNameSegs data currentSeg count).Gives fun r =>
      r.2 = 4 * count ∧ (0 < count → currentSeg * 4 + 2 + r.2 ≤ data.length) := by
  induction count generalizing currentSeg with
  | zero => exact .pure ⟨rfl, fun h => absurd h (Nat.lt_irrefl 0)⟩
  | succ count ih =>
    refine .bind (sliceFrom_gives data _) fun d hd => .bind (parseNameSeg_gives d) fun r hr => ?_
    refine .bind (ih (currentSeg + 1)) fun r' hr' => .pure ?_
    dsimp only
    obtain ⟨hlen, hbound⟩ := hr'
    constructor
    · omega
    · intro _
      by_cases hcount : 0 < count
      · have := hbound hcount
        omega
      · omega

theorem parseMultiNamePath_bounded : NameBounded parseMultiNamePath := by
  intro data
  refine .seq fun b => .seq fun _ => .bind (byteAt_gives data 1) fun segCount hseg => ?_
  split
  · exact .throw _
  · next hne =>
    refine .bind (multiNameSegs_gives data 0 _) fun r hr => .pure ?_
    have hpos : 0 < segCount.toNat := by
      rcases Nat.eq_zero_or_pos segCount.toNat with h | h
      · exact absurd (UInt8.toNat_inj.mp h) hne
      · exact h
    have hbound := hr.2 hpos
    dsimp only
    omega

theorem parseNameString_bounded : Bounded parseNameString := by
  refine executing_bounded fun data => .seq fun characters => ?_
  have hnames : ∀ p ∈ [parseDualNamePath, parseMultiNamePath, parseNullName, parseNameSeg],
      NameBounded p := by
    simp only [List.forall_mem_cons]
    exact ⟨parseDualNamePath_bounded, parseMultiNamePath_bounded, parseNullName_bounded,
      parseNameSeg_bounded, List.forall_mem_nil _⟩
  refine .bind (sliceFrom_gives data _) fun d hd =>
    .bind (selector_gives fun p hp => hnames p hp d) fun ⟨chr, len⟩ hr => ?_
  dsimp only at hr ⊢
  split
  · refine .pure ?_
    dsimp only
    omega
  · exact .throw _

/-- The bytes that a name may begin with. -/
def startsName (b : UInt8) : Bool :=
  b == 0x5C || b == 0x5E || b == 0x2E || b == 0x2F || b == 0x00 || isLeadNameChar b

theorem parseNameString_refuses {b : UInt8} (hb : startsName b = false) :
    Refuses b parseNameString := by
  intro rest
  refine executing_ext fun m _ => ?_
  simp only [startsName, Bool.or_eq_false_iff] at hb
  obtain ⟨⟨⟨⟨⟨hroot, hcaret⟩, hdual⟩, hmulti⟩, hnull⟩, hlead⟩ := hb
  have hnone : (rootOrCarets (b :: rest)).exec m = .ok (.ok [], m) := by
    show (if b = 0x5C then _ else if b = 0x5E then _ else _ : Interp (List UInt8)).exec m = _
    rw [if_neg (beq_eq_false_iff_ne.mp hroot), if_neg (beq_eq_false_iff_ne.mp hcaret)]
    rfl
  have hdata : (sliceFrom (b :: rest) 0).exec m = .ok (.ok (b :: rest), m) := by
    rw [sliceFrom, if_pos (Nat.zero_le _)]
    rfl
  have hnames : (selector [parseDualNamePath, parseMultiNamePath, parseNullName, parseNameSeg]
      (b :: rest)).exec m = .ok (.error .AmlInvalidOpCode, m) := by
    rw [exec_selector_refused (exec_require_first (· == 0x2E) _ hdual),
      exec_selector_refused (exec_require_first (· == 0x2F) _ hmulti),
      exec_selector_refused (exec_require_first (· == 0x00) _ hnull),
      exec_selector_refused (exec_require_first isLeadNameChar _ hlead)]
    rfl
  rw [Interp.exec_bind_ok hnone, List.length_nil, Interp.exec_bind_ok hdata, Interp.exec_bind,
    hnames]
  rfl

/-! ### Arguments and locals -/

def parseArgObj : AmlParser := executing fun data => do
  let b ← byteAt data 0
  if 0x68 ≤ b ∧ b ≤ 0x6E then return ⟨.ObjectReference (.ArgObj (b - 0x68)), 1⟩
  else throw .AmlInvalidOpCode

/-- The bytes are those of the arguments, not of the locals. -/
def parseLocalObj : AmlParser := executing fun data => do
  let b ← byteAt data 0
  if 0x68 ≤ b ∧ b ≤ 0x6E then return ⟨.ObjectReference (.LocalObj (b - 0x60)), 1⟩
  else throw .AmlInvalidOpCode

theorem parseArgObj_bounded : Bounded parseArgObj := by
  refine executing_bounded fun data => .bind (byteAt_gives data 0) fun b hb => ?_
  split
  · exact .pure hb
  · exact .throw _

theorem parseLocalObj_bounded : Bounded parseLocalObj := by
  refine executing_bounded fun data => .bind (byteAt_gives data 0) fun b hb => ?_
  split
  · exact .pure hb
  · exact .throw _

theorem parseArgObj_refuses {b : UInt8} (hb : ¬ (0x68 ≤ b ∧ b ≤ 0x6E)) :
    Refuses b parseArgObj := fun rest => executing_ext fun m _ => by
  show (if 0x68 ≤ b ∧ b ≤ 0x6E then _ else _ : Interp AmlParseType).exec m = _
  rw [if_neg hb]

theorem parseLocalObj_refuses {b : UInt8} (hb : ¬ (0x68 ≤ b ∧ b ≤ 0x6E)) :
    Refuses b parseLocalObj := fun rest => executing_ext fun m _ => by
  show (if 0x68 ≤ b ∧ b ≤ 0x6E then _ else _ : Interp AmlParseType).exec m = _
  rw [if_neg hb]

def parseSimpleName : AmlParser := executing (selector [parseNameString, parseArgObj, parseLocalObj])

def parseDebugObj : AmlParser := opcodeExtended 0x31 fun _ => return ⟨.DebugObject, 2⟩

theorem parseSimpleName_bounded : Bounded parseSimpleName := by
  refine executing_bounded (selector_bounded ?_)
  simp only [List.forall_mem_cons]
  exact ⟨parseNameString_bounded, parseArgObj_bounded, parseLocalObj_bounded,
    List.forall_mem_nil _⟩

theorem parseDebugObj_bounded : Bounded parseDebugObj :=
  opcodeExtended_bounded fun _ hlength => .pure hlength

end Faastr.Aml
